import HybridTable.Error
import HybridTable.Proofs.Comparisons
import Mathlib.Logic.Equiv.Basic

/-! Sorting by a strict weak order. While a value is moved down, the positions are in the order of a
heap except below that value; at the start of a drain they are in that order everywhere, and
whatever has been taken out stands behind them, in order. -/
namespace HybridTable.Sort

variable {α σ ε : Type} {n first last root : Nat}

/-- A strict weak order on certain values: a test that is irreflexive and transitive, and for which
being incomparable is transitive too. -/
structure StrictWeakOn (lt : α → α → Bool) (among : α → Prop) : Prop where
  irrefl : ∀ a, among a → lt a a = false
  trans : ∀ a b c, among a → among b → among c → lt a b = true → lt b c = true → lt a c = true
  incomparable : ∀ a b c, among a → among b → among c → lt a b = false → lt b a = false →
    lt b c = false → lt c b = false → lt a c = false ∧ lt c a = false

/-- A comparison that never fails, and whose answers about certain values are those of a test. -/
def Answers (less : Comparison α σ ε) (lt : α → α → Bool) (among : α → Prop) : Prop :=
  ∀ left right s, among left → among right → (less left right s).1 = .ok (lt left right)

theorem Answers.eq {less : Comparison α σ ε} {lt : α → α → Bool} {among : α → Prop}
    (answers : Answers less lt among) {left right : α} (left_known : among left)
    (right_known : among right) (s : σ) :
    less left right s = (.ok (lt left right), (less left right s).2) :=
  Prod.ext (answers left right s left_known right_known) rfl

namespace StrictWeakOn

variable {lt : α → α → Bool} {among : α → Prop} (order : StrictWeakOn lt among)
include order

theorem asymm {a b : α} (ha : among a) (hb : among b) (before : lt a b = true) :
    lt b a = false := by
  cases after : lt b a with
  | false => rfl
  | true => exact (order.trans a b a ha hb ha before after).symm.trans (order.irrefl a ha)

/-- Not to belong before another value is transitive. -/
theorem not_before_trans {a b c : α} (ha : among a) (hb : among b) (hc : among c)
    (first : lt a b = false) (next : lt b c = false) : lt a c = false := by
  cases before : lt a c with
  | false => rfl
  | true =>
    -- the middle value is then level with both others, so that they are level, too
    have level : lt b a = false := by
      cases above : lt b a with
      | false => rfl
      | true => exact (order.trans b a c hb ha hc above before).symm.trans next
    have level' : lt c b = false := by
      cases above : lt c b with
      | false => rfl
      | true => exact (order.trans a c b ha hc hb before above).symm.trans first
    exact before.symm.trans (order.incomparable a b c ha hb hc first level next level').1

end StrictWeakOn

/-! ## Positions in order -/

/-- The value at one position does not belong before the one at another. -/
def NotBefore (lt : α → α → Bool) (values : Vector α n) (i j : Nat) : Prop :=
  ∀ (_ : i < n) (_ : j < n), lt values[i] values[j] = false

/-- One of the two positions below another. -/
def IsChild (child parent : Nat) : Prop := child = parent * 2 + 1 ∨ child = parent * 2 + 2

/-- The positions from `first` to `last` are in the order of a heap: nothing belongs before what is
below it. -/
def Heaped (lt : α → α → Bool) (first last : Nat) (values : Vector α n) : Prop :=
  ∀ parent child, first ≤ parent → IsChild child parent → child ≤ last →
    NotBefore lt values parent child

/-- The order of a heap but for one value, which may belong before those below it. -/
structure Sifting (lt : α → α → Bool) (first last root : Nat) (values : Vector α n) : Prop where
  except : ∀ parent child, first ≤ parent → IsChild child parent → child ≤ last →
    parent ≠ root → NotBefore lt values parent child
  grand : ∀ parent child, first ≤ parent → IsChild root parent → IsChild child root →
    child ≤ last → NotBefore lt values parent child

theorem IsChild.lt {child parent : Nat} (h : IsChild child parent) : parent < child := by
  unfold IsChild at h
  omega

theorem IsChild.unique {child parent other : Nat} (h : IsChild child parent)
    (h' : IsChild child other) : parent = other := by
  unfold IsChild at h h'
  omega

theorem notBefore_swap {lt : α → α → Bool} {values : Vector α n} {a b i j : Nat} (ha : a < n)
    (hb : b < n) (holds : NotBefore lt values (Equiv.swap a b i) (Equiv.swap a b j)) :
    NotBefore lt (values.swap a b) i j := by
  intro hi hj
  have moved {k : Nat} (hk : k < n) : ∃ within : Equiv.swap a b k < n,
      (values.swap a b)[k] = values[Equiv.swap a b k] := by
    rw [Vector.getElem_swap]
    split
    · subst k
      exact ⟨by simpa using hb, by simp⟩
    · split
      · subst k
        exact ⟨by simpa using ha, by simp⟩
      · have fixed := Equiv.swap_apply_of_ne_of_ne ‹k ≠ a› ‹k ≠ b›
        exact ⟨by omega, by simp only [fixed]⟩
  obtain ⟨hi', same⟩ := moved hi
  obtain ⟨hj', same'⟩ := moved hj
  rw [same, same']
  exact holds hi' hj'

namespace Sifting

variable {lt : α → α → Bool} {values : Vector α n} (sifting : Sifting lt first last root values)
include sifting

/-- A value with nothing before it below is at its place. -/
theorem finish (settled : ∀ child, IsChild child root → child ≤ last →
    NotBefore lt values root child) : Heaped lt first last values := by
  intro parent child from_first below inside
  by_cases moving : parent = root
  · subst moving
    exact settled child below inside
  · exact sifting.except parent child from_first below inside moving

/-- A value goes down to where the later of its children was. -/
theorem move {child : Nat} (below : IsChild child root) (inside : last < n) (ends : child ≤ last)
    (later : ∀ other, IsChild other root → other ≤ last → NotBefore lt values child other)
    (swapped : NotBefore lt values child root) :
    Sifting lt first last child
      (values.swap root child (by have := below.lt; omega) (by omega)) where
  except parent other from_first under within apart := by
    have deeper := below.lt
    have order := under.lt
    apply notBefore_swap
    by_cases top : parent = root
    · subst top
      rw [Equiv.swap_apply_left]
      by_cases same : other = child
      · rw [same, Equiv.swap_apply_right]
        exact swapped
      · rw [Equiv.swap_apply_of_ne_of_ne (by omega) same]
        exact later other under within
    · rw [Equiv.swap_apply_of_ne_of_ne top apart]
      by_cases above : other = root
      · subst above
        rw [Equiv.swap_apply_left]
        exact sifting.grand parent child from_first under below ends
      · have other_ne : other ≠ child := fun same => top (under.unique (same ▸ below))
        rw [Equiv.swap_apply_of_ne_of_ne above other_ne]
        exact sifting.except parent other from_first under within top
  grand parent other from_first upper under within := by
    obtain rfl := upper.unique below
    have deeper := below.lt
    have deepest := under.lt
    apply notBefore_swap
    rw [Equiv.swap_apply_left, Equiv.swap_apply_of_ne_of_ne (by omega) (by omega)]
    exact sifting.except child other (by omega) under within (by omega)

end Sifting

/-! ## Moving one value down -/

/-- The values past a position are where they were, and no others are before it than were. -/
def Rearranged (last : Nat) (after before : Vector α n) : Prop :=
  ∀ (i : Nat) (_ : i < n), ∃ (j : Nat) (_ : j < n),
    (i ≤ last → j ≤ last) ∧ (last < i → j = i) ∧ after[i] = before[j]

theorem Rearranged.refl (values : Vector α n) : Rearranged last values values :=
  fun i hi => ⟨i, hi, id, fun _ => rfl, rfl⟩

theorem Rearranged.trans {after between before : Vector α n}
    (next : Rearranged last after between) (first : Rearranged last between before) :
    Rearranged last after before := by
  intro i hi
  obtain ⟨j, hj, within, beyond, same⟩ := next i hi
  obtain ⟨k, hk, within', beyond', same'⟩ := first j hj
  refine ⟨k, hk, within' ∘ within, fun past => ?_, same.trans same'⟩
  rw [beyond' (by rw [beyond past]; exact past), beyond past]

theorem Rearranged.swap (values : Vector α n) {a b : Nat} (ha : a ≤ last) (hb : b ≤ last)
    (inside : last < n) :
    Rearranged last (values.swap a b (by omega) (by omega)) values := by
  intro i hi
  rw [Vector.getElem_swap]
  split
  · exact ⟨b, by omega, fun _ => hb, by omega, rfl⟩
  · split
    · exact ⟨a, by omega, fun _ => ha, by omega, rfl⟩
    · exact ⟨i, hi, id, fun _ => rfl, rfl⟩

theorem siftDown_rearranged (less : Comparison α σ ε) (inside : last < n) (root : Nat)
    (values : Vector α n) (s : σ) :
    Rearranged last (siftDown less inside root values s).values values := by
  unfold siftDown
  split
  · split
    · exact .refl _
    · split
      · exact .refl _
      · exact .refl _
      · exact .trans (siftDown_rearranged _ _ _ _ _) (.swap values (by omega) (by omega) inside)
  · exact .refl _
termination_by last - root

section
variable {lt : α → α → Bool} {among : α → Prop} {less : Comparison α σ ε} {values : Vector α n}
  (order : StrictWeakOn lt among) (answers : Answers less lt among)
include order answers

/-- Of two children, that is found which does not belong before the other. -/
theorem laterChild_later (inside : last < n) (below : root * 2 < last) (s : σ)
    (known : ∀ v ∈ values, among v) : ∃ child bounds s',
    laterChild less inside root below values s = (.ok ⟨child, bounds⟩, s') ∧
      IsChild child root ∧ ∀ other, IsChild other root → other ≤ last →
        NotBefore lt values child other := by
  have at_itself (i : Nat) : NotBefore lt values i i :=
    fun _ _ => order.irrefl _ (known _ (by simp))
  unfold laterChild
  split
  · have left_known := known values[root * 2 + 1] (by simp)
    have right_known := known values[root * 2 + 2] (by simp)
    rw [answers.eq left_known right_known]
    cases earlier : lt values[root * 2 + 1] values[root * 2 + 2] with
    | true =>
      refine ⟨root * 2 + 2, by omega, _, rfl, .inr rfl, fun other under _ => ?_⟩
      rcases under with rfl | rfl
      · exact fun _ _ => order.asymm left_known right_known earlier
      · exact at_itself _
    | false =>
      refine ⟨root * 2 + 1, by omega, _, rfl, .inl rfl, fun other under _ => ?_⟩
      rcases under with rfl | rfl
      · exact at_itself _
      · exact fun _ _ => earlier
  · refine ⟨root * 2 + 1, by omega, s, rfl, .inl rfl, fun other under _ => ?_⟩
    rcases under with rfl | rfl
    · exact at_itself _
    · omega

/-- Moving a value down ends with a heap. -/
theorem siftDown_heaps (inside : last < n) (root : Nat) (values : Vector α n) (s : σ)
    (known : ∀ v ∈ values, among v)
    (sifting : Sifting lt first last root values) :
    (siftDown less inside root values s).verdict = .ok () ∧
      Heaped lt first last (siftDown less inside root values s).values := by
  unfold siftDown
  split
  · rename_i below
    obtain ⟨child, ⟨deeper, ends⟩, s', found, under, later⟩ :=
      laterChild_later order answers inside below s known
    have root_known := known values[root] (by simp)
    have child_known := known values[child] (by simp)
    rw [found]
    dsimp only
    rw [answers.eq root_known child_known]
    cases before : lt values[root] values[child] with
    | false =>
      refine ⟨rfl, sifting.finish fun other under' within _ _ => ?_⟩
      exact order.not_before_trans root_known child_known (known _ (by simp)) before
        (later other under' within (by omega) (by omega))
    | true =>
      apply siftDown_heaps inside child
      · exact fun v member => known v ((Vector.swap_perm ..).mem_iff.mp member)
      · exact sifting.move under inside ends later
          fun _ _ => order.asymm root_known child_known before
  · refine ⟨rfl, sifting.finish fun child under ends => ?_⟩
    unfold IsChild at under
    omega
termination_by last - root

/-- Moving down every value, the last one first, makes a heap. -/
theorem buildHeap_heaps (inside : last < n) (roots : Nat) (values : Vector α n) (s : σ)
    (known : ∀ v ∈ values, among v) (heaped : Heaped lt roots last values) :
    (buildHeap less inside roots values s).verdict = .ok () ∧
      Heaped lt 0 last (buildHeap less inside roots values s).values := by
  induction roots generalizing values s with
  | zero => exact ⟨rfl, heaped⟩
  | succ root ih =>
    have sifting : Sifting lt root last root values := by
      constructor
      · exact fun parent child from_root under ends apart =>
          heaped parent child (by omega) under ends
      · exact fun parent child from_root upper =>
          absurd upper.lt (by omega)
    have sifted := siftDown_heaps order answers inside root values s known sifting
    have perm := siftDown_perm less inside root values s
    unfold buildHeap
    rcases done : siftDown less inside root values s with ⟨verdict, values', s'⟩
    rw [done] at sifted perm
    obtain ⟨rfl, heaped'⟩ := sifted
    exact ih values' s' (fun v member => known v (perm.mem_iff.mp member)) heaped'

end

/-! ## Taking values out -/

/-- What stands past a position belongs before nothing that stands before it. -/
def Behind (lt : α → α → Bool) (last : Nat) (values : Vector α n) : Prop :=
  ∀ i j, i < j → last < j → NotBefore lt values j i

/-- What stands behind a heap is not affected by moves within the heap. -/
theorem Behind.rearranged {lt : α → α → Bool} {after before : Vector α n}
    (behind : Behind lt last before) (moved : Rearranged last after before) :
    Behind lt last after := by
  intro i j earlier past hj hi
  obtain ⟨i', hi', within, beyond, same⟩ := moved i hi
  obtain ⟨j', hj', _, beyond', same'⟩ := moved j hj
  obtain rfl := beyond' past
  rw [same, same']
  refine behind i' j' ?_ past hj' hi'
  by_cases inside : i ≤ last
  · exact Nat.lt_of_le_of_lt (within inside) past
  · rw [beyond (by omega)]
    exact earlier

section
variable {lt : α → α → Bool} {among : α → Prop} {less : Comparison α σ ε} {values : Vector α n}
  (order : StrictWeakOn lt among)
include order

/-- The first value of a heap belongs before none of it. -/
theorem Heaped.top (heaped : Heaped lt 0 last values) (known : ∀ v ∈ values, among v)
    (position : Nat) (inside : position ≤ last) : NotBefore lt values 0 position := by
  induction position using Nat.strong_induction_on with
  | h position ih =>
    intro _ _
    rcases position.eq_zero_or_pos with rfl | below
    · exact order.irrefl _ (known _ (by simp))
    · have under : IsChild position ((position - 1) / 2) := by
        unfold IsChild
        omega
      have above := under.lt
      exact order.not_before_trans (known _ (by simp)) (known values[(position - 1) / 2] (by simp))
        (known _ (by simp)) (ih _ above (by omega) (by omega) (by omega))
        (heaped _ _ (Nat.zero_le _) under inside (by omega) (by omega))

/-- The first value of a heap may be put behind all the others. -/
theorem Behind.take (inside : last + 1 < n) (behind : Behind lt (last + 1) values)
    (heaped : Heaped lt 0 (last + 1) values) (known : ∀ v ∈ values, among v) :
    Behind lt last (values.swap (last + 1) 0 inside (Nat.zero_lt_of_lt inside)) := by
  intro i j earlier past
  apply notBefore_swap
  by_cases taken : j = last + 1
  · subst taken
    rw [Equiv.swap_apply_left]
    apply heaped.top order known
    rw [Equiv.swap_apply_def]
    split <;> [omega; split <;> omega]
  · rw [Equiv.swap_apply_of_ne_of_ne taken (by omega)]
    apply behind _ _ _ (by omega)
    rw [Equiv.swap_apply_def]
    split <;> [omega; split <;> omega]

omit order in
/-- With the last value in the place of the first, only that one can be in the wrong place. -/
theorem Heaped.take (inside : last + 1 < n) (heaped : Heaped lt 0 (last + 1) values) :
    Sifting lt 0 last 0 (values.swap (last + 1) 0 inside (Nat.zero_lt_of_lt inside)) := by
  constructor
  · intro parent child from_first under ends apart
    have := under.lt
    apply notBefore_swap
    rw [Equiv.swap_apply_of_ne_of_ne (by omega) apart,
      Equiv.swap_apply_of_ne_of_ne (by omega) (by omega)]
    exact heaped parent child from_first under (by omega)
  · exact fun parent child from_first upper => absurd upper.lt (by omega)

variable (answers : Answers less lt among)
include answers

/-- Taking values out of a heap, one after another, puts them in order. -/
theorem drainHeap_sorts (inside : last < n) (values : Vector α n) (s : σ)
    (known : ∀ v ∈ values, among v) (heaped : Heaped lt 0 last values)
    (behind : Behind lt last values) :
    (drainHeap less last inside values s).verdict = .ok () ∧
      Behind lt 0 (drainHeap less last inside values s).values := by
  induction last generalizing values s with
  | zero => exact ⟨rfl, behind⟩
  | succ last ih =>
    have within : last < n := Nat.lt_of_succ_lt inside
    have known' : ∀ v ∈ values.swap (last + 1) 0, among v :=
      fun v member => known v ((Vector.swap_perm ..).mem_iff.mp member)
    have sifted := siftDown_heaps order answers within 0 _ s known' (heaped.take inside)
    have moved := (behind.take order inside heaped known).rearranged
      (siftDown_rearranged less within 0 _ s)
    have perm := siftDown_perm less within 0 (values.swap (last + 1) 0) s
    unfold drainHeap
    rcases done : siftDown less within 0 (values.swap (last + 1) 0) s with ⟨verdict, values', s'⟩
    rw [done] at sifted moved perm
    obtain ⟨rfl, heaped'⟩ := sifted
    exact ih within values' s' (fun v member => known' v (perm.mem_iff.mp member)) heaped' moved

/-- A sort by a strict weak order succeeds and puts the values in order. -/
theorem heapSort_sorts (values : Vector α n) (s : σ) (known : ∀ v ∈ values, among v) :
    (heapSort less values s).verdict = .ok () ∧ Behind lt 0 (heapSort less values s).values := by
  unfold heapSort
  split
  · rename_i several
    have inside : n - 1 < n := by omega
    have leaves : Heaped lt (n / 2) (n - 1) values := by
      intro parent child from_middle under ends
      unfold IsChild at under
      omega
    have built := buildHeap_heaps order answers inside (n / 2) values s known leaves
    have perm := buildHeap_perm less inside (n / 2) values s
    dsimp only
    rcases done : buildHeap less inside (n / 2) values s with ⟨verdict, values', s'⟩
    rw [done] at built perm
    obtain ⟨rfl, heaped⟩ := built
    have still_known : ∀ v ∈ values', among v := fun v member => known v (perm.mem_iff.mp member)
    exact drainHeap_sorts order answers inside values' s' still_known heaped
      fun i j earlier past => fun hj => absurd hj (by omega)
  · exact ⟨rfl, fun i j earlier past => fun hj => absurd hj (by omega)⟩

end

end HybridTable.Sort

namespace HybridTable

open HybridTable.Sort

/-! ## What a sort does -/

variable {α σ ε : Type} {n : Nat}

/-- Whatever its comparison answers, from whatever state of its own, a sort ends after at most
`3 n log n` questions about the values of its list and leaves these values in some order. The
record shows whether it was stopped: a failure that it reports is the answer to its last question,
and the only failure there was. By a strict weak order the sort succeeds, and then no value belongs
before one that stands before it. -/
theorem heapSort_stops_or_sorts (less : Comparison α σ ε) (values : Vector α n) (s : σ) :
    let out := heapSort (recorded less) values (s, [])
    heapSort less values s = out.seen Prod.fst ∧
      out.values.Perm values ∧
      out.state.2.length ≤ 3 * n * Nat.log 2 n ∧
      (∀ q ∈ out.state.2, q.left ∈ values ∧ q.right ∈ values) ∧
      Conclusive out.verdict out.state.2 ∧
      ∀ lt, StrictWeakOn lt (· ∈ values) → Answers less lt (· ∈ values) →
        out.verdict = .ok () ∧
          ∀ i j (_ : i < j) (_ : j < n), lt out.values[j] out.values[i] = false := by
  intro out
  obtain ⟨asked, record, few, conclusive, about⟩ := heapSort_asks less values (s, [])
  replace record : out.state.2 = asked := by simpa using record
  refine ⟨heapSort_seen Prod.fst (fun _ _ _ => rfl) values (s, []), heapSort_perm .., record ▸ few,
    record ▸ about, record ▸ conclusive, fun lt order answers => ?_⟩
  have recorded_answers : Answers (recorded less) lt (· ∈ values) :=
    fun left right s => answers left right s.1
  obtain ⟨completed, sorted⟩ :=
    heapSort_sorts order recorded_answers values (s, []) fun _ member => member
  exact ⟨completed, fun i j earlier inside => sorted i j earlier (by omega) inside (by omega)⟩

/-- Eight numbers are sorted by a comparison that counts its calls. -/
theorem heapSort_eight_numbers :
    let values : Vector Nat 8 := #v[5, 3, 9, 1, 1, 7, 0, 2]
    let counting : Comparison Nat Nat Error := fun a b calls => (.ok (decide (a < b)), calls + 1)
    StrictWeakOn (fun a b : Nat => decide (a < b)) (· ∈ values) ∧
      Answers counting (fun a b => decide (a < b)) (· ∈ values) ∧
      (heapSort counting values 0).values = #v[0, 1, 1, 2, 3, 5, 7, 9] ∧
      ∀ i j (_ : i < j) (_ : j < 8), decide ((heapSort counting values 0).values[j] <
        (heapSort counting values 0).values[i]) = false := by
  intro values counting
  have order : StrictWeakOn (fun a b : Nat => decide (a < b)) (· ∈ values) := by
    constructor <;> simp <;> omega
  have answers : Answers counting (fun a b => decide (a < b)) (· ∈ values) :=
    fun _ _ _ _ _ => rfl
  obtain ⟨same, _, _, _, _, sorts⟩ := heapSort_stops_or_sorts counting values 0
  refine ⟨order, answers, by decide +kernel, ?_⟩
  rw [same]
  exact (sorts _ order answers).2

end HybridTable
