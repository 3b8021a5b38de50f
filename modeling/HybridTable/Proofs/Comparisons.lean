import HybridTable.Proofs.Sorting
import Mathlib.Data.Nat.Log

/-! What a sort asks of its comparison. A comparison may answer anything and may keep a state of its
own, so nothing is assumed of it here; it is only made to keep a record of its questions. The record
shows that a failure is the last answer that a sort hears, that all questions are about values of
the list, and that there are not many of them. -/
namespace HybridTable.Sort

variable {α σ τ ε : Type} {n last : Nat}

/-- A question that was put to a comparison, and its answer. -/
structure Asked (α ε : Type) where
  /-- The value that may belong before the other. -/
  left : α
  /-- The other value. -/
  right : α
  /-- What the comparison said. -/
  answer : Except ε Bool

/-- Being answered by a yes or a no. -/
def Asked.Settled (q : Asked α ε) : Prop := ∃ b, q.answer = .ok b

/-- The comparison with a record of all questions beside its own state, the last question first. -/
def recorded (less : Comparison α σ ε) : Comparison α (σ × List (Asked α ε)) ε :=
  fun left right s =>
    let (answer, own) := less left right s.1
    (answer, own, ⟨left, right, answer⟩ :: s.2)

/-- The same outcome, of whose state only a part is seen. -/
def Outcome.seen (view : τ → σ) (out : Outcome α τ ε n) : Outcome α σ ε n :=
  ⟨out.verdict, out.values, view out.state⟩

/-! ## The record does not interfere -/

section
variable {less : Comparison α σ ε} {less' : Comparison α τ ε} (view : τ → σ)
  (same : ∀ left right s, less left right (view s) =
    ((less' left right s).1, view (less' left right s).2))
include same

theorem laterChild_seen (inside : last < n) (root : Nat) (below : root * 2 < last)
    (values : Vector α n) (s : τ) : laterChild less inside root below values (view s) =
      ((laterChild less' inside root below values s).1,
        view (laterChild less' inside root below values s).2) := by
  unfold laterChild
  split
  · rw [same]
    rcases less' _ _ s with ⟨answer | answer, s'⟩
    · rfl
    · cases answer <;> rfl
  · rfl

theorem siftDown_seen (inside : last < n) (root : Nat) (values : Vector α n) (s : τ) :
    siftDown less inside root values (view s) =
      (siftDown less' inside root values s).seen view := by
  unfold siftDown
  split
  · rename_i below
    rw [laterChild_seen view same]
    rcases laterChild less' inside root below values s with ⟨failed | ⟨child, deeper, _⟩, s'⟩
    · rfl
    · dsimp only
      rw [same]
      rcases less' values[root] values[child] s' with ⟨failed | answer, s''⟩
      · rfl
      · cases answer
        · rfl
        · exact siftDown_seen inside child (values.swap root child) s''
  · rfl
termination_by last - root

theorem buildHeap_seen (inside : last < n) (roots : Nat) (values : Vector α n) (s : τ) :
    buildHeap less inside roots values (view s) =
      (buildHeap less' inside roots values s).seen view := by
  induction roots generalizing values s with
  | zero => rfl
  | succ root ih =>
    unfold buildHeap
    rw [siftDown_seen view same]
    rcases siftDown less' inside root values s with ⟨failed | _, values', s'⟩
    · rfl
    · exact ih values' s'

theorem drainHeap_seen (inside : last < n) (values : Vector α n) (s : τ) :
    drainHeap less last inside values (view s) =
      (drainHeap less' last inside values s).seen view := by
  induction last generalizing values s with
  | zero => rfl
  | succ last ih =>
    unfold drainHeap
    rw [siftDown_seen view same]
    rcases siftDown less' (Nat.lt_of_succ_lt inside) 0 (values.swap (last + 1) 0) s with
      ⟨failed | _, values', s'⟩
    · rfl
    · exact ih _ values' s'

/-- A sort depends on no more of the state than its comparison does. -/
theorem heapSort_seen (values : Vector α n) (s : τ) :
    heapSort less values (view s) = (heapSort less' values s).seen view := by
  unfold heapSort
  split
  · dsimp only
    rw [buildHeap_seen view same]
    rcases buildHeap less' _ (n / 2) values s with ⟨failed | _, values', s'⟩
    · rfl
    · exact drainHeap_seen view same _ values' s'
  · rfl

end

/-! ## What all comparisons keep -/

section
variable {less : Comparison α σ ε} {among : α → Prop} {Kept : σ → Prop}
  (keeps : ∀ left right s, among left → among right → Kept s → Kept (less left right s).2)
include keeps

theorem laterChild_keeps (inside : last < n) (root : Nat) (below : root * 2 < last)
    (values : Vector α n) (s : σ) (known : ∀ v ∈ values, among v) (kept : Kept s) :
    Kept (laterChild less inside root below values s).2 := by
  unfold laterChild
  split
  · have asked := keeps values[root * 2 + 1] values[root * 2 + 2] s
      (known _ (by simp)) (known _ (by simp)) kept
    split <;> rename_i answered <;> rwa [answered] at asked
  · exact kept

theorem siftDown_keeps (inside : last < n) (root : Nat) (values : Vector α n) (s : σ)
    (known : ∀ v ∈ values, among v) (kept : Kept s) :
    Kept (siftDown less inside root values s).state := by
  unfold siftDown
  split
  · rename_i below
    have chosen := laterChild_keeps keeps inside root below values s known kept
    split
    · rename_i failed
      rwa [failed] at chosen
    · rename_i child deeper ends s' found
      rw [found] at chosen
      have compared := keeps values[root] values[child] s' (known _ (by simp)) (known _ (by simp))
        chosen
      split <;> rename_i answered <;> rw [answered] at compared
      · exact compared
      · exact compared
      · exact siftDown_keeps inside child _ _
          (fun v member => known v ((Vector.swap_perm ..).mem_iff.mp member)) compared
  · exact kept
termination_by last - root

theorem buildHeap_keeps (inside : last < n) (roots : Nat) (values : Vector α n) (s : σ)
    (known : ∀ v ∈ values, among v) (kept : Kept s) :
    Kept (buildHeap less inside roots values s).state := by
  induction roots generalizing values s with
  | zero => exact kept
  | succ root ih =>
    have sifted := siftDown_keeps keeps inside root values s known kept
    have perm := siftDown_perm less inside root values s
    unfold buildHeap
    split
    · rename_i values' s' done
      rw [done] at sifted perm
      exact ih values' s' (fun v member => known v (perm.mem_iff.mp member)) sifted
    · exact sifted

theorem drainHeap_keeps (inside : last < n) (values : Vector α n) (s : σ)
    (known : ∀ v ∈ values, among v) (kept : Kept s) :
    Kept (drainHeap less last inside values s).state := by
  induction last generalizing values s with
  | zero => exact kept
  | succ last ih =>
    have within : last < n := Nat.lt_of_succ_lt inside
    have known' : ∀ v ∈ values.swap (last + 1) 0, among v :=
      fun v member => known v ((Vector.swap_perm ..).mem_iff.mp member)
    have sifted := siftDown_keeps keeps within 0 _ s known' kept
    have perm := siftDown_perm less within 0 (values.swap (last + 1) 0) s
    unfold drainHeap
    split
    · rename_i values' s' done
      rw [done] at sifted perm
      exact ih within values' s' (fun v member => known' v (perm.mem_iff.mp member)) sifted
    · exact sifted

/-- What every comparison of values of the list keeps, a sort keeps, also when it fails. -/
theorem heapSort_keeps (values : Vector α n) (s : σ) (known : ∀ v ∈ values, among v)
    (kept : Kept s) : Kept (heapSort less values s).state := by
  unfold heapSort
  split
  · rename_i several
    have inside : n - 1 < n := by omega
    have built := buildHeap_keeps keeps inside (n / 2) values s known kept
    have perm := buildHeap_perm less inside (n / 2) values s
    dsimp only
    split
    · rename_i values' s' done
      rw [done] at built perm
      exact drainHeap_keeps keeps inside values' s'
        (fun v member => known v (perm.mem_iff.mp member)) built
    · exact built
  · exact kept

end

/-! ## Failures end a sort -/

/-- A verdict that its questions bear out: all of them were answered, or the last one failed, with
the failure that is reported, and all before it were answered. -/
def Conclusive {β : Type} : Except ε β → List (Asked α ε) → Prop
  | .ok _, asked => ∀ q ∈ asked, q.Settled
  | .error e, asked => ∃ q earlier, asked = q :: earlier ∧ q.answer = .error e ∧
      ∀ q ∈ earlier, q.Settled

/-- A part of a sort asks no more than so many questions, all about certain values, and ends with a
verdict that they bear out. -/
def Asks {β : Type} (among : α → Prop) (limit : Nat) (verdict : Except ε β)
    (before after : List (Asked α ε)) : Prop :=
  ∃ asked, after = asked ++ before ∧ asked.length ≤ limit ∧ Conclusive verdict asked ∧
    ∀ q ∈ asked, among q.left ∧ among q.right

variable {β γ : Type} {among : α → Prop} {limit more : Nat}
  {before between after : List (Asked α ε)}

theorem Asks.nothing (b : β) : Asks among limit (.ok b : Except ε β) before before :=
  ⟨[], rfl, Nat.zero_le _, nofun, nofun⟩

theorem Asks.weaken {verdict : Except ε β} (asks : Asks among limit verdict before after)
    (enough : limit ≤ more) : Asks among more verdict before after := by
  obtain ⟨asked, same, few, rest⟩ := asks
  exact ⟨asked, same, few.trans enough, rest⟩

/-- Only the verdict of the last part can be a failure. -/
theorem Asks.andThen {b : β} {verdict : Except ε γ}
    (first : Asks among limit (.ok b) before between)
    (next : Asks among more verdict between after) :
    Asks among (limit + more) verdict before after := by
  obtain ⟨asked, rfl, few, settled, known⟩ := first
  obtain ⟨later, rfl, fewer, conclusive, alike⟩ := next
  refine ⟨later ++ asked, (List.append_assoc ..).symm, ?_, ?_, ?_⟩
  · rw [List.length_append]
    omega
  · cases verdict with
    | ok c => exact fun q member => (List.mem_append.mp member).elim (conclusive q) (settled q)
    | error e =>
      obtain ⟨q, earlier, rfl, failed, answered⟩ := conclusive
      exact ⟨q, earlier ++ asked, rfl, failed,
        fun q member => (List.mem_append.mp member).elim (answered q) (settled q)⟩
  · exact fun q member => (List.mem_append.mp member).elim (alike q) (known q)

/-- What is found below a root is one of its two children. -/
theorem laterChild_eq {less : Comparison α σ ε} {inside : last < n} {root : Nat}
    {below : root * 2 < last} {values : Vector α n} {s s' : σ} {child : Nat}
    {bounds : root < child ∧ child ≤ last}
    (found : laterChild less inside root below values s = (.ok ⟨child, bounds⟩, s')) :
    child = root * 2 + 1 ∨ child = root * 2 + 2 := by
  unfold laterChild at found
  split at found
  · split at found
    · cases found
      exact .inr rfl
    · cases found
      exact .inl rfl
    · cases found
  · cases found
    exact .inl rfl

section
variable (less : Comparison α σ ε)

theorem recorded_asks {left right : α} (known : among left ∧ among right)
    (s : σ × List (Asked α ε)) :
    Asks among 1 (recorded less left right s).1 s.2 (recorded less left right s).2.2 := by
  refine ⟨[⟨left, right, (less left right s.1).1⟩], rfl, Nat.le_refl _, ?_, by simpa using known⟩
  unfold recorded
  rcases less left right s.1 with ⟨failed | answer, own⟩
  · exact ⟨_, [], rfl, rfl, nofun⟩
  · intro q only
    obtain rfl := List.mem_singleton.mp only
    exact ⟨answer, rfl⟩

theorem laterChild_asks (inside : last < n) (root : Nat) (below : root * 2 < last)
    (values : Vector α n) (s : σ × List (Asked α ε)) (known : ∀ v ∈ values, among v) :
    Asks among 1 (laterChild (recorded less) inside root below values s).1 s.2
      (laterChild (recorded less) inside root below values s).2.2 := by
  unfold laterChild
  split
  · have asks := recorded_asks less
      ⟨known values[root * 2 + 1] (by simp), known values[root * 2 + 2] (by simp)⟩ s
    split <;> rename_i answered <;> rwa [answered] at asks
  · exact .nothing _

/-- Every step down at least halves the number of values below. -/
theorem siftDown_asks (inside : last < n) (root : Nat) (values : Vector α n)
    (s : σ × List (Asked α ε)) (known : ∀ v ∈ values, among v) :
    Asks among (2 * Nat.log 2 ((last + 1) / (root + 1)))
      (siftDown (recorded less) inside root values s).verdict s.2
      (siftDown (recorded less) inside root values s).state.2 := by
  unfold siftDown
  split
  · rename_i below
    have halved : Nat.log 2 ((last + 1) / (root + 1)) =
        Nat.log 2 ((last + 1) / (root + 1) / 2) + 1 :=
      Nat.log_of_one_lt_of_le (by decide) ((Nat.le_div_iff_mul_le (by omega)).mpr (by omega))
    have chosen := laterChild_asks less inside root below values s known
    split
    · rename_i failed
      rw [failed] at chosen
      exact chosen.weaken (by omega)
    · rename_i child deeper ends s' found
      rw [found] at chosen
      have compared := recorded_asks less
        ⟨known values[root] (by simp), known values[child] (by simp)⟩ s'
      have both := chosen.andThen compared
      split
      · rename_i failed
        rw [failed] at both
        exact both.weaken (by omega)
      · rename_i settled
        rw [settled] at both
        exact both.weaken (by omega)
      · rename_i swapped
        rw [swapped] at both
        refine (both.andThen (siftDown_asks inside child _ _ ?_)).weaken ?_
        · exact fun v member => known v ((Vector.swap_perm ..).mem_iff.mp member)
        · have child_eq := laterChild_eq found
          have fewer : Nat.log 2 ((last + 1) / (child + 1)) ≤
              Nat.log 2 ((last + 1) / (root + 1) / 2) := by
            rw [Nat.div_div_eq_div_mul]
            exact Nat.log_mono_right (Nat.div_le_div_left (by omega) (by omega))
          omega
  · exact .nothing _
termination_by last - root

theorem buildHeap_asks (inside : last < n) (roots : Nat) (values : Vector α n)
    (s : σ × List (Asked α ε)) (known : ∀ v ∈ values, among v) :
    Asks among (roots * (2 * Nat.log 2 (last + 1)))
      (buildHeap (recorded less) inside roots values s).verdict s.2
      (buildHeap (recorded less) inside roots values s).state.2 := by
  induction roots generalizing values s with
  | zero => exact .nothing _
  | succ root ih =>
    have sifted := (siftDown_asks less inside root values s known).weaken
      (Nat.mul_le_mul_left 2 (Nat.log_mono_right (Nat.div_le_self (last + 1) (root + 1))))
    have perm := siftDown_perm (recorded less) inside root values s
    rw [Nat.succ_mul, Nat.add_comm]
    unfold buildHeap
    split
    · rename_i values' s' done
      rw [done] at sifted perm
      exact sifted.andThen (ih values' s' fun v member => known v (perm.mem_iff.mp member))
    · exact sifted.weaken (Nat.le_add_right ..)

theorem drainHeap_asks (inside : last < n) (values : Vector α n)
    (s : σ × List (Asked α ε)) (known : ∀ v ∈ values, among v) :
    Asks among (last * (2 * Nat.log 2 n))
      (drainHeap (recorded less) last inside values s).verdict s.2
      (drainHeap (recorded less) last inside values s).state.2 := by
  induction last generalizing values s with
  | zero => exact .nothing _
  | succ last ih =>
    have within : last < n := Nat.lt_of_succ_lt inside
    have known' : ∀ v ∈ values.swap (last + 1) 0, among v :=
      fun v member => known v ((Vector.swap_perm ..).mem_iff.mp member)
    have sifted := (siftDown_asks less within 0 _ s known').weaken
      (Nat.mul_le_mul_left 2 (Nat.log_mono_right ((Nat.div_le_self ..).trans within)))
    have perm := siftDown_perm (recorded less) within 0 (values.swap (last + 1) 0) s
    rw [Nat.succ_mul, Nat.add_comm]
    unfold drainHeap
    split
    · rename_i values' s' done
      rw [done] at sifted perm
      exact sifted.andThen (ih within values' s' fun v member => known' v (perm.mem_iff.mp member))
    · exact sifted.weaken (Nat.le_add_right ..)

/-- A sort asks about the values of its list, at most `3 n log n` times, and a failed comparison is
the last that it makes. -/
theorem heapSort_asks (values : Vector α n) (s : σ × List (Asked α ε)) :
    Asks (· ∈ values) (3 * n * Nat.log 2 n) (heapSort (recorded less) values s).verdict s.2
      (heapSort (recorded less) values s).state.2 := by
  unfold heapSort
  split
  · rename_i several
    have inside : n - 1 < n := by omega
    have built := buildHeap_asks less inside (n / 2) values s fun _ member => member
    have perm := buildHeap_perm (recorded less) inside (n / 2) values s
    rw [show n - 1 + 1 = n by omega] at built
    have enough : n / 2 * (2 * Nat.log 2 n) + (n - 1) * (2 * Nat.log 2 n) ≤
        3 * n * Nat.log 2 n := by
      rw [← Nat.add_mul, ← Nat.mul_assoc]
      exact Nat.mul_le_mul_right _ (by omega)
    dsimp only
    split
    · rename_i values' s' done
      rw [done] at built perm
      exact (built.andThen (drainHeap_asks less inside values' s' fun v member =>
        perm.mem_iff.mp member)).weaken enough
    · exact built.weaken (by omega)
  · exact .nothing _

end

end HybridTable.Sort
