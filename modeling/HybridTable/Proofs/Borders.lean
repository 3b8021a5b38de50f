import Mathlib.Order.Interval.Finset.Nat
import HybridTable.Proofs.Faults
import HybridTable.Proofs.Changes
import HybridTable.Proofs.Places

/-! The length of a table. It is a border whatever the table looks like: three searches follow one
another, each of them keeps a present key below and an absent one above, and between such keys there
is a border. The only search that goes through the keys one by one ends because a table without
2 ^ 62 pairs has no run of that many keys. Nothing here depends on the layout; a table in disorder
has a border too. -/
namespace HybridTable

/-- Being present, unless it is zero, with the next key absent. -/
structure IsBorder (present : Nat → Bool) (n : Nat) : Prop where
  /-- The key is present. -/
  last : n = 0 ∨ present n = true
  /-- The next one is absent. -/
  next : present (n + 1) = false

namespace Checked

/-- `HybridTable.bisect` in checked steps. -/
def bisect (present : Nat → Checked Bool) (low high : Nat) : Checked Nat :=
  if high < low then .error .underflow
  else if 1 < high - low then do
    let middle := low + (high - low) / 2
    let _ ← key middle
    if ← present middle then bisect present middle high else bisect present low middle
  else .ok low
termination_by high - low

/-- `HybridTable.endOfRun` in checked steps: only an absent key ends the run. -/
def endOfRun (present : Nat → Checked Bool) (next : Nat) : Checked Nat := do
  if ← present next then
    if next < maxInt then endOfRun present (next + 1) else .error .overflow
  else sub next 1
termination_by maxInt - next

/-- `HybridTable.searchUp` in checked steps. -/
def searchUp (present : Nat → Checked Bool) (low high : Nat) : Checked Nat := do
  if ← present high then
    if maxInt / 2 < high then endOfRun present 1
    else if high = 0 then .error .endless
    else if maxInt < high * 2 then .error .overflow
    else searchUp present high (high * 2)
  else bisect present low high
termination_by maxInt - high

/-- Answering like a test, for the keys up to a limit. -/
def Agrees (present : Nat → Checked Bool) (test : Nat → Bool) (limit : Nat) : Prop :=
  ∀ n, 1 ≤ n → n ≤ limit → present n = .ok (test n)

end Checked

/-! ## The three searches -/

section
variable {test : Nat → Bool} {present : Nat → Checked Bool} {low high limit : Nat}

theorem bisect_border (below : low < high) (first : low = 0 ∨ test low = true)
    (last : test high = false) :
    IsBorder test (bisect test low high) ∧ bisect test low high < high := by
  fun_induction bisect test low high with
  | case1 low high gap middle found ih => exact ih (by omega) (.inr found) last
  | case2 low high gap middle missing ih =>
    obtain ⟨border, inside⟩ := ih (by omega) first (by simpa using missing)
    exact ⟨border, by omega⟩
  | case3 low high close =>
    have same : low + 1 = high := by omega
    exact ⟨⟨first, same ▸ last⟩, below⟩

theorem Checked.bisect_eq (agrees : Agrees present test limit) (below : low ≤ high)
    (inside : high ≤ limit) (range : high ≤ maxInt) :
    Checked.bisect present low high = .ok (HybridTable.bisect test low high) := by
  fun_induction HybridTable.bisect test low high with
  | case1 low high gap middle found ih =>
    rw [Checked.bisect, if_neg (by omega), if_pos gap]
    dsimp only
    rw [key_eq (by omega), ok_bind, agrees _ (by omega) (by omega), found]
    exact ih (by omega) inside range
  | case2 low high gap middle missing ih =>
    have absent : test middle = false := by simpa using missing
    rw [Checked.bisect, if_neg (by omega), if_pos gap]
    dsimp only
    rw [key_eq (by omega), ok_bind, agrees _ (by omega) (by omega), absent]
    exact ih (by omega) (by omega) (by omega)
  | case3 low high close =>
    rw [Checked.bisect, if_neg (by omega), if_neg close]

/-- The search through the keys one by one does not get beyond an absent key. -/
theorem absent_of_run_ended {next gap : Nat} (ended : ¬ (next < maxInt ∧ test next = true))
    (later : next ≤ gap) (inside : gap ≤ maxInt) (absent : test gap = false) :
    test next = false := by
  by_cases last : next < maxInt
  · simpa [last] using ended
  · exact (show gap = next by omega) ▸ absent

theorem ne_of_present {next gap : Nat} (found : test next = true) (absent : test gap = false) :
    next ≠ gap := by
  rintro rfl
  exact absurd (found.symm.trans absent) Bool.noConfusion

theorem endOfRun_border {next : Nat} (first : next - 1 = 0 ∨ test (next - 1) = true)
    (positive : 1 ≤ next) {gap : Nat} (later : next ≤ gap) (inside : gap ≤ maxInt)
    (absent : test gap = false) :
    IsBorder test (endOfRun test next) ∧ endOfRun test next < maxInt := by
  fun_induction endOfRun test next with
  | case1 next more ih =>
    have other := ne_of_present more.2 absent
    exact ih (.inr more.2) (by omega) (by omega)
  | case2 next ended =>
    have missing := absent_of_run_ended ended later inside absent
    exact ⟨⟨first, by rwa [Nat.sub_add_cancel positive]⟩, by omega⟩

theorem Checked.endOfRun_eq (agrees : Agrees present test maxInt) {next : Nat} (positive : 1 ≤ next)
    {gap : Nat} (later : next ≤ gap) (inside : gap ≤ maxInt) (absent : test gap = false) :
    Checked.endOfRun present next = .ok (HybridTable.endOfRun test next) := by
  fun_induction HybridTable.endOfRun test next with
  | case1 next more ih =>
    have other := ne_of_present more.2 absent
    rw [Checked.endOfRun, agrees next positive (by omega), more.2]
    exact (if_pos more.1).trans (ih (by omega) (by omega))
  | case2 next ended =>
    have missing := absent_of_run_ended ended later inside absent
    rw [Checked.endOfRun, agrees next positive (by omega), missing]
    exact sub_eq positive

theorem searchUp_border (below : low < high) (range : high ≤ maxInt)
    (first : low = 0 ∨ test low = true) {gap : Nat} (positive : 1 ≤ gap) (inside : gap ≤ maxInt)
    (absent : test gap = false) :
    IsBorder test (searchUp test low high) ∧ searchUp test low high < maxInt := by
  fun_induction searchUp test low high with
  | case1 low high found large => exact endOfRun_border (.inl rfl) (by omega) positive inside absent
  | case2 low found small => omega
  | case3 low high found small some_key ih => exact ih (by omega) (by omega) (.inr found)
  | case4 low high missing =>
    obtain ⟨border, inside⟩ := bisect_border below first (by simpa using missing)
    exact ⟨border, by omega⟩

theorem Checked.searchUp_eq (agrees : Agrees present test maxInt) (below : low < high)
    (range : high ≤ maxInt) {gap : Nat} (positive : 1 ≤ gap) (inside : gap ≤ maxInt)
    (absent : test gap = false) :
    Checked.searchUp present low high = .ok (HybridTable.searchUp test low high) := by
  fun_induction HybridTable.searchUp test low high with
  | case1 low high found large =>
    rw [Checked.searchUp, agrees high (by omega) range, found]
    exact (if_pos large).trans (endOfRun_eq agrees (by omega) positive inside absent)
  | case2 low found small => omega
  | case3 low high found small some_key ih =>
    have doubled : high * 2 ≤ maxInt := by omega
    rw [Checked.searchUp, agrees high (by omega) range, found, ok_bind, if_pos rfl, if_neg small,
      if_neg some_key, if_neg (Nat.not_lt_of_le doubled)]
    exact ih (by omega) doubled
  | case4 low high missing =>
    have absent : test high = false := by simpa using missing
    rw [Checked.searchUp, agrees high (by omega) range, absent]
    exact bisect_eq agrees (by omega) range range

end

/-! ## Absent keys -/

/-- The pair of an entry that a lookup finds is for the key that was looked up. -/
theorem Chain.exists_of_lookup {alive : Ref → Bool} {key v : Value} {chain : Chain}
    (found : chain.lookup alive key = some v) :
    ∃ e, .live e ∈ chain ∧ e.hasKey alive key = true ∧ e.value? alive = some v := by
  induction chain with
  | nil => cases found
  | cons head rest ih =>
    have later (found : lookup alive key rest = some v) :
        ∃ e, .live e ∈ head :: rest ∧ e.hasKey alive key = true ∧ e.value? alive = some v :=
      (ih found).imp fun e ⟨member, own⟩ => ⟨List.mem_cons_of_mem head member, own⟩
    cases head with
    | live e =>
      unfold lookup at found
      split at found
      · rename_i own
        exact ⟨e, List.mem_cons_self, own, found⟩
      · exact later found
    | dead own => exact later found

/-- What equals an integer is a number with this value. -/
theorem Value.toKey?_of_rawEqual_int {v : Value} {i : Int64} (same : v.rawEqual (.int i) = true) :
    v.toKey? = some (.int i) := by
  cases v with
  | int j =>
    cases eq_of_beq same
    rfl
  | float x => exact float_int_iff.mpr (eq_of_beq same)
  | _ => cases same

/-- An entry that is found under an integer is for that integer. -/
theorem Entry.toKey?_of_hasKey_int {alive : Ref → Bool} {e : Entry} {i : Int64}
    (found : e.hasKey alive (.int i) = true) : e.key.toKey? = some (.int i) := by
  cases e with
  | plain own value =>
    cases own with
    | int j =>
      cases eq_of_beq found
      rfl
    | _ => exact Value.toKey?_of_rawEqual_int found
  | guarded own value =>
    simp only [hasKey, Cell.holdsKey, Cell.read_eq] at found
    split at found
    · exact Value.toKey?_of_rawEqual_int found
    · cases found

namespace Table

variable [Hashing] {t : Table} {alive : Ref → Bool}

/-- An integer key that is present is that of a pair that can be read. -/
theorem exists_livePair_of_getInt {i : Int64} {v : Value} (found : t.getInt alive i = some v) :
    ∃ pair ∈ t.livePairs alive, pair.1.toKey? = some (.int i) := by
  unfold getInt at found
  split at found
  · rename_i position inside
    unfold position? at inside
    split at inside <;> cases inside
    rename_i range
    have top := i.toInt_lt
    have same : Int64.ofNat (i.toInt.toNat - 1 + 1) = i := by
      rw [← Int64.toInt_inj, Int64.toInt_ofNat_of_lt (by omega)]
      omega
    refine ⟨(.int i, v), mem_livePairs_iff.mpr (mem_readings_iff.mpr (.inl ?_)), rfl⟩
    exact ⟨i.toInt.toNat - 1, by omega, by rw [same], found.symm⟩
  · unfold getHashed at found
    split at found
    · cases found
    · obtain ⟨e, member, own, value⟩ := Chain.exists_of_lookup found
      have named := Entry.toKey?_of_hasKey_int own
      rw [Entry.value?_eq (Entry.keyIsAlive_of_hasKey own)] at value
      split at value <;> cases value
      rename_i readable
      refine ⟨(e.key, e.value), mem_livePairs_iff.mpr (mem_readings_iff.mpr (.inr ?_)), named⟩
      exact ⟨_, .live e, member, rfl, by simp [Slot.pair?, Entry.pair?_eq, readable]⟩

/-- There are as many pairs as keys in a run of present ones. -/
theorem le_length_of_run {n : Nat} (range : n ≤ maxInt)
    (run : ∀ key, 1 ≤ key → key ≤ n → t.present alive key = true) :
    n ≤ (t.livePairs alive).length := by
  let named := ((t.livePairs alive).filterMap (·.1.toKey?)).toFinset
  let keys := (Finset.Icc 1 n).image fun key => Key.int (Int64.ofNat key)
  have part : keys ⊆ named := by
    intro k member
    obtain ⟨key, inside, rfl⟩ := Finset.mem_image.mp member
    obtain ⟨low, high⟩ := Finset.mem_Icc.mp inside
    obtain ⟨v, found⟩ := Option.isSome_iff_exists.mp (run key low high)
    obtain ⟨pair, listed, spelled⟩ := exists_livePair_of_getInt found
    exact List.mem_toFinset.mpr (List.mem_filterMap.mpr ⟨pair, listed, spelled⟩)
  have size : keys.card = n := by
    rw [Finset.card_image_of_injOn, Nat.card_Icc, Nat.add_sub_cancel]
    intro a first b second same
    have top : maxInt < 2 ^ 63 := by decide
    have equal := congrArg Int64.toInt (Key.int.inj same)
    have := (Finset.mem_Icc.mp first).2
    have := (Finset.mem_Icc.mp second).2
    rw [Int64.toInt_ofNat_of_lt (by omega), Int64.toInt_ofNat_of_lt (by omega)] at equal
    omega
  calc n = keys.card := size.symm
    _ ≤ named.card := Finset.card_le_card part
    _ ≤ ((t.livePairs alive).filterMap (·.1.toKey?)).length := List.toFinset_card_le _
    _ ≤ (t.livePairs alive).length := List.length_filterMap_le ..

/-- A table without 2 ^ 62 pairs has an absent key among the first 2 ^ 62. -/
theorem exists_absent (few : (t.livePairs alive).length < 2 ^ 62) :
    ∃ key, 1 ≤ key ∧ key ≤ maxInt ∧ t.present alive key = false := by
  have range : 2 ^ 62 ≤ maxInt := by decide
  by_contra none
  have run : ∀ key, 1 ≤ key → key ≤ 2 ^ 62 → t.present alive key = true := by
    intro key low high
    have found := not_and.mp (not_and.mp (not_exists.mp none key) low) (Nat.le_trans high range)
    simpa using found
  exact absurd (le_length_of_run range run) (Nat.not_le_of_lt few)

/-! ## The length -/

/-- `Table.length` in checked steps, `used` telling whether the position of a key is in use. -/
def checkedLength (t : Table) (used present : Nat → Checked Bool) : Checked Nat := do
  let limit := t.array.size
  let full ← if 0 < limit then used limit else pure true
  if !full then Checked.bisect used 0 limit
  else if t.count = 0 then return limit
  else Checked.searchUp present limit (← Checked.key (limit + 1))

omit [Hashing] in
/-- There are far fewer positions than keys. -/
theorem Bounded.size_lt (bounded : t.Bounded) : t.array.size < maxInt :=
  Nat.lt_of_le_of_lt bounded (by decide)

/-- A key within the array region is present if its position can be read. -/
theorem present_of_position (size : t.array.size < maxInt) {key : Nat} (low : 1 ≤ key)
    (high : key ≤ t.array.size) :
    t.present alive key = (t.readPosition alive (key - 1)).isSome := by
  have top : maxInt < 2 ^ 63 := by decide
  have same : (Int64.ofNat key).toInt = key := Int64.toInt_ofNat_of_lt (by omega)
  have found : t.position? (Int64.ofNat key) = some (key - 1) := by
    unfold position?
    rw [if_pos (by omega), same, Int.toNat_natCast]
  simp only [present, getInt, found]

/-- Without entries no key beyond the array region is present. -/
theorem present_of_count (size : t.array.size < maxInt) (none : t.count = 0) :
    t.present alive (t.array.size + 1) = false := by
  have top : maxInt < 2 ^ 63 := by decide
  have same : (Int64.ofNat (t.array.size + 1)).toInt = (t.array.size + 1 : Nat) :=
    Int64.toInt_ofNat_of_lt (by omega)
  have outside : t.position? (Int64.ofNat (t.array.size + 1)) = Option.none := by
    unfold position?
    exact if_neg (by omega)
  simp only [present, getInt, outside, getHashed, none, ↓reduceIte, Option.isSome_none]

section
variable {gap : Nat} (size : t.array.size < maxInt) (positive : 1 ≤ gap) (inside : gap ≤ maxInt)
  (absent : t.present alive gap = false)
include size positive inside absent

theorem length_border :
    IsBorder (t.present alive) (t.length alive) ∧ t.length alive < maxInt := by
  unfold length
  dsimp only
  let used (key : Nat) : Bool := (t.readPosition alive (key - 1)).isSome
  have used_eq (key : Nat) (low : 1 ≤ key) (high : key ≤ t.array.size) :
      t.present alive key = used key := present_of_position size low high
  split
  · rename_i unused
    have last : used t.array.size = false := by
      simp only [used, unused.2, Option.isSome_none]
    obtain ⟨border, below⟩ := bisect_border unused.1 (.inl rfl) last
    show IsBorder _ (bisect used 0 t.array.size) ∧ bisect used 0 t.array.size < maxInt
    generalize bisect used 0 t.array.size = n at border below ⊢
    refine ⟨⟨?_, (used_eq _ (by omega) below).trans border.next⟩, by omega⟩
    rcases Nat.eq_zero_or_pos n with zero | some_key
    · exact .inl zero
    · exact border.last.imp_right (used_eq n some_key (by omega)).trans
  · rename_i full
    have last : t.array.size = 0 ∨ t.present alive t.array.size = true := by
      by_cases positions : 0 < t.array.size
      · refine .inr ((used_eq _ positions (Nat.le_refl _)).trans ?_)
        exact Option.isSome_iff_ne_none.mpr (not_and.mp full positions)
      · exact .inl (by omega)
    split
    · rename_i none
      exact ⟨⟨last, present_of_count size none⟩, size⟩
    · exact searchUp_border (Nat.lt_succ_self _) size last positive inside absent

theorem checkedLength_eq {used present : Nat → Checked Bool}
    (positions : Checked.Agrees used (fun key => (t.readPosition alive (key - 1)).isSome)
      t.array.size)
    (keys : Checked.Agrees present (t.present alive) maxInt) :
    t.checkedLength used present = .ok (t.length alive) := by
  have beyond : (if t.count = 0 then .ok t.array.size
      else do Checked.searchUp present t.array.size (← Checked.key (t.array.size + 1)) :
        Checked Nat) = .ok (if t.count = 0 then t.array.size
          else searchUp (t.present alive) t.array.size (t.array.size + 1)) := by
    split
    · rfl
    · rw [Checked.key_eq size, Checked.ok_bind]
      exact Checked.searchUp_eq keys (Nat.lt_succ_self _) size positive inside absent
  unfold checkedLength length
  dsimp only
  by_cases some_position : 0 < t.array.size
  · rw [if_pos some_position, positions _ some_position (Nat.le_refl _), Checked.ok_bind]
    dsimp only
    by_cases unused : t.readPosition alive (t.array.size - 1) = none
    · simp only [some_position, unused, Option.isSome_none, Bool.not_false, ↓reduceIte, and_self]
      exact Checked.bisect_eq positions (Nat.zero_le _) (Nat.le_refl _) (Nat.le_of_lt size)
    · simp only [Option.isSome_iff_ne_none.mpr unused, unused, Bool.not_true, Bool.false_eq_true,
        ↓reduceIte, and_false]
      exact beyond
  · simp only [some_position, ↓reduceIte, false_and, Checked.pure_eq, Checked.ok_bind, Bool.not_true,
      Bool.false_eq_true]
    exact beyond

end

/-- The length of a table without 2 ^ 62 pairs is found without a negative difference or an overflow
and is a border, whatever holes the table has, wherever its keys are stored and whatever was
reclaimed. All that is assumed of the storage is that there are more keys than positions. -/
theorem length_is_border (size : t.array.size < maxInt)
    (few : (t.livePairs alive).length < 2 ^ 62) :
    t.checkedLength (fun key => .ok (t.readPosition alive (key - 1)).isSome)
        (fun key => .ok (t.present alive key)) = .ok (t.length alive) ∧
      t.length alive < maxInt ∧
      (t.length alive = 0 ∨ t.getInt alive (Int64.ofNat (t.length alive)) ≠ none) ∧
      t.getInt alive (Int64.ofNat (t.length alive + 1)) = none := by
  obtain ⟨gap, positive, inside, absent⟩ := exists_absent few
  obtain ⟨border, small⟩ := length_border size positive inside absent
  refine ⟨?_, small, ?_, ?_⟩
  · exact checkedLength_eq size positive inside absent (fun _ _ _ => rfl) fun _ _ _ => rfl
  · exact border.last.imp_right fun found => Option.isSome_iff_ne_none.mp found
  · simpa [present] using border.next

omit [Hashing] in
/-- When every power of two is present, doubling leaves the range of keys, and the border of the
first run is taken. -/
theorem length_of_powers :
    let changes := (List.range 63).map fun bits => Change.setInt (Int64.ofNat (2 ^ bits)) (.int 1)
    let t := @after .uniform (.withCapacity 0 64) (changes.map (nothingReclaimed, ·))
    let alive : Ref → Bool := fun _ => true
    @length .uniform t alive = 2 ∧ @getInt .uniform t alive 2 ≠ none ∧
      @getInt .uniform t alive 3 = none := by
  intro changes t alive
  have found : @length .uniform t alive = 2 := by decide +kernel
  obtain ⟨_, _, last, next⟩ := @length_is_border .uniform t alive (by decide +kernel)
    (by decide +kernel)
  rw [found] at last next
  exact ⟨found, last.resolve_left (by decide), next⟩

end Table

end HybridTable
