import HybridTable.Proofs.Borders
import HybridTable.Proofs.Listing
import HybridTable.Proofs.Reachable

/-! Inserting into and removing from a list, seen through what can be read. A shift writes one key
after another, and each write may find its key in either region; the last write of a shift upwards
may even make all pairs move. None of that can be read: as far as the first absent key every value
has moved by one key, and every other key has the value that it had. So a removal undoes an
insertion, unless the inserted value closed the gap before another run of values. -/
namespace HybridTable.Table

variable [Hashing] {t t' : Table} {live : Liveness} {alive : Ref → Bool}
  {first last gap key k : Int64} {value v : Value}

/-! ## Reading a strong table -/

/-- Of a strong table an integer key reads what is stored, whatever else was reclaimed. -/
theorem Sound.getInt_of_strong (sound : t.Sound) (strong : t.policy = .allStrong)
    (alive alive' : Ref → Bool) : t.getInt alive = t.getInt alive' := by
  funext i
  apply Option.ext
  intro v
  simp only [sound.getInt_eq_some_iff, strong, WeakPolicy.spares_allStrong]

theorem Sound.readPosition_of_strong (sound : t.Sound) (strong : t.policy = .allStrong)
    (alive alive' : Ref → Bool) : t.readPosition alive = t.readPosition alive' := by
  funext position
  unfold readPosition
  split
  · rename_i c used
    have fitted := (sound.cells position c used).1
    rw [strong] at fitted
    rw [fitted]
    rfl
  · rfl

/-- The length of a strong table does not depend on what was reclaimed. -/
theorem Sound.length_of_strong (sound : t.Sound) (strong : t.policy = .allStrong)
    (alive alive' : Ref → Bool) : t.length alive = t.length alive' := by
  have keys : t.present alive = t.present alive' := by
    funext key
    rw [present, present, sound.getInt_of_strong strong alive alive']
  rw [length, length, sound.readPosition_of_strong strong alive alive', keys]

/-- There is a key after the length, and it is absent. -/
theorem Bounded.absent_after_length (bounded : t.Bounded)
    (few : (t.livePairs alive).length < 2 ^ 62) :
    t.length alive < maxInt ∧ t.getInt alive (Int64.ofNat (t.length alive + 1)) = none := by
  obtain ⟨gap, positive, inside, absent⟩ := exists_absent few
  obtain ⟨border, small⟩ := length_border bounded.size_lt positive inside absent
  exact ⟨small, by simpa [present] using border.next⟩

/-! ## Runs of present keys -/

/-- The first absent key from a key on. -/
structure FirstGap (t : Table) (alive : Ref → Bool) (first gap : Int64) : Prop where
  /-- It does not come before the key. -/
  later : first ≤ gap
  /-- All keys before it are present. -/
  run : ∀ k, first ≤ k → k < gap → t.getInt alive k ≠ none
  /-- It is absent. -/
  absent : t.getInt alive gap = none

/-- The last key that has to be written when the values from a key on move up: the first absent one,
or the greatest key if all are present. -/
def EndsShift (t : Table) (alive : Ref → Bool) (first last : Int64) : Prop :=
  t.FirstGap alive first last ∨
    last = Int64.maxValue ∧ ∀ k, first ≤ k → t.getInt alive k ≠ none

/-- A run goes on after a present key, also in a table that differs in that key. -/
theorem FirstGap.next (ends : t.FirstGap alive key gap) (present : t.getInt alive key ≠ none)
    (same : ∀ k, key < k → t'.getInt alive k = t.getInt alive k) :
    key < gap ∧ t'.FirstGap alive (key + 1) gap := by
  have inside : key < gap := by
    refine Int64.lt_of_le_of_ne ends.later ?_
    rintro rfl
    exact present ends.absent
  have below := ne_greatest_of_lt inside
  refine ⟨inside, (add_one_le_iff_lt below).mpr inside, fun k from_next before => ?_, ?_⟩
  · have beyond := (add_one_le_iff_lt below).mp from_next
    rw [same k beyond]
    exact ends.run k (Int64.le_of_lt beyond) before
  · rw [same gap inside]
    exact ends.absent

/-- At an absent key a shift ends at once. -/
theorem EndsShift.eq_of_absent (ends : t.EndsShift alive key last)
    (absent : t.getInt alive key = none) : last = key := by
  rcases ends with found | ⟨_, full⟩
  · by_contra apart
    have before : key < last := Int64.lt_of_le_of_ne found.later (Ne.symm apart)
    exact found.run key (Int64.le_refl key) before absent
  · exact absurd absent (full key (Int64.le_refl key))

/-- At the greatest key a shift ends as well. -/
theorem EndsShift.eq_maxValue (ends : t.EndsShift alive Int64.maxValue last) :
    last = Int64.maxValue := by
  rcases ends with found | ⟨same, _⟩
  · exact Int64.le_antisymm (Int64.le_maxValue last) found.later
  · exact same

theorem EndsShift.next (ends : t.EndsShift alive key last) (present : t.getInt alive key ≠ none)
    (below : key ≠ Int64.maxValue) (same : ∀ k, key < k → t'.getInt alive k = t.getInt alive k) :
    key < last ∧ t'.EndsShift alive (key + 1) last := by
  rcases ends with found | ⟨rfl, full⟩
  · exact (found.next present same).imp_right .inl
  · refine ⟨Int64.lt_of_le_of_ne (Int64.le_maxValue key) below, .inr ⟨rfl, fun k from_next => ?_⟩⟩
    have beyond := (add_one_le_iff_lt below).mp from_next
    rw [same k beyond]
    exact full k (Int64.le_of_lt beyond)

/-- There is a key at which a shift from a given key ends. -/
theorem exists_endsShift (t : Table) (alive : Ref → Bool) (first : Int64) :
    ∃ last, t.EndsShift alive first last := by
  by_cases absent : t.getInt alive first = none
  · refine ⟨first, .inl ⟨Int64.le_refl first, fun k later before => ?_, absent⟩⟩
    exact absurd before (Int64.not_lt.mpr later)
  have present_from {k : Int64} (later : first ≤ k)
      (rest : first < k → t.getInt alive k ≠ none) : t.getInt alive k ≠ none := by
    by_cases same : first = k
    · exact same ▸ absent
    · exact rest (Int64.lt_of_le_of_ne later same)
  by_cases greatest : first = Int64.maxValue
  · refine ⟨Int64.maxValue, .inr ⟨rfl, fun k later => present_from later fun before => ?_⟩⟩
    exact absurd greatest (ne_greatest_of_lt before)
  · obtain ⟨last, found | ⟨rfl, full⟩⟩ := exists_endsShift t alive (first + 1)
    · refine ⟨last, .inl ⟨?_, fun k later before => present_from later fun beyond => ?_,
        found.absent⟩⟩
      · exact Int64.le_of_lt ((add_one_le_iff_lt greatest).mp found.later)
      · exact found.run k ((add_one_le_iff_lt greatest).mpr beyond) before
    · refine ⟨Int64.maxValue, .inr ⟨rfl, fun k later => present_from later fun beyond => ?_⟩⟩
      exact full k ((add_one_le_iff_lt greatest).mpr beyond)
termination_by keysLeft first
decreasing_by exact keysLeft_add_one ‹_›

/-! ## Shifting upwards -/

/-- What can be read after a value was put in front of the values of the keys from `first` on and
these were moved up as far as `last`. -/
structure ShiftedUp (alive : Ref → Bool) (t t' : Table) (first last : Int64) (value : Value) :
    Prop where
  /-- The mode is the same. -/
  ruled : t'.policy = t.policy
  /-- The value is in the first place. -/
  placed : t'.getInt alive first = some value
  /-- Each value before the last key is one key further up. -/
  moved : ∀ k, first ≤ k → k < last → t'.getInt alive (k + 1) = t.getInt alive k
  /-- Every other key, of whatever type, has what it had. -/
  others : ∀ key : Value, (∀ k, key.toKey? = some (.int k) → k < first ∨ last < k) →
    t'.get alive key = t.get alive key

/-- Being made by so many writes under integer keys, one after another. -/
def MadeByWrites (t t' : Table) (count : Int) : Prop :=
  ∃ steps : List (Liveness × Change), (steps.length : Int) = count ∧
    (∀ step ∈ steps, ∃ k v, step.2 = .setInt k v) ∧ t' = t.after steps

theorem MadeByWrites.one (live : Liveness) (t : Table) (key : Int64) (value : Value) :
    t.MadeByWrites (t.setInt live key value) 1 :=
  ⟨[(live, .setInt key value)], rfl, by simp, rfl⟩

theorem MadeByWrites.cons {count : Int}
    (rest : (t.setInt live key value).MadeByWrites t' count) :
    t.MadeByWrites t' (count + 1) := by
  obtain ⟨steps, length, writes, rfl⟩ := rest
  refine ⟨(live, .setInt key value) :: steps, by simp [length], fun step member => ?_, rfl⟩
  rcases List.mem_cons.mp member with rfl | later
  · exact ⟨key, value, rfl⟩
  · exact writes step later

/-- The last write of a shift upwards is under the key at which it ends. -/
theorem shiftedUp_written (written : Written live t (.int key) value t') (sound : t.Sound)
    (strong : t.policy = .allStrong) (stored : value ≠ .nil) :
    ShiftedUp alive t t' key key value where
  ruled := written.ruled
  placed := written.getInt_own strong stored
  moved k later before := absurd before (Int64.not_lt.mpr later)
  others other apart := by
    refine written.get_other sound strong fun same => ?_
    exact (apart key same).elim Int64.lt_irrefl Int64.lt_irrefl

/-- A write of a shift upwards comes before the shift of the value that it displaces. -/
theorem ShiftedUp.after_written {between : Table}
    (written : Written live t (.int key) value between) (sound : t.Sound)
    (strong : t.policy = .allStrong) (stored : value ≠ .nil)
    (found : t.getInt alive key = some v) (inside : key < last)
    (rest : ShiftedUp alive between t' (key + 1) last v) :
    ShiftedUp alive t t' key last value := by
  have below := ne_greatest_of_lt inside
  have next := key_lt_add_one below
  refine ⟨rest.ruled.trans written.ruled, ?_, fun k later before => ?_, fun other apart => ?_⟩
  · refine (rest.others (.int key) fun k same => ?_).trans (written.getInt_own strong stored)
    cases same
    exact .inl next
  · by_cases own : k = key
    · subst own
      exact rest.placed.trans found.symm
    · have beyond : key < k := Int64.lt_of_le_of_ne later (Ne.symm own)
      rw [rest.moved k ((add_one_le_iff_lt below).mpr beyond) before]
      exact written.getInt_other strong sound own
  · refine (rest.others other fun k named => (apart k named).imp_left fun early => ?_).trans ?_
    · exact Int64.lt_trans early next
    · refine written.get_other sound strong fun same => ?_
      exact (apart key same).elim Int64.lt_irrefl (Int64.lt_asymm inside)

/-- The values move up as far as the first absent key, by one write for each key. -/
theorem shiftedUp_shiftUp {t : Table} {key : Int64} {value : Value} (sound : t.Sound)
    (strong : t.policy = .allStrong) (stored : value ≠ .nil)
    (ends : t.EndsShift alive key last) (result : (t.shiftUp live key value).Bounded) :
    ShiftedUp alive t (t.shiftUp live key value) key last value ∧
      t.MadeByWrites (t.shiftUp live key value) (last.toInt - key.toInt + 1) := by
  have fair : live.Fair t.policy := .inl strong
  have reads := sound.getInt_of_strong strong (fun r => live (value.refs ++ t.refs) r) alive
  cases found : t.getInt (fun r => live (value.refs ++ t.refs) r) key with
  | none =>
    obtain rfl := ends.eq_of_absent (reads ▸ found)
    rw [shiftUp_of_absent stored found] at result ⊢
    rw [Int.sub_self, Int.zero_add]
    exact ⟨shiftedUp_written (written_setInt sound (fair.holding _) result) sound strong stored,
      .one ..⟩
  | some displaced =>
    have kept := (sound.getInt_eq_some_iff.mp found).1
    have written := (written_setInt_stored sound (fair.holding displaced.refs) kept value).1
    rw [shiftUp_of_present stored found] at result ⊢
    rw [reads] at found
    split
    · rename_i greatest
      obtain rfl := (greatest ▸ ends).eq_maxValue
      rw [greatest, Int.sub_self, Int.zero_add]
      exact ⟨shiftedUp_written (greatest ▸ written) sound strong stored, .one ..⟩
    · rename_i below
      rw [if_neg below] at result
      obtain ⟨before, ends'⟩ := ends.next (found ▸ nofun) below fun k beyond =>
        written.getInt_other strong sound (Ne.symm (Int64.ne_of_lt beyond))
      obtain ⟨shifted, made⟩ := shiftedUp_shiftUp written.sound (written.ruled.trans strong)
        (sound.value_ne_nil kept) ends' result
      refine ⟨.after_written written sound strong stored found before shifted, ?_⟩
      have count : last.toInt - (key + 1).toInt + 1 + 1 = last.toInt - key.toInt + 1 := by
        rw [toInt_add_one below]
        omega
      exact count ▸ made.cons
termination_by keysLeft key
decreasing_by exact keysLeft_add_one ‹_›

/-- An insertion of a value shifts all values up that come after the key without a gap, or from the
key after the border on if the key is zero. What was at the first absent key was nothing; only when
all keys up to the greatest are present, the value of that one is lost. The insertion ends after one
write for each key, even if its last write makes the regions change, and `nil` is not inserted. -/
theorem insert_shifts_up (reachable : t.Reachable) (strong : t.policy = .allStrong)
    (live : Liveness) (alive : Ref → Bool) (pos : Int64) (value : Value)
    (bounded : (t.insert live pos value).Bounded)
    (few : pos = 0 → (t.livePairs alive).length < 2 ^ 62) :
    let now := t.insert live pos value
    (value = .nil → now = t) ∧
      (value ≠ .nil → ∃ first last,
        first.toInt = (if pos = 0 then (t.length alive : Int) + 1 else pos.toInt) ∧
        t.EndsShift alive first last ∧ ShiftedUp alive t now first last value ∧
        t.MadeByWrites now (last.toInt - first.toInt + 1)) := by
  intro now
  obtain ⟨sound, within⟩ := reachable.sound_bounded
  obtain ⟨first, chosen, made⟩ : ∃ first : Int64,
      first.toInt = (if pos = 0 then (t.length alive : Int) + 1 else pos.toInt) ∧
        now = t.shiftUp live first value := by
    by_cases append : pos = 0
    · obtain ⟨below, -⟩ := within.absent_after_length (few append)
      have small : maxInt < 2 ^ 63 := by decide
      refine ⟨Int64.ofNat (t.length alive + 1), ?_, ?_⟩
      · rw [if_pos append, Int64.toInt_ofNat_of_lt (by omega)]
        rfl
      · show t.insert live pos value = _
        rw [insert, if_pos append, sound.length_of_strong strong _ alive]
        exact if_pos below
    · exact ⟨pos, (if_neg append).symm, if_neg append⟩
  rw [show t.insert live pos value = now from rfl, made] at bounded
  rw [made]
  refine ⟨fun removed => ?_, fun stored => ?_⟩
  · subst removed
    unfold shiftUp
    rfl
  · obtain ⟨last, ends⟩ := exists_endsShift t alive first
    exact ⟨first, last, chosen, ends, shiftedUp_shiftUp sound strong stored ends bounded⟩

omit [Hashing] in
/-- A shift that starts in the array region and ends in the hash region, where its last write finds
no bucket and makes the array region twice as large. -/
theorem insert_shifts_across_regions :
    let changes : List Change := [.setInt 1 (.int 10), .setInt 2 (.int 20), .setInt 3 (.int 30),
      .set (.text (.short "a")) (.bool true), .setInt 4 (.int 40), .setInt 5 (.int 50)]
    let t := @after .uniform .empty (changes.map (nothingReclaimed, ·))
    let alive : Ref → Bool := fun _ => true
    let now := @insert .uniform nothingReclaimed t 2 (.int 15)
    t.capacities = (4, 2) ∧ now.capacities = (8, 2) ∧
      @getInt .uniform now alive 2 = some (.int 15) ∧
      @getInt .uniform now alive 6 = some (.int 50) ∧
      ∃ last, @EndsShift .uniform t alive 2 last ∧
        @ShiftedUp .uniform alive t now 2 last (.int 15) := by
  intro changes t alive now
  let hashing : Hashing := .uniform
  have reachable : t.Reachable := reachable_after_empty (by decide +kernel)
  obtain ⟨-, shifts⟩ := insert_shifts_up reachable (by decide +kernel) nothingReclaimed alive 2
    (.int 15) (by decide +kernel) (by decide)
  obtain ⟨first, last, chosen, ends, shifted, -⟩ := shifts nofun
  obtain rfl : first = 2 := Int64.toInt.inj chosen
  exact ⟨by decide +kernel, by decide +kernel, shifted.placed, by decide +kernel, last, ends,
    shifted⟩

/-! ## Shifting downwards -/

/-- What can be read after the values behind a key were moved down as far as a gap. -/
structure ShiftedDown (alive : Ref → Bool) (t t' : Table) (first gap : Int64) : Prop where
  /-- The mode is the same. -/
  ruled : t'.policy = t.policy
  /-- Each value before the gap is one key further down. -/
  moved : ∀ k, first < k → k < gap → t'.getInt alive (k - 1) = t.getInt alive k
  /-- The last key before the gap has become absent. -/
  emptied : t'.getInt alive (gap - 1) = none
  /-- Every other key, of whatever type, has what it had. -/
  others : ∀ key : Value, (∀ k, key.toKey? = some (.int k) → k < first ∨ gap ≤ k) →
    t'.get alive key = t.get alive key

/-- The last write of a shift downwards removes the key before the gap. -/
theorem shiftedDown_written (written : Written live t (.int key) .nil t') (sound : t.Sound)
    (strong : t.policy = .allStrong) (below : key ≠ Int64.maxValue) :
    ShiftedDown alive t t' key (key + 1) where
  ruled := written.ruled
  moved k later before := by
    have before' := (add_one_le_iff_lt below).mpr later
    exact absurd before (Int64.not_lt.mpr before')
  emptied := by
    rw [Int64.add_sub_cancel]
    have read : t'.get alive (.int key) = _ := written.get_own strong rfl
    exact read
  others other apart := by
    refine written.get_other sound strong fun same => ?_
    refine (apart key same).elim Int64.lt_irrefl fun later => ?_
    exact Int64.not_le.mpr (key_lt_add_one below) later

/-- A write of a shift downwards comes before the shift of what is behind the value it moves. -/
theorem ShiftedDown.after_written {between : Table}
    (written : Written live t (.int key) value between) (sound : t.Sound)
    (strong : t.policy = .allStrong) (found : t.getInt alive (key + 1) = some value)
    (inside : key + 1 < gap) (below : key ≠ Int64.maxValue)
    (rest : ShiftedDown alive between t' (key + 1) gap) : ShiftedDown alive t t' key gap := by
  have next := key_lt_add_one below
  have stored : value ≠ .nil := sound.value_ne_nil (sound.getInt_eq_some_iff.mp found).1
  refine ⟨rest.ruled.trans written.ruled, fun k later before => ?_, rest.emptied,
    fun other apart => ?_⟩
  · by_cases own : k = key + 1
    · subst own
      rw [Int64.add_sub_cancel, found]
      refine (rest.others (.int key) fun k same => ?_).trans (written.getInt_own strong stored)
      cases same
      exact .inl next
    · have beyond := Int64.lt_of_le_of_ne ((add_one_le_iff_lt below).mpr later) (Ne.symm own)
      rw [rest.moved k beyond before]
      exact written.getInt_other strong sound (Ne.symm (Int64.ne_of_lt later))
  · refine (rest.others other fun k named => (apart k named).imp_left fun early => ?_).trans ?_
    · exact Int64.lt_trans early next
    · refine written.get_other sound strong fun same => ?_
      refine (apart key same).elim Int64.lt_irrefl fun later => ?_
      exact Int64.not_le.mpr (Int64.lt_trans next inside) later

/-- A write under a stored key changes no capacity. -/
theorem capacities_setInt_stored (sound : t.Sound) (fair : live.Fair t.policy)
    (stored : t.Stores (.int key) v) (value : Value) :
    (t.setInt live key value).capacities = t.capacities := by
  have same : (t.setInt live key value).frame = t.frame :=
    frame_setInt sound fair fun _ => ⟨v, stored⟩
  have buckets := congrArg (fun frame : Nat × List (List Value) => frame.2.length) same
  simp only [frame, List.length_map, Array.length_toList] at buckets
  exact Prod.ext (size_array_of_frame same) buckets

/-- The values behind a key move down as far as the first absent key. -/
theorem shiftedDown_shiftDown {t : Table} {key : Int64} {v : Value} (sound : t.Sound)
    (strong : t.policy = .allStrong) (below : key ≠ Int64.maxValue)
    (stored : t.Stores (.int key) v) (ends : t.FirstGap alive (key + 1) gap) :
    ShiftedDown alive t (t.shiftDown live key) key gap ∧
      (t.shiftDown live key).capacities = t.capacities := by
  have fair : live.Fair t.policy := .inl strong
  have reads := sound.getInt_of_strong strong (fun r => live t.refs r) alive
  unfold Table.shiftDown
  rw [dif_neg below]
  cases found : t.getInt (fun r => live t.refs r) (key + 1) with
  | none =>
    obtain rfl : gap = key + 1 := EndsShift.eq_of_absent (.inl ends) (reads ▸ found)
    have removed := (written_setInt_stored sound fair stored .nil).1
    exact ⟨shiftedDown_written removed sound strong below,
      capacities_setInt_stored sound fair stored .nil⟩
  | some value =>
    obtain ⟨written, -, kept⟩ := step_shiftDown sound fair below stored found
    rw [reads] at found
    obtain ⟨before, ends'⟩ := ends.next (found ▸ nofun) fun k beyond =>
      written.getInt_other strong sound
        (Ne.symm (Int64.ne_of_lt (Int64.lt_trans (key_lt_add_one below) beyond)))
    obtain ⟨shifted, capacities⟩ := shiftedDown_shiftDown written.sound
      (written.ruled.trans strong) (ne_greatest_of_lt before) kept ends'
    exact ⟨.after_written written sound strong found before below shifted,
      capacities.trans (capacities_setInt_stored sound fair stored value)⟩
termination_by keysLeft key
decreasing_by exact keysLeft_add_one ‹_›

/-- A removal from a strong table finds its key and its value whatever was reclaimed. -/
theorem remove_eq (sound : t.Sound) (strong : t.policy = .allStrong) (live : Liveness)
    (alive : Ref → Bool) (pos : Int64) :
    let first := if pos = 0 then Int64.ofNat (t.length alive) else pos
    t.remove live pos =
      if (t.length alive : Int) < first.toInt then none
      else (t.getInt alive first).map fun removed =>
        (removed, t.shiftDown (live.holding removed.refs) first) := by
  rw [sound.length_of_strong strong alive fun r => live t.refs r,
    sound.getInt_of_strong strong alive fun r => live t.refs r]
  rfl

/-- A removal that finds a value takes it out and moves down what is behind it. -/
theorem remove_present (sound : t.Sound) (strong : t.policy = .allStrong) (live : Liveness)
    {pos : Int64} (chosen : first = if pos = 0 then Int64.ofNat (t.length alive) else pos)
    (range : first.toInt ≤ t.length alive) (found : t.getInt alive first = some v)
    (below : first ≠ Int64.maxValue) (ends : t.FirstGap alive (first + 1) gap) :
    ∃ t', t.remove live pos = some (v, t') ∧ ShiftedDown alive t t' first gap ∧
      t'.capacities = t.capacities := by
  refine ⟨t.shiftDown (live.holding v.refs) first, ?_, ?_⟩
  · rw [remove_eq sound strong live alive, ← chosen, if_neg (Int.not_lt.mpr range), found]
    rfl
  · exact shiftedDown_shiftDown sound strong below
      (sound.getInt_eq_some_iff.mp found).1 ends

theorem exists_firstGap (later : first ≤ gap) (absent : t.getInt alive gap = none) :
    ∃ gap, t.FirstGap alive first gap := by
  obtain ⟨last, ends | ⟨_, full⟩⟩ := exists_endsShift t alive first
  · exact ⟨last, ends⟩
  · exact absurd absent (full gap later)

/-- After values were moved up the first gap is one key further up, unless they were moved next to
another run. -/
theorem ShiftedUp.firstGap (shifted : ShiftedUp alive t t' key gap value)
    (ends : t.FirstGap alive key gap) (before : gap ≠ Int64.maxValue)
    (absent : t.getInt alive (gap + 1) = none) : t'.FirstGap alive (key + 1) (gap + 1) := by
  have below : key ≠ Int64.maxValue := by
    rintro rfl
    exact before (Int64.le_antisymm (Int64.le_maxValue gap) ends.later)
  refine ⟨(add_one_le_iff_lt below).mpr ?_, fun k later inside => ?_, ?_⟩
  · exact Int64.lt_of_le_of_lt ends.later (key_lt_add_one before)
  · obtain ⟨j, rfl, later, next⟩ := exists_eq_add_one ((add_one_le_iff_lt below).mp later)
    have inside := (add_one_lt_add_one_iff (ne_greatest_of_lt next) before).mp inside
    rw [shifted.moved j later inside]
    exact ends.run j later inside
  · refine (shifted.others (.int (gap + 1)) fun k same => ?_).trans absent
    cases same
    exact .inr (key_lt_add_one before)

/-- Moving values up and down again leaves what was there before. -/
theorem ShiftedDown.get_eq {between : Table} (sound : t.Sound) (sound' : t'.Sound)
    (up : ShiftedUp alive t between key gap value)
    (down : ShiftedDown alive between t' key (gap + 1)) (before : gap ≠ Int64.maxValue)
    (absent : t.getInt alive gap = none) (other : Value) :
    t'.get alive other = t.get alive other := by
  by_cases inner : ∃ k, other.toKey? = some (.int k) ∧ key ≤ k ∧ k ≤ gap
  · obtain ⟨k, named, later, inside⟩ := inner
    have spelled : other.toKey? = (Value.int k).toKey? := named
    rw [get_congr sound spelled, get_congr sound' spelled]
    show t'.getInt alive k = t.getInt alive k
    have last := down.emptied
    rw [Int64.add_sub_cancel] at last
    by_cases same : k = gap
    · rw [same, last, absent]
    · have inside := Int64.lt_of_le_of_ne inside same
      have below := ne_greatest_of_lt inside
      have moved := down.moved (k + 1) (Int64.lt_of_le_of_lt later (key_lt_add_one below))
        ((add_one_lt_add_one_iff below before).mpr inside)
      rw [Int64.add_sub_cancel] at moved
      rw [moved, up.moved k later inside]
  · have outside (k) (named : other.toKey? = some (.int k)) : k < key ∨ gap < k := by
      by_contra apart
      obtain ⟨later, inside⟩ := not_or.mp apart
      exact inner ⟨k, named, Int64.not_lt.mp later, Int64.not_lt.mp inside⟩
    refine (down.others other fun k named => (outside k named).imp_right ?_).trans
      (up.others other outside)
    exact (add_one_le_iff_lt before).mpr

/-- A removal finds nothing past the border or at an absent key. -/
theorem remove_absent (sound : t.Sound) (strong : t.policy = .allStrong) {pos : Int64}
    (chosen : first = if pos = 0 then Int64.ofNat (t.length alive) else pos)
    (nothing : (t.length alive : Int) < first.toInt ∨ t.getInt alive first = none) :
    t.remove live pos = none := by
  rw [remove_eq sound strong live alive, ← chosen]
  split
  · rfl
  · rename_i range
    rw [nothing.resolve_left range]
    rfl

/-- A removal after an insertion gives what was inserted and puts everything back, if the insertion
did not close a gap between two runs and the border after it is not below its key. -/
theorem remove_insert {live' : Liveness} {pos : Int64} (sound : t.Sound)
    (strong : t.policy = .allStrong) (inner : pos ≠ 0)
    (stored : value ≠ .nil) (ends : t.FirstGap alive pos gap) (before : gap ≠ Int64.maxValue)
    (apart : t.getInt alive (gap + 1) = none) (result : (t.insert live pos value).Bounded)
    (range : pos.toInt ≤ (t.insert live pos value).length alive) :
    ∃ t', (t.insert live pos value).remove live' pos = some (value, t') ∧
      ∀ key, t'.get alive key = t.get alive key := by
  have sound' := sound.insert (.inl strong) result
  have made : t.insert live pos value = t.shiftUp live pos value := if_neg inner
  generalize t.insert live pos value = now at *
  subst made
  have up := (shiftedUp_shiftUp sound strong stored (.inl ends) result).1
  have strong' := up.ruled.trans strong
  have below : pos ≠ Int64.maxValue := fun greatest =>
    before (Int64.le_antisymm (Int64.le_maxValue gap) (greatest ▸ ends.later))
  obtain ⟨t', removed, down, -⟩ := remove_present sound' strong' live' (if_neg inner).symm range
    up.placed below (up.firstGap ends before apart)
  have sound'' := (sound'.remove (.inl strong') removed).1
  exact ⟨t', removed, down.get_eq sound sound'' up before ends.absent⟩

/-- A removal gives nothing past the border or at an absent key, and takes from the border if its
key is zero. Otherwise it gives the value of the key and shifts all values down that come after the
key without a gap, in place. So it undoes an insertion, if that did not close a gap between two runs
and did not leave the border below its key. -/
theorem remove_shifts_down (reachable : t.Reachable) (strong : t.policy = .allStrong)
    (alive : Ref → Bool) (few : (t.livePairs alive).length < 2 ^ 62) (pos : Int64) :
    ∃ first : Int64, first.toInt = (if pos = 0 then (t.length alive : Int) else pos.toInt) ∧
      (∀ live, (t.length alive : Int) < pos.toInt ∨ t.getInt alive first = none →
        t.remove live pos = none) ∧
      (∀ live v, pos.toInt ≤ t.length alive → t.getInt alive first = some v →
        ∃ t' gap, t.remove live pos = some (v, t') ∧ t.FirstGap alive (first + 1) gap ∧
          ShiftedDown alive t t' first gap ∧ t'.capacities = t.capacities) ∧
      ∀ live live' value gap, pos ≠ 0 → value ≠ .nil → t.FirstGap alive pos gap →
        gap < Int64.maxValue → t.getInt alive (gap + 1) = none →
        (t.insert live pos value).Bounded →
        pos.toInt ≤ (t.insert live pos value).length alive →
        ∃ t', (t.insert live pos value).remove live' pos = some (value, t') ∧
          ∀ key, t'.get alive key = t.get alive key := by
  obtain ⟨sound, bounded⟩ := reachable.sound_bounded
  obtain ⟨small, next⟩ := bounded.absent_after_length few
  have top : maxInt = 2 ^ 63 - 1 := rfl
  have length : (Int64.ofNat (t.length alive)).toInt = t.length alive :=
    Int64.toInt_ofNat_of_lt (by omega)
  obtain ⟨first, chosen⟩ : ∃ first, first = if pos = 0 then Int64.ofNat (t.length alive) else pos :=
    ⟨_, rfl⟩
  have named : first.toInt = if pos = 0 then (t.length alive : Int) else pos.toInt := by
    rw [chosen, apply_ite Int64.toInt, length]
  have zero : (0 : Int64).toInt = 0 := rfl
  refine ⟨first, named, fun live nothing => ?_, fun live v range found => ?_, ?_⟩
  · refine remove_absent sound strong chosen (nothing.imp_left fun past => ?_)
    rw [named]
    split
    · rename_i append
      rw [append, zero] at past
      omega
    · exact past
  · have range : first.toInt ≤ t.length alive := by
      rw [named]
      split <;> omega
    have before : first < Int64.ofNat (t.length alive + 1) := by
      rw [Int64.lt_iff_toInt_lt, Int64.toInt_ofNat_of_lt (by omega)]
      omega
    have below := ne_greatest_of_lt before
    obtain ⟨gap, ends⟩ := exists_firstGap ((add_one_le_iff_lt below).mpr before) next
    obtain ⟨t', removed, shifted, capacities⟩ :=
      remove_present sound strong live chosen range found below ends
    exact ⟨t', gap, removed, ends, shifted, capacities⟩
  · intro live live' value gap inner stored ends before apart result range
    exact remove_insert sound strong inner stored ends (ne_greatest_of_lt before) apart
      result range

omit [Hashing] in
/-- A removal from the array region that takes a value over from the hash region. It undoes the
insertion of what it removed. -/
theorem remove_shifts_across_regions :
    let changes : List Change := [.setInt 1 (.int 10), .setInt 2 (.int 20), .setInt 3 (.int 30),
      .set (.text (.short "a")) (.bool true), .setInt 4 (.int 40), .setInt 5 (.int 50)]
    let t := @after .uniform .empty (changes.map (nothingReclaimed, ·))
    let alive : Ref → Bool := fun _ => true
    let between := @insert .uniform nothingReclaimed t 2 (.int 15)
    t.capacities = (4, 2) ∧ between.capacities = (8, 2) ∧
      (∃ t', @remove .uniform nothingReclaimed t 2 = some (.int 20, t') ∧
        t'.capacities = (4, 2) ∧ ∃ gap, @ShiftedDown .uniform alive t t' 2 gap) ∧
      ∃ t', @remove .uniform nothingReclaimed between 2 = some (.int 15, t') ∧
        ∀ key, @get .uniform t' alive key = @get .uniform t alive key := by
  intro changes t alive between
  let hashing : Hashing := .uniform
  have reachable : t.Reachable := reachable_after_empty (by decide +kernel)
  obtain ⟨first, chosen, -, removes, undoes⟩ :=
    remove_shifts_down reachable (by decide +kernel) alive (by decide +kernel) 2
  obtain rfl : first = 2 := Int64.toInt.inj chosen
  obtain ⟨t', gap, removed, -, shifted, capacities⟩ :=
    removes nothingReclaimed (.int 20) (by decide +kernel) (by decide +kernel)
  have ends : t.FirstGap alive 2 6 := by
    refine ⟨by decide, fun k later before => ?_, by decide +kernel⟩
    rw [Int64.le_iff_toInt_le] at later
    rw [Int64.lt_iff_toInt_lt] at before
    have low : (2 : Int64).toInt = 2 := rfl
    have high : (6 : Int64).toInt = 6 := rfl
    obtain same | same | same | same : k.toInt = 2 ∨ k.toInt = 3 ∨ k.toInt = 4 ∨ k.toInt = 5 := by
      omega
    · obtain rfl : k = 2 := Int64.toInt.inj same
      decide +kernel
    · obtain rfl : k = 3 := Int64.toInt.inj same
      decide +kernel
    · obtain rfl : k = 4 := Int64.toInt.inj same
      decide +kernel
    · obtain rfl : k = 5 := Int64.toInt.inj same
      decide +kernel
  obtain ⟨t'', undone, same⟩ := undoes nothingReclaimed nothingReclaimed (.int 15) 6 (by decide)
    nofun ends (by decide) (by decide +kernel) (by decide +kernel) (by decide +kernel)
  exact ⟨by decide +kernel, by decide +kernel, ⟨t', removed, capacities.trans (by decide +kernel),
    gap, shifted⟩, t'', undone, same⟩

end HybridTable.Table
