import HybridTable.Proofs.CheckedResizing
import HybridTable.Proofs.Shifting

/-! Writing in checked steps. The count goes down by one for an entry that was found, or by as many
entries as were dropped from a chain; all of them had been counted. An entry is added where a free
bucket was found or made. -/
namespace HybridTable

namespace Chain

/-- `Chain.prune`, with the number of entries that it drops. -/
def pruneCounting (live : Liveness) : Chain → Chain × Nat
  | [] => ([], 0)
  | slot :: rest =>
    if slot.isAlive fun r => live (slot.refs ++ rest.flatMap Slot.refs) r then
      let (kept, dropped) := pruneCounting (live.holding slot.refs) rest
      (slot :: kept, dropped)
    else
      let (kept, dropped) := pruneCounting live rest
      (kept, if slot.isDead then dropped else dropped + 1)

theorem pruneCounting_eq (live : Liveness) (chain : Chain) : pruneCounting live chain =
    (prune live chain, chain.entryCount - (prune live chain).entryCount) := by
  induction chain generalizing live with
  | nil => rfl
  | cons slot rest ih =>
    have fewer : entryCount (prune live rest) ≤ entryCount rest :=
      (prune_sublist live rest).countP_le
    unfold pruneCounting prune
    split
    · rw [ih]
      refine Prod.ext rfl ?_
      simp only [entryCount, List.countP_cons, Nat.add_sub_add_right]
    · rw [ih]
      refine Prod.ext rfl ?_
      unfold entryCount at fewer ⊢
      cases slot with
      | live e =>
        have own : (Slot.live e :: rest).countP (!·.isDead) = rest.countP (!·.isDead) + 1 :=
          List.countP_cons_of_pos rfl
        rw [own, Nat.sub_add_comm fewer]
        rfl
      | dead own => rfl

end Chain

namespace Table

section
variable [Hashing] (t : Table) (live : Liveness)

omit [Hashing] in
/-- `Table.setPosition` in checked steps. -/
def checkedSetPosition (position : Nat) (value : Value) : Checked Table :=
  t.checkedSetCell position (if value.isNil then none else some (t.policy.valueCell value))

/-- `Table.removeHashed` in checked steps. -/
def checkedRemoveHashed (key : Value) : Checked Table :=
  if t.buckets.isEmpty then return t
  else do
    let (bucket, chain) ← t.checkedChain key.keyHash (t.buckets.size - 1)
    match chain.amend? (fun r => live t.refs r) key fun _ => .dead (.forTombstone key) with
    | some chain =>
      let t ← t.checkedSetChain bucket chain
      return { t with count := ← Checked.sub t.count 1 }
    | none => return t

omit [Hashing] in
/-- `Table.pruneChain` in checked steps, for a bucket whose chain has been read. -/
def checkedPrune (bucket : Nat) (chain : Chain) : Checked Table := do
  let others : Liveness := fun held => live ((t.setChain bucket []).refs ++ held)
  let (kept, dropped) := chain.pruneCounting others
  let t ← t.checkedSetChain bucket kept
  return { t with count := ← Checked.sub t.count dropped }

/-- `Table.append` in checked steps. -/
def checkedAppend (key value : Value) : Checked Table := do
  let t := t.opened
  let entry := Entry.make t.policy key value
  let (bucket, chain) ← t.checkedChain entry.keyHash (← Checked.sub t.buckets.size 1)
  let t ← t.checkedSetChain bucket (chain ++ [.live entry])
  return { t with count := t.count + 1 }

/-- `Table.addHashed` in checked steps. -/
def checkedAddHashed (key value : Value) : Checked Table :=
  if t.count < t.buckets.size then t.checkedAppend key value
  else match key with
    | .int i =>
      if 0 < i.toInt ∧ i.toInt ≤ maxArrayKey then do
        let t ← t.checkedRehash live (.arrayKey i.toInt.toNat)
        match ← t.checkedPosition? i with
        | some position => t.checkedSetPosition position value
        | none => t.checkedAppend key value
      else do (← t.checkedRehash live .hashKey).checkedAppend key value
    | _ => do (← t.checkedRehash live .hashKey).checkedAppend key value

/-- `Table.setHashed` in checked steps. -/
def checkedSetHashed (key value : Value) : Checked Table :=
  let live := live.holding (key.refs ++ value.refs)
  if value.isNil then t.checkedRemoveHashed live key
  else if t.buckets.isEmpty then t.checkedAddHashed live key value
  else do
    let (bucket, chain) ← t.checkedChain key.keyHash (t.buckets.size - 1)
    let overwrite (entry : Entry) : Slot := .live (entry.replace t.policy value)
    match chain.amend? (fun r => live t.refs r) key overwrite with
    | some chain => t.checkedSetChain bucket chain
    | none => (← t.checkedPrune live bucket chain).checkedAddHashed live key value

/-- `Table.setInt` in checked steps. -/
def checkedSetInt (key : Int64) (value : Value) : Checked Table := do
  match ← t.checkedPosition? key with
  | some position => t.checkedSetPosition position value
  | none => t.checkedSetHashed live (.int key) value

/-- `Table.put` in checked steps. -/
def checkedPut (key value : Value) : Checked Table :=
  match key.normalize with
  | .int i => t.checkedSetInt live i value
  | key => t.checkedSetHashed live key value

/-- `Table.set` in checked steps. -/
def checkedSet (key value : Value) : Checked (Except Error Table) :=
  match key.keyDefect? with
  | some defect => return .error (.invalidKey defect)
  | none => do return .ok (← t.checkedPut live key value)

end

section
variable [Hashing] (live : Liveness)

/-- `Table.shiftUp` in checked steps. -/
def checkedShiftUp (t : Table) (key : Int64) (value : Value) : Checked Table :=
  if value.isNil then return t
  else do
    let displaced := (← t.checkedGetInt (fun r => live (value.refs ++ t.refs) r) key).getD .nil
    let t ← t.checkedSetInt (live.holding displaced.refs) key value
    if _ : key = Int64.maxValue then return t else t.checkedShiftUp (key + 1) displaced
termination_by keysLeft key
decreasing_by exact keysLeft_add_one ‹_›

/-- `Table.shiftDown` in checked steps. -/
def checkedShiftDown (t : Table) (key : Int64) : Checked Table :=
  if _ : key = Int64.maxValue then t.checkedSetInt live key .nil
  else do
    match ← t.checkedGetInt (fun r => live t.refs r) (key + 1) with
    | some value => (← t.checkedSetInt live key value).checkedShiftDown (key + 1)
    | none => t.checkedSetInt live key .nil
termination_by keysLeft key
decreasing_by exact keysLeft_add_one ‹_›

/-- `Table.insert` in checked steps. -/
def checkedInsert (t : Table) (key : Int64) (value : Value) : Checked Table :=
  if key = 0 then do
    let length ← t.checkedBorder fun r => live (value.refs ++ t.refs) r
    if length < maxInt then t.checkedShiftUp live (Int64.ofNat (length + 1)) value else return t
  else t.checkedShiftUp live key value

/-- `Table.remove` in checked steps. -/
def checkedRemove (t : Table) (key : Int64) : Checked (Option (Value × Table)) := do
  let alive : Ref → Bool := fun r => live t.refs r
  let length ← t.checkedBorder alive
  let key := if key = 0 then Int64.ofNat length else key
  if (length : Int) < key.toInt then return none
  else match ← t.checkedGetInt alive key with
    | some removed =>
      return some (removed, ← t.checkedShiftDown (live.holding removed.refs) key)
    | none => return none

end

/-! ## Nothing goes wrong -/

variable [Hashing] {t : Table} {live : Liveness} {key value : Value}

omit [Hashing] in
theorem checkedSetPosition_eq {position : Nat} (inside : position < t.array.size) (value : Value) :
    t.checkedSetPosition position value = .ok (t.setPosition position value) :=
  checkedSetCell_eq inside _

omit [Hashing] in
theorem size_buckets_opened (t : Table) : 0 < t.opened.buckets.size := by
  unfold opened
  split
  · rw [Array.size_replicate]
    decide
  · rename_i some_bucket
    simpa [Nat.pos_iff_ne_zero] using some_bucket

/-- A hash region is opened before an entry is added. -/
theorem checkedAppend_eq (t : Table) (key value : Value) :
    t.checkedAppend key value = .ok (t.append key value) := by
  have some_bucket := t.size_buckets_opened
  have inside := t.opened.bucketOf_lt key some_bucket
  have hash : (Entry.make t.opened.policy key value).keyHash = key.keyHash := by
    rw [Entry.keyHash_eq, Entry.key_make]
  unfold checkedAppend
  dsimp only
  rw [hash, Checked.sub_eq some_bucket, Checked.ok_bind, checkedChain_key some_bucket,
    Checked.ok_bind, append_eq]
  dsimp only
  rw [checkedSetChain_eq inside]
  rfl

section
variable (sound : t.Sound)
include sound

/-- An entry that is removed was counted. -/
theorem checkedRemoveHashed_eq (live : Liveness) (key : Value) :
    t.checkedRemoveHashed live key = .ok (t.removeHashed live key) := by
  unfold checkedRemoveHashed removeHashed
  dsimp only
  by_cases empty : t.buckets.isEmpty = true
  · have outside : t.buckets.size ≤ t.bucketOf key := by simp_all
    rw [if_pos empty, t.chain_outside outside]
    rfl
  · have some_bucket : 0 < t.buckets.size := by simpa [Nat.pos_iff_ne_zero] using empty
    have inside := t.bucketOf_lt key some_bucket
    rw [if_neg empty, checkedChain_key some_bucket, Checked.ok_bind]
    dsimp only
    cases found : (t.chain (t.bucketOf key)).amend? (fun r => live t.refs r) key
        fun _ => .dead (.forTombstone key) with
    | none => rfl
    | some chain =>
      obtain ⟨before, e, after, split, _⟩ := Chain.amend?_eq_some (sound.named _) found
      have positive := sound.count_pos (show .live e ∈ t.chain (t.bucketOf key) by simp [split])
      dsimp only
      rw [checkedSetChain_eq inside, Checked.ok_bind, count_setChain, Checked.sub_eq positive]
      rfl

/-- The entries that are dropped from a chain were counted. -/
theorem checkedPrune_eq (live : Liveness) {bucket : Nat} (inside : bucket < t.buckets.size) :
    t.checkedPrune live bucket (t.chain bucket) = .ok (t.pruneChain live bucket) := by
  have counted := sound.entryCount_le bucket
  unfold checkedPrune pruneChain
  dsimp only
  rw [Chain.pruneCounting_eq]
  dsimp only
  rw [checkedSetChain_eq inside, Checked.ok_bind, count_setChain,
    Checked.sub_eq (Nat.le_trans (Nat.sub_le ..) counted)]
  rfl

variable (fair : live.Fair t.policy)
include fair

theorem checkedAddHashed_eq (key value : Value) :
    t.checkedAddHashed live key value = .ok (t.addHashed live key value) := by
  have rehashed {pending : Pending} (range : ∀ key, pending = .arrayKey key → key ≤ maxArrayKey) :
      t.checkedRehash live pending = .ok (t.rehash live pending) :=
    checkedRehash_eq sound fair t.metatable t.policy range
  unfold checkedAddHashed addHashed
  split
  · exact checkedAppend_eq ..
  · cases key with
    | int i =>
      dsimp only
      split
      · rw [rehashed (by rintro key ⟨⟩; omega), Checked.ok_bind, checkedPosition?_eq,
          Checked.ok_bind]
        cases found : (t.rehash live (.arrayKey i.toInt.toNat)).position? i with
        | some position => exact checkedSetPosition_eq (lt_of_position? found) value
        | none => exact checkedAppend_eq ..
      · rw [rehashed (by rintro key ⟨⟩)]
        exact checkedAppend_eq ..
    | _ =>
      dsimp only
      rw [rehashed (by rintro key ⟨⟩)]
      exact checkedAppend_eq ..

theorem checkedSetHashed_eq (key value : Value) :
    t.checkedSetHashed live key value = .ok (t.setHashed live key value) := by
  have fair := fair.holding (key.refs ++ value.refs)
  unfold checkedSetHashed setHashed
  dsimp only
  split
  · exact checkedRemoveHashed_eq sound _ key
  · by_cases empty : t.buckets.isEmpty = true
    · have outside : t.buckets.size ≤ t.bucketOf key := by simp_all
      rw [if_pos empty, t.chain_outside outside]
      dsimp only [Chain.amend?]
      rw [pruneChain_outside outside]
      exact checkedAddHashed_eq sound fair key value
    · have some_bucket : 0 < t.buckets.size := by simpa [Nat.pos_iff_ne_zero] using empty
      have inside := t.bucketOf_lt key some_bucket
      rw [if_neg empty, checkedChain_key some_bucket, Checked.ok_bind]
      dsimp only
      cases (t.chain (t.bucketOf key)).amend?
          (fun r => live.holding (key.refs ++ value.refs) t.refs r) key
          (fun e => .live (e.replace t.policy value)) with
      | some chain => exact checkedSetChain_eq inside chain
      | none =>
        obtain ⟨moved, _⟩ := migrated_pruneChain sound fair (t.bucketOf key)
        dsimp only
        rw [checkedPrune_eq sound _ inside]
        exact checkedAddHashed_eq moved.sound (moved.ruled.symm ▸ fair) key value

theorem checkedSetInt_eq (key : Int64) (value : Value) :
    t.checkedSetInt live key value = .ok (t.setInt live key value) := by
  rw [checkedSetInt, checkedPosition?_eq, Checked.ok_bind]
  unfold setInt
  cases found : t.position? key with
  | some position => exact checkedSetPosition_eq (lt_of_position? found) value
  | none => exact checkedSetHashed_eq sound fair (.int key) value

theorem checkedPut_eq (key value : Value) :
    t.checkedPut live key value = .ok (t.put live key value) := by
  unfold checkedPut put
  cases key.normalize with
  | int i => exact checkedSetInt_eq sound fair i value
  | _ => exact checkedSetHashed_eq sound fair _ value

theorem checkedSet_eq (key value : Value) :
    t.checkedSet live key value = .ok (t.set live key value) := by
  unfold checkedSet set
  cases key.keyDefect? with
  | some defect => rfl
  | none =>
    dsimp only
    rw [checkedPut_eq sound fair]
    rfl

end

/-- Each step of a shift upwards but the last overwrites a key that is stored. -/
theorem checkedShiftUp_eq {t : Table} {key : Int64} {value : Value} (sound : t.Sound)
    (fair : live.Fair t.policy) :
    t.checkedShiftUp live key value = .ok (t.shiftUp live key value) := by
  unfold checkedShiftUp shiftUp
  split
  · rfl
  · rw [checkedGetInt_eq sound.room, Checked.ok_bind]
    dsimp only
    rw [checkedSetInt_eq sound (fair.holding _), Checked.ok_bind]
    split
    · rfl
    · cases found : t.getInt (fun r => live (value.refs ++ t.refs) r) key with
      | none =>
        rw [Option.getD_none]
        unfold checkedShiftUp shiftUp
        rfl
      | some displaced =>
        have stored := (sound.getInt_eq_some_iff.mp found).1
        have written := (written_setInt_stored sound (fair.holding displaced.refs) stored value).1
        exact checkedShiftUp_eq written.sound (written.ruled.symm ▸ fair)
termination_by keysLeft key
decreasing_by exact keysLeft_add_one ‹_›

/-- Every step of a shift downwards overwrites a key that is stored. -/
theorem checkedShiftDown_eq {t : Table} {key : Int64} {v : Value} (sound : t.Sound)
    (fair : live.Fair t.policy) (stored : t.Stores (.int key) v) :
    t.checkedShiftDown live key = .ok (t.shiftDown live key) := by
  unfold checkedShiftDown shiftDown
  split
  · exact checkedSetInt_eq sound fair key .nil
  · rename_i below
    rw [checkedGetInt_eq sound.room, Checked.ok_bind]
    cases found : t.getInt (fun r => live t.refs r) (key + 1) with
    | none => exact checkedSetInt_eq sound fair key .nil
    | some value =>
      obtain ⟨written, -, kept⟩ := step_shiftDown sound fair below stored found
      dsimp only
      rw [checkedSetInt_eq sound fair, Checked.ok_bind]
      exact checkedShiftDown_eq written.sound (written.ruled.symm ▸ fair) kept
termination_by keysLeft key
decreasing_by exact keysLeft_add_one ‹_›

section
variable (sound : t.Sound) (fair : live.Fair t.policy) (bounded : t.Bounded)
include sound fair bounded

theorem checkedInsert_eq (key : Int64) {value : Value}
    (few : (t.livePairs fun r => live (value.refs ++ t.refs) r).length < 2 ^ 62) :
    t.checkedInsert live key value = .ok (t.insert live key value) := by
  unfold checkedInsert insert
  split
  · rw [checkedBorder_eq sound.room bounded.size_lt few, Checked.ok_bind]
    dsimp only
    split
    · exact checkedShiftUp_eq sound fair
    · rfl
  · exact checkedShiftUp_eq sound fair

theorem checkedRemove_eq (key : Int64)
    (few : (t.livePairs fun r => live t.refs r).length < 2 ^ 62) :
    t.checkedRemove live key = .ok (t.remove live key) := by
  unfold checkedRemove remove
  dsimp only
  rw [checkedBorder_eq sound.room bounded.size_lt few, Checked.ok_bind]
  generalize (if key = 0 then _ else key : Int64) = key
  split
  · rfl
  · rw [checkedGetInt_eq sound.room, Checked.ok_bind]
    cases found : t.getInt (fun r => live t.refs r) key with
    | none => rfl
    | some removed =>
      have stored := (sound.getInt_eq_some_iff.mp found).1
      dsimp only
      rw [checkedShiftDown_eq sound (fair.holding _) stored]
      rfl

end

end Table

end HybridTable
