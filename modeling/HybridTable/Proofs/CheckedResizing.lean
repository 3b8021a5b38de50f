import HybridTable.Proofs.CheckedReads
import HybridTable.Proofs.Histogram

/-! Resizing in checked steps. A pair that arrives was counted, so there is a bucket for it; the
integer keys that are counted are within the limit of the histogram. -/
namespace HybridTable

/-- The least power of two that is at least `n`, within the range of sizes. -/
def Checked.ceilPowerOfTwo (n : Nat) : Checked Nat :=
  if n ≤ 2 ^ 63 then .ok (HybridTable.ceilPowerOfTwo n) else .error .overflow

/-- `Moving.toEntry` in checked steps: the key of a position is computed. -/
def Moving.checkedToEntry (policy : WeakPolicy) (rebuild : Bool) : Moving → Checked Entry
  | cell key c => do return .make policy (.int (Int64.ofNat (← Checked.key key))) c.content
  | entry e => return (entry e).toEntry policy rebuild

namespace Table

section
variable (t : Table)

/-- `Table.setCell` in checked steps. -/
def checkedSetCell (position : Nat) (cell : Option Cell) : Checked Table := do
  return { t with array := ← Checked.write t.array position cell }

/-- `Table.setChain` in checked steps. -/
def checkedSetChain (bucket : Nat) (chain : Chain) : Checked Table := do
  return { t with buckets := ← Checked.write t.buckets bucket chain }

/-- `Table.idealSizes` in checked steps. -/
def checkedIdealSizes (alive : Ref → Bool) (pending : Pending) : Checked (Nat × Nat) := do
  let arraySize ← Checked.arraySize (pending.counted (t.countedKeys alive))
  return (arraySize, hashCapacityFor (t.stays alive arraySize + pending.arriving arraySize))

variable [Hashing]

/-- `Table.place` in checked steps. -/
def checkedPlace (rebuild : Bool) (item : Moving) : Checked Table := do
  match item.arrayKey? t.array.size with
  | some key =>
    t.checkedSetCell (← Checked.sub key 1) (some (t.policy.valueCell item.value))
  | none =>
    let entry ← item.checkedToEntry t.policy rebuild
    let (bucket, chain) ← t.checkedChain entry.keyHash (t.buckets.size - 1)
    let t ← t.checkedSetChain bucket (.live entry :: chain)
    return { t with count := t.count + 1 }

end

section
variable [Hashing] (live : Liveness)

/-- `Table.placeAll` in checked steps. -/
def checkedPlaceAll (rebuild : Bool) : List Moving → Table → Checked Table
  | [], t => return t
  | item :: rest, t =>
    if item.isAlive fun r => live (t.refs ++ (item :: rest).flatMap Moving.refs) r then do
      checkedPlaceAll rebuild rest (← t.checkedPlace rebuild item)
    else checkedPlaceAll rebuild rest t

/-- `Table.resize` in checked steps. -/
def checkedResize (rebuild : Bool) (arrayCapacity hashCapacity : Nat) (t : Table) :
    Checked Table :=
  checkedPlaceAll live rebuild t.moving (sized arrayCapacity hashCapacity t.metatable t.policy)

/-- `Table.rehash` in checked steps. -/
def checkedRehash (pending : Pending) (t : Table) : Checked Table := do
  let (arraySize, hashSize) ← t.checkedIdealSizes (fun r => live t.refs r) pending
  let rebuild := match pending with
    | .none => true
    | _ => false
  t.checkedResize live rebuild arraySize hashSize

/-- `Table.presizeArray` in checked steps. -/
def checkedPresizeArray (positions : Nat) (t : Table) : Checked Table :=
  if t.array.size < positions then do
    t.checkedResize live false (← Checked.ceilPowerOfTwo positions) t.buckets.size
  else return t

/-- `Table.attachMetatable` in checked steps. -/
def checkedAttachMetatable (metatable : Option Ref) (policy : WeakPolicy) (t : Table) :
    Checked Table :=
  if policy ≠ t.policy then (t.governed metatable policy).checkedRehash live .none
  else return t.governed metatable policy

end

end Table

/-! ## Nothing goes wrong -/

theorem Checked.ceilPowerOfTwo_eq {n : Nat} (range : n ≤ 2 ^ 63) :
    Checked.ceilPowerOfTwo n = .ok (HybridTable.ceilPowerOfTwo n) := if_pos range

namespace Moving

variable {policy : WeakPolicy} {item : Moving}

theorem Proper.checkedToEntry_eq (proper : item.Proper policy) (next : WeakPolicy)
    (rebuild : Bool) : item.checkedToEntry next rebuild = .ok (item.toEntry next rebuild) := by
  cases item with
  | cell key c =>
    have limit : 2 ^ maxArrayBits ≤ maxInt := by decide
    obtain ⟨_, small, _⟩ := proper.inRange key c rfl
    rw [checkedToEntry, Checked.key_eq (Nat.le_trans small limit)]
    rfl
  | entry e => rfl

/-- What counts for the size of the array region is within the histogram. -/
theorem Proper.countedKey?_le (proper : item.Proper policy) {key : Nat}
    (counted : item.countedKey? = some key) : key ≤ 2 ^ maxArrayBits := by
  have limit : maxArrayKey ≤ 2 ^ maxArrayBits := by decide
  cases item with
  | cell n c =>
    cases counted
    exact (proper.inRange key c rfl).2.1
  | entry e =>
    obtain ⟨_, below, _⟩ := proper.arrayKey?_eq_some_iff.mp counted
    omega

end Moving

namespace Table

section
variable {t : Table}

theorem checkedSetCell_eq {position : Nat} (inside : position < t.array.size)
    (cell : Option Cell) : t.checkedSetCell position cell = .ok (t.setCell position cell) := by
  rw [checkedSetCell, Checked.write_eq inside]
  rfl

theorem checkedSetChain_eq {bucket : Nat} (inside : bucket < t.buckets.size) (chain : Chain) :
    t.checkedSetChain bucket chain = .ok (t.setChain bucket chain) := by
  rw [checkedSetChain, Checked.write_eq inside]
  rfl

end

variable [Hashing] {t : Table} {live : Liveness} {policy : WeakPolicy} {item : Moving}
  {items : List Moving} {rebuild : Bool}

/-- A pair finds its position or its bucket, if there is a hash region for a pair that needs one. -/
theorem checkedPlace_eq (proper : item.Proper policy)
    (room : item.arrayKey? t.array.size = none → 0 < t.buckets.size) :
    t.checkedPlace rebuild item = .ok (t.place rebuild item) := by
  unfold checkedPlace place
  cases found : item.arrayKey? t.array.size with
  | some key =>
    obtain ⟨low, high, _⟩ := proper.arrayKey?_eq_some_iff.mp found
    dsimp only
    rw [Checked.sub_eq low, Checked.ok_bind, checkedSetCell_eq (by omega)]
  | none =>
    have some_bucket := room found
    have inside (h : KeyHash) : h.bucket (t.buckets.size - 1) < t.buckets.size := by
      have := h.bucket_le (t.buckets.size - 1)
      omega
    dsimp only
    rw [proper.checkedToEntry_eq, Checked.ok_bind, checkedChain_eq some_bucket, Checked.ok_bind,
      checkedSetChain_eq (inside _)]
    rfl

theorem checkedPlaceAll_eq (proper : ∀ item ∈ items, item.Proper policy)
    (room : ∀ item ∈ placed live rebuild items t, item.arrayKey? t.array.size = none →
      0 < t.buckets.size) :
    checkedPlaceAll live rebuild items t = .ok (placeAll live rebuild items t) := by
  induction items generalizing t with
  | nil => rfl
  | cons item rest ih =>
    have restProper : ∀ item ∈ rest, item.Proper policy := fun other member =>
      proper other (List.mem_cons_of_mem item member)
    unfold placed at room
    unfold checkedPlaceAll placeAll
    split
    · rename_i readable
      rw [if_pos readable] at room
      rw [checkedPlace_eq (proper item List.mem_cons_self) (room item List.mem_cons_self)]
      refine ih restProper fun other arrives => ?_
      rw [size_array_place, size_buckets_place]
      exact room other (List.mem_cons_of_mem item arrives)
    · rename_i lost
      rw [if_neg lost] at room
      exact ih restProper room

section
variable (sound : t.Sound) (fair : live.Fair t.policy)
include sound fair

/-- Regions with room for what was counted take all that arrives. -/
theorem checkedResize_eq {metatable : Option Ref} {arrayCapacity hashCapacity : Nat}
    (room : t.stays (fun r => live (t.governed metatable policy).refs r) arrayCapacity ≤
      hashCapacity) :
    (t.governed metatable policy).checkedResize live rebuild arrayCapacity hashCapacity =
      .ok ((t.governed metatable policy).resize live rebuild arrayCapacity hashCapacity) := by
  refine checkedPlaceAll_eq (fun item moves => sound.proper moves) fun item arrives outside => ?_
  let new := sized arrayCapacity hashCapacity metatable policy
  have arrays : new.array.size = arrayCapacity := by simp [new, sized]
  have buckets : new.buckets.size = hashCapacity := by simp [new, sized]
  have counted : 0 < (placed live rebuild t.moving new).countP
      (fun item => (item.arrayKey? arrayCapacity).isNone) :=
    List.countP_pos_iff.mpr ⟨item, arrives, Option.isNone_iff_eq_none.mpr (arrays ▸ outside)⟩
  exact buckets.symm ▸ Nat.lt_of_lt_of_le counted
    (Nat.le_trans (countP_placed_le sound fair arrayCapacity) room)

omit [Hashing] sound fair in
/-- No key that is counted is beyond the histogram. -/
theorem checkedIdealSizes_eq (proper : ∀ item ∈ t.moving, item.Proper policy) (alive : Ref → Bool)
    {pending : Pending} (range : ∀ key, pending = .arrayKey key → key ≤ maxArrayKey) :
    t.checkedIdealSizes alive pending = .ok (t.idealSizes alive pending) := by
  have limit : maxArrayKey ≤ 2 ^ maxArrayBits := by decide
  have stored : ∀ key ∈ t.countedKeys alive, key ≤ 2 ^ maxArrayBits := by
    intro key listed
    obtain ⟨item, present, counted⟩ := List.mem_filterMap.mp listed
    exact (proper item (List.mem_filter.mp present).1).countedKey?_le counted
  have inside : ∀ key ∈ pending.counted (t.countedKeys alive), key ≤ 2 ^ maxArrayBits := by
    intro key listed
    cases pending with
    | arrayKey new =>
      rcases List.mem_cons.mp listed with rfl | old
      · exact Nat.le_trans (range key rfl) limit
      · exact stored key old
    | _ => exact stored key listed
  rw [checkedIdealSizes, Checked.arraySize_eq inside, Checked.ok_bind, ← idealSizes_array,
    ← idealSizes_room]
  rfl

theorem checkedRehash_eq (metatable : Option Ref) (policy : WeakPolicy) {pending : Pending}
    (range : ∀ key, pending = .arrayKey key → key ≤ maxArrayKey) :
    (t.governed metatable policy).checkedRehash live pending =
      .ok ((t.governed metatable policy).rehash live pending) := by
  let old := t.governed metatable policy
  have proper : ∀ item ∈ old.moving, item.Proper t.policy := fun item moves => sound.proper moves
  let sizes := old.idealSizes (fun r => live old.refs r) pending
  have room : old.stays (fun r => live old.refs r) sizes.1 ≤ sizes.2 := by
    rw [idealSizes_room]
    exact Nat.le_trans (Nat.le_add_right ..) (le_hashCapacityFor _)
  unfold checkedRehash rehash
  rw [checkedIdealSizes_eq proper _ range, Checked.ok_bind]
  exact checkedResize_eq sound fair room

theorem checkedPresizeArray_eq {positions : Nat} (range : positions ≤ 2 ^ 63) :
    t.checkedPresizeArray live positions = .ok (t.presizeArray live positions) := by
  unfold checkedPresizeArray presizeArray
  split
  · rename_i more
    have larger : t.array.size ≤ arrayCapacityFor positions :=
      Nat.le_trans (Nat.le_of_lt more) (le_arrayCapacityFor positions)
    have same : HybridTable.ceilPowerOfTwo positions = arrayCapacityFor positions :=
      (if_neg (by omega)).symm
    have room : t.stays (fun r => live (t.governed t.metatable t.policy).refs r)
        (arrayCapacityFor positions) ≤ t.buckets.size :=
      Nat.le_trans (sound.stays_le larger) sound.room
    rw [Checked.ceilPowerOfTwo_eq range, Checked.ok_bind, same]
    exact checkedResize_eq sound fair room
  · rfl

theorem checkedAttachMetatable_eq (metatable : Option Ref) (policy : WeakPolicy) :
    t.checkedAttachMetatable live metatable policy =
      .ok (t.attachMetatable live metatable policy) := by
  unfold checkedAttachMetatable attachMetatable
  dsimp only
  by_cases changed : policy ≠ t.policy
  · rw [if_pos changed, if_pos changed]
    exact checkedRehash_eq sound fair metatable policy (by rintro key ⟨⟩)
  · rw [if_neg changed, if_neg changed]
    rfl

end

end Table

end HybridTable
