import HybridTable.Proofs.Borders
import HybridTable.Proofs.Listing

/-! Reading in checked steps. A bucket is read at an index that a hash code has picked, and the
remainder is one by the number of the other buckets; both go well as long as there is a bucket
wherever an entry is looked for, which is what the bound on the count is for. -/
namespace HybridTable

/-- `KeyHash.bucket` in checked steps. -/
def KeyHash.checkedBucket (h : KeyHash) (mask : Nat) : Checked Nat :=
  if mask = 0 then .ok 0
  else if h.byRemainder then Checked.rem (h.code &&& 0x7fffffff).toNat mask
  else .ok (h.code.toNat &&& mask)

theorem KeyHash.checkedBucket_eq (h : KeyHash) (mask : Nat) :
    h.checkedBucket mask = .ok (h.bucket mask) := by
  unfold checkedBucket bucket
  by_cases single : mask = 0
  · rw [if_pos single, if_pos single]
  · rw [if_neg single, if_neg single, Checked.rem_eq single]
    split <;> rfl

namespace Table

section
variable (t : Table) (alive : Ref → Bool)

/-- `Table.position?` in checked steps. -/
def checkedPosition? (key : Int64) : Checked (Option Nat) :=
  if 1 ≤ key.toInt ∧ key.toInt ≤ t.array.size then do
    return some (← Checked.sub key.toInt.toNat 1)
  else return none

/-- `Table.readPosition` in checked steps. -/
def checkedReadPosition (position : Nat) : Checked (Option Value) := do
  return (← Checked.read t.array position).bind (·.read alive)

/-- The chain of a bucket among `mask + 1` of them. -/
def checkedChain (h : KeyHash) (mask : Nat) : Checked (Nat × Chain) := do
  let bucket ← h.checkedBucket mask
  return (bucket, ← Checked.read t.buckets bucket)

variable [Hashing]

/-- `Table.getHashed` in checked steps. -/
def checkedGetHashed (key : Value) : Checked (Option Value) :=
  if t.count = 0 then return none
  else do
    let (_, chain) ← t.checkedChain key.keyHash (t.buckets.size - 1)
    return chain.lookup alive key

/-- `Table.getInt` in checked steps. -/
def checkedGetInt (key : Int64) : Checked (Option Value) := do
  match ← t.checkedPosition? key with
  | some position => t.checkedReadPosition alive position
  | none => t.checkedGetHashed alive (.int key)

/-- `Table.get` in checked steps. -/
def checkedGet (key : Value) : Checked (Option Value) :=
  match key.normalize with
  | .nil => return none
  | .int i => t.checkedGetInt alive i
  | key => t.checkedGetHashed alive key

/-- `Table.length` in checked steps, with every read checked. -/
def checkedBorder : Checked Nat :=
  t.checkedLength (fun key => do
      return (← t.checkedReadPosition alive (← Checked.sub key 1)).isSome)
    fun key => do return (← t.checkedGetInt alive (Int64.ofNat key)).isSome

/-- `Table.nextInt` in checked steps. -/
def checkedNextInt (key : Int64) : Checked (Option (Int64 × Value)) :=
  if key = Int64.maxValue then return none
  else do return (← t.checkedGetInt alive (key + 1)).map (key + 1, ·)

omit [Hashing] in
/-- `Table.firstFrom` in checked steps, from an index into both regions in a row. -/
def checkedFirstFrom (i : Nat) : Checked (Option (Value × Value)) :=
  if i < t.array.size then do
    match ← t.checkedReadPosition alive i with
    | some value => return some (.int (Int64.ofNat (← Checked.key (i + 1))), value)
    | none => checkedFirstFrom (i + 1)
  else do
    let bucket ← Checked.sub i t.array.size
    if bucket ≤ t.buckets.size then return t.firstInBuckets alive bucket else .error .index
termination_by t.array.size - i

/-- `Table.nextHashed` in checked steps. -/
def checkedNextHashed (key : Value) : Checked (Except Error (Option (Value × Value))) :=
  if t.buckets.isEmpty then return .error (.invalidIterationKey key)
  else do
    let (bucket, chain) ← t.checkedChain key.keyHash (t.buckets.size - 1)
    match chain.after? alive key with
    | none => return .error (.invalidIterationKey key)
    | some rest => match rest.findSome? (·.pair? alive) with
      | some pair => return .ok (some pair)
      | none => return .ok (← t.checkedFirstFrom alive (bucket + 1 + t.array.size))

/-- `Table.next` in checked steps. -/
def checkedNext (key : Value) : Checked (Except Error (Option (Value × Value))) :=
  match key.normalize with
  | .nil => do return .ok (← t.checkedFirstFrom alive 0)
  | .int i => do
    match ← t.checkedPosition? i with
    | some position => return .ok (← t.checkedFirstFrom alive (position + 1))
    | none => t.checkedNextHashed alive (.int i)
  | key => t.checkedNextHashed alive key

/-- `Table.pairsAfter` in checked steps: the traversal has to come to its end within the limit. -/
def checkedPairsAfter : Nat → Value → Checked (List (Value × Value))
  | 0, _ => .error .endless
  | limit + 1, key => do
    match ← t.checkedNext alive key with
    | .ok (some (key, value)) => return (key, value) :: (← checkedPairsAfter limit key)
    | _ => return []

/-- `Table.keys` in checked steps. -/
def checkedKeys : Checked (List Value) := do
  return (← t.checkedPairsAfter alive (t.placeCount + 1) .nil).map Prod.fst

end

/-! ## Nothing goes wrong -/

section
variable {t : Table}

theorem checkedPosition?_eq (t : Table) (key : Int64) :
    t.checkedPosition? key = .ok (t.position? key) := by
  unfold checkedPosition? position?
  by_cases inside : 1 ≤ key.toInt ∧ key.toInt ≤ t.array.size
  · rw [if_pos inside, if_pos inside, Checked.sub_eq (by omega)]
    rfl
  · rw [if_neg inside, if_neg inside]
    rfl

theorem checkedReadPosition_eq {position : Nat} (inside : position < t.array.size)
    (alive : Ref → Bool) :
    t.checkedReadPosition alive position = .ok (t.readPosition alive position) := by
  have found := Array.getElem?_eq_getElem inside
  rw [checkedReadPosition, Checked.read_eq found]
  simp only [readPosition, found, Checked.ok_bind, Checked.pure_eq]
  cases t.array[position] <;> rfl

theorem checkedChain_eq (some_bucket : 0 < t.buckets.size) (h : KeyHash) :
    t.checkedChain h (t.buckets.size - 1) =
      .ok (h.bucket (t.buckets.size - 1), t.chain (h.bucket (t.buckets.size - 1))) := by
  have picked := h.bucket_le (t.buckets.size - 1)
  have inside : h.bucket (t.buckets.size - 1) < t.buckets.size := by omega
  have found := t.getElem?_buckets inside
  rw [Array.getElem?_toList] at found
  rw [checkedChain, KeyHash.checkedBucket_eq, Checked.ok_bind, Checked.read_eq found]
  rfl

theorem lt_of_position? {key : Int64} {position : Nat} (found : t.position? key = some position) :
    position < t.array.size := by
  unfold position? at found
  split at found <;> cases found
  omega

/-- Among the positions, and from the start of a bucket on, every index is in range. -/
theorem checkedFirstFrom_eq {i : Nat} (size : t.array.size ≤ maxInt) (alive : Ref → Bool)
    (inside : i ≤ t.array.size) : t.checkedFirstFrom alive i = .ok (t.firstFrom alive i) := by
  fun_induction t.firstFrom alive i with
  | case1 i more value read =>
    rw [checkedFirstFrom, if_pos more, checkedReadPosition_eq more, read]
    simp only [Checked.ok_bind, Checked.key_eq (Nat.le_trans more size), Checked.pure_eq]
  | case2 i more none ih =>
    rw [checkedFirstFrom, if_pos more, checkedReadPosition_eq more, none]
    exact ih more
  | case3 i last =>
    rw [checkedFirstFrom, if_neg last, Checked.sub_eq (Nat.le_of_not_lt last), Checked.ok_bind,
      Nat.sub_eq_zero_of_le inside, if_pos (Nat.zero_le _)]
    rfl

theorem checkedFirstFrom_bucket {bucket : Nat} (inside : bucket ≤ t.buckets.size)
    (alive : Ref → Bool) :
    t.checkedFirstFrom alive (bucket + t.array.size) = .ok (t.firstInBuckets alive bucket) := by
  rw [checkedFirstFrom, if_neg (by omega), Checked.sub_eq (by omega), Checked.ok_bind,
    Nat.add_sub_cancel, if_pos inside]
  rfl

end

variable [Hashing] {t : Table}

theorem checkedChain_key (some_bucket : 0 < t.buckets.size) (key : Value) :
    t.checkedChain key.keyHash (t.buckets.size - 1) =
      .ok (t.bucketOf key, t.chain (t.bucketOf key)) :=
  checkedChain_eq some_bucket key.keyHash

section
variable (room : t.count ≤ t.buckets.size)
include room

theorem checkedGetHashed_eq (alive : Ref → Bool) (key : Value) :
    t.checkedGetHashed alive key = .ok (t.getHashed alive key) := by
  unfold checkedGetHashed getHashed
  by_cases empty : t.count = 0
  · rw [if_pos empty, if_pos empty]
    rfl
  · rw [if_neg empty, if_neg empty, checkedChain_eq (by omega)]
    rfl

theorem checkedGetInt_eq (alive : Ref → Bool) (key : Int64) :
    t.checkedGetInt alive key = .ok (t.getInt alive key) := by
  rw [checkedGetInt, checkedPosition?_eq, Checked.ok_bind]
  unfold getInt
  cases found : t.position? key with
  | some position => exact checkedReadPosition_eq (lt_of_position? found) alive
  | none => exact checkedGetHashed_eq room alive (.int key)

theorem checkedGet_eq (alive : Ref → Bool) (key : Value) :
    t.checkedGet alive key = .ok (t.get alive key) := by
  unfold checkedGet get
  cases key.normalize with
  | nil => rfl
  | int i => exact checkedGetInt_eq room alive i
  | _ => exact checkedGetHashed_eq room alive _

omit [Hashing] room in
/-- A count without a bucket would show as a fault. -/
example : @checkedGet { empty with count := 1 } (fun _ => true) .uniform (.bool true) =
    .error .index := rfl

theorem checkedNextInt_eq (alive : Ref → Bool) (key : Int64) :
    t.checkedNextInt alive key = .ok (t.nextInt alive key) := by
  unfold checkedNextInt nextInt
  by_cases last : key = Int64.maxValue
  · rw [if_pos last, if_pos last]
    rfl
  · rw [if_neg last, if_neg last, checkedGetInt_eq room]
    rfl

/-- The border search of a table with few pairs stays within the keys and the positions. -/
theorem checkedBorder_eq {alive : Ref → Bool} (size : t.array.size < maxInt)
    (few : (t.livePairs alive).length < 2 ^ 62) :
    t.checkedBorder alive = .ok (t.length alive) := by
  obtain ⟨gap, positive, inside, absent⟩ := exists_absent few
  refine checkedLength_eq size positive inside absent (fun key low high => ?_) fun key _ _ => ?_
  · simp only [Checked.sub_eq low, Checked.ok_bind, Checked.pure_eq,
      checkedReadPosition_eq (show key - 1 < t.array.size by omega)]
  · simp only [checkedGetInt_eq room, Checked.ok_bind, Checked.pure_eq, present]

end

theorem checkedNextHashed_eq (t : Table) (alive : Ref → Bool) (key : Value) :
    t.checkedNextHashed alive key = .ok (t.nextHashed alive key) := by
  unfold checkedNextHashed nextHashed
  dsimp only
  by_cases empty : t.buckets.isEmpty = true
  · have outside : t.buckets.size ≤ t.bucketOf key := by simp_all
    rw [if_pos empty, t.chain_outside outside]
    rfl
  · have some_bucket : 0 < t.buckets.size := by simpa [Nat.pos_iff_ne_zero] using empty
    have inside := t.bucketOf_lt key some_bucket
    rw [if_neg empty, checkedChain_key some_bucket, Checked.ok_bind]
    dsimp only
    cases (t.chain (t.bucketOf key)).after? alive key with
    | none => rfl
    | some rest =>
      dsimp only
      cases rest.findSome? (·.pair? alive) with
      | some pair => rfl
      | none =>
        dsimp only
        rw [checkedFirstFrom_bucket inside]
        rfl

theorem checkedNext_eq (size : t.array.size ≤ maxInt) (alive : Ref → Bool) (key : Value) :
    t.checkedNext alive key = .ok (t.next alive key) := by
  unfold checkedNext next
  cases key.normalize with
  | nil =>
    dsimp only
    rw [checkedFirstFrom_eq size alive (Nat.zero_le _)]
    rfl
  | int i =>
    dsimp only
    rw [checkedPosition?_eq, Checked.ok_bind]
    cases found : t.position? i with
    | some position =>
      dsimp only
      rw [checkedFirstFrom_eq size alive (lt_of_position? found)]
      rfl
    | none => exact checkedNextHashed_eq t alive (.int i)
  | _ => exact checkedNextHashed_eq t alive _

/-- A traversal that has not used up its steps has come to its end. -/
theorem checkedPairsAfter_eq (size : t.array.size ≤ maxInt) {alive : Ref → Bool} {limit : Nat}
    {key : Value} (enough : (t.pairsAfter alive limit key).length < limit) :
    t.checkedPairsAfter alive limit key = .ok (t.pairsAfter alive limit key) := by
  induction limit generalizing key with
  | zero => exact absurd enough (Nat.not_lt_zero _)
  | succ limit ih =>
    unfold pairsAfter at enough
    rw [checkedPairsAfter, checkedNext_eq size, Checked.ok_bind, pairsAfter]
    cases found : t.next alive key with
    | error e => rfl
    | ok following =>
      cases following with
      | none => rfl
      | some pair =>
        simp only [found, List.length_cons, Nat.add_lt_add_iff_right] at enough
        dsimp only
        rw [ih enough]
        rfl

/-- A traversal of all places comes to its end with the last of them. -/
theorem checkedKeys_eq (sound : t.Sound) (size : t.array.size ≤ maxInt) (alive : Ref → Bool) :
    t.checkedKeys alive = .ok (t.keys alive) := by
  have places : (t.readings alive).length = t.placeCount :=
    (length_readings t alive).trans (length_outline t)
  have all : t.pairsAfter alive (t.placeCount + 1) .nil = t.livePairs alive :=
    pairsAfter_eq sound (List.nil_append _).symm (next_nil t alive) (by omega)
  have enough : (t.livePairs alive).length < t.placeCount + 1 :=
    Nat.lt_succ_of_le (places ▸ List.length_filterMap_le ..)
  rw [checkedKeys, checkedPairsAfter_eq size (all ▸ enough), all, keys, pairs_eq sound]
  rfl

end Table

end HybridTable
