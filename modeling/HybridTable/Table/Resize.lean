import HybridTable.Table.Basic

/-!
The sizes of the two regions, and moving the pairs of a table when they change.

The array region is made as large as it can be while at least half of its positions would be in use;
the hash region has just enough buckets for the pairs that are left. Sizes are chosen from the pairs
that can be read, so what was reclaimed takes no room.

Moving lets go of the old storage piece by piece, and under a new policy a pair may be held less
strongly in its new place. Each pair is therefore judged when its turn comes, by what the new
storage and the rest of the old one hold at that moment.
-/

namespace HybridTable

/-- The greatest integer key that may move to the array region. -/
def maxArrayKey : Nat := 0x7fffffff

/-- The greatest power of two that an array region may have as its capacity, as an exponent. -/
def maxArrayBits : Nat := 31

/-- The capacity of an array region for integer keys: the greatest power of two of which at least
half of the positions are among the keys. -/
def arraySizeFor (keys : List Nat) : Nat :=
  let enough (bits : Nat) : Bool :=
    Nat.pow 2 bits ≤ 2 * keys.length &&
      Nat.pow 2 bits ≤ 2 * keys.countP (· ≤ Nat.pow 2 bits)
  match ((List.range maxArrayBits).map (· + 1)).reverse.find? enough with
  | some bits => Nat.pow 2 bits
  | none => 0

/-- A piece of old storage on its way to the new one. -/
inductive Moving where
  /-- A position of the array region that is in use, by its key. -/
  | cell (key : Nat) (cell : Cell)
  /-- An entry of the hash region. -/
  | entry (entry : Entry)

namespace Moving

/-- Whether there is still a pair to move. -/
def isAlive (alive : Ref → Bool) : Moving → Bool
  | cell _ c => c.isAlive alive
  | entry e => e.isAlive alive

/-- The integer key, if it is one from 1 up to a limit. -/
def arrayKey? (limit : Nat) : Moving → Option Nat
  | cell key _ => if key ≤ limit then some key else none
  | entry e => e.arrayKey? limit

/-- The integer key that counts for the size of the array region, if there is one. -/
def countedKey? : Moving → Option Nat
  | cell key _ => some key
  | entry e => e.arrayKey? maxArrayKey

/-- What the piece keeps alive. -/
def refs : Moving → List Ref
  | cell _ c => c.refs
  | entry e => e.refs

/-- The value of the pair. -/
def value : Moving → Value
  | cell _ c => c.content
  | entry (.plain _ value) => value
  | entry (.guarded _ value) => value.content

/-- The entry for the pair in the hash region under a policy. An entry is made anew only if the
policy changed. -/
def toEntry (policy : WeakPolicy) (rebuild : Bool) : Moving → Entry
  | cell key c => .make policy (.int (Int64.ofNat key)) c.content
  | entry (.plain key value) => if rebuild then .make policy key value else .plain key value
  | entry (.guarded key value) =>
    if rebuild then .make policy key.content value.content else .guarded key value

end Moving

/-- The key that a table is to make room for. -/
inductive Pending where
  /-- No key; the policy changed. -/
  | none
  /-- An integer key that may move to the array region. -/
  | arrayKey (key : Nat)
  /-- Another key. -/
  | hashKey

namespace Table

/-- The positions of the array region that are in use, in ascending order. -/
def movingCells (t : Table) : List Moving :=
  t.array.toList.zipIdx.filterMap fun (cell, i) => cell.map (Moving.cell (i + 1))

/-- The entries of the hash region, bucket by bucket. -/
def movingEntries (t : Table) : List Moving :=
  t.buckets.toList.flatMap (·.filterMap fun slot => slot.stored?.map Moving.entry)

/-- All that is stored, in the order in which it moves. -/
def moving (t : Table) : List Moving := t.movingCells ++ t.movingEntries

section
variable [Hashing]

/-- Puts a pair into new storage: into the array region if it has a position there, else in front of
the chain of its bucket. -/
def place (rebuild : Bool) (t : Table) (item : Moving) : Table :=
  match item.arrayKey? t.array.size with
  | some key => t.setCell (key - 1) (some (t.policy.valueCell item.value))
  | none =>
    let entry := item.toEntry t.policy rebuild
    let bucket := entry.keyHash.bucket (t.buckets.size - 1)
    let t := t.setChain bucket (.live entry :: t.chain bucket)
    { t with count := t.count + 1 }

/-- Puts all that can still be read into new storage. -/
def placeAll (live : Liveness) (rebuild : Bool) : List Moving → Table → Table
  | [], t => t
  | item :: rest, t =>
    if item.isAlive fun r => live (t.refs ++ (item :: rest).flatMap Moving.refs) r then
      placeAll live rebuild rest (t.place rebuild item)
    else placeAll live rebuild rest t

/-- The table with its pairs in regions of the given capacities. Tombstones are left behind. -/
def resize (live : Liveness) (rebuild : Bool) (arrayCapacity hashCapacity : Nat) (t : Table) :
    Table :=
  placeAll live rebuild t.moving (sized arrayCapacity hashCapacity t.metatable t.policy)

/-- The capacities of the two regions for the pairs that can be read and a pending key. -/
def idealSizes (t : Table) (alive : Ref → Bool) (pending : Pending) : Nat × Nat :=
  let present := t.moving.filter (·.isAlive alive)
  let keys := present.filterMap Moving.countedKey?
  let arraySize := arraySizeFor <| match pending with
    | .arrayKey key => key :: keys
    | _ => keys
  let stays := present.countP fun item => (item.arrayKey? arraySize).isNone
  let arriving := match pending with
    | .none => 0
    | .arrayKey key => if arraySize < key then 1 else 0
    | .hashKey => 1
  (arraySize, hashCapacityFor (stays + arriving))

/-- The table with regions of the sizes that suit its pairs and the pending key. -/
def rehash (live : Liveness) (pending : Pending) (t : Table) : Table :=
  let (arraySize, hashSize) := t.idealSizes (fun r => live t.refs r) pending
  let rebuild := match pending with
    | .none => true
    | _ => false
  t.resize live rebuild arraySize hashSize

/-- The table with room for at least so many positions in its array region. -/
def presizeArray (live : Liveness) (positions : Nat) (t : Table) : Table :=
  if t.array.size < positions then
    t.resize live false (arrayCapacityFor positions) t.buckets.size
  else t

/-- The table with another metatable. If the policy changes with it, every pair is stored anew under
the new one; the old metatable is let go of before that. -/
def attachMetatable (live : Liveness) (metatable : Option Ref) (policy : WeakPolicy) (t : Table) :
    Table :=
  let changed := policy ≠ t.policy
  let t := { t with metatable, policy }
  if changed then t.rehash live .none else t

end

end Table

end HybridTable
