import HybridTable.Table.Entry

/-!
Tables and how they are read.

A table has two regions. Integer keys from 1 up to the array capacity are positions of the array
region; every other key has a chain in the hash region. Reading needs to be told which referents
are alive, since a weak cell whose referent was reclaimed reads as absent.
-/

namespace HybridTable

/-- A table. -/
structure Table where
  /-- The array region: position `i` is the key `i + 1`. -/
  array : Array (Option Cell)
  /-- The hash region: one chain for each bucket. -/
  buckets : Array Chain
  /-- The number of entries in the hash region, tombstones left out. -/
  count : Nat
  /-- Where handlers are looked up. -/
  metatable : Option Ref
  /-- Which halves of the pairs are weak. -/
  policy : WeakPolicy

/-- The least capacity of a hash region that is not empty. -/
def minHashCapacity : Nat := 2

/-- The least power of two that is at least `n`. -/
def ceilPowerOfTwo (n : Nat) : Nat := if n ≤ 1 then 1 else Nat.pow 2 ((n - 1).log2 + 1)

/-- The capacity of an array region for so many positions. -/
def arrayCapacityFor (positions : Nat) : Nat :=
  if positions = 0 then 0 else ceilPowerOfTwo positions

/-- The capacity of a hash region for so many entries. -/
def hashCapacityFor (entries : Nat) : Nat :=
  if entries = 0 then 0 else ceilPowerOfTwo (max entries minHashCapacity)

namespace Table

/-- A table with nothing in it and regions of given capacities. -/
def sized (arrayCapacity hashCapacity : Nat) (metatable : Option Ref) (policy : WeakPolicy) :
    Table :=
  { array := Array.replicate arrayCapacity none
    buckets := Array.replicate hashCapacity []
    count := 0
    metatable
    policy }

/-- The table without any capacity. -/
def empty : Table := sized 0 0 none .allStrong

instance : Inhabited Table := ⟨empty⟩

/-- An empty table with room for so many positions and entries. -/
def withCapacity (positions entries : Nat) : Table :=
  sized (arrayCapacityFor positions) (hashCapacityFor entries) none .allStrong

/-- The number of positions of the array region. -/
def arrayCapacity (t : Table) : Nat := t.array.size

/-- The number of buckets of the hash region. -/
def hashCapacity (t : Table) : Nat := t.buckets.size

/-- The capacities of both regions. -/
def capacities (t : Table) : Nat × Nat := (t.arrayCapacity, t.hashCapacity)

/-- Writes a position of the array region. -/
def setCell : Table → Nat → Option Cell → Table
  | { array, buckets, count, metatable, policy }, position, cell =>
    { array := array.setIfInBounds position cell, buckets, count, metatable, policy }

/-- The chain of a bucket. -/
def chain (t : Table) (bucket : Nat) : Chain := t.buckets[bucket]?.getD []

/-- Writes the chain of a bucket. -/
def setChain : Table → Nat → Chain → Table
  | { array, buckets, count, metatable, policy }, bucket, chain =>
    { array, buckets := buckets.setIfInBounds bucket chain, count, metatable, policy }

@[simp] theorem size_array_setCell (t : Table) (position : Nat) (cell : Option Cell) :
    (t.setCell position cell).array.size = t.array.size := by
  simp [setCell]

@[simp] theorem buckets_setCell (t : Table) (position : Nat) (cell : Option Cell) :
    (t.setCell position cell).buckets = t.buckets := rfl

@[simp] theorem count_setCell (t : Table) (position : Nat) (cell : Option Cell) :
    (t.setCell position cell).count = t.count := rfl

@[simp] theorem array_setChain (t : Table) (bucket : Nat) (chain : Chain) :
    (t.setChain bucket chain).array = t.array := rfl

@[simp] theorem size_buckets_setChain (t : Table) (bucket : Nat) (chain : Chain) :
    (t.setChain bucket chain).buckets.size = t.buckets.size := by
  simp [setChain]

/-- Outside the hash region every chain is empty. -/
theorem chain_outside (t : Table) {bucket : Nat} (outside : t.buckets.size ≤ bucket) :
    t.chain bucket = [] := by
  simp [Table.chain, outside]

/-- A chain that was written is read back, if it has a bucket. -/
theorem chain_setChain_same (t : Table) {bucket : Nat} (chain : Chain)
    (inside : bucket < t.buckets.size) : (t.setChain bucket chain).chain bucket = chain := by
  simp [setChain, Table.chain, inside]

/-- Writing a chain leaves the others alone. -/
theorem chain_setChain_other (t : Table) {bucket other : Nat} (chain : Chain)
    (apart : bucket ≠ other) : (t.setChain bucket chain).chain other = t.chain other := by
  simp [setChain, Table.chain, apart]

/-- What the table keeps alive: what its strong cells hold, and its metatable. -/
def refs (t : Table) : List Ref :=
  t.metatable.toList ++ t.array.toList.flatMap (fun cell => (cell.map Cell.refs).getD [])
    ++ t.buckets.toList.flatMap (·.flatMap Slot.refs)

/-- The position in the array region of an integer key, if it has one. -/
def position? (t : Table) (key : Int64) : Option Nat :=
  if 1 ≤ key.toInt ∧ key.toInt ≤ t.array.size then some (key.toInt.toNat - 1) else none

/-- The value at a position of the array region. -/
def readPosition (t : Table) (alive : Ref → Bool) (position : Nat) : Option Value :=
  match t.array[position]? with
  | some (some cell) => cell.read alive
  | _ => none

section
variable [Hashing]

/-- The bucket in which a key belongs. -/
def bucketOf (t : Table) (key : Value) : Nat := key.keyHash.bucket (t.buckets.size - 1)

/-- The value of a key of the hash region. -/
def getHashed (t : Table) (alive : Ref → Bool) (key : Value) : Option Value :=
  if t.count = 0 then none else (t.chain (t.bucketOf key)).lookup alive key

/-- The value of an integer key. -/
def getInt (t : Table) (alive : Ref → Bool) (key : Int64) : Option Value :=
  match t.position? key with
  | some position => t.readPosition alive position
  | none => t.getHashed alive (.int key)

/-- The value of a key. -/
def get (t : Table) (alive : Ref → Bool) (key : Value) : Option Value :=
  match key.normalize with
  | .nil => none
  | .int i => t.getInt alive i
  | key => t.getHashed alive key

/-- The value of a string key. -/
def getText (t : Table) (alive : Ref → Bool) (key : String) : Option Value :=
  t.getHashed alive (.text (.short key))

end

/-- The values from position 1 up to the first absent one in the array region. -/
def sequence (t : Table) (alive : Ref → Bool) : List Value :=
  (t.array.toList.map fun cell => cell.bind (·.read alive)).takeWhile Option.isSome |>.filterMap id

end Table

end HybridTable
