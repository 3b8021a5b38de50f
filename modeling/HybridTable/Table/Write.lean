import HybridTable.Error
import HybridTable.Table.Resize

/-!
Storing and removing pairs.

A key that is already present is overwritten in place. A new key of the hash region first has its
chain pruned; if there is still no free bucket for the pair, the table is rehashed with the key
pending. Removal never moves anything, it only leaves a tombstone.
-/

namespace HybridTable.Table

variable [Hashing]

/-- Writes a position of the array region; `nil` clears it. -/
def setPosition (t : Table) (position : Nat) (value : Value) : Table :=
  t.setCell position (if value.isNil then none else some (t.policy.valueCell value))

/-- Turns the entry of a key of the hash region into a tombstone. The tombstone is for the key as
it was given, not as it was stored. -/
def removeHashed (live : Liveness) (t : Table) (key : Value) : Table :=
  let bucket := t.bucketOf key
  let chain := t.chain bucket
  let bury (_ : Entry) : Slot := .dead (.forTombstone key)
  match chain.amend? (fun r => live t.refs r) key bury with
  | some chain =>
    let t := t.setChain bucket chain
    { t with count := t.count - 1 }
  | none => t

/-- The chain of a bucket without what has no pair, and the count corrected by what was dropped. -/
def pruneChain (live : Liveness) (t : Table) (bucket : Nat) : Table :=
  let chain := t.chain bucket
  let others : Liveness := fun held => live ((t.setChain bucket []).refs ++ held)
  let pruned := chain.prune others
  let t := t.setChain bucket pruned
  { t with count := t.count - (chain.entryCount - pruned.entryCount) }

/-- Adds an entry for a new key at the end of its chain. The first entry gets a hash region of the
least capacity. -/
def append (t : Table) (key value : Value) : Table :=
  let t := if t.buckets.isEmpty then { t with buckets := Array.replicate minHashCapacity [] } else t
  let entry := Entry.make t.policy key value
  let bucket := entry.keyHash.bucket (t.buckets.size - 1)
  let t := t.setChain bucket (t.chain bucket ++ [.live entry])
  { t with count := t.count + 1 }

/-- Stores a pair under a key that is not present, after its chain was pruned. -/
def addHashed (live : Liveness) (t : Table) (key value : Value) : Table :=
  if t.count < t.buckets.size then t.append key value
  else match key with
    | .int i =>
      if 0 < i.toInt ∧ i.toInt ≤ maxArrayKey then
        -- the rehash may have made room in the array region for this key
        let t := t.rehash live (.arrayKey i.toInt.toNat)
        match t.position? i with
        | some position => t.setPosition position value
        | none => t.append key value
      else (t.rehash live .hashKey).append key value
    | _ => (t.rehash live .hashKey).append key value

/-- Stores a pair in the hash region; `nil` removes the key. -/
def setHashed (live : Liveness) (t : Table) (key value : Value) : Table :=
  let live := live.holding (key.refs ++ value.refs)
  if value.isNil then t.removeHashed live key
  else
    let bucket := t.bucketOf key
    let chain := t.chain bucket
    let overwrite (entry : Entry) : Slot := .live (entry.replace t.policy value)
    match chain.amend? (fun r => live t.refs r) key overwrite with
    | some chain => t.setChain bucket chain
    | none => (t.pruneChain live bucket).addHashed live key value

/-- Stores a pair under an integer key; `nil` removes the key. -/
def setInt (live : Liveness) (t : Table) (key : Int64) (value : Value) : Table :=
  match t.position? key with
  | some position => t.setPosition position value
  | none => t.setHashed live (.int key) value

/-- Stores a pair under what can be a key; `nil` removes the key. -/
def put (live : Liveness) (t : Table) (key value : Value) : Table :=
  match key.normalize with
  | .int i => t.setInt live i value
  | key => t.setHashed live key value

/-- Stores a pair; `nil` removes the key. What cannot be a key is refused before anything is
touched. -/
def set (live : Liveness) (t : Table) (key value : Value) : Except Error Table :=
  match key.keyDefect? with
  | some defect => .error (.invalidKey defect)
  | none => .ok (t.put live key value)

/-- Overwrites the leading positions of the array region, as far as there are values. -/
def storeSequence (t : Table) (values : List Value) : Table :=
  values.zipIdx.foldl (fun t (value, position) =>
    t.setCell position (some (t.policy.valueCell value))) t

end HybridTable.Table
