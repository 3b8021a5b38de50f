import HybridTable.Number.Successor
import HybridTable.Table.Write

/-!
Traversal: the pair after a key.

A traversal meets the positions of the array region in ascending order and then the chains bucket by
bucket. It keeps no state but the key that it met last, and goes on from that key even if its pair
has been removed meanwhile, because the tombstone still marks the place.
-/

namespace HybridTable.Table

variable [Hashing]

/-- The first pair in a bucket from `bucket` on. -/
def firstInBuckets (t : Table) (alive : Ref → Bool) (bucket : Nat) : Option (Value × Value) :=
  if bucket < t.buckets.size then
    match (t.chain bucket).findSome? (·.pair? alive) with
    | some pair => some pair
    | none => t.firstInBuckets alive (bucket + 1)
  else none
termination_by t.buckets.size - bucket

/-- The first pair at a position of the array region from `position` on, or else in a bucket. -/
def firstFrom (t : Table) (alive : Ref → Bool) (position : Nat) : Option (Value × Value) :=
  if position < t.array.size then
    match t.readPosition alive position with
    | some value => some (.int (Int64.ofNat (position + 1)), value)
    | none => t.firstFrom alive (position + 1)
  else t.firstInBuckets alive 0
termination_by t.array.size - position

/-- The pair after a key of the hash region. -/
def nextHashed (t : Table) (alive : Ref → Bool) (key : Value) :
    Except Error (Option (Value × Value)) :=
  let bucket := t.bucketOf key
  match (t.chain bucket).after? alive key with
  | none => .error (.invalidIterationKey key)
  | some rest => match rest.findSome? (·.pair? alive) with
    | some pair => .ok (some pair)
    | none => .ok (t.firstInBuckets alive (bucket + 1))

/-- The pair after a key, or nothing at the end. `nil` starts the traversal; a key that is neither
present nor marked by a tombstone is refused. -/
def next (t : Table) (alive : Ref → Bool) (key : Value) : Except Error (Option (Value × Value)) :=
  match key.normalize with
  | .nil => .ok (t.firstFrom alive 0)
  | .int i => match t.position? i with
    | some position => .ok (t.firstFrom alive (position + 1))
    | none => t.nextHashed alive (.int i)
  | key => t.nextHashed alive key

/-- The pair of the integer key after `key`, if there is one and it is present. -/
def nextInt (t : Table) (alive : Ref → Bool) (key : Int64) : Option (Int64 × Value) :=
  if key = Int64.maxValue then none else (t.getInt alive (key + 1)).map (key + 1, ·)

/-- The values of the integer keys after `key`, up to the first absent one. -/
def valuesAfter (t : Table) (alive : Ref → Bool) (key : Int64) : List Value :=
  if _ : key = Int64.maxValue then []
  else match t.getInt alive (key + 1) with
    | some value => value :: t.valuesAfter alive (key + 1)
    | none => []
termination_by keysLeft key
decreasing_by exact keysLeft_add_one ‹_›

/-- The number of places that a traversal can meet, used and unused. -/
def placeCount (t : Table) : Nat := t.array.size + t.buckets.toList.flatten.length

/-- The pairs that a traversal meets after a key, at most `limit` of them. -/
def pairsAfter (t : Table) (alive : Ref → Bool) : Nat → Value → List (Value × Value)
  | 0, _ => []
  | limit + 1, key => match t.next alive key with
    | .ok (some (key, value)) => (key, value) :: t.pairsAfter alive limit key
    | _ => []

/-- All pairs in the order of traversal. -/
def pairs (t : Table) (alive : Ref → Bool) : List (Value × Value) :=
  t.pairsAfter alive t.placeCount .nil

/-- All keys in the order of traversal. -/
def keys (t : Table) (alive : Ref → Bool) : List Value := (t.pairs alive).map Prod.fst

end HybridTable.Table
