import HybridTable.Value.Basic

/-!
Keys: which values are the same key, and which bucket a key belongs to.

Equal keys have one normal form, a float with an exact integer value being the integer, so bucket
choice only has to respect equality of normal forms. How strings and objects are hashed is left
open; nothing but the order of traversal depends on it.
-/

namespace HybridTable

namespace Value

/-- Primitive equality: numbers by value, strings by content, objects by identity. -/
def rawEqual : Value → Value → Bool
  | nil, nil => true
  | bool a, bool b => a == b
  | int a, int b => a == b
  | float a, float b => a.equal b
  | int i, float x => x.toInt64? == some i
  | float x, int i => x.toInt64? == some i
  | text a, text b => a.content == b.content
  | table a, table b => a == b
  | function a, function b => a.ref == b.ref
  | userdata a, userdata b => a == b
  | thread a, thread b => a == b
  | _, _ => false

/-- The form of a key that tables store: a float with an exact integer value becomes the integer. -/
def normalize : Value → Value
  | float x => match x.toInt64? with
    | some i => int i
    | none => float x
  | v => v

end Value

/-- Why a value cannot be a key. -/
inductive KeyDefect where
  | nil | notANumber
  deriving DecidableEq

/-- What a message calls the value that cannot be a key. -/
def KeyDefect.name : KeyDefect → String
  | nil => "nil"
  | notANumber => "NaN"

namespace Value

/-- What stops a value from being a key, if anything does. -/
def keyDefect? : Value → Option KeyDefect
  | nil => some .nil
  | float x => if x.isNaN then some .notANumber else none
  | _ => none

/-- Whether a tombstone must hold the key weakly: objects and long strings. -/
def isLargeKey (v : Value) : Bool := v.ref?.isSome

end Value

/-- Hash codes of strings and objects, which no result depends on. -/
class Hashing where
  /-- The hash code of a string, a function of its content. -/
  ofText : String → UInt64
  /-- The hash code of an object. -/
  ofRef : Ref → UInt64

/-- A hash code with the way it picks a bucket: numbers and most objects are spread by a remainder,
all else by the low bits. -/
structure KeyHash where
  /-- The hash code. -/
  code : UInt64
  /-- Whether the bucket is a remainder of the code. -/
  byRemainder : Bool
  deriving DecidableEq

/-- The bucket of a hash among `mask + 1` buckets. A remainder never picks the last bucket. -/
def KeyHash.bucket (h : KeyHash) (mask : Nat) : Nat :=
  if mask = 0 then 0
  else if h.byRemainder then (h.code &&& 0x7fffffff).toNat % mask
  else h.code.toNat &&& mask

/-- A hash picks one of the buckets. -/
theorem KeyHash.bucket_le (h : KeyHash) (mask : Nat) : h.bucket mask ≤ mask := by
  unfold bucket
  split
  · exact Nat.zero_le mask
  · rename_i some_bucket
    split
    · exact Nat.le_of_lt (Nat.mod_lt _ (Nat.pos_of_ne_zero some_bucket))
    · exact Nat.and_le_right

/-- The hash of a key. Integers and floats are folded from 64 to 32 bits. -/
def Value.keyHash [Hashing] : Value → KeyHash
  | .nil => ⟨0, false⟩
  | .bool b => ⟨if b then 1231 else 1237, false⟩
  | .int i => ⟨(i ^^^ (i >>> 32)).toUInt64, true⟩
  | .float x => ⟨x.bits ^^^ (x.bits >>> 32), true⟩
  | .text s => ⟨Hashing.ofText s.content, false⟩
  | .table ref => ⟨Hashing.ofRef ref, true⟩
  | .function f => ⟨Hashing.ofRef f.ref, false⟩
  | .userdata ref => ⟨Hashing.ofRef ref, true⟩
  | .thread ref => ⟨Hashing.ofRef ref, true⟩

end HybridTable
