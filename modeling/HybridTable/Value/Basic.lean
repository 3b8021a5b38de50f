import HybridTable.Number.Binary64

/-!
The values that tables store.

Objects are identities: what a table, userdata or thread contains is kept elsewhere, under its
`Ref`. A long string also has an identity, because a holder may keep it weakly, but it is compared
by content like every other string.
-/

namespace HybridTable

/-- The identity of something that can be reclaimed once nothing holds it. -/
abbrev Ref := Nat

/-- The longest string, in bytes, that is copied instead of shared. -/
def maxShortText : Nat := 40

/-- A string. -/
inductive Text where
  /-- A string that is copied wherever it goes and has no identity. -/
  | short (content : String)
  /-- A shared string, of which each evaluation makes a new one. -/
  | long (content : String) (ref : Ref)
  deriving DecidableEq

namespace Text

/-- The string with a content; a long one gets `fresh` as its identity. -/
def make (fresh : Ref) (content : String) : Text :=
  if content.utf8ByteSize ≤ maxShortText then short content else long content fresh

/-- The characters of a string. -/
def content : Text → String
  | short content => content
  | long content _ => content

/-- Whether a string is shared. -/
def isLong : Text → Bool
  | short _ => false
  | long .. => true

end Text

/-- A function that the host runs. Its name is for messages and does not identify it. -/
structure Function where
  /-- What the function is. -/
  ref : Ref
  /-- What messages call it. -/
  name : String
  deriving DecidableEq

/-- A value; `nil` stands for absence and is never stored. -/
inductive Value where
  | nil
  | bool (b : Bool)
  | int (i : Int64)
  | float (x : Binary64)
  | text (s : Text)
  | table (ref : Ref)
  | function (f : Function)
  | userdata (ref : Ref)
  | thread (ref : Ref)
  deriving DecidableEq, Inhabited

/-- The type of a value as messages name it. Integers and floats are both numbers. -/
inductive Kind where
  | nil | boolean | number | string | table | function | userdata | thread
  deriving DecidableEq

/-- The name of a type. -/
def Kind.name : Kind → String
  | nil => "nil"
  | boolean => "boolean"
  | number => "number"
  | string => "string"
  | table => "table"
  | function => "function"
  | userdata => "userdata"
  | thread => "thread"

namespace Value

/-- The type of a value. -/
def kind : Value → Kind
  | nil => .nil
  | bool _ => .boolean
  | int _ => .number
  | float _ => .number
  | text _ => .string
  | table _ => .table
  | function _ => .function
  | userdata _ => .userdata
  | thread _ => .thread

/-- Whether a value is absence. -/
def isNil : Value → Bool
  | nil => true
  | _ => false

/-- Whether a condition holds: all values but `nil` and `false` count as true. -/
def isTruthy : Value → Bool
  | nil => false
  | bool b => b
  | _ => true

/-- What of a value can be reclaimed: an object, or the storage of a long string. -/
def ref? : Value → Option Ref
  | text (.long _ ref) => some ref
  | table ref => some ref
  | function f => some f.ref
  | userdata ref => some ref
  | thread ref => some ref
  | _ => none

/-- What a holder of the value holds. -/
def refs (v : Value) : List Ref := v.ref?.toList

/-- Whether a weak table may let go of a value: objects only, since strings count as plain data. -/
def isObject : Value → Bool
  | table _ => true
  | function _ => true
  | userdata _ => true
  | thread _ => true
  | _ => false

/-- The integer that a number is, if it is one. -/
def toInt64? : Value → Option Int64
  | int i => some i
  | float x => x.toInt64?
  | _ => none

/-- A number as a float; a large integer is rounded. -/
def toBinary64? : Value → Option Binary64
  | int i => some (.ofInt i.toInt)
  | float x => some x
  | _ => none

end Value

end HybridTable
