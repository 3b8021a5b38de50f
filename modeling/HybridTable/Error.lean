import HybridTable.Value.Key
import HybridTable.Value.Printed

/-!
Why an operation on tables can fail, and the wording of each failure.
-/

namespace HybridTable

/-- What a handler in a metatable can customise. -/
inductive Event where
  | index | newIndex | mode | length | equal | less | call | metatable
  deriving DecidableEq

/-- The field of a metatable that holds the handler of an event. -/
def Event.field : Event → String
  | index => "__index"
  | newIndex => "__newindex"
  | mode => "__mode"
  | length => "__len"
  | equal => "__eq"
  | less => "__lt"
  | call => "__call"
  | metatable => "__metatable"

/-- The failures of table operations. -/
inductive Error where
  /-- A value was stored under what cannot be a key. -/
  | invalidKey (defect : KeyDefect)
  /-- A traversal was to go on from a key that the table does not know. -/
  | invalidIterationKey (key : Value)
  /-- A length handler did not return an integer. -/
  | nonIntegerLength (found : Value)
  /-- A sequence is too long to be sorted. -/
  | sortTooLarge (length : Int64)
  /-- A range has too many keys to be returned at once. -/
  | unpackTooLarge (count : Nat)
  /-- The present metatable forbids its replacement. -/
  | protectedMetatable
  /-- A value that is no table and has no handler was indexed. -/
  | indexNonTable (kind : Kind)
  /-- Handlers led from one to the next too many times. -/
  | handlerLoop (event : Event)
  /-- An element of a concatenation is neither string nor number. -/
  | invalidConcatValue (index : Int64) (kind : Kind)
  /-- Two values have no order. -/
  | incomparable (left right : Kind)
  /-- A value that cannot be called was called. -/
  | callNonFunction (kind : Kind)
  /-- A function of the host failed. -/
  | raised (message : String)
  deriving DecidableEq

/-- The text of a failure. -/
def Error.message : Error → String
  | invalidKey defect => "table index is " ++ defect.name
  | invalidIterationKey _ => "invalid key to 'next'"
  | nonIntegerLength found => "table length is not an integer: " ++ found.print
  | sortTooLarge length => "array too big: " ++ toString length.toInt
  | unpackTooLarge _ => "too many results to unpack"
  | protectedMetatable => "cannot change a protected metatable"
  | indexNonTable kind => "attempt to index a " ++ kind.name ++ " value"
  | handlerLoop event => "'" ++ event.field ++ "' chain too long; possible loop"
  | invalidConcatValue index _ =>
    "invalid value (at index " ++ toString index.toInt ++ ") in table for 'concat'"
  | incomparable left right =>
    if left = right then "attempt to compare two " ++ left.name ++ " values"
    else "attempt to compare " ++ left.name ++ " with " ++ right.name
  | callNonFunction kind => "attempt to call a " ++ kind.name ++ " value"
  | raised message => message

end HybridTable
