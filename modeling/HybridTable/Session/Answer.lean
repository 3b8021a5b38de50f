import HybridTable.Error
import HybridTable.Objects.Basic

/-!
What commands answer.
-/

namespace HybridTable.Session

/-- A value as it is shown: an object by its type and its label, if it has got one. -/
inductive Shown where
  | nil
  | bool (b : Bool)
  | int (i : Int64)
  | float (x : Binary64)
  | text (content : String)
  | object (kind : Kind) (label : Option String)

/-- The sizes of a table, and how it holds its pairs. -/
structure Layout where
  /-- The number of positions of the array region. -/
  arrayCapacity : Nat
  /-- The number of buckets of the hash region. -/
  hashCapacity : Nat
  /-- The number of entries of the hash region. -/
  count : Nat
  /-- Whether the table has a metatable. -/
  hasMetatable : Bool
  /-- Which halves of the pairs are weak. -/
  policy : WeakPolicy

/-- How the parts of an entry are stored. -/
inductive EntryShape where
  | normal | intKey | numberValue | weak

/-- The state of an entry. -/
structure EntryView where
  /-- How its parts are stored. -/
  shape : EntryShape
  /-- The key, unless it was reclaimed. -/
  key : Option Value
  /-- The value, unless it was reclaimed. -/
  value : Option Value
  /-- Whether neither was reclaimed. -/
  paired : Bool
  /-- For each probe whether the entry is for it. -/
  matched : List Bool
  /-- The bucket, for a key whose hash does not depend on how strings and objects are hashed. -/
  bucket : Option Nat
  /-- The integer key, if it is in range of the array region. -/
  arrayKey : Option Nat
  /-- Whether the key can still be read. -/
  keyIsAlive : Bool
  /-- Whether key and value can still be read. -/
  isAlive : Bool

/-- The state of a tombstone. -/
structure TombstoneView where
  /-- For each probe whether the tombstone is for it. -/
  matched : List Bool
  /-- Whether its key was reclaimed. -/
  isCollected : Bool
  /-- The bucket, for a key whose hash does not depend on how strings and objects are hashed. -/
  bucket : Option Nat

/-- The state of a cell. -/
structure CellView where
  /-- Whether it holds its value weakly. -/
  isWeak : Bool
  /-- Whether the value can still be read. -/
  isAlive : Bool
  /-- The value, unless it was reclaimed. -/
  value : Option Value
  /-- For each probe whether the cell holds it. -/
  matched : List Bool

/-- All that can be asked of a single value. -/
structure Inspection where
  /-- The value itself. -/
  value : Value
  /-- Its metatable. -/
  metatable : Option Value
  /-- The text that it adds to a concatenation. -/
  concatText : Option String
  /-- Its hash code and its buckets for several masks, if these do not depend on how strings and
  objects are hashed. -/
  hash : Option (UInt64 × List Nat)

/-- The failures of commands. -/
inductive Failure where
  /-- An operation on tables failed. -/
  | table (error : Error)
  /-- A value has no JSON form. -/
  | json (message : String)
  /-- A text is not JSON. -/
  | jsonSyntax
  /-- A command cannot be run as it was given. -/
  | misuse (reason : String)

/-- The answer to a command that succeeded. -/
inductive Answer where
  /-- Nothing worth showing. -/
  | nothing
  | value (v : Value)
  | flag (b : Option Bool)
  | text (s : String)
  | number (n : Nat)
  | numbers (ns : List Nat)
  | pair (p : Option (Value × Value))
  | values (vs : List Value)
  | keys (shown : List Shown)
  | pairs (shown : List (Shown × Shown))
  /-- The capacities of a table after each number at which they changed. -/
  | growth (changes : List (Int64 × Nat × Nat))
  /-- The results of a call. -/
  | results (vs : List Value)
  /-- The results of a call as they are seen one by one. -/
  | resultView (vs : List Value)
  | sorted (vs : List Value) (failed : Option Failure)
  | userdata (data : Int64) (metatable : Option Value)
  | threadStatus (before after : ThreadStatus)
  | layout (l : Layout)
  | policy (p : WeakPolicy)
  | comparison (order : Ordering) (equal sameHash : Bool)
  | inspection (i : Inspection)
  | entry (states : List EntryView)
  | tombstone (t : TombstoneView)
  | cell (c : CellView)

/-- The capacities and counts of a table that a command worked on. -/
structure Sizes where
  /-- The length, without handlers. -/
  length : Nat
  /-- The number of positions of the array region. -/
  arrayCapacity : Nat
  /-- The number of buckets of the hash region. -/
  hashCapacity : Nat
  /-- The number of entries of the hash region. -/
  count : Nat

/-- A call of a function as it was logged: its name and its arguments. -/
structure Call where
  /-- The name of the function. -/
  name : String
  /-- Its arguments. -/
  arguments : List Shown

/-- All that is reported of a command. -/
structure Report where
  /-- Its answer, or why it failed. -/
  outcome : Except Failure Answer
  /-- The logged calls that were made, in order. -/
  calls : List Call
  /-- The sizes of the table that it may have changed. -/
  sizes : Option Sizes

end HybridTable.Session
