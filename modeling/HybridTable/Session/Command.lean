import HybridTable.Error
import HybridTable.Objects.Basic

/-!
The commands of a session, in which tables are made, kept under names, and worked on.

Commands can be gathered in the body of a function, which then serves as a handler or as a
comparison.
-/

namespace HybridTable.Session

/-- How a command refers to a value. -/
inductive Operand where
  | nil
  | bool (b : Bool)
  | int (i : Int64)
  | float (x : Binary64)
  /-- A string, made anew by each evaluation. -/
  | text (content : String)
  /-- A string written several times in a row. -/
  | repeated (content : String) (times : Nat)
  /-- The value kept under a name. -/
  | kept (name : String)
  /-- An argument of the function or walk whose body is running, counted from 0. -/
  | argument (index : Nat)
  deriving Inhabited

/-- The keys of a run of pairs, each made from a number. -/
inductive KeyPattern where
  /-- The number itself. -/
  | int
  /-- The number and a half. -/
  | half
  /-- The bit with that number. -/
  | bit
  /-- A short string that contains the number. -/
  | short
  /-- A long string that contains the number. -/
  | long

/-- What a function returns. -/
inductive Returned where
  /-- Its arguments. -/
  | arguments
  /-- The values of operands, evaluated after its body. -/
  | values (operands : List Operand)

/-- A command. The letters `t`, `k` and `v` stand for a table, a key and a value. -/
inductive Command where
  /-- Runs a command and keeps its value under a name. -/
  | save (name : String) (command : Command)
  /-- Does nothing, since the command could not be understood. -/
  | misuse (reason : String)
  -- values and objects
  | value (v : Operand)
  | drop (names : List String)
  | isAlive (label : String)
  | newTable (positions entries : Nat)
  | newTableOfParts (named : List (Operand × Operand)) (positional : List Operand)
  | newTableOfArguments (values : List Operand)
  | newFunction (name : String) (body : List Command) (returned : Returned) (logged : Bool)
  | newUserdata (data : Int64)
  | readUserdata (u : Operand)
  | setUserdataMetatable (u metatable : Operand)
  | newThread
  | threadStatus (thread : Operand) (next : Option ThreadStatus)
  -- access
  | get (t k : Operand)
  | getInt (t k : Operand)
  | set (t k v : Operand)
  | setInt (t k v : Operand)
  | rawGet (t k : Operand)
  | rawGetText (t : Operand) (k : String)
  | rawSet (t k v : Operand)
  | length (t : Operand)
  | rawLength (t : Operand)
  | next (t k : Operand)
  | nextInt (t k : Operand)
  | valuesAfter (t k : Operand)
  | keyCount (t : Operand)
  | keys (t : Operand)
  /-- Traverses a table, running commands with each key and value as arguments. -/
  | walk (t : Operand) (each : List Command)
  /-- Stores a run of pairs. Without a value each number is its own. -/
  | fill (t : Operand) (first last step : Int64) (pattern : KeyPattern) (v : Option Operand)
  -- table library
  | insert (t position v : Operand)
  | remove (t position : Operand)
  | concat (t : Operand) (separator : String) (first last : Operand)
  | unpack (t first last : Operand)
  | unpackAll (t : Operand)
  | sort (t : Operand) (comparator : Option Operand)
  | sortBy (t : Operand) (comparator : Option Operand)
  | heapSort (values : List Operand) (comparator : Option Operand)
  | sequence (t : Operand)
  -- metatables and layout
  | setMetatable (t metatable : Operand)
  | getMetatable (t : Operand)
  | presize (t : Operand) (positions : Nat)
  | layout (t : Operand)
  | policy (t : Operand)
  /-- Makes tables of which each but the last has the next one as the handler of an event. -/
  | chain (links : Nat) (event : Event)
  -- values and dispatch
  | rawEqual (left right : Operand)
  | equals (left right : Operand)
  | lessThan (left right : Operand)
  | index (object k : Operand)
  | assign (object k v : Operand)
  | handler (v : Operand) (event : Event)
  | callHandler (handler : Operand) (arguments : List Operand)
  | call (f : Operand) (arguments : List Operand)
  | results (values : List Operand)
  | compareTexts (left right : Operand)
  | mode (v : Option Operand)
  | limits
  | inspect (v : Operand)
  -- storage
  | entry (policy : WeakPolicy) (k v : Operand) (probes : List Operand) (mask limit : Nat)
      (drops : List String) (replacement : Option (Operand × WeakPolicy))
  | tombstone (k : Operand) (probes : List Operand) (mask : Nat) (drops : List String)
  | cell (policy : WeakPolicy) (v : Operand) (probes : List Operand) (drops : List String)
  -- JSON
  | toJson (v : Operand) (pretty : Bool)
  | ofJson (text : String)
  | reprintJson (text : String)
  -- for bodies
  | add (left right : Operand)
  | branch (condition : Operand) (yes no : List Command)
  | raise (message : String)
  deriving Inhabited

end HybridTable.Session
