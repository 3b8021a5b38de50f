import HybridTable.World.Basic

/-!
Handlers in metatables.

Reading and assigning follow a chain of handlers until it ends at a table, at a function or at a
value that has no handler. Where a chain ends is decided by the world as it is, since nothing runs
before its end; `World.destination` says where, and `Action.index` and `Action.assign` act there.
-/

namespace HybridTable

/-- The greatest number of links of a chain of handlers. -/
def maxChain : Nat := 2000

/-- Where a chain of handlers ends. -/
inductive Destination where
  /-- At a table that has the key, or has no handler. -/
  | table (ref : Ref)
  /-- At a value whose handler is a function. -/
  | call (f : Function) (self : Value)
  /-- At a value that is no table and has no handler. -/
  | refused (kind : Kind)
  /-- Nowhere within the greatest number of links. -/
  | unreached
  deriving DecidableEq

variable {ε : Type} [Hashing]

namespace World

/-- Whether a chain for a key ends at a value before its handler is asked. -/
def holdsKey (w : World ε) (key : Value) : Value → Bool
  | .table ref => (w.rawGet ref key).isSome
  | _ => false

/-- Where the chain of handlers of an event for a key ends, if it has at most so many links. -/
def destination (w : World ε) (event : Event) (key : Value) : Nat → Value → Destination
  | 0, _ => .unreached
  | links + 1, current =>
    match current, w.holdsKey key current, w.handler? current event with
    | .table ref, true, _ => .table ref
    | .table ref, false, none => .table ref
    | other, _, none => .refused other.kind
    | self, _, some (.function f) => .call f self
    | _, _, some next => destination w event key links next

end World

namespace Action

/-- Calls a handler: a function itself, anything else through its own call handler, which gets it
as an additional first argument. -/
def callHandler (calls : Calls ε) (handler : Value) (args : List Value) :
    Action ε (List Value) := do
  match handler with
  | .function f => call calls f args
  | other =>
    match (← get).handler? other .call with
    | some (.function f) => call calls f (other :: args)
    | _ => throw (.callNonFunction other.kind)

/-- The value of a key, with the fallback of its handlers: for a function, its first result. -/
def index (calls : Calls ε) (object key : Value) : Action ε Value := do
  let w ← get
  match w.destination .index key maxChain object with
  | .table ref => return (w.rawGet ref key).getD .nil
  | .call f self => return firstResult (← call calls f [self, key])
  | .refused kind => throw (.indexNonTable kind)
  | .unreached => throw (.handlerLoop .index)

/-- The value of an integer key of a table. Handlers are asked only if the table does not have it. -/
def getInt (calls : Calls ε) (ref : Ref) (key : Int64) : Action ε Value := do
  let w ← get
  match (w.table ref).getInt w.survivors.contains key with
  | some value => return value
  | none => index calls (.table ref) (.int key)

/-- Assigns to a key. A table that has the key, or has no handler, is written to. -/
def assign (calls : Calls ε) (object key value : Value) : Action ε Unit := do
  match (← get).destination .newIndex key maxChain object with
  | .table ref => rawSet ref key value
  | .call f self => discard <| call calls f [self, key, value]
  | .refused kind => throw (.indexNonTable kind)
  | .unreached => throw (.handlerLoop .newIndex)

/-- Assigns to a key of a table. What cannot be a key is refused before handlers are asked, unless
the table's own handler is a function. -/
def set (calls : Calls ε) (ref : Ref) (key value : Value) : Action ε Unit := do
  let key := key.normalize
  match key.keyDefect?, (← get).handler? (.table ref) .newIndex with
  | some _, some (.function _) => assign calls (.table ref) key value
  | some defect, _ => throw (.invalidKey defect)
  | none, _ => assign calls (.table ref) key value

/-- Assigns to an integer key of a table, which nothing stops from being a key. -/
def setInt (calls : Calls ε) (ref : Ref) (key : Int64) (value : Value) : Action ε Unit :=
  assign calls (.table ref) (.int key) value

/-- The handler of either operand, the left one first. -/
def eitherHandler? (w : World ε) (event : Event) (left right : Value) : Option Value :=
  match w.handler? left event with
  | some handler => some handler
  | none => w.handler? right event

/-- Whether two values are equal. Only two tables, or two userdata, may have a handler asked. -/
def equals (calls : Calls ε) (left right : Value) : Action ε Bool := do
  if left.rawEqual right then return true
  match left, right with
  | .table _, .table _ | .userdata _, .userdata _ =>
    match eitherHandler? (← get) .equal left right with
    | some handler => return (firstResult (← callHandler calls handler [left, right])).isTruthy
    | none => return false
  | _, _ => return false

/-- Whether one value is below another: numbers by value, strings bytewise, all else by a
handler. -/
def lessThan (calls : Calls ε) (left right : Value) : Action ε Bool := do
  match left, right with
  | .int a, .int b => return decide (a < b)
  | .int a, .float b => return Binary64.intLess a b
  | .float a, .int b => return a.lessInt b
  | .float a, .float b => return a.less b
  | .text a, .text b => return decide (a.content < b.content)
  | _, _ =>
    match eitherHandler? (← get) .less left right with
    | some handler => return (firstResult (← callHandler calls handler [left, right])).isTruthy
    | none => throw (.incomparable left.kind right.kind)

/-- The length of a table: what its handler says, which must be an integer, or else a border. -/
def length (calls : Calls ε) (ref : Ref) : Action ε Int64 := do
  let w ← get
  match w.handler? (.table ref) .length with
  | none => return Int64.ofNat (w.rawLength ref)
  | some handler =>
    let found := firstResult (← callHandler calls handler [.table ref])
    match found.toInt64? with
    | some n => return n
    | none => throw (.nonIntegerLength found)

/-- Attaches a metatable, or detaches the present one, which may forbid it. The new one's mode
decides what the table holds weakly. -/
def setMetatable (ref : Ref) (metatable : Option Ref) : Action ε Unit := fun w =>
  let protection := (w.table ref).metatable.bind (w.rawGetText · Event.metatable.field)
  if protection.isSome then (.error .protectedMetatable, w)
  else
    let policy := WeakPolicy.ofMode (metatable.bind (w.rawGetText · Event.mode.field))
    (.ok (), w.modifyTable ref fun live t => t.attachMetatable live metatable policy)

end Action

end HybridTable
