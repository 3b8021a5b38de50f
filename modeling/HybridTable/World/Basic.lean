import HybridTable.Error
import HybridTable.Objects.Reclaim
import HybridTable.Table.Shift

/-!
The world in which operations run: the objects, what holds them from outside, and the host.

Functions belong to the host. What a call does is a parameter of every operation that may call one;
it can change anything in the world, and its arguments are held while it runs.
-/

namespace HybridTable

/-- Everything that an operation can read or change. -/
structure World (ε : Type) where
  /-- What objects contain. -/
  objects : Objects
  /-- The values that the host keeps under names. -/
  kept : Std.HashMap String Value
  /-- The values that running operations hold, those of the latest first. -/
  held : List (List Value)
  /-- What else belongs to the host. -/
  host : ε

/-- An operation that may fail. What it changed before it failed stays changed. -/
abbrev Action (ε α : Type) := ExceptT Error (StateM (World ε)) α

/-- What it means to call a function of the host. -/
abbrev Calls (ε : Type) := Function → List Value → Action ε (List Value)

variable {ε α : Type}

namespace World

/-- The world at the start. -/
def initial (host : ε) : World ε := ⟨.none, ∅, [], host⟩

/-- What is held from outside of the objects. -/
def roots (w : World ε) : List Ref :=
  w.held.flatMap (·.flatMap Value.refs) ++ w.kept.values.flatMap Value.refs

/-- Which referents are alive. -/
def survivors (w : World ε) : Objects.Survivors := w.objects.survivors (Thunk.mk fun _ => w.roots)

/-- Which referents are alive while a table is in hand. -/
def liveWith (w : World ε) (inHand : Ref) : Liveness :=
  fun held ref => w.objects.isAliveWith w.roots inHand held ref

/-- The table with an identity. -/
def table (w : World ε) (ref : Ref) : Table := w.objects.table ref

/-- Writes a table. -/
def setTable : World ε → Ref → Table → World ε
  | { objects, kept, held, host }, ref, t =>
    { objects := objects.setTable ref t, kept, held, host }

/-- Changes a table. While it is in hand, what it holds is what the running change says it holds. -/
def modifyTable (w : World ε) (ref : Ref) (f : Liveness → Table → Table) : World ε :=
  let t := w.table ref
  let w := w.setTable ref .empty
  let t := f (w.liveWith ref) t
  w.setTable ref t

/-- Adds a table. -/
def addTable (w : World ε) (t : Table) : Value × World ε :=
  let (ref, objects) := w.objects.fresh
  (.table ref, { w with objects := objects.setTable ref t })

/-- A string value; a long string is a new one. -/
def addText (w : World ε) (content : String) : Value × World ε :=
  let (ref, objects) := w.objects.fresh
  (.text (.make ref content), { w with objects })

section
variable [Hashing]

/-- The value of a key of a table. -/
def rawGet (w : World ε) (ref : Ref) (key : Value) : Option Value :=
  (w.table ref).get w.survivors.contains key

/-- The value of a string key of a table. -/
def rawGetText (w : World ε) (ref : Ref) (key : String) : Option Value :=
  (w.table ref).getText w.survivors.contains key

/-- Removes a value of a list and closes the gap. -/
def removeAt (w : World ε) (ref : Ref) (key : Int64) : Option Value × World ε :=
  let t := w.table ref
  match t.remove (w.liveWith ref) key with
  | some (removed, t) => (some removed, w.setTable ref t)
  | none => (none, w)

/-- The length of a table, without its length handler. -/
def rawLength (w : World ε) (ref : Ref) : Nat := (w.table ref).length w.survivors.contains

/-- What a value's metatable has for an event. -/
def handler? (w : World ε) (v : Value) (event : Event) : Option Value := do
  w.rawGetText (← w.objects.metatable? v) event.field

end

end World

namespace Action

/-- Runs an operation while values are held. -/
def holding (values : List Value) (act : Action ε α) : Action ε α := fun w =>
  let before := w.held
  let (result, w) := act.run { w with held := values :: before }
  (result, { w with held := before })

/-- Stores a pair in a table, without its handlers. -/
def rawSet [Hashing] (ref : Ref) (key value : Value) : Action ε Unit := fun w =>
  match key.keyDefect? with
  | some defect => (.error (.invalidKey defect), w)
  | none => (.ok (), w.modifyTable ref fun live t => t.put live key value)

/-- Calls a function, holding it and its arguments meanwhile. -/
def call (calls : Calls ε) (f : Function) (args : List Value) : Action ε (List Value) :=
  holding (.function f :: args) (calls f args)

end Action

/-- The first of the results of a call, `nil` if there is none. -/
def firstResult (results : List Value) : Value := results.headD .nil

end HybridTable
