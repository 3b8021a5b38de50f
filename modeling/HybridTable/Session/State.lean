import HybridTable.Json.Printer
import HybridTable.Session.Answer
import HybridTable.Session.Command
import HybridTable.World.Dispatch

/-!
The state of a session, evaluating operands, and keeping values under names.

The first name under which an object is kept becomes its label for good. Labels hold nothing.
-/

namespace HybridTable

namespace Session

/-- A function that was made by a command. -/
structure Script where
  /-- What it runs. -/
  body : List Command
  /-- What it returns. -/
  returned : Returned
  /-- Whether its calls are logged. -/
  logged : Bool

end Session

open Session

/-- The state of a session, besides the tables. -/
structure Session where
  /-- The label of each object that has one. -/
  labels : Std.HashMap Ref String
  /-- The first object that got each label. -/
  labelled : Std.HashMap String Ref
  /-- The functions. -/
  scripts : Std.HashMap Ref Script
  /-- The calls logged while the present command runs, the last one first. -/
  log : List Call

namespace Session

/-- A step of a session. -/
abbrev Step (α : Type) := ExceptT Failure (StateM (World Session)) α

/-- Strings are hashed character by character, objects by their number. -/
instance hashing : Hashing where
  ofText s := s.foldl (fun code c => (code ^^^ c.val.toUInt64) * 0x100000001b3) 0xcbf29ce484222325
  ofRef ref := ref.toUInt64

/-- A session in which nothing has happened. -/
def start : World Session := .initial ⟨∅, ∅, ∅, []⟩

/-- A value as it is shown at present. -/
def shown (session : Session) : Value → Shown
  | .nil => .nil
  | .bool b => .bool b
  | .int i => .int i
  | .float x => .float x
  | .text s => .text s.content
  | .table ref => .object .table session.labels[ref]?
  | .function f => .object .function session.labels[f.ref]?
  | .userdata ref => .object .userdata session.labels[ref]?
  | .thread ref => .object .thread session.labels[ref]?

/-- The kind of a failure, as reports name it, if it is not one of operations on tables. -/
def Failure.kind? : Failure → Option String
  | .table _ => none
  | .json _ => some "Json"
  | .jsonSyntax => some "JsonParse"
  | .misuse _ => some "BadOp"

/-- The text of a failure that has one. -/
def Failure.message? : Failure → Option String
  | .table error => some error.message
  | .json message => some message
  | .jsonSyntax => none
  | .misuse reason => some reason

/-- The error that a failure in the body of a function is for its caller: any that is not an error
of tables is raised as the text of its report. -/
def Failure.raised : Failure → Error
  | .table error => error
  | failure =>
    let field (name : String) (text : Option String) :=
      (text.map fun s => (name, Json.text s)).toList
    .raised (Json.print none
      (.object (field "error" failure.kind? ++ field "message" failure.message?)))

namespace Step

/-- An operation on tables as a step. -/
def ofAction {α : Type} (act : Action Session α) : Step α := fun w =>
  match act.run w with
  | (.ok result, w) => (.ok result, w)
  | (.error e, w) => (.error (.table e), w)

/-- A step as an operation on tables. -/
def toAction {α : Type} (step : Step α) : Action Session α := fun w =>
  match step.run w with
  | (.ok result, w) => (.ok result, w)
  | (.error failure, w) => (.error failure.raised, w)

/-- Runs a step while values are held, and whatever it comes to hold by `hold`. -/
def holding {α : Type} (values : List Value) (step : Step α) : Step α := fun w =>
  let before := w.held
  let (result, w) := step.run { w with held := values :: before }
  (result, { w with held := before })

/-- Holds a value until the present command ends. -/
def hold (v : Value) : Step Unit := modify fun w =>
  match w.held with
  | values :: before => { w with held := (v :: values) :: before }
  | [] => { w with held := [[v]] }

/-- The value of an operand, which nothing holds yet. -/
def evalOnly (args : List Value) : Operand → Step Value
  | .nil => pure .nil
  | .bool b => pure (.bool b)
  | .int i => pure (.int i)
  | .float x => pure (.float x)
  | .text content => modifyGet (·.addText content)
  | .repeated content times => modifyGet (·.addText (String.join (List.replicate times content)))
  | .argument index => pure (args[index]?.getD .nil)
  | .kept name => do
    match (← get).kept[name]? with
    | some v => pure v
    | none => throw (.misuse "register")

/-- The value of an operand, held until the present command ends. -/
def eval (args : List Value) (operand : Operand) : Step Value := do
  let v ← evalOnly args operand
  hold v
  return v

/-- The values of operands. -/
def evalAll (args : List Value) (operands : List Operand) : Step (List Value) :=
  operands.mapM (eval args)

/-- The table that an operand refers to. -/
def evalTable (args : List Value) (operand : Operand) : Step Ref := do
  match ← eval args operand with
  | .table ref => return ref
  | _ => throw (.misuse "not a table")

/-- The function that an operand refers to. -/
def evalFunction (args : List Value) (operand : Operand) : Step Function := do
  match ← eval args operand with
  | .function f => return f
  | _ => throw (.misuse "not a function")

/-- The userdata that an operand refers to. -/
def evalUserdata (args : List Value) (operand : Operand) : Step Ref := do
  match ← eval args operand with
  | .userdata ref => return ref
  | _ => throw (.misuse "not a userdata")

/-- The thread that an operand refers to. -/
def evalThread (args : List Value) (operand : Operand) : Step Ref := do
  match ← eval args operand with
  | .thread ref => return ref
  | _ => throw (.misuse "not a thread")

/-- The integer that an operand refers to. -/
def evalInt (args : List Value) (operand : Operand) : Step Int64 := do
  match ← eval args operand with
  | .int i => return i
  | _ => throw (.misuse "not an integer")

/-- The metatable that an operand refers to, `nil` being none. -/
def evalMetatable (args : List Value) (operand : Operand) : Step (Option Ref) := do
  match ← eval args operand with
  | .nil => return none
  | .table ref => return some ref
  | _ => throw (.misuse "not a table")

/-- Keeps a value under a name, and labels an object that has no label yet. -/
def save (name : String) (v : Value) : Step Unit := modify fun w =>
  let w := { w with kept := w.kept.insert name v }
  if v.isObject then
    v.refs.foldl (fun w ref =>
      if w.host.labels.contains ref then w
      else
        { w with host := { w.host with
            labels := w.host.labels.insert ref name
            labelled := w.host.labelled.insertIfNew name ref } }) w
  else w

/-- Forgets the values kept under names. -/
def drop (names : List String) : Step Unit :=
  modify fun w => { w with kept := names.foldl (·.erase ·) w.kept }

end Step

end Session

end HybridTable
