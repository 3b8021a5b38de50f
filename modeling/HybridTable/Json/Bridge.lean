import HybridTable.Json.Basic
import HybridTable.Table.Construct
import HybridTable.World.Basic

/-!
Between JSON data and tables.

A table whose keys are exactly the integers from 1 to some `n` is an array, the empty table
included; every other table is an object, its keys being written as text. In the other direction
`null` is absence, so it leaves a hole in an array and no member in an object.
-/

namespace HybridTable

/-- Why a value cannot be written as JSON. -/
inductive JsonError where
  /-- A number is not finite. -/
  | invalidNumber (x : Binary64)
  /-- A table contains itself. -/
  | circular
  /-- A value has no JSON form. -/
  | unwritable (kind : Kind)
  /-- A key of an object has no text. -/
  | unusableKey (kind : Kind)
  deriving DecidableEq

/-- The text of a failure. -/
def JsonError.message : JsonError → String
  | invalidNumber x =>
    "Invalid number: " ++
      (if x.isNaN then "NaN" else if x.isNegative then "-inf" else "inf")
  | circular => "Circular reference detected in table"
  | unwritable kind => "Cannot serialize Lua " ++ kind.name ++ " to JSON"
  | unusableKey kind => "Cannot use Lua " ++ kind.name ++ " as a JSON object key"

variable {ε : Type} [Hashing]

/-- Whether a key is an integer above zero. -/
def Value.isListKey : Value → Bool
  | .int i => decide (0 < i)
  | _ => false

/-- Whether the first key of a pair is at most the second, for integers. -/
def keyAtMost (left right : Value × Value) : Bool :=
  match left.1, right.1 with
  | .int i, .int j => decide (i ≤ j)
  | _, _ => true

/-- The pairs of a table in the order of traversal, or in ascending order if all keys are integers
above zero. -/
def orderedPairs (pairs : List (Value × Value)) : List (Value × Value) :=
  if pairs.all (·.1.isListKey) then pairs.mergeSort keyAtMost else pairs

/-- Whether the keys of pairs are the integers from 1 on, in order. -/
def isListing (pairs : List (Value × Value)) : Bool :=
  pairs.zipIdx.all fun (pair, i) => pair.1 == .int (Int64.ofNat (i + 1))

/-- The text of a key as the name of a member. -/
def memberName : Value → Except JsonError String
  | .text s => .ok s.content
  | .int i => .ok (Value.int i).print
  | .float x => .ok x.print
  | .bool b => .ok (Value.bool b).print
  | key => .error (.unusableKey key.kind)

/-- The JSON form of a value inside of the tables `around`, at most so many tables deep. -/
def World.jsonWithin (w : World ε) : Nat → List Ref → Value → Except JsonError Json
  | _, _, .nil => .ok .null
  | _, _, .bool b => .ok (.bool b)
  | _, _, .int i => .ok (.int i)
  | _, _, .float x => if x.isFinite then .ok (.float x) else .error (.invalidNumber x)
  | _, _, .text s => .ok (.text s.content)
  | 0, _, .table _ => .error .circular
  | depth + 1, around, .table ref =>
    if around.contains ref then .error .circular
    else
      let pairs := orderedPairs ((w.table ref).pairs w.survivors.contains)
      let written := w.jsonWithin depth (ref :: around)
      if isListing pairs then .array <$> pairs.mapM fun (_, value) => written value
      else .object <$> pairs.foldlM (fun members (key, value) => do
        let name ← memberName key
        return Json.addMember name (← written value) members) []
  | _, _, v => .error (.unwritable v.kind)

/-- The JSON form of a value. No more tables than there are can be inside of each other. -/
def World.toJson (w : World ε) (v : Value) : Except JsonError Json :=
  w.jsonWithin (w.objects.next + 1) [] v

mutual

/-- The value of JSON data, made of new tables. -/
def Action.ofJson : Json → Action ε Value
  | .null => pure .nil
  | .bool b => pure (.bool b)
  | .int i => pure (.int i)
  | .float x => pure (.float x)
  | .text s => modifyGet (·.addText s)
  | .array items => do
    let values ← Action.ofJsonItems items
    let t ← Table.ofParts [] values
    modifyGet (·.addTable t)
  | .object members => do
    let named ← Action.ofJsonMembers members
    let t ← Table.ofParts named []
    modifyGet (·.addTable t)

/-- The values of the items of an array. -/
def Action.ofJsonItems : List Json → Action ε (List Value)
  | [] => pure []
  | item :: rest => do
    let value ← Action.ofJson item
    return value :: (← Action.ofJsonItems rest)

/-- The pairs of the members of an object. -/
def Action.ofJsonMembers : List (String × Json) → Action ε (List (Value × Value))
  | [] => pure []
  | (name, member) :: rest => do
    let key ← modifyGet (·.addText name)
    let value ← Action.ofJson member
    return (key, value) :: (← Action.ofJsonMembers rest)

end

end HybridTable
