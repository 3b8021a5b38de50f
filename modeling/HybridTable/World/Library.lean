import HybridTable.Table.Sorted
import HybridTable.World.Dispatch

/-!
The table library: concatenation, sorting, and taking a range of values.
-/

namespace HybridTable

/-- The least length that is too large to sort. -/
def maxSort : Int64 := 2147483647

/-- The least number of values that is too large to be returned at once. -/
def maxUnpack : Nat := 0x00ffffff

variable {ε : Type} [Hashing]

/-- An order on values that is asked for in a world. -/
abbrev Order (ε : Type) := Value → Value → Action ε Bool

namespace Action

/-- The order that a function of the host defines: whether its first result counts as true. -/
def orderBy (calls : Calls ε) (f : Function) : Order ε := fun left right => do
  return (firstResult (← call calls f [left, right])).isTruthy

/-- Sorts a list of values. The list is given back also when a comparison failed, in the order that
it had got by then. -/
def sortValues (less : Order ε) (values : List Value) :
    StateM (World ε) (Except Error Unit × List Value) := fun w =>
  let sorted := Sort.heapSort (fun left right => (less left right).run) values.toArray.toVector w
  ((sorted.verdict, sorted.values.toList), sorted.state)

/-- Sorts the leading values of a table, which no comparison may change. -/
def sortBy (less : Order ε) (ref : Ref) : Action ε Unit := fun w =>
  let t := w.table ref
  let alive := w.survivors.contains
  let sorting : Action ε Unit := fun w =>
    match t.sortBy (fun left right => (less left right).run) alive w with
    | (.ok t, w) => (.ok (), w.setTable ref t)
    | (.error e, w) => (.error e, w)
  holding (t.sequence alive) sorting w

/-- Sorts a table, unless its length is too large. What is sorted is a copy of its leading values,
which is written back when all comparisons succeeded; a comparison may read and change the table
meanwhile. -/
def sort (calls : Calls ε) (ref : Ref) (comparator : Option Function) : Action ε Unit := do
  let length ← length calls ref
  if maxSort ≤ length then throw (.sortTooLarge length)
  let less : Order ε := match comparator with
    | some f => orderBy calls f
    | none => lessThan calls
  let w ← get
  let values := (w.table ref).sequence w.survivors.contains
  if 2 ≤ values.length then
    holding values do
      match ← sortValues less values with
      | (.ok (), sorted) => modify (·.modifyTable ref fun _ t => t.storeSequence sorted)
      | (.error e, _) => throw e

/-- The texts of the values of the keys from `first` to `last`, with a separator between them, after
a text. -/
def concatFrom (calls : Calls ε) (ref : Ref) (separator : String) (last key : Int64)
    (before : String) : Action ε String := do
  let value ← index calls (.table ref) (.int key)
  match value.concatText? with
  | none => throw (.invalidConcatValue key value.kind)
  | some text =>
    if key < last then
      if _ : key = Int64.maxValue then return before ++ text
      else concatFrom calls ref separator last (key + 1) (before ++ text ++ separator)
    else return before ++ text
termination_by keysLeft key
decreasing_by exact keysLeft_add_one ‹_›

/-- The texts of the values of a range of keys, with a separator between them. -/
def concat (calls : Calls ε) (ref : Ref) (separator : String) (first last : Int64) :
    Action ε String :=
  if first ≤ last then concatFrom calls ref separator last first "" else pure ""

/-- The values of so many keys from one on, after values that have been found already. -/
def valuesFrom (calls : Calls ε) (ref : Ref) : Nat → Int64 → List Value → Action ε (List Value)
  | 0, _, found => pure found.reverse
  | count + 1, key, found => do
    let value ← holding found (index calls (.table ref) (.int key))
    valuesFrom calls ref count (key + 1) (value :: found)

/-- The values of a range of keys, unless there are too many. -/
def unpack (calls : Calls ε) (ref : Ref) (first last : Int64) : Action ε (List Value) :=
  if first ≤ last then
    let count := (last.toInt - first.toInt).toNat + 1
    if maxUnpack ≤ count then throw (.unpackTooLarge (min count 0xffffffffffffffff))
    else valuesFrom calls ref count first []
  else pure []

/-- The values from key 1 up to the border. -/
def unpackAll (calls : Calls ε) (ref : Ref) : Action ε (List Value) := do
  unpack calls ref 1 (Int64.ofNat ((← get).rawLength ref))

end Action

end HybridTable
