import HybridTable.Value.Key

/-!
Storage cells and the policies that make them weak.

A cell holds its value strongly or weakly. A weak cell keeps the value it was made from, but that
value can be read only while its referent is alive; whether it is, the reader has to be told.
-/

namespace HybridTable

/-- A place in storage that is in use. -/
inductive Cell where
  /-- The value is kept alive by being here. -/
  | strong (value : Value)
  /-- The value is here as long as something else keeps it alive. -/
  | weak (value : Value)
  deriving DecidableEq

namespace Cell

/-- Whether the value can still be read. -/
def isAlive (alive : Ref → Bool) : Cell → Bool
  | strong _ => true
  | weak value => value.ref?.all alive

/-- The value, unless its referent was reclaimed. -/
def read (alive : Ref → Bool) : Cell → Option Value
  | strong value => some value
  | weak value => if value.ref?.all alive then some value else none

/-- Whether the cell holds a value that is primitively equal to a key. -/
def holdsKey (alive : Ref → Bool) (key : Value) (cell : Cell) : Bool :=
  (cell.read alive).any (·.rawEqual key)

/-- The value that the cell was made from, whether or not it can still be read. -/
def content : Cell → Value
  | strong value => value
  | weak value => value

/-- What the cell keeps alive. -/
def refs : Cell → List Ref
  | strong value => value.refs
  | weak _ => []

/-- The cell for the key of a removed pair, which must not keep its key alive. -/
def forTombstone (key : Value) : Cell :=
  if key.isLargeKey then weak key else strong key

end Cell

/-- Which halves of its pairs a table holds weakly. -/
structure WeakPolicy where
  /-- Keys that are objects are held weakly. -/
  keys : Bool
  /-- Values that are objects are held weakly. -/
  values : Bool
  deriving DecidableEq

namespace WeakPolicy

/-- Nothing is held weakly. -/
def allStrong : WeakPolicy := ⟨false, false⟩

/-- The policy that a mode asks for: a string with the letters of what is to be weak. -/
def ofMode : Option Value → WeakPolicy
  | some (.text mode) => ⟨mode.content.toList.contains 'k', mode.content.toList.contains 'v'⟩
  | _ => allStrong

/-- A cell that is weak if asked for and if the value is an object. -/
def cell (weakly : Bool) (value : Value) : Cell :=
  if weakly && value.isObject then .weak value else .strong value

/-- The cell in which a value is stored. -/
def valueCell (policy : WeakPolicy) (value : Value) : Cell := cell policy.values value

/-- The cell in which a key is stored. -/
def keyCell (policy : WeakPolicy) (key : Value) : Cell := cell policy.keys key

end WeakPolicy

end HybridTable
