import HybridTable.Number.Decimal

/-!
JSON data. Numbers keep whether they were written as integers, and the members of an object are in
ascending order of their names, each name occurring once.
-/

namespace HybridTable

/-- A JSON value. -/
inductive Json where
  | null
  | bool (b : Bool)
  | int (i : Int64)
  | float (x : Binary64)
  | text (s : String)
  | array (items : List Json)
  | object (members : List (String × Json))
  deriving Inhabited

/-- The members of an object after one more is added; it replaces one of the same name. -/
def Json.addMember (name : String) (value : Json) : List (String × Json) → List (String × Json)
  | [] => [(name, value)]
  | (other, own) :: rest =>
    if name < other then (name, value) :: (other, own) :: rest
    else if name = other then (name, value) :: rest
    else (other, own) :: addMember name value rest

end HybridTable
