import HybridTable.Json.Token

/-!
From tokens to a JSON value, one token at a time.

A `Stage` is what has been read of a text: the containers that are open, and what may come next.
-/

namespace HybridTable.Json

/-- Containers may be nested less deep than this. -/
def maxNesting : Nat := 128

/-- A container that is open and waits for a value. -/
inductive Pending where
  /-- An array, with its items so far, the last one first. -/
  | item (items : List Json)
  /-- An object, with its members so far and the name of the next one. -/
  | member (members : List (String × Json)) (name : String)

/-- What may come next, inside the containers that are open, the innermost first. -/
inductive Stage where
  /-- A value. -/
  | value (around : List Pending)
  /-- The first item of an array, or its end. -/
  | firstItem (around : List Pending)
  /-- Another item of an array, or its end. -/
  | nextItem (items : List Json) (around : List Pending)
  /-- The first name of an object, or its end. -/
  | firstName (around : List Pending)
  /-- The name of another member. -/
  | name (members : List (String × Json)) (around : List Pending)
  /-- The colon after a name. -/
  | colon (members : List (String × Json)) (name : String) (around : List Pending)
  /-- Another member of an object, or its end. -/
  | nextMember (members : List (String × Json)) (around : List Pending)
  /-- Nothing: a value is complete. -/
  | done (value : Json)

namespace Stage

/-- What comes after a value. -/
def afterValue (complete : Json) : List Pending → Stage
  | [] => done complete
  | .item items :: around => nextItem (complete :: items) around
  | .member members own :: around => nextMember (addMember own complete members) around

/-- What comes after the first token of a value. -/
def startValue (around : List Pending) : Token → Option Stage
  | .scalar scalar => some (afterValue scalar around)
  | .openArray => if around.length + 1 < maxNesting then some (firstItem around) else none
  | .openObject => if around.length + 1 < maxNesting then some (firstName around) else none
  | _ => none

/-- What comes after a token, if the token may come here. -/
def step (stage : Stage) (token : Token) : Option Stage :=
  match stage, token with
  | value around, token => startValue around token
  | firstItem around, .closeArray => some (afterValue (.array []) around)
  | firstItem around, token => startValue (.item [] :: around) token
  | nextItem items around, .comma => some (value (.item items :: around))
  | nextItem items around, .closeArray => some (afterValue (.array items.reverse) around)
  | firstName around, .closeObject => some (afterValue (.object []) around)
  | firstName around, .scalar (.text own) => some (colon [] own around)
  | name members around, .scalar (.text own) => some (colon members own around)
  | colon members own around, .colon => some (value (.member members own :: around))
  | nextMember members around, .comma => some (name members around)
  | nextMember members around, .closeObject => some (afterValue (.object members) around)
  | _, _ => none

end Stage

/-- The value that a text writes. -/
def parse? (text : String) : Option Json := do
  match ← (← tokens? text.toList).foldlM Stage.step (.value []) with
  | .done value => some value
  | _ => none

end HybridTable.Json
