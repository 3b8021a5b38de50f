import HybridTable.Session.Answer

/-!
The order in which pairs are listed.

Keys of the array region come first, in the order of traversal. The traversal of the other keys
shows how strings and objects are hashed, so it is kept only if none of these is among the keys, and
is replaced by an order of types and of values within each type otherwise.
-/

namespace HybridTable.Session

/-- Whether a key is an integer from 1 up to a capacity. -/
def Shown.isPosition (capacity : Nat) : Shown → Bool
  | .int i => decide (1 ≤ i.toInt ∧ i.toInt ≤ capacity)
  | _ => false

/-- Whether the place of a key does not depend on how strings and objects are hashed. -/
def Shown.hasFixedHash : Shown → Bool
  | .bool _ => true
  | .int _ => true
  | .float _ => true
  | _ => false

/-- The rank of the type of a shown value. -/
def Shown.rank : Shown → Nat
  | .nil => 0
  | .bool _ => 1
  | .int _ => 2
  | .float _ => 3
  | .text _ => 4
  | .object .table _ => 5
  | .object .function _ => 6
  | .object .userdata _ => 7
  | .object _ _ => 8

/-- Whether a shown value comes before or level with another. An object without a label comes before
those that have one. -/
def Shown.atMost (left right : Shown) : Bool :=
  if left.rank ≠ right.rank then decide (left.rank < right.rank)
  else match left, right with
    | .bool a, .bool b => !a || b
    | .int a, .int b => decide (a ≤ b)
    | .float a, .float b => decide (a.bits ≤ b.bits)
    | .text a, .text b => !decide (b < a)
    | .object _ none, .object _ _ => true
    | .object _ (some _), .object _ none => false
    | .object _ (some a), .object _ (some b) => !decide (b < a)
    | _, _ => true

/-- Puts things in the order in which their keys are listed. -/
def listed {α : Type} (key : α → Shown) (arrayCapacity : Nat) (items : List α) : List α :=
  let (positions, others) := items.partition fun item => (key item).isPosition arrayCapacity
  positions ++
    if others.all fun item => (key item).hasFixedHash then others
    else others.mergeSort fun left right => (key left).atMost (key right)

end HybridTable.Session
