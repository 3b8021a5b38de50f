import HybridTable.Session.State

/-!
Looking at single values, and at the cells, entries and tombstones that storage makes of them.

What is looked at is held by nothing but itself and the names of the session, so that it can be seen
losing what it does not hold.
-/

namespace HybridTable.Session

/-- Whether the hash of a value does not depend on how strings and objects are hashed. -/
def hasFixedHash : Value → Bool
  | .nil => true
  | .bool _ => true
  | .int _ => true
  | .float _ => true
  | _ => false

/-- How the parts of an entry are stored. -/
def shapeOf : Entry → EntryShape
  | .plain (.int _) _ => .intKey
  | .plain _ (.float _) => .numberValue
  | .plain _ _ => .normal
  | .guarded _ _ => .weak

/-- The masks for which an inspection shows the bucket. -/
def shownMasks : List Nat := [0, 1, 3, 7, 15, 63, 1023]

/-- All that can be asked of a value. -/
def inspect (w : World Session) (v : Value) : Inspection where
  value := v
  metatable := (w.objects.metatable? v).map Value.table
  concatText := v.concatText?
  hash := if hasFixedHash v then some (v.keyHash.code, shownMasks.map v.keyHash.bucket) else none

/-- Which referents are alive when something that holds `refs` is looked at. -/
def survivorsBeside (w : World Session) (refs : List Ref) : Objects.Survivors :=
  w.objects.survivors (Thunk.mk fun _ => refs ++ w.roots)

/-- The state of an entry. -/
def viewEntry (w : World Session) (e : Entry) (probes : List Value) (mask limit : Nat) :
    EntryView :=
  let alive := (survivorsBeside w e.refs).contains
  let key := e.key? alive
  { shape := shapeOf e
    key
    value := e.value? alive
    paired := (e.pair? alive).isSome
    matched := probes.map fun probe => e.hasKey alive probe
    bucket := if key.any hasFixedHash then some (e.keyHash.bucket mask) else none
    arrayKey := e.arrayKey? limit
    keyIsAlive := e.keyIsAlive alive
    isAlive := e.isAlive alive }

/-- The state of a tombstone. -/
def viewTombstone (w : World Session) (key : Cell) (probes : List Value) (mask : Nat) :
    TombstoneView :=
  let alive := (survivorsBeside w key.refs).contains
  { matched := probes.map fun probe => key.holdsKey alive probe
    isCollected := !key.isAlive alive
    bucket :=
      if hasFixedHash key.content then some (key.content.keyHash.bucket mask) else none }

/-- The state of a cell. -/
def viewCell (w : World Session) (c : Cell) (probes : List Value) : CellView :=
  let alive := (survivorsBeside w c.refs).contains
  { isWeak := match c with
      | .weak _ => true
      | .strong _ => false
    isAlive := c.isAlive alive
    value := c.read alive
    matched := probes.map fun probe => c.holdsKey alive probe }

end HybridTable.Session
