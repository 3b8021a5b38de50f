import HybridTable.Number.Successor
import HybridTable.Table.Border
import HybridTable.Table.Write

/-!
Inserting into and removing from a list by shifting the values after it.

A shift ends at the first absent key, so it leaves everything beyond the first hole alone.
-/

namespace HybridTable.Table

variable [Hashing]

/-- Stores a value at a key and moves what was there, and every value up to the first absent key,
one key up. What is moved past the greatest key is dropped. -/
def shiftUp (live : Liveness) (t : Table) (key : Int64) (value : Value) : Table :=
  if value.isNil then t
  else
    let displaced := (t.getInt (fun r => live (value.refs ++ t.refs) r) key).getD .nil
    let t := t.setInt (live.holding displaced.refs) key value
    if _ : key = Int64.maxValue then t else t.shiftUp live (key + 1) displaced
termination_by keysLeft key
decreasing_by exact keysLeft_add_one ‹_›

/-- Moves every value after `key`, up to the first absent one, one key down. -/
def shiftDown (live : Liveness) (t : Table) (key : Int64) : Table :=
  if _ : key = Int64.maxValue then t.setInt live key .nil
  else match t.getInt (fun r => live t.refs r) (key + 1) with
    | some value => (t.setInt live key value).shiftDown live (key + 1)
    | none => t.setInt live key .nil
termination_by keysLeft key
decreasing_by exact keysLeft_add_one ‹_›

/-- Inserts a value before a key; 0 appends it after the border. Inserting `nil` does nothing. -/
def insert (live : Liveness) (t : Table) (key : Int64) (value : Value) : Table :=
  if key = 0 then
    let length := t.length fun r => live (value.refs ++ t.refs) r
    if length < maxInt then t.shiftUp live (Int64.ofNat (length + 1)) value else t
  else t.shiftUp live key value

/-- Removes and returns the value of a key and closes the gap; 0 removes at the border. There is
nothing to remove past the border or at an absent key. -/
def remove (live : Liveness) (t : Table) (key : Int64) : Option (Value × Table) :=
  let alive : Ref → Bool := fun r => live t.refs r
  let length := t.length alive
  let key := if key = 0 then Int64.ofNat length else key
  if (length : Int) < key.toInt then none
  else (t.getInt alive key).map fun removed =>
    (removed, t.shiftDown (live.holding removed.refs) key)

end HybridTable.Table
