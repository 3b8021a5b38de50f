import HybridTable.Table.Basic

/-!
Borders: a length `n` such that key `n` is present, unless `n` is zero, and key `n + 1` is absent.

A table with holes has several borders, and any of them is a length. If the last position of the
array region is absent, bisection finds one inside the region; otherwise the search goes on in the
hash region, doubling until it meets an absent key and then bisecting.
-/

namespace HybridTable

/-- The greatest integer key. -/
def maxInt : Nat := 0x7fffffffffffffff

/-- A border between a present and a later absent position. -/
def bisect (present : Nat → Bool) (low high : Nat) : Nat :=
  if 1 < high - low then
    let middle := low + (high - low) / 2
    if present middle then bisect present middle high else bisect present low middle
  else low
termination_by high - low

/-- The last key of the run of present keys from `key` on. -/
def endOfRun (present : Nat → Bool) (key : Nat) : Nat :=
  if key < maxInt ∧ present key then endOfRun present (key + 1) else key - 1
termination_by maxInt - key

/-- A border above a present `low`, looked for at `high` and its doubles. When doubling would leave
the range of keys, the border of the first run is taken. -/
def searchUp (present : Nat → Bool) (low high : Nat) : Nat :=
  if present high then
    if maxInt / 2 < high then endOfRun present 1
    else if high = 0 then low
    else searchUp present high (high * 2)
  else bisect present low high
termination_by maxInt - high

namespace Table

variable [Hashing]

/-- Whether an integer key is present. -/
def present (t : Table) (alive : Ref → Bool) (key : Nat) : Bool :=
  (t.getInt alive (Int64.ofNat key)).isSome

/-- The length of a table: one of its borders. -/
def length (t : Table) (alive : Ref → Bool) : Nat :=
  let limit := t.array.size
  if 0 < limit ∧ t.readPosition alive (limit - 1) = none then
    bisect (fun key => (t.readPosition alive (key - 1)).isSome) 0 limit
  else if t.count = 0 then limit
  else searchUp (t.present alive) limit (limit + 1)

end Table

end HybridTable
