/-!
Heap sort with a comparison that may fail and may have effects.

The values stay in a vector of fixed length, so every index is in range whatever the comparison
answers. A failed comparison ends the sort at once; the values are then left as they stand, since
all that ever happens to them is that two change places.
-/

namespace HybridTable.Sort

variable {α σ ε : Type}

/-- A test whether one value belongs before another. It may fail, and it may change the state in
which it is run. -/
abbrev Comparison (α σ ε : Type) := α → α → σ → Except ε Bool × σ

/-- What a sort leaves behind. -/
structure Outcome (α σ ε : Type) (n : Nat) where
  /-- Whether it was completed, or else the failure of the comparison that ended it. -/
  verdict : Except ε Unit
  /-- The values in their new order. -/
  values : Vector α n
  /-- The state after the last comparison. -/
  state : σ

/-- The child of `root` that belongs later, among those up to `last`; the left one is in range. -/
def laterChild (less : Comparison α σ ε) {n last : Nat} (inside : last < n) (root : Nat)
    (below : root * 2 < last) (values : Vector α n) (s : σ) :
    Except ε { child : Nat // root < child ∧ child ≤ last } × σ :=
  if both : root * 2 + 1 < last then
    match less values[root * 2 + 1] values[root * 2 + 2] s with
    | (.ok true, s) => (.ok ⟨root * 2 + 2, by omega, by omega⟩, s)
    | (.ok false, s) => (.ok ⟨root * 2 + 1, by omega, by omega⟩, s)
    | (.error e, s) => (.error e, s)
  else (.ok ⟨root * 2 + 1, by omega, by omega⟩, s)

/-- Moves the value at `root` down, among the values up to `last`, until no child belongs after
it. -/
def siftDown (less : Comparison α σ ε) {n last : Nat} (inside : last < n) (root : Nat)
    (values : Vector α n) (s : σ) : Outcome α σ ε n :=
  if below : root * 2 < last then
    match laterChild less inside root below values s with
    | (.error e, s) => ⟨.error e, values, s⟩
    | (.ok ⟨child, deeper, _⟩, s) =>
      match less values[root] values[child] s with
      | (.error e, s) => ⟨.error e, values, s⟩
      | (.ok false, s) => ⟨.ok (), values, s⟩
      | (.ok true, s) => siftDown less inside child (values.swap root child) s
  else ⟨.ok (), values, s⟩
termination_by last - root

/-- Sifts down every value before the position `roots`, the last one first. -/
def buildHeap (less : Comparison α σ ε) {n last : Nat} (inside : last < n) :
    Nat → Vector α n → σ → Outcome α σ ε n
  | 0, values, s => ⟨.ok (), values, s⟩
  | root + 1, values, s =>
    match siftDown less inside root values s with
    | ⟨.ok (), values, s⟩ => buildHeap less inside root values s
    | failed => failed

/-- Takes the first value of the heap up to `last` to its end, until the heap is used up. -/
def drainHeap (less : Comparison α σ ε) {n : Nat} :
    (last : Nat) → last < n → Vector α n → σ → Outcome α σ ε n
  | 0, _, values, s => ⟨.ok (), values, s⟩
  | last + 1, inside, values, s =>
    match siftDown less (Nat.lt_of_succ_lt inside) 0 (values.swap (last + 1) 0) s with
    | ⟨.ok (), values, s⟩ => drainHeap less last (Nat.lt_of_succ_lt inside) values s
    | failed => failed

/-- Sorts the values in place. Fewer than two values need no comparison. -/
def heapSort (less : Comparison α σ ε) {n : Nat} (values : Vector α n) (s : σ) :
    Outcome α σ ε n :=
  if several : 2 ≤ n then
    have inside : n - 1 < n := by omega
    match buildHeap less inside (n / 2) values s with
    | ⟨.ok (), values, s⟩ => drainHeap less (n - 1) inside values s
    | failed => failed
  else ⟨.ok (), values, s⟩

end HybridTable.Sort
