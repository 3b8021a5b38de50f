import HybridTable.Proofs.Faults
import HybridTable.Table.Sorted

/-! Sorting in checked steps, on an array whose length is not part of its type. Every index is that
of a value in the heap, whatever the comparisons answer, and going down in the heap leads to its
end. -/
namespace HybridTable

/-- Exchanges two elements. -/
def Checked.swap {α : Type} (xs : Array α) (i j : Nat) : Checked (Array α) :=
  if h : i < xs.size ∧ j < xs.size then .ok (xs.swap i j h.1 h.2) else .error .index

end HybridTable

namespace HybridTable.Sort

variable {α σ ε : Type}

/-- The verdict of a sort, the values in their new order and the state afterwards. -/
abbrev Result (α σ ε : Type) := Except ε Unit × Array α × σ

/-- `Sort.laterChild` in checked steps. -/
def checkedLaterChild (less : Comparison α σ ε) (last root : Nat) (values : Array α) (s : σ) :
    Checked (Except ε Nat × σ) := do
  let child := root * 2 + 1
  if child < last then
    match less (← Checked.read values child) (← Checked.read values (child + 1)) s with
    | (.ok true, s) => return (.ok (child + 1), s)
    | (.ok false, s) => return (.ok child, s)
    | (.error e, s) => return (.error e, s)
  else return (.ok child, s)

/-- `Sort.siftDown` in checked steps. -/
def checkedSiftDown (less : Comparison α σ ε) (last root : Nat) (values : Array α) (s : σ) :
    Checked (Result α σ ε) :=
  if root * 2 < last then do
    match ← checkedLaterChild less last root values s with
    | (.error e, s) => return (.error e, values, s)
    | (.ok child, s) =>
      match less (← Checked.read values root) (← Checked.read values child) s with
      | (.error e, s) => return (.error e, values, s)
      | (.ok false, s) => return (.ok (), values, s)
      | (.ok true, s) =>
        if root < child then
          checkedSiftDown less last child (← Checked.swap values root child) s
        else .error .endless
  else return (.ok (), values, s)
termination_by last - root

/-- `Sort.buildHeap` in checked steps. -/
def checkedBuildHeap (less : Comparison α σ ε) (last : Nat) :
    Nat → Array α → σ → Checked (Result α σ ε)
  | 0, values, s => return (.ok (), values, s)
  | root + 1, values, s => do
    match ← checkedSiftDown less last root values s with
    | (.ok (), values, s) => checkedBuildHeap less last root values s
    | failed => return failed

/-- `Sort.drainHeap` in checked steps. -/
def checkedDrainHeap (less : Comparison α σ ε) : Nat → Array α → σ → Checked (Result α σ ε)
  | 0, values, s => return (.ok (), values, s)
  | last + 1, values, s => do
    match ← checkedSiftDown less last 0 (← Checked.swap values (last + 1) 0) s with
    | (.ok (), values, s) => checkedDrainHeap less last values s
    | failed => return failed

/-- `Sort.heapSort` in checked steps. -/
def checkedHeapSort (less : Comparison α σ ε) (values : Array α) (s : σ) :
    Checked (Result α σ ε) :=
  if values.size < 2 then return (.ok (), values, s)
  else do
    let last ← Checked.sub values.size 1
    match ← checkedBuildHeap less last (values.size / 2) values s with
    | (.ok (), values, s) => checkedDrainHeap less last values s
    | failed => return failed

/-- What a sort leaves behind, without the length of the values. -/
def Outcome.result {n : Nat} (o : Outcome α σ ε n) : Result α σ ε :=
  (o.verdict, o.values.toArray, o.state)

/-! ## Nothing goes wrong -/

variable {n last : Nat} {values : Vector α n}

theorem read_toArray {i : Nat} (inside : i < n) :
    Checked.read values.toArray i = .ok values[i] :=
  Checked.read_eq (by simp [inside])

theorem swap_toArray {i j : Nat} (first : i < n) (second : j < n) :
    Checked.swap values.toArray i j = .ok (values.swap i j).toArray :=
  dif_pos ⟨by simpa using first, by simpa using second⟩

theorem checkedLaterChild_eq (less : Comparison α σ ε) (inside : last < n) (root : Nat)
    (below : root * 2 < last) (s : σ) : checkedLaterChild less last root values.toArray s =
      .ok ((laterChild less inside root below values s).1.map Subtype.val,
        (laterChild less inside root below values s).2) := by
  unfold checkedLaterChild laterChild
  dsimp only
  split
  · rename_i both
    rw [read_toArray (show root * 2 + 1 < n by omega), Checked.ok_bind,
      read_toArray (show root * 2 + 1 + 1 < n by omega), Checked.ok_bind]
    obtain ⟨answer, s'⟩ := less values[root * 2 + 1] values[root * 2 + 1 + 1] s
    rcases answer with e | (_ | _) <;> rfl
  · rfl

theorem checkedSiftDown_eq (less : Comparison α σ ε) (inside : last < n) (root : Nat)
    (values : Vector α n) (s : σ) : checkedSiftDown less last root values.toArray s =
      .ok (siftDown less inside root values s).result := by
  unfold checkedSiftDown siftDown
  split
  · rename_i below
    rw [checkedLaterChild_eq less inside root below, Checked.ok_bind]
    obtain ⟨found, s⟩ := laterChild less inside root below values s
    cases found with
    | error e => rfl
    | ok found =>
      obtain ⟨child, deeper, within⟩ := found
      dsimp only [Except.map]
      rw [read_toArray (show root < n by omega), Checked.ok_bind,
        read_toArray (show child < n by omega), Checked.ok_bind]
      obtain ⟨answer, s⟩ := less values[root] values[child] s
      rcases answer with e | (_ | _)
      · rfl
      · rfl
      · dsimp only
        rw [if_pos deeper, swap_toArray (by omega) (by omega), Checked.ok_bind]
        exact checkedSiftDown_eq less inside child _ s
  · rfl
termination_by last - root

theorem checkedBuildHeap_eq (less : Comparison α σ ε) (inside : last < n) (roots : Nat)
    (values : Vector α n) (s : σ) : checkedBuildHeap less last roots values.toArray s =
      .ok (buildHeap less inside roots values s).result := by
  induction roots generalizing values s with
  | zero => rfl
  | succ root ih =>
    rw [checkedBuildHeap, checkedSiftDown_eq less inside, Checked.ok_bind, buildHeap]
    obtain ⟨verdict, values, s⟩ := siftDown less inside root values s
    cases verdict with
    | error e => rfl
    | ok done => exact ih values s

theorem checkedDrainHeap_eq (less : Comparison α σ ε) (inside : last < n) (values : Vector α n)
    (s : σ) : checkedDrainHeap less last values.toArray s =
      .ok (drainHeap less last inside values s).result := by
  induction last generalizing values s with
  | zero => rfl
  | succ last ih =>
    rw [checkedDrainHeap, swap_toArray inside (by omega), Checked.ok_bind,
      checkedSiftDown_eq less (Nat.lt_of_succ_lt inside), Checked.ok_bind, drainHeap]
    obtain ⟨verdict, values, s⟩ :=
      siftDown less (Nat.lt_of_succ_lt inside) 0 (values.swap (last + 1) 0) s
    cases verdict with
    | error e => rfl
    | ok done => exact ih _ values s

theorem checkedHeapSort_eq (less : Comparison α σ ε) (values : Vector α n) (s : σ) :
    checkedHeapSort less values.toArray s = .ok (heapSort less values s).result := by
  unfold checkedHeapSort heapSort
  rw [Vector.size_toArray]
  by_cases several : 2 ≤ n
  · have inside : n - 1 < n := by omega
    rw [if_neg (by omega), dif_pos several, Checked.sub_eq (by omega), Checked.ok_bind,
      checkedBuildHeap_eq less inside, Checked.ok_bind]
    dsimp only
    obtain ⟨verdict, values, s⟩ := buildHeap less inside (n / 2) values s
    cases verdict with
    | error e => rfl
    | ok done => exact checkedDrainHeap_eq less inside values s
  · rw [if_pos (by omega), dif_neg several]
    rfl

end HybridTable.Sort

namespace HybridTable.Table

variable {σ ε : Type}

/-- `Table.sortBy` in checked steps. -/
def checkedSortBy (less : Sort.Comparison Value σ ε) (alive : Ref → Bool) (t : Table) (s : σ) :
    Checked (Except ε Table × σ) := do
  let values := t.sequence alive
  if values.length < 2 then return (.ok t, s)
  else match ← Sort.checkedHeapSort less values.toArray s with
    | (.ok (), sorted, s) => return (.ok (t.storeSequence sorted.toList), s)
    | (.error e, _, s) => return (.error e, s)

/-- No table is too disordered to be sorted. -/
theorem checkedSortBy_eq (less : Sort.Comparison Value σ ε) (alive : Ref → Bool) (t : Table)
    (s : σ) : t.checkedSortBy less alive s = .ok (t.sortBy less alive s) := by
  unfold checkedSortBy sortBy
  dsimp only
  split
  · rfl
  · have sorted := Sort.checkedHeapSort_eq less (t.sequence alive).toArray.toVector s
    rw [show (t.sequence alive).toArray.toVector.toArray = (t.sequence alive).toArray from rfl]
      at sorted
    rw [sorted, Checked.ok_bind]
    obtain ⟨verdict, values, s⟩ := Sort.heapSort less (t.sequence alive).toArray.toVector s
    cases verdict <;> rfl

end HybridTable.Table
