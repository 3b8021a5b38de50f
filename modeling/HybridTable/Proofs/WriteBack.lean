import HybridTable.Proofs.Sorting
import HybridTable.Proofs.Layout
import HybridTable.World.Library

/-! What a sort leaves in its table. The sorted copy goes to the positions that the array region has
by then; nothing is added to it. So a comparison that makes the array region smaller than the copy
costs the table the values for which there is no position any more. -/
namespace HybridTable.Sort

variable {α σ ε : Type}

theorem siftDown_leaf (less : Comparison α σ ε) {n last root : Nat} (inside : last < n)
    (leaf : last ≤ root * 2) (values : Vector α n) (s : σ) :
    siftDown less inside root values s = ⟨.ok (), values, s⟩ := by
  unfold siftDown
  rw [dif_neg (by omega)]

/-- Two values take one comparison. -/
theorem heapSort_pair (less : Comparison α σ ε) (a b : α) (s : σ) :
    heapSort less #v[a, b] s = match less a b s with
      | (.error e, s) => ⟨.error e, #v[a, b], s⟩
      | (.ok true, s) => ⟨.ok (), #v[a, b], s⟩
      | (.ok false, s) => ⟨.ok (), #v[b, a], s⟩ := by
  have sifted : siftDown less (show 1 < 2 by decide) 0 #v[a, b] s = match less a b s with
      | (.error e, s) => ⟨.error e, #v[a, b], s⟩
      | (.ok true, s) => ⟨.ok (), #v[b, a], s⟩
      | (.ok false, s) => ⟨.ok (), #v[a, b], s⟩ := by
    have children : laterChild less (show 1 < 2 by decide) 0 (by decide) #v[a, b] s =
        (.ok ⟨1, by decide, by decide⟩, s) := rfl
    unfold siftDown
    rw [dif_pos (show 0 * 2 < 1 by decide), children]
    dsimp only
    rw [show #v[a, b][0] = a from rfl, show #v[a, b][1] = b from rfl]
    rcases less a b s with ⟨_ | _ | _, s'⟩
    · rfl
    · rfl
    · exact siftDown_leaf less _ (by decide) _ _
  have drained (c d : α) (s : σ) : drainHeap less 1 (show 1 < 2 by decide) #v[c, d] s =
      ⟨.ok (), #v[d, c], s⟩ := by
    have leaf := siftDown_leaf less (show 0 < 2 by decide) (show 0 ≤ 0 * 2 by decide) #v[d, c] s
    unfold drainHeap
    rw [show #v[c, d].swap (0 + 1) 0 = #v[d, c] from rfl, leaf]
    rfl
  unfold heapSort
  rw [dif_pos (by decide)]
  dsimp only [Nat.reduceDiv, Nat.reduceSub]
  unfold buildHeap
  rw [sifted]
  rcases less a b s with ⟨_ | _ | _, s'⟩
  · rfl
  · exact drained a b s'
  · exact drained b a s'

end HybridTable.Sort

namespace HybridTable

namespace Table

variable {values : List Value}

/-! ## Writing values over the leading positions -/

private theorem storeFrom (t : Table) (values : List Value) (start : Nat) :
    let after := (values.zipIdx start).foldl (fun t (value, position) =>
      t.setCell position (some (t.policy.valueCell value))) t
    after.buckets = t.buckets ∧ after.count = t.count ∧ after.policy = t.policy ∧
      after.metatable = t.metatable ∧ ∀ position, after.array[position]? =
        if start ≤ position ∧ position < start + values.length ∧ position < t.array.size then
          (values[position - start]?).map fun v => some (t.policy.valueCell v)
        else t.array[position]? := by
  induction values generalizing t start with
  | nil =>
    refine ⟨rfl, rfl, rfl, rfl, fun position => ?_⟩
    rw [if_neg (by simp only [List.length_nil]; omega)]
    rfl
  | cons value rest ih =>
    obtain ⟨buckets, count, policy, metatable, array⟩ :=
      ih (t.setCell start (some (t.policy.valueCell value))) (start + 1)
    refine ⟨buckets, count, policy, metatable, fun position => ?_⟩
    rw [List.zipIdx_cons, List.foldl_cons, array position, size_array_setCell, policy_setCell]
    have written : (t.setCell start (some (t.policy.valueCell value))).array[position]? =
        if start = position then
          if start < t.array.size then some (some (t.policy.valueCell value)) else none
        else t.array[position]? := Array.getElem?_setIfInBounds
    rw [written, List.length_cons]
    rcases Nat.lt_trichotomy position start with before | rfl | after
    · rw [if_neg (by omega), if_neg (by omega), if_neg (by omega)]
    · by_cases inside : position < t.array.size
      · rw [if_neg (by omega), if_pos rfl, if_pos inside, if_pos ⟨by omega, by omega, inside⟩]
        simp
      · rw [if_neg (by omega), if_pos rfl, if_neg inside, if_neg (by omega)]
        simp [inside]
    · have index : position - start = position - (start + 1) + 1 := by omega
      rw [if_neg (show ¬start = position by omega), index, List.getElem?_cons_succ]
      simp only [show start + 1 ≤ position ↔ start ≤ position by omega,
        show start + 1 + rest.length = start + (rest.length + 1) by omega]

@[simp] theorem policy_storeSequence (t : Table) (values : List Value) :
    (t.storeSequence values).policy = t.policy := (storeFrom t values 0).2.2.1

@[simp] theorem buckets_storeSequence (t : Table) (values : List Value) :
    (t.storeSequence values).buckets = t.buckets := (storeFrom t values 0).1

@[simp] theorem count_storeSequence (t : Table) (values : List Value) :
    (t.storeSequence values).count = t.count := (storeFrom t values 0).2.1

@[simp] theorem metatable_storeSequence (t : Table) (values : List Value) :
    (t.storeSequence values).metatable = t.metatable := (storeFrom t values 0).2.2.2.1

theorem getElem?_storeSequence (t : Table) (values : List Value) (position : Nat) :
    (t.storeSequence values).array[position]? =
      if position < values.length ∧ position < t.array.size then
        (values[position]?).map fun v => some (t.policy.valueCell v)
      else t.array[position]? := by
  have written := (storeFrom t values 0).2.2.2.2 position
  simp only [Nat.zero_le, true_and, Nat.zero_add, Nat.sub_zero] at written
  exact written

theorem position?_storeSequence (t : Table) (values : List Value) (key : Int64) :
    (t.storeSequence values).position? key = t.position? key := by
  unfold position?
  rw [size_array_storeSequence]

variable [Hashing]

/-- A key is read in its normal form. -/
theorem get_normalize (t : Table) (alive : Ref → Bool) (key : Value) :
    t.get alive key.normalize = t.get alive key := by
  rw [get, get, Value.normalize_normalize]

/-- How a table is left after values were written over its leading positions. -/
structure Overwritten (values : List Value) (before after : Table) : Prop where
  policy : after.policy = before.policy
  capacities : after.capacities = before.capacities
  /-- The keys from 1 on have these values, as far as there are positions for them. -/
  written : ∀ (i : Int64) (position : Nat) v alive, i.toInt = position + 1 →
    values[position]? = some v → position < before.arrayCapacity →
      after.get alive (.int i) = (before.policy.valueCell v).read alive
  /-- Every other key has the value that it had. -/
  others : ∀ key alive, (∀ i : Int64, key.normalize = .int i → 1 ≤ i.toInt →
    i.toInt ≤ values.length → (before.arrayCapacity : Int) < i.toInt) →
      after.get alive key = before.get alive key

/-- All values are there if there is a position for each of them and the table holds its values
strongly. -/
theorem Overwritten.all {before after : Table} (overwritten : Overwritten values before after)
    (strong : before.policy = .allStrong) (room : values.length ≤ before.arrayCapacity) (i : Int64)
    (position : Nat) (v : Value) (alive : Ref → Bool) (place : i.toInt = position + 1)
    (listed : values[position]? = some v) : after.get alive (.int i) = some v := by
  have short := (List.getElem?_eq_some_iff.mp listed).1
  rw [overwritten.written i position v alive place listed (by omega), strong]
  rfl

theorem overwritten_storeSequence (t : Table) (values : List Value) :
    Overwritten values t (t.storeSequence values) := by
  obtain ⟨buckets, count, policy, -, -⟩ := storeFrom t values 0
  refine ⟨policy, ?_, fun i position v alive place listed inside => ?_,
    fun key alive other => ?_⟩
  · exact Prod.ext (size_array_storeSequence t values) (congrArg Array.size buckets)
  · have here : t.position? i = some position := by
      unfold position?
      rw [if_pos ⟨by omega, by rw [place]; exact Int.ofNat_lt.mpr inside⟩, place]
      rfl
    have short := (List.getElem?_eq_some_iff.mp listed).1
    have read : (t.storeSequence values).get alive (.int i) =
        (t.storeSequence values).readPosition alive position := by
      simp only [get, Value.normalize, getInt, position?_storeSequence, here]
    rw [read, readPosition, getElem?_storeSequence, if_pos ⟨short, inside⟩, listed]
    rfl
  · have hashed (key : Value) :
        (t.storeSequence values).getHashed alive key = t.getHashed alive key := by
      unfold getHashed bucketOf chain
      rw [show (t.storeSequence values).buckets = t.buckets from buckets,
        show (t.storeSequence values).count = t.count from count]
    unfold get
    split
    · rfl
    · rename_i i normal
      unfold getInt
      rw [position?_storeSequence]
      split
      · rename_i position place
        unfold position? at place
        split at place
        · cases place
          have past := other i normal
          simp only [readPosition]
          rw [getElem?_storeSequence, if_neg (by unfold arrayCapacity at past; omega)]
        · cases place
      · exact hashed _
    · exact hashed _

omit [Hashing] in
/-- There are no more leading values than positions. -/
theorem length_sequence_le (t : Table) (alive : Ref → Bool) :
    (t.sequence alive).length ≤ t.arrayCapacity := by
  unfold sequence
  calc
    _ ≤ _ := List.length_filterMap_le ..
    _ ≤ _ := (List.takeWhile_sublist _).length_le
    _ = t.arrayCapacity := by simp [arrayCapacity]

end Table

/-! ## Sorting a table that the comparison may change -/

namespace World

variable {ε : Type}

@[simp] theorem table_setTable (w : World ε) (ref : Ref) (t : Table) :
    (w.setTable ref t).table ref = t := w.objects.table_setTable_same ref t

/-- A table is what it was written to last. -/
theorem table_setTable_eq_ite (w : World ε) (ref other : Ref) (t : Table) :
    (w.setTable ref t).table other = if ref = other then t else w.table other := by
  split
  · rename_i same
    exact same ▸ table_setTable w ref t
  · rename_i apart
    exact w.objects.table_setTable_other t apart

theorem table_initial (host : ε) (ref : Ref) : (initial host).table ref = .empty := by
  simp [initial, table, Objects.none, Objects.table]

@[simp] theorem table_modifyTable (w : World ε) (ref : Ref) (f : Liveness → Table → Table) :
    (w.modifyTable ref f).table ref = f ((w.setTable ref .empty).liveWith ref) (w.table ref) :=
  table_setTable ..

@[simp] theorem table_held (w : World ε) (held : List (List Value)) (ref : Ref) :
    ({ w with held } : World ε).table ref = w.table ref := rfl

end World

namespace Action

variable {ε : Type} [Hashing] {calls : Calls ε} {ref : Ref}

/-- The order by which a table is sorted: that of a function, or else the one of values. -/
def orderOf (calls : Calls ε) : Option Function → Order ε
  | some f => orderBy calls f
  | none => lessThan calls

omit [Hashing] in
theorem run_bind {α β : Type} (act : Action ε α) (next : α → Action ε β) (w : World ε) :
    (act >>= next).run w = match act.run w with
      | (.ok a, w₁) => (next a).run w₁
      | (.error e, w₁) => (.error e, w₁) := by
  change ExceptT.bindCont next (act.run w).1 (act.run w).2 = _
  rcases act.run w with ⟨failed | a, w₁⟩ <;> rfl

/-- What follows the last comparison: the sorted copy is written to the table as it is by then, and
nothing is held for the sort any more. -/
def storeSorted {n : Nat} (ref : Ref) (held : List (List Value))
    (sorted : Sort.Outcome Value (World ε) Error n) : Except Error Unit × World ε :=
  match sorted.verdict with
  | .ok () =>
    let w := sorted.state.modifyTable ref fun _ t => t.storeSequence sorted.values.toList
    (.ok (), { w with held })
  | .error e => (.error e, { sorted.state with held })

omit [Hashing] in
theorem storeSorted_ok {n : Nat} {held : List (List Value)}
    {sorted : Sort.Outcome Value (World ε) Error n} {w : World ε}
    (completed : storeSorted ref held sorted = (.ok (), w)) : sorted.verdict = .ok () ∧
      w.table ref = (sorted.state.table ref).storeSequence sorted.values.toList := by
  unfold storeSorted at completed
  split at completed
  · rename_i verdict
    obtain ⟨-, rfl⟩ := Prod.mk.inj completed
    refine ⟨verdict, ?_⟩
    rw [World.table_held, World.table_modifyTable]
  · cases completed

/-- The values that a sort copies, compared with one another in a world that holds the copy. -/
def sortCopy (calls : Calls ε) (comparator : Option Function) (values : List Value) (w : World ε) :
    Sort.Outcome Value (World ε) Error values.toArray.size :=
  Sort.heapSort (fun left right => (orderOf calls comparator left right).run)
    values.toArray.toVector { w with held := values :: w.held }

omit [Hashing] in
theorem run_holding (values : List Value) (act : Action ε Unit) (w : World ε) :
    (holding values act).run w = let done := act.run { w with held := values :: w.held }
      (done.1, { done.2 with held := w.held }) :=
  rfl

theorem run_sortValues (comparator : Option Function) (values : List Value) (w : World ε) :
    (sortValues (orderOf calls comparator) values : Action ε _).run
        { w with held := values :: w.held } =
      let sorted := sortCopy calls comparator values w
      (.ok (sorted.verdict, sorted.values.toList), sorted.state) :=
  rfl

/-- What a sort comes to: that of the length, if it fails or is too large, or else that of the
comparisons. -/
theorem run_sort (comparator : Option Function) (w : World ε) :
    (sort calls ref comparator).run w = match (Action.length calls ref).run w with
      | (.error e, w) => (.error e, w)
      | (.ok length, w) =>
        let values := (w.table ref).sequence w.survivors.contains
        if maxSort ≤ length then (.error (.sortTooLarge length), w)
        else if 2 ≤ values.length then
          storeSorted ref w.held (sortCopy calls comparator values w)
        else (.ok (), w) := by
  unfold sort
  rw [run_bind]
  rcases (Action.length calls ref).run w with ⟨failed | length, w₁⟩
  · rfl
  · dsimp only
    by_cases large : maxSort ≤ length
    · rw [if_pos large, if_pos large]
      rfl
    · rw [if_neg large, if_neg large]
      rw [run_bind, show (get : Action ε (World ε)).run w₁ = (.ok w₁, w₁) from rfl]
      dsimp only
      generalize (w₁.table ref).sequence w₁.survivors.contains = values
      by_cases several : 2 ≤ values.length
      · rw [if_pos several, if_pos several]
        rw [run_holding, run_bind]
        -- `sort` spells `orderOf` out, so the order is found only by unfolding
        erw [run_sortValues]
        dsimp only
        rcases sortCopy calls comparator values w₁ with ⟨failed | ⟨⟩, _, _⟩ <;> rfl
      · rw [if_neg several, if_neg several]
        rfl

/-- A sort that is completed has had every comparison answered, and has put the sorted copy where
the array region, as the comparisons left it, has a position for it. No other key is touched. So
all values are still there, in order, if the array region has at least as many positions as the copy
has values and the table still holds its values strongly. -/
theorem sort_writes_back {comparator : Option Function} {w w' : World ε}
    (completed : (sort calls ref comparator).run w = (.ok (), w')) :
    ∃ length w₁, (Action.length calls ref).run w = (.ok length, w₁) ∧
      let values := (w₁.table ref).sequence w₁.survivors.contains
      let sorted := sortCopy calls comparator values w₁
      let left := sorted.state.table ref
      let now := w'.table ref
      (values.length < 2 → w' = w₁) ∧
      (2 ≤ values.length → sorted.verdict = .ok () ∧ sorted.values.toList.Perm values ∧
        Table.Overwritten sorted.values.toList left now ∧
        (left.policy = .allStrong → values.length ≤ left.arrayCapacity →
          ∀ (i : Int64) (position : Nat) v alive, i.toInt = position + 1 →
            sorted.values.toList[position]? = some v → now.get alive (.int i) = some v)) := by
  rw [run_sort] at completed
  rcases measured : (Action.length calls ref).run w with ⟨failed | length, w₁⟩
  · simp only [measured] at completed
    cases completed
  refine ⟨length, w₁, rfl, ?_⟩
  simp only [measured] at completed
  intro values sorted left now
  by_cases large : maxSort ≤ length
  · rw [if_pos large] at completed
    cases completed
  rw [if_neg large] at completed
  by_cases several : 2 ≤ values.length
  · refine ⟨fun few => absurd few (by omega), fun _ => ?_⟩
    rw [if_pos several] at completed
    obtain ⟨verdict, written⟩ := storeSorted_ok completed
    have overwritten : Table.Overwritten sorted.values.toList left now := by
      rw [show now = left.storeSequence sorted.values.toList from written]
      exact left.overwritten_storeSequence sorted.values.toList
    have perm : sorted.values.toList.Perm values := (Sort.heapSort_perm ..).toList
    exact ⟨verdict, perm, overwritten, fun strong room =>
      overwritten.all strong (perm.length_eq ▸ room)⟩
  · refine ⟨fun _ => ?_, fun many => absurd many several⟩
    rw [if_neg several] at completed
    cases completed
    rfl

/-- Without a length handler, a length is a border of the table. -/
theorem run_length {w : World ε} (bare : (w.table ref).metatable = none) :
    (Action.length calls ref).run w = (.ok (Int64.ofNat (w.rawLength ref)), w) := by
  have unhandled : w.handler? (.table ref) .length = none := by
    unfold World.handler?
    rw [show w.objects.metatable? (.table ref) = none from bare]
    rfl
  unfold Action.length
  rw [run_bind, show (get : Action ε (World ε)).run w = (.ok w, w) from rfl]
  simp only [unhandled]
  rfl

/-- A copy of two values takes one comparison. -/
theorem sortCopy_pair (calls : Calls ε) (f : Function) (a b : Value) (w : World ε) :
    sortCopy calls (some f) [a, b] w =
      match (orderBy calls f a b).run { w with held := [a, b] :: w.held } with
      | (.error e, w) => ⟨.error e, #v[a, b], w⟩
      | (.ok true, w) => ⟨.ok (), #v[a, b], w⟩
      | (.ok false, w) => ⟨.ok (), #v[b, a], w⟩ := by
  have sorted := Sort.heapSort_pair (fun left right => (orderBy calls f left right).run) a b
    { w with held := [a, b] :: w.held }
  rcases said : (orderBy calls f a b).run { w with held := [a, b] :: w.held }
    with ⟨_ | _ | _, w₁⟩ <;>
  · rw [said] at sorted
    exact sorted

/-- A sort of two values is its comparisons and what is written after them. -/
theorem run_sort_two {comparator : Option Function} {a b : Value} {w : World ε}
    (bare : (w.table ref).metatable = none) (small : w.rawLength ref = 2)
    (listed : (w.table ref).sequence w.survivors.contains = [a, b]) :
    (sort calls ref comparator).run w =
      storeSorted ref w.held (sortCopy calls comparator [a, b] w) := by
  rw [run_sort, run_length bare, small]
  dsimp only
  rw [if_neg (by decide), listed, if_pos (show 2 ≤ [a, b].length from Nat.le_refl 2)]

/-- A sort of two values of which the first is said not to belong before the second. -/
theorem run_sort_pair {f : Function} {a b : Value} {w w₁ : World ε}
    (bare : (w.table ref).metatable = none) (small : w.rawLength ref = 2)
    (listed : (w.table ref).sequence w.survivors.contains = [a, b])
    (said : (orderBy calls f a b).run { w with held := [a, b] :: w.held } = (.ok false, w₁)) :
    (sort calls ref (some f)).run w =
      (.ok (), { w₁.modifyTable ref fun _ t => t.storeSequence [b, a] with held := w.held }) := by
  have compared := sortCopy_pair calls f a b w
  rw [said] at compared
  rw [run_sort_two bare small listed, compared]
  rfl

omit [Hashing] in
/-- A comparison that writes to one of the positions does not get its own value there. -/
theorem sort_restores_position :
    let _ : Hashing := .uniform
    let calls : Calls Unit := fun _ _ => do
      rawSet 0 (.int 1) (.bool true)
      return []
    let w : World Unit := (World.initial ()).setTable 0 (.ofSequence [.int 2, .int 1] 0)
    let sorted := sortCopy calls (some ⟨1, "f"⟩) [.int 2, .int 1] w
    ∃ w', (sort calls 0 (some ⟨1, "f"⟩)).run w = (.ok (), w') ∧
      Table.Overwritten sorted.values.toList (sorted.state.table 0) (w'.table 0) ∧
      w'.rawGet 0 (.int 1) = some (.int 1) ∧ w'.rawGet 0 (.int 2) = some (.int 2) := by
  intro hashing calls w sorted
  have holds : w.table 0 = .ofSequence [.int 2, .int 1] 0 := World.table_setTable ..
  have bare : (w.table 0).metatable = none := by rw [holds]; decide +kernel
  have listed : (w.table 0).sequence w.survivors.contains = [.int 2, .int 1] := by
    rw [holds]; decide +kernel
  have small : w.rawLength 0 = 2 := by rw [World.rawLength, holds]; decide +kernel
  obtain ⟨w', completed, reads⟩ : ∃ w', (sort calls 0 (some ⟨1, "f"⟩)).run w = (.ok (), w') ∧
      w'.rawGet 0 (.int 1) = some (.int 1) ∧ w'.rawGet 0 (.int 2) = some (.int 2) := by
    refine ⟨_, run_sort_pair bare small listed rfl, ?_, ?_⟩ <;>
    · simp only [World.rawGet, World.table_held, World.table_modifyTable, holds]
      decide +kernel
  obtain ⟨length, w₁, measured, -, stored⟩ := sort_writes_back completed
  rw [run_length bare] at measured
  cases measured
  rw [listed] at stored
  exact ⟨w', completed, (stored (Nat.le_refl 2)).2.2.1, reads⟩

omit [Hashing] in
/-- A comparison that takes the array region away leaves the sorted copy no place: both values are
lost, although the sort succeeds. -/
theorem sort_loses_values :
    let _ : Hashing := .uniform
    let calls : Calls Unit := fun _ _ => do
      rawSet 0 (.int 1) .nil
      rawSet 0 (.int 2) .nil
      rawSet 0 (.text (.short "k")) (.bool true)
      return []
    let w : World Unit := (World.initial ()).setTable 0 (.ofSequence [.int 2, .int 1] 0)
    (w.table 0).policy = .allStrong ∧
      (w.table 0).sequence w.survivors.contains = [.int 2, .int 1] ∧
      ∃ w', (sort calls 0 (some ⟨1, "f"⟩)).run w = (.ok (), w') ∧
        w'.rawGet 0 (.int 1) = none ∧ w'.rawGet 0 (.int 2) = none := by
  intro hashing calls w
  have holds : w.table 0 = .ofSequence [.int 2, .int 1] 0 := World.table_setTable ..
  have bare : (w.table 0).metatable = none := by rw [holds]; decide +kernel
  have listed : (w.table 0).sequence w.survivors.contains = [.int 2, .int 1] := by
    rw [holds]; decide +kernel
  have small : w.rawLength 0 = 2 := by rw [World.rawLength, holds]; decide +kernel
  refine ⟨by rw [holds]; decide +kernel, listed, _, run_sort_pair bare small listed rfl, ?_, ?_⟩ <;>
  · simp only [World.rawGet, World.table_held, World.table_modifyTable, holds]
    decide +kernel

end Action

end HybridTable
