import HybridTable.Proofs.Changes
import HybridTable.Proofs.HeapOrder
import HybridTable.Proofs.Places
import HybridTable.Proofs.WriteBack

/-! What a sort of a table comes to that its comparison cannot change. The values that stand at the
keys from 1 on without a gap are put in another order, and nothing else happens to the table: every
other key has its value, the regions have their sizes, and a traversal meets the same keys one after
another. If a comparison fails, nothing happens at all. -/
namespace HybridTable.Sort

variable {α σ ε : Type} {n : Nat}

/-- Fewer than two values are left as they are. -/
theorem heapSort_few (less : Comparison α σ ε) (few : n < 2) (values : Vector α n) (s : σ) :
    heapSort less values s = ⟨.ok (), values, s⟩ := by
  rw [heapSort, dif_neg (by omega)]

/-- If any comparison of a sort failed, the sort did, with the same failure. -/
theorem verdict_of_failed (less : Comparison α σ ε) (values : Vector α n) (s : σ) {q : Asked α ε}
    {e : ε} (asked : q ∈ (heapSort (recorded less) values (s, [])).state.2)
    (failed : q.answer = .error e) : (heapSort less values s).verdict = .error e := by
  have seen : heapSort less values s = (heapSort (recorded less) values (s, [])).seen Prod.fst :=
    heapSort_seen Prod.fst (fun _ _ _ => rfl) values (s, [])
  obtain ⟨record, same, -, conclusive, -⟩ := heapSort_asks less values (s, [])
  rw [List.append_nil] at same
  rw [same] at asked
  rw [seen]
  show (heapSort (recorded less) values (s, [])).verdict = .error e
  generalize (heapSort (recorded less) values (s, [])).verdict = verdict at conclusive ⊢
  have unsettled : ¬ q.Settled := fun ⟨b, answered⟩ => by
    rw [failed] at answered
    cases answered
  cases verdict with
  | ok _ => exact absurd (conclusive q asked) unsettled
  | error e' =>
    obtain ⟨last, earlier, rfl, answer, settled⟩ := conclusive
    rcases List.mem_cons.mp asked with rfl | before
    · cases failed.symm.trans answer
      rfl
    · exact absurd (settled q before) unsettled

end HybridTable.Sort

namespace HybridTable.Table

open HybridTable.Sort

variable {t t' : Table} {alive : Ref → Bool} {values sorted : List Value}

/-! ## The leading values -/

/-- The values before the first hole. -/
theorem run_of_cells (cells : List (Option Value)) :
    let run := (cells.takeWhile Option.isSome).filterMap id
    (∀ position < run.length, cells[position]? = some run[position]?) ∧
      (run.length < cells.length → cells[run.length]? = some none) := by
  induction cells with
  | nil => exact ⟨nofun, nofun⟩
  | cons cell rest ih =>
    cases cell with
    | none => exact ⟨nofun, fun _ => rfl⟩
    | some v =>
      refine ⟨fun position inside => ?_, fun more => ?_⟩
      · cases position with
        | zero => rfl
        | succ position => exact ih.1 position (Nat.lt_of_succ_lt_succ inside)
      · exact ih.2 (Nat.lt_of_succ_lt_succ more)

theorem readPosition_eq_cells (t : Table) (alive : Ref → Bool) (position : Nat) :
    t.readPosition alive position =
      (t.array.toList.map fun cell => cell.bind (·.read alive))[position]?.join := by
  rw [List.getElem?_map, Array.getElem?_toList, readPosition]
  rcases t.array[position]? with _ | _ | cell <;> rfl

/-- The values in the array region from its first position on, as far as none is absent. -/
structure LeadingRun (t : Table) (alive : Ref → Bool) (values : List Value) : Prop where
  /-- There are positions for all of them. -/
  inside : values.length ≤ t.arrayCapacity
  /-- Each position has its value. -/
  reads : ∀ position < values.length, t.readPosition alive position = values[position]?
  /-- The next position has no value, if there is one. -/
  ends : values.length < t.arrayCapacity → t.readPosition alive values.length = none

/-- A sort starts with these values. -/
theorem leadingRun_sequence (t : Table) (alive : Ref → Bool) :
    t.LeadingRun alive (t.sequence alive) := by
  obtain ⟨reads, ends⟩ := run_of_cells (t.array.toList.map fun cell => cell.bind (·.read alive))
  have size : (t.array.toList.map fun cell => cell.bind (·.read alive)).length =
      t.arrayCapacity := by
    rw [List.length_map, Array.length_toList]
    rfl
  refine ⟨length_sequence_le t alive, fun position listed => ?_, fun more => ?_⟩
  · rw [readPosition_eq_cells, reads position listed]
    rfl
  · rw [readPosition_eq_cells, sequence, ends (size ▸ more)]
    rfl

variable [Hashing]

/-- The keys of the run are those from 1 on. -/
theorem LeadingRun.get_eq (run : t.LeadingRun alive values) {i : Int64} {position : Nat}
    (place : i.toInt = position + 1) (listed : position < values.length) :
    t.get alive (.int i) = values[position]? := by
  have inside := run.inside
  have found : t.position? i = some position := by
    unfold arrayCapacity at inside
    rw [position?, if_pos (by omega), place]
    rfl
  rw [← run.reads position listed]
  show t.getInt alive i = _
  rw [getInt, found]

/-! ## The order of traversal -/

/-- A traversal lists the key after the last one and goes on from there. -/
theorem map_fst_pairsAfter (t : Table) (alive : Ref → Bool) (limit : Nat) (key : Value) :
    (t.pairsAfter alive (limit + 1) key).map Prod.fst =
      match (t.next alive key).map (·.map Prod.fst) with
      | .ok (some key) => key :: (t.pairsAfter alive limit key).map Prod.fst
      | _ => [] := by
  rw [pairsAfter]
  rcases t.next alive key with _ | _ | ⟨key, value⟩ <;> rfl

section
variable (arrays : t'.array.size = t.array.size) (buckets : t'.buckets = t.buckets)
  (used : ∀ position,
    (t'.readPosition alive position).isSome = (t.readPosition alive position).isSome)
include arrays buckets used

omit [Hashing] arrays used in
theorem firstInBuckets_of_buckets (bucket : Nat) :
    t'.firstInBuckets alive bucket = t.firstInBuckets alive bucket := by
  rw [firstInBuckets_eq, firstInBuckets_eq, buckets]

omit [Hashing] in
theorem firstFrom_of_used (position : Nat) :
    (t'.firstFrom alive position).map Prod.fst = (t.firstFrom alive position).map Prod.fst := by
  fun_induction t.firstFrom alive position with
  | case1 position inside value read =>
    have some_value := used position
    rw [read, Option.isSome_iff_exists.mpr ⟨value, rfl⟩, Option.isSome_iff_exists] at some_value
    obtain ⟨value', read'⟩ := some_value
    rw [firstFrom, if_pos (arrays.symm ▸ inside), read']
    rfl
  | case2 position inside unread ih =>
    have no_value := used position
    rw [unread, Option.isSome_none, Option.isSome_eq_false_iff,
      Option.isNone_iff_eq_none] at no_value
    rw [firstFrom, if_pos (arrays.symm ▸ inside), no_value]
    exact ih
  | case3 position last =>
    rw [firstFrom, if_neg (arrays.symm ▸ last), firstInBuckets_of_buckets buckets]

/-- If the same positions are in use and the buckets are the same, a traversal goes on from a key to
the same key. -/
theorem next_of_used (key : Value) : (t'.next alive key).map (·.map Prod.fst) =
    (t.next alive key).map (·.map Prod.fst) := by
  have hashed (key : Value) : t'.nextHashed alive key = t.nextHashed alive key := by
    unfold nextHashed bucketOf chain
    simp only [buckets, firstInBuckets_of_buckets buckets]
  have places (i : Int64) : t'.position? i = t.position? i := by
    rw [position?, position?, arrays]
  have first := firstFrom_of_used arrays buckets used
  unfold next
  split
  · exact congrArg Except.ok (first 0)
  · rw [places]
    split
    · exact congrArg Except.ok (first _)
    · rw [hashed]
  · rw [hashed]

theorem pairsAfter_of_used (limit : Nat) (key : Value) :
    (t'.pairsAfter alive limit key).map Prod.fst =
      (t.pairsAfter alive limit key).map Prod.fst := by
  induction limit generalizing key with
  | zero => rfl
  | succ limit ih =>
    rw [map_fst_pairsAfter, map_fst_pairsAfter, next_of_used arrays buckets used]
    split
    · rw [ih]
    · rfl

theorem keys_of_used : t'.keys alive = t.keys alive := by
  have places : t'.placeCount = t.placeCount := by
    rw [placeCount, placeCount, arrays, buckets]
  rw [keys, pairs, places]
  exact pairsAfter_of_used arrays buckets used ..

end

/-! ## What a sort leaves -/

/-- How a table is left after its leading values were put in another order. -/
structure Reordered (alive : Ref → Bool) (sorted : List Value) (t t' : Table) : Prop where
  /-- The leading values are these. -/
  run : t'.LeadingRun alive sorted
  /-- Every other key has the value that it had. -/
  others : ∀ key, (∀ i : Int64, key.toKey? = some (.int i) →
    i.toInt < 1 ∨ (sorted.length : Int) < i.toInt) → t'.get alive key = t.get alive key
  /-- The same keys are present. -/
  present : ∀ key, t'.get alive key = none ↔ t.get alive key = none
  /-- They are met in the same order. -/
  keys : t'.keys alive = t.keys alive
  capacities : t'.capacities = t.capacities
  count : t'.count = t.count
  policy : t'.policy = t.policy
  metatable : t'.metatable = t.metatable

/-- Nothing happens to a table without two values to compare. -/
theorem Reordered.refl (run : t.LeadingRun alive values) : Reordered alive values t t :=
  ⟨run, fun _ _ => rfl, fun _ => Iff.rfl, rfl, rfl, rfl, rfl, rfl⟩

omit [Hashing] in
/-- Values written over the leading ones of a strong table make a run of the same length. -/
theorem LeadingRun.storeSequence (run : t.LeadingRun alive values) (strong : t.policy = .allStrong)
    (same : sorted.length = values.length) :
    (t.storeSequence sorted).LeadingRun alive sorted := by
  have size : (t.storeSequence sorted).arrayCapacity = t.arrayCapacity :=
    size_array_storeSequence ..
  have inside : sorted.length ≤ t.arrayCapacity := same ▸ run.inside
  refine ⟨size ▸ inside, fun position listed => ?_, fun more => ?_⟩
  · rw [readPosition, getElem?_storeSequence, if_pos ⟨listed, Nat.lt_of_lt_of_le listed inside⟩,
      List.getElem?_eq_getElem listed, strong]
    rfl
  · rw [readPosition, getElem?_storeSequence, if_neg fun short => Nat.lt_irrefl _ short.1, same]
    exact run.ends (same ▸ size ▸ more)

omit [Hashing] in
theorem readPosition_storeSequence_of_le (t : Table) (alive : Ref → Bool) {position : Nat}
    (past : sorted.length ≤ position) :
    (t.storeSequence sorted).readPosition alive position = t.readPosition alive position := by
  rw [readPosition, getElem?_storeSequence, if_neg fun short => Nat.not_lt.mpr past short.1]
  rfl

/-- Other values take the places of the leading ones. -/
theorem reordered_storeSequence (strong : t.policy = .allStrong) (run : t.LeadingRun alive values)
    (same : sorted.length = values.length) :
    Reordered alive sorted t (t.storeSequence sorted) := by
  have run' := run.storeSequence strong same
  have overwritten := t.overwritten_storeSequence sorted
  have others (key : Value) (apart : ∀ i : Int64, key.toKey? = some (.int i) →
      i.toInt < 1 ∨ (sorted.length : Int) < i.toInt) :
      (t.storeSequence sorted).get alive key = t.get alive key := by
    refine overwritten.others key alive fun i normal low high => ?_
    have spelled : key.toKey? = some (.int i) := by
      rw [← key.toKey?_normalize, normal]
      rfl
    have := apart i spelled
    omega
  refine ⟨run', others, fun key => ?_, ?_, overwritten.capacities, count_storeSequence ..,
    policy_storeSequence .., metatable_storeSequence ..⟩
  · by_cases inner : ∃ i : Int64, key.toKey? = some (.int i) ∧ 1 ≤ i.toInt ∧
        i.toInt ≤ sorted.length
    · obtain ⟨i, spelled, low, high⟩ := inner
      have normal : key.normalize = .int i :=
        Value.eq_int_of_normal key.isNormal_normalize (key.toKey?_normalize.trans spelled)
      have place : i.toInt = (i.toInt.toNat - 1 : Nat) + 1 := by omega
      have inside : i.toInt.toNat - 1 < sorted.length := by omega
      rw [← get_normalize, ← get_normalize t, normal, run'.get_eq place inside,
        run.get_eq place (same ▸ inside), List.getElem?_eq_getElem inside,
        List.getElem?_eq_getElem (same ▸ inside)]
      exact iff_of_false nofun nofun
    · rw [others key fun i spelled => ?_]
      by_contra within
      obtain ⟨low, high⟩ := not_or.mp within
      exact inner ⟨i, spelled, by omega, by omega⟩
  · refine keys_of_used (size_array_storeSequence ..) (buckets_storeSequence ..) fun position => ?_
    rcases Nat.lt_or_ge position sorted.length with inside | past
    · rw [run'.reads position inside, run.reads position (same ▸ inside),
        List.getElem?_eq_getElem inside, List.getElem?_eq_getElem (same ▸ inside)]
      rfl
    · rw [readPosition_storeSequence_of_le t alive past]

section
variable {σ ε : Type} {less : Comparison Value σ ε} {s s' : σ}
  {found : Vector Value (t.sequence alive).toArray.size}

/-- If no comparison fails, the leading values are put in the order that the sort finds for them. -/
theorem sortBy_of_ok (strong : t.policy = .allStrong)
    (done : heapSort less (t.sequence alive).toArray.toVector s = ⟨.ok (), found, s'⟩) :
    ∃ t', t.sortBy less alive s = (.ok t', s') ∧ Reordered alive found.toList t t' := by
  have run := t.leadingRun_sequence alive
  unfold sortBy
  dsimp only
  by_cases few : (t.sequence alive).length < 2
  · rw [if_pos few]
    rw [heapSort_few less few] at done
    cases done
    exact ⟨t, rfl, by simpa using Reordered.refl run⟩
  · rw [if_neg few, done]
    exact ⟨_, rfl, reordered_storeSequence strong run (by simp)⟩

omit [Hashing] in
/-- If a comparison fails, there is no other table. -/
theorem sortBy_of_error {e : ε}
    (failed : heapSort less (t.sequence alive).toArray.toVector s = ⟨.error e, found, s'⟩) :
    t.sortBy less alive s = (.error e, s') := by
  unfold sortBy
  dsimp only
  by_cases few : (t.sequence alive).length < 2
  · rw [heapSort_few less few] at failed
    cases failed
  · rw [if_neg few, failed]

end

/-- A sort that its comparison cannot interfere with puts the run of leading values in the order
that heap sort finds for them and changes nothing else, if every comparison is answered; if one
fails, the sort fails with it and the table stays as it was. By a strict weak order the values at
the keys of the run are in order afterwards. -/
theorem sortBy_reorders_run {σ ε : Type} (strong : t.policy = .allStrong)
    (less : Comparison Value σ ε) (alive : Ref → Bool) (s : σ) :
    let values := t.sequence alive
    let out := heapSort less values.toArray.toVector s
    let asked := (heapSort (recorded less) values.toArray.toVector (s, [])).state.2
    let result := t.sortBy less alive s
    let left := result.1.toOption.getD t
    t.LeadingRun alive values ∧ out.values.toList.Perm values ∧
      (out.verdict = .ok () →
        result = (.ok left, out.state) ∧ Reordered alive out.values.toList t left) ∧
      (∀ e, out.verdict = .error e → result = (.error e, out.state) ∧ left = t) ∧
      (∀ q ∈ asked, ∀ e, q.answer = .error e → result.1 = .error e ∧ left = t) ∧
      ∀ lt, StrictWeakOn lt (· ∈ values) → Answers less lt (· ∈ values) →
        result.1 = .ok left ∧ ∀ (i j : Int64) a b, 1 ≤ i.toInt → i.toInt < j.toInt →
          j.toInt ≤ values.length → left.get alive (.int i) = some a →
          left.get alive (.int j) = some b → lt b a = false := by
  intro values out asked result left
  have perm : out.values.toList.Perm values := (heapSort_perm less _ s).toList
  have completed (verdict : out.verdict = .ok ()) :
      result = (.ok left, out.state) ∧ Reordered alive out.values.toList t left := by
    have done : out = ⟨.ok (), out.values, out.state⟩ := by rw [← verdict]
    obtain ⟨t', made, reordered⟩ := sortBy_of_ok strong done
    have same : left = t' := by
      show result.1.toOption.getD t = t'
      rw [show result = (.ok t', out.state) from made]
      rfl
    exact same ▸ ⟨made, reordered⟩
  have stopped (e : ε) (verdict : out.verdict = .error e) :
      result = (.error e, out.state) ∧ left = t := by
    have failed : out = ⟨.error e, out.values, out.state⟩ := by rw [← verdict]
    have made : result = (.error e, out.state) := sortBy_of_error failed
    refine ⟨made, ?_⟩
    show result.1.toOption.getD t = t
    rw [made]
    rfl
  refine ⟨t.leadingRun_sequence alive, perm, completed, stopped, fun q member e failed => ?_,
    fun lt order answers => ?_⟩
  · obtain ⟨made, same⟩ := stopped e (verdict_of_failed less _ s member failed)
    exact ⟨congrArg Prod.fst made, same⟩
  · obtain ⟨verdict, behind⟩ := heapSort_sorts order answers values.toArray.toVector s
      fun v member => by simpa using member
    obtain ⟨made, reordered⟩ := completed verdict
    refine ⟨congrArg Prod.fst made, fun i j a b low before high first second => ?_⟩
    have length : out.values.toList.length = values.length := perm.length_eq
    have reads (k : Int64) (v : Value) (low : 1 ≤ k.toInt) (high : k.toInt ≤ values.length)
        (read : left.get alive (.int k) = some v) :
        ∃ inside : k.toInt.toNat - 1 < values.toArray.size, out.values[k.toInt.toNat - 1] = v := by
      have place : k.toInt = (k.toInt.toNat - 1 : Nat) + 1 := by omega
      rw [reordered.run.get_eq place (by omega)] at read
      obtain ⟨inside, same⟩ := List.getElem?_eq_some_iff.mp read
      rw [Vector.getElem_toList] at same
      exact ⟨by simpa using inside, same⟩
    obtain ⟨inside, rfl⟩ := reads i a low (by omega) first
    obtain ⟨inside', rfl⟩ := reads j b (by omega) high second
    exact behind _ _ (by omega) (by omega) inside' inside

omit [Hashing] in
/-- Four values before a hole are sorted. The value behind the hole, the one of an integer key in
the hash region and the one of a string stay where they are. -/
theorem sortBy_reorders_run_before_hole :
    let changes : List Change := [.setInt 1 (.int 4), .setInt 2 (.int 2), .setInt 3 (.int 3),
      .setInt 4 (.int 1), .setInt 6 (.int 0), .setInt 100 (.int (-1)),
      .set (.text (.short "a")) (.bool true)]
    let t := @after .uniform .empty (changes.map (nothingReclaimed, ·))
    let alive : Ref → Bool := fun _ => true
    let less : Comparison Value Nat Error := fun a b calls => match a, b with
      | .int a, .int b => (.ok (a < b), calls + 1)
      | _, _ => (.error (.raised "not integers"), calls)
    let refuse : Comparison Value Nat Error := fun _ _ calls => (.error (.raised "no"), calls + 1)
    t.capacities = (8, 2) ∧ t.sequence alive = [.int 4, .int 2, .int 3, .int 1] ∧
      (∃ t', t.sortBy less alive 0 = (.ok t', 6) ∧
        @Reordered .uniform alive [.int 1, .int 2, .int 3, .int 4] t t') ∧
      t.sortBy refuse alive 0 = (.error (.raised "no"), 1) := by
  intro changes t alive less refuse
  let hashing : Hashing := .uniform
  have strong : t.policy = .allStrong := by decide +kernel
  obtain ⟨-, -, completed, -⟩ := sortBy_reorders_run strong less alive 0
  obtain ⟨made, reordered⟩ := completed (by decide +kernel)
  have calls : (heapSort less (t.sequence alive).toArray.toVector 0).state = 6 := by decide +kernel
  have sorted : (heapSort less (t.sequence alive).toArray.toVector 0).values.toList =
      [.int 1, .int 2, .int 3, .int 4] := by decide +kernel
  obtain ⟨-, -, -, stopped, -⟩ := sortBy_reorders_run strong refuse alive 0
  have calls' : (heapSort refuse (t.sequence alive).toArray.toVector 0).state = 1 := by
    decide +kernel
  obtain ⟨failed, -⟩ := stopped (.raised "no") (by decide +kernel)
  rw [calls] at made
  rw [sorted] at reordered
  rw [calls'] at failed
  exact ⟨by decide +kernel, by decide +kernel, ⟨_, made, reordered⟩, failed⟩

end HybridTable.Table
