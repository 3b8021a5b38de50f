import HybridTable.Proofs.FiniteMap
import HybridTable.Proofs.Shapes
import HybridTable.Proofs.WriteBack

/-! Making tables that list values or have values under names. The constructor sizes a table first,
so the values of a list are all stored in the array region, and those under names in buckets. -/
namespace HybridTable

namespace Table

variable [Hashing] {t : Table} {alive : Ref → Bool}

/-- A table that is only sized has no pairs. -/
theorem get_sized (positions entries : Nat) (metatable : Option Ref) (policy : WeakPolicy)
    (alive : Ref → Bool) (key : Value) :
    (sized positions entries metatable policy).get alive key = none := by
  have hashed (key : Value) :
      (sized positions entries metatable policy).getHashed alive key = none := if_pos rfl
  unfold get
  split
  · rfl
  · unfold getInt
    split
    · rename_i position _
      have unused : (sized positions entries metatable policy).array[position]? = none ∨
          (sized positions entries metatable policy).array[position]? = some none := by
        simp only [sized, Array.getElem?_replicate]
        split <;> simp
      rcases unused with unused | unused <;> simp [readPosition, unused]
    · exact hashed _
  · exact hashed _

/-- Values that are not `nil` are stored at their positions. -/
theorem fill_eq (t : Table) {values : List Value} {start : Nat}
    (valued : ∀ v ∈ values, v ≠ .nil) (room : start + values.length ≤ t.array.size)
    (short : start + values.length < 2 ^ 63) :
    (values.zipIdx start).foldl (fun t (value, i) =>
        if value.isNil then t else t.setInt nothingReclaimed (Int64.ofNat (i + 1)) value) t =
      (values.zipIdx start).foldl (fun t (value, position) =>
        t.setCell position (some (t.policy.valueCell value))) t := by
  induction values generalizing t start with
  | nil => rfl
  | cons value rest ih =>
    rw [List.length_cons] at room short
    have some_value : value.isNil = false :=
      Bool.eq_false_iff.mpr fun none => valued value List.mem_cons_self (Value.isNil_iff.mp none)
    have place : t.position? (Int64.ofNat (start + 1)) = some start := by
      have number : (Int64.ofNat (start + 1)).toInt = start + 1 :=
        toInt_ofNat_succ (Nat.lt_succ_self start) (by omega)
      rw [position?, number, if_pos (by omega)]
      rfl
    have stored : t.setInt nothingReclaimed (Int64.ofNat (start + 1)) value =
        t.setCell start (some (t.policy.valueCell value)) := by
      simp only [setInt, place, setPosition, some_value, Bool.false_eq_true, ↓reduceIte]
    rw [List.zipIdx_cons, List.foldl_cons, List.foldl_cons]
    dsimp only
    rw [if_neg (Bool.eq_false_iff.mp some_value), stored]
    refine ih _ (fun v member => valued v (List.mem_cons_of_mem _ member)) ?_ (by omega)
    rw [size_array_setCell]
    omega

/-- A list of values is read as it was given. -/
theorem reads_ofSequence {values : List Value} (valued : ∀ v ∈ values, v ≠ .nil)
    (short : values.length < 2 ^ 63) : (ofSequence values 0).Reads (listing values) := by
  have room : values.length ≤ (withCapacity values.length 0).array.size := by
    simpa [withCapacity, sized] using le_arrayCapacityFor values.length
  have made : ofSequence values 0 = (withCapacity values.length 0).storeSequence values :=
    fill_eq (withCapacity values.length 0) valued (by omega) (by omega)
  have overwritten := (withCapacity values.length 0).overwritten_storeSequence values
  rw [made]
  refine ⟨fun k v member => ?_, fun alive key v => ⟨fun read => ?_, ?_⟩⟩
  · obtain ⟨i, -, rfl⟩ := mem_listing.mp member
    exact ⟨.int _, rfl⟩
  · by_cases inside : ∃ i : Int64, key.normalize = .int i ∧ 1 ≤ i.toInt ∧
        i.toInt ≤ values.length
    · obtain ⟨i, normal, low, high⟩ := inside
      have place : i.toInt.toNat - 1 < values.length := by omega
      have found := List.getElem?_eq_getElem place
      have stored := overwritten.all rfl room i _ _ alive (by omega) found
      rw [← get_normalize, normal, stored] at read
      cases read
      have same : i = Int64.ofNat (i.toInt.toNat - 1 + 1) := by
        rw [← Int64.toInt_inj, toInt_ofNat_succ place short]
        omega
      have spelled : key.toKey? = some (.int i) := by
        rw [← key.toKey?_normalize, normal]
        rfl
      exact ⟨_, spelled, mem_listing.mpr ⟨_, found, congrArg Key.int same⟩⟩
    · have other := overwritten.others key alive fun i normal low high =>
        absurd ⟨i, normal, low, high⟩ inside
      rw [other, withCapacity, get_sized] at read
      cases read
  · rintro ⟨k, spelled, member⟩
    obtain ⟨i, found, rfl⟩ := mem_listing.mp member
    have inside := (List.getElem?_eq_some_iff.mp found).1
    have normal : key.normalize = .int (Int64.ofNat (i + 1)) :=
      Value.eq_int_of_normal key.isNormal_normalize (key.toKey?_normalize.trans spelled)
    rw [← get_normalize, normal]
    exact overwritten.all rfl room _ i v alive (toInt_ofNat_succ inside short) found

omit [Hashing] in
/-- Writing values under different names adds them to what there was. -/
theorem lookup_writeNamed {named : List (String × Value)} (valued : ∀ p ∈ named, p.2 ≠ .nil)
    (distinct : (named.map Prod.fst).Nodup) (m : Contents) (k : Key) (v : Value) :
    (named.foldl (fun m p => m.write (.text p.1) p.2) m).lookup k = some v ↔
      (k, v) ∈ naming named ∨ ((∀ u, (k, u) ∉ naming named) ∧ m.lookup k = some v) := by
  induction named generalizing m with
  | nil => simp [naming]
  | cons first rest ih =>
    obtain ⟨name, value⟩ := first
    obtain ⟨new, distinct⟩ := List.nodup_cons.mp distinct
    have others := ih (fun p member => valued p (List.mem_cons_of_mem _ member)) distinct
      (m.write (.text name) value)
    have some_value : value ≠ .nil := valued _ List.mem_cons_self
    have cons (u : Value) : (k, u) ∈ naming ((name, value) :: rest) ↔
        (k = .text name ∧ u = value) ∨ (k, u) ∈ naming rest := by
      simp only [naming, List.map_cons, List.mem_cons, Prod.mk.injEq]
    rw [List.foldl_cons, others]
    simp only [cons]
    by_cases own : k = .text name
    · have absent (u : Value) : (k, u) ∉ naming rest := by
        intro member
        obtain ⟨other, listed, same⟩ := mem_naming.mp member
        cases own.symm.trans same
        exact new (List.mem_map.mpr ⟨_, listed, rfl⟩)
      rw [own, Contents.lookup_write_same, if_neg some_value, ← own]
      simp [absent, eq_comm]
    · rw [Contents.lookup_write_other m value own]
      simp [own]

/-- Pairs whose keys are valid are all stored. -/
theorem foldlM_set_eq_ok {pairs : List (Value × Value)}
    (named : ∀ p ∈ pairs, p.1.toKey? ≠ none) (t : Table) :
    ∃ t', pairs.foldlM (fun t (key, value) => t.set nothingReclaimed key value) t = .ok t' := by
  induction pairs generalizing t with
  | nil => exact ⟨t, rfl⟩
  | cons first rest ih =>
    obtain ⟨key, value⟩ := first
    obtain ⟨k, spelled⟩ := Option.ne_none_iff_exists'.mp (named _ List.mem_cons_self)
    obtain ⟨t', stored⟩ := ih (fun p member => named p (List.mem_cons_of_mem _ member))
      (t.put nothingReclaimed key value)
    refine ⟨t', ?_⟩
    rw [List.foldlM_cons]
    dsimp only
    rw [set_of_named spelled]
    exact stored

omit [Hashing] in
/-- The changes that store values under strings are writes under their contents. -/
theorem foldl_record_eq {pairs : List (Value × Value)} (texts : ∀ p ∈ pairs, ∃ s, p.1 = .text s)
    (m : Contents) : pairs.foldl (fun m (key, value) => Change.record m (.set key value)) m =
      (pairs.map fun p => (nameOf p.1, p.2)).foldl (fun m p => m.write (.text p.1) p.2) m := by
  induction pairs generalizing m with
  | nil => rfl
  | cons first rest ih =>
    obtain ⟨key, value⟩ := first
    obtain ⟨s, rfl⟩ := texts _ List.mem_cons_self
    exact ih (fun p member => texts p (List.mem_cons_of_mem _ member)) _

/-- Values under different names are read as they were given. -/
theorem exists_ofParts_named {pairs : List (Value × Value)}
    (texts : ∀ p ∈ pairs, ∃ s, p.1 = .text s) (valued : ∀ p ∈ pairs, p.2 ≠ .nil)
    (distinct : (pairs.map fun p => nameOf p.1).Nodup) :
    ∃ t, ofParts pairs [] = .ok t ∧ t.Reads (naming (pairs.map fun p => (nameOf p.1, p.2))) := by
  have all : pairs.filter (fun (_, value) => !value.isNil) = pairs := by
    refine List.filter_eq_self.mpr fun p member => ?_
    rw [Bool.not_eq_true']
    exact Bool.eq_false_iff.mpr fun none => valued p member (Value.isNil_iff.mp none)
  have spelled : ∀ p ∈ pairs, p.1.toKey? ≠ none := by
    intro p member
    obtain ⟨s, key⟩ := texts p member
    rw [key]
    nofun
  obtain ⟨t, stored⟩ := foldlM_set_eq_ok spelled (ofSequence [] pairs.length)
  have built : (Origin.parts pairs []).build = .ok t := by
    rw [Origin.build, ofParts, all]
    exact stored
  have inside : (Origin.parts pairs []).Bounded := Nat.zero_le _
  have represents := (represents_build inside built).1
  refine ⟨t, built, fun k v member => ?_, fun alive key v => ?_⟩
  · obtain ⟨name, -, rfl⟩ := mem_naming.mp member
    exact ⟨.text (.short name), rfl⟩
  · have contents : (Origin.parts pairs []).contents = (pairs.map fun p =>
        (nameOf p.1, p.2)).foldl (fun m p => m.write (.text p.1) p.2) ∅ := by
      rw [Origin.contents, all]
      exact foldl_record_eq texts ∅
    have names : ((pairs.map fun p => (nameOf p.1, p.2)).map Prod.fst).Nodup := by
      rwa [List.map_map]
    have values : ∀ p ∈ pairs.map fun p => (nameOf p.1, p.2), p.2 ≠ .nil := by
      intro _ listed
      obtain ⟨p, member, rfl⟩ := List.mem_map.mp listed
      exact valued p member
    rw [represents.get_eq alive key, contents]
    simp only [Option.bind_eq_some_iff, lookup_writeNamed values names, Finmap.lookup_empty,
      reduceCtorEq, and_false, or_false]

omit [Hashing] in
theorem arrayCapacityFor_le {positions : Nat} (few : positions ≤ maxArrayCapacity) :
    arrayCapacityFor positions ≤ maxArrayCapacity := by
  have limit : maxArrayCapacity = 2 ^ 30 := rfl
  rw [limit] at few ⊢
  unfold arrayCapacityFor ceilPowerOfTwo
  split
  · exact Nat.zero_le _
  · split
    · exact Nat.one_le_two_pow
    · have digits : (positions - 1).log2 < 30 := (Nat.log2_lt (by omega)).mpr (by omega)
      exact Nat.pow_le_pow_right (by decide) digits

/-- A new table is plain, if it is not made too large. -/
theorem plain_ofParts {named : List (Value × Value)} {values : List Value}
    (few : values.length ≤ maxArrayCapacity) (built : ofParts named values = .ok t) : t.Plain :=
  have inside : (Origin.parts named values).Bounded := arrayCapacityFor_le few
  ⟨.made inside built, (represents_build inside built).1.strong⟩

end Table

end HybridTable
