import HybridTable.Proofs.CheckedActions
import HybridTable.Proofs.JsonOrder
import HybridTable.Proofs.Nesting
import HybridTable.Proofs.Shapes

/-! Writing the pairs of one table as JSON. What its values come to is a parameter here, so nothing
needs to be known of the tables inside of it. A failure is that of a value or, where names are
needed, that of a key; without any the values are written one after another, and under equal names
the last one stays. -/
namespace HybridTable

section
variable {ε α β : Type} {a : α} {b : β} {e : ε} {x : Except ε α}

theorem pure_eq_ok_iff {a' : α} : (pure a : Except ε α) = .ok a' ↔ a = a' :=
  ⟨Except.ok.inj, congrArg Except.ok⟩

theorem bind_eq_ok_iff {f : α → Except ε β} :
    x >>= f = .ok b ↔ ∃ a, x = .ok a ∧ f a = .ok b := by
  cases x <;> simp [bind, Except.bind]

theorem bind_eq_error_iff {f : α → Except ε β} :
    x >>= f = .error e ↔ x = .error e ∨ ∃ a, x = .ok a ∧ f a = .error e := by
  cases x <;> simp [bind, Except.bind]

theorem map_eq_ok_iff {f : α → β} : f <$> x = .ok b ↔ ∃ a, x = .ok a ∧ f a = b := by
  cases x <;> simp [Functor.map, Except.map]

theorem map_eq_error_iff {f : α → β} : f <$> x = .error e ↔ x = .error e := by
  cases x <;> simp [Functor.map, Except.map]

variable {f g : α → Except ε β} {l : List α} {results : List β}

theorem mapM_eq_ok_iff :
    l.mapM f = .ok results ↔ List.Forall₂ (fun a b => f a = .ok b) l results := by
  induction l generalizing results with
  | nil =>
    rw [List.forall₂_nil_left_iff, List.mapM_nil, pure_eq_ok_iff]
    exact eq_comm
  | cons a rest ih =>
    rw [List.mapM_cons, List.forall₂_cons_left_iff, bind_eq_ok_iff]
    simp only [bind_eq_ok_iff, pure_eq_ok_iff, ih]
    constructor
    · rintro ⟨b, first, bs, others, rfl⟩
      exact ⟨b, bs, first, others, rfl⟩
    · rintro ⟨b, bs, first, others, rfl⟩
      exact ⟨b, first, bs, others, rfl⟩

/-- A list fails with one of its elements. -/
theorem exists_of_mapM_eq_error (failed : l.mapM f = .error e) : ∃ a ∈ l, f a = .error e := by
  induction l with
  | nil => cases failed
  | cons a rest ih =>
    rw [List.mapM_cons, bind_eq_error_iff] at failed
    rcases failed with first | ⟨b, -, failed⟩
    · exact ⟨a, List.mem_cons_self, first⟩
    · rcases bind_eq_error_iff.mp failed with others | ⟨bs, -, done⟩
      · obtain ⟨a', member, failed⟩ := ih others
        exact ⟨a', List.mem_cons_of_mem a member, failed⟩
      · cases done

theorem mapM_congr (same : ∀ a ∈ l, f a = g a) : l.mapM f = l.mapM g := by
  induction l with
  | nil => rfl
  | cons a rest ih =>
    rw [List.mapM_cons, List.mapM_cons, same a List.mem_cons_self,
      ih fun b member => same b (List.mem_cons_of_mem a member)]

/-- A list that is done has every element done. -/
theorem exists_ok_of_mapM (done : l.mapM f = .ok results) : ∀ a ∈ l, ∃ b, f a = .ok b := by
  have each := mapM_eq_ok_iff.mp done
  clear done
  induction each with
  | nil => nofun
  | cons first _ ih => exact List.forall_mem_cons.mpr ⟨⟨_, first⟩, ih⟩

end

/-! ## The pairs of one table -/

variable {written written' : Value → Except JsonError Json} {pairs : List (Value × Value)}
  {e : JsonError} {j : Json}

/-- The JSON form of what is no table. -/
def writeOther : Value → Except JsonError Json
  | .nil => .ok .null
  | .bool b => .ok (.bool b)
  | .int i => .ok (.int i)
  | .float x => if x.isFinite then .ok (.float x) else .error (.invalidNumber x)
  | .text s => .ok (.text s.content)
  | v => .error (.unwritable v.kind)

/-- The member that a pair becomes. -/
def memberOf (written : Value → Except JsonError Json) (pair : Value × Value) :
    Except JsonError (String × Json) := do
  let name ← memberName pair.1
  return (name, ← written pair.2)

/-- The members that pairs become, under each name the last one. -/
def writeMembers (written : Value → Except JsonError Json) (pairs : List (Value × Value)) :
    Except JsonError (List (String × Json)) :=
  (Json.addMembers · []) <$> pairs.mapM (memberOf written)

/-- The JSON form of pairs, depending on what their values come to. -/
def writePairs (written : Value → Except JsonError Json) (pairs : List (Value × Value)) :
    Except JsonError Json :=
  if isListing pairs then .array <$> pairs.mapM fun pair => written pair.2
  else .object <$> writeMembers written pairs

/-- Adding each member at once comes to the same as adding them all at last. -/
theorem foldlM_addMember (written : Value → Except JsonError Json) (pairs : List (Value × Value))
    (members : List (String × Json)) :
    pairs.foldlM (fun members (key, value) => do
        let name ← memberName key
        return Json.addMember name (← written value) members) members =
      (Json.addMembers · members) <$> pairs.mapM (memberOf written) := by
  induction pairs generalizing members with
  | nil => rfl
  | cons pair rest ih =>
    obtain ⟨key, value⟩ := pair
    rw [List.foldlM_cons, List.mapM_cons]
    dsimp only [memberOf]
    cases named : memberName key with
    | error e => rfl
    | ok name =>
      cases done : written value with
      | error e => rfl
      | ok own =>
        refine (ih (Json.addMember name own members)).trans ?_
        cases rest.mapM (memberOf written) <;> rfl

theorem memberOf_eq_ok_iff {pair : Value × Value} {name : String} : memberOf written pair =
    .ok (name, j) ↔ memberName pair.1 = .ok name ∧ written pair.2 = .ok j := by
  unfold memberOf
  simp only [bind_eq_ok_iff, pure_eq_ok_iff, Prod.mk.injEq]
  constructor
  · rintro ⟨_, named, _, value, rfl, rfl⟩
    exact ⟨named, value⟩
  · rintro ⟨named, value⟩
    exact ⟨_, named, _, value, rfl, rfl⟩

theorem memberOf_eq_error {pair : Value × Value} (failed : memberOf written pair = .error e) :
    memberName pair.1 = .error e ∨ written pair.2 = .error e := by
  rcases bind_eq_error_iff.mp failed with name | ⟨_, -, failed⟩
  · exact .inl name
  · rcases bind_eq_error_iff.mp failed with value | ⟨_, -, done⟩
    · exact .inr value
    · cases done

theorem writePairs_congr (same : ∀ pair ∈ pairs, written pair.2 = written' pair.2) :
    writePairs written pairs = writePairs written' pairs := by
  unfold writePairs writeMembers
  rw [mapM_congr same]
  have members : pairs.mapM (memberOf written) = pairs.mapM (memberOf written') := by
    refine mapM_congr fun pair member => ?_
    unfold memberOf
    rw [same pair member]
  rw [members]

/-- Pairs that are written have all their values written and, for an object, names for all keys. -/
theorem writePairs_eq_ok (done : writePairs written pairs = .ok j) : ∀ pair ∈ pairs,
    (∃ own, written pair.2 = .ok own) ∧
      (isListing pairs = false → ∃ name, memberName pair.1 = .ok name) := by
  unfold writePairs writeMembers at done
  intro pair member
  split at done
  · rename_i listing
    obtain ⟨items, each, -⟩ := map_eq_ok_iff.mp done
    refine ⟨exists_ok_of_mapM each pair member, fun object => ?_⟩
    exact absurd (listing.symm.trans object) (by decide)
  · obtain ⟨members, done, -⟩ := map_eq_ok_iff.mp done
    obtain ⟨named, each, -⟩ := map_eq_ok_iff.mp done
    obtain ⟨⟨name, own⟩, both⟩ := exists_ok_of_mapM each pair member
    obtain ⟨named, value⟩ := memberOf_eq_ok_iff.mp both
    exact ⟨⟨own, value⟩, fun _ => ⟨name, named⟩⟩

/-- Pairs that cannot be written have a value that cannot or, for an object, a key without a
name. -/
theorem writePairs_eq_error (failed : writePairs written pairs = .error e) :
    (∃ pair ∈ pairs, written pair.2 = .error e) ∨
      isListing pairs = false ∧ ∃ pair ∈ pairs, memberName pair.1 = .error e := by
  unfold writePairs writeMembers at failed
  split at failed
  · exact .inl (exists_of_mapM_eq_error (map_eq_error_iff.mp failed))
  · rename_i object
    obtain ⟨pair, member, both⟩ :=
      exists_of_mapM_eq_error (map_eq_error_iff.mp (map_eq_error_iff.mp failed))
    rcases memberOf_eq_error both with name | value
    · exact .inr ⟨by simpa using object, pair, member, name⟩
    · exact .inl ⟨pair, member, value⟩

theorem memberName_eq_error_iff {key : Value} (present : key ≠ .nil) {e : JsonError} :
    memberName key = .error e ↔ key.isObject = true ∧ e = .unusableKey key.kind := by
  cases key with
  | nil => exact absurd rfl present
  | _ => simp [memberName, Value.isObject, eq_comm]

namespace World

variable {ε : Type} [Hashing] {w : World ε} {ref : Ref} {key v : Value}

/-- The pairs of a table as they are written. -/
def pairsOf (w : World ε) (ref : Ref) : List (Value × Value) :=
  orderedPairs ((w.table ref).pairs w.survivors.contains)

/-- A table is written pair by pair, unless it is inside of itself. -/
theorem jsonWithin_table (w : World ε) (depth : Nat) (around : List Ref) (ref : Ref) :
    w.jsonWithin (depth + 1) around (.table ref) = if ref ∈ around then .error .circular
      else writePairs (w.jsonWithin depth (ref :: around)) (w.pairsOf ref) := by
  rw [jsonWithin]
  simp only [List.contains_iff_mem, writePairs, writeMembers, ← foldlM_addMember]
  rfl

/-- What is no table is written alike everywhere. -/
theorem jsonWithin_other (w : World ε) (other : ∀ ref, v ≠ .table ref) (depth : Nat)
    (around : List Ref) : w.jsonWithin depth around v = writeOther v := by
  cases v with
  | table ref => exact absurd rfl (other ref)
  | _ => cases depth <;> rfl

omit [Hashing] in
theorem orderedPairs_perm (pairs : List (Value × Value)) : (orderedPairs pairs).Perm pairs := by
  unfold orderedPairs
  split
  · exact List.mergeSort_perm ..
  · exact .refl _

theorem rawGet_of_mem_pairsOf (orderly : w.Orderly) (member : (key, v) ∈ w.pairsOf ref) :
    key.IsNormal ∧ key ≠ .nil ∧ w.rawGet ref key = some v := by
  have sound := (orderly ref).sound_bounded.1
  have met := (orderedPairs_perm _).mem_iff.mp member
  obtain ⟨named, normal⟩ := Table.normal_of_mem_pairs sound met
  refine ⟨normal, ?_, Table.get_of_mem_pairs sound met⟩
  rintro rfl
  exact named rfl

theorem exists_mem_pairsOf (orderly : w.Orderly) (read : w.rawGet ref key = some v) :
    ∃ own, own.IsNormal ∧ own.toKey? = key.toKey? ∧ (own, v) ∈ w.pairsOf ref := by
  obtain ⟨own, normal, same, met⟩ :=
    Table.exists_mem_pairs (orderly ref).sound_bounded.1 read
  exact ⟨own, normal, same, (orderedPairs_perm _).mem_iff.mpr met⟩

/-- The values of the pairs are what is inside of the table. -/
theorem inside_iff_mem_pairsOf (orderly : w.Orderly) :
    w.Inside v (.table ref) ↔ ∃ key, (key, v) ∈ w.pairsOf ref := by
  constructor
  · rintro ⟨_, key, same, read⟩
    cases same
    obtain ⟨own, -, -, member⟩ := exists_mem_pairsOf orderly read
    exact ⟨own, member⟩
  · rintro ⟨key, member⟩
    exact ⟨ref, key, rfl, (rawGet_of_mem_pairsOf orderly member).2.2⟩

/-- The keys of a table are exactly the integers from 1 to some number. -/
def IsList (w : World ε) (ref : Ref) : Prop :=
  ∃ n : Nat, ∀ key, w.rawGet ref key ≠ none ↔
    ∃ i : Int64, key.toKey? = some (.int i) ∧ 1 ≤ i.toInt ∧ i.toInt ≤ n

/-- A list is written as an array. -/
theorem IsList.isListing (list : w.IsList ref) (orderly : w.Orderly) :
    isListing (w.pairsOf ref) = true := by
  obtain ⟨n, keys⟩ := list
  have sound := (orderly ref).sound_bounded.1
  let value (i : Nat) : Value := (w.rawGet ref (.int (Int64.ofNat (i + 1)))).getD .nil
  let values := (List.range (min n maxInt)).map value
  have short : values.length < 2 ^ 63 := by
    rw [List.length_map, List.length_range]
    exact Nat.lt_of_le_of_lt (Nat.min_le_right ..) (by decide)
  have perm : ((w.table ref).pairs w.survivors.contains).Perm (listed values) := by
    refine (List.perm_ext_iff_of_nodup (Table.nodup_toKey? sound _).of_map
      (nodup_keyNumber short).of_map).mpr fun pair => ?_
    obtain ⟨key, v⟩ := pair
    rw [mem_listed]
    simp only [values, getElem?_map_range]
    constructor
    · intro met
      have read : w.rawGet ref key = some v := Table.get_of_mem_pairs sound met
      obtain ⟨i, spelled, low, high⟩ := (keys key).mp (Option.ne_none_iff_exists'.mpr ⟨v, read⟩)
      have integer := Value.eq_int_of_normal (Table.normal_of_mem_pairs sound met).2 spelled
      have bound := i.toInt_lt
      have number : Int64.ofNat (i.toInt.toNat - 1 + 1) = i := by
        rw [← Int64.toInt_inj, toInt_ofNat_succ (Nat.lt_succ_self _) (by omega)]
        omega
      have top : (maxInt : Int) = 2 ^ 63 - 1 := rfl
      refine ⟨i.toInt.toNat - 1, ⟨by omega, ?_⟩, by rw [number, integer]⟩
      simp only [value, number, ← integer, read, Option.getD_some]
    · rintro ⟨i, ⟨inside, rfl⟩, rfl⟩
      have top : (maxInt : Int) = 2 ^ 63 - 1 := rfl
      have number : (Int64.ofNat (i + 1)).toInt = i + 1 :=
        toInt_ofNat_succ inside (Nat.lt_of_le_of_lt (Nat.min_le_right ..) (by decide))
      obtain ⟨v, read⟩ := Option.ne_none_iff_exists'.mp
        ((keys (.int (Int64.ofNat (i + 1)))).mpr ⟨_, rfl, by omega, by omega⟩)
      obtain ⟨own, normal, same, met⟩ := Table.exists_mem_pairs sound read
      rw [Value.eq_int_of_normal normal same] at met
      simpa only [value, read, Option.getD_some] using met
  rw [pairsOf, orderedPairs_eq_listed short perm]
  exact isListing_listed values

omit [Hashing] in
/-- All keys of an array are integers. -/
theorem exists_int_of_isListing {pairs : List (Value × Value)} (listing : isListing pairs = true)
    (member : (key, v) ∈ pairs) : ∃ i, key = .int i := by
  obtain ⟨i, found⟩ := List.mem_iff_getElem?.mp member
  have indexed : ((key, v), i) ∈ pairs.zipIdx := List.mem_zipIdx_iff_getElem?.mpr found
  have numbered := List.all_eq_true.mp listing _ indexed
  exact ⟨_, beq_iff_eq.mp numbered⟩

end World

end HybridTable
