import HybridTable.Json.Bridge
import HybridTable.Proofs.Listing
import HybridTable.Proofs.Reachable

/-! The two shapes of tables that JSON data has. A table lists values under the keys from 1 on, or
has values under names. What is read of it is all that counts: a table of either shape may be laid
out in many ways, and its traversal may meet the pairs in any order. -/
namespace HybridTable

/-- Values under the keys from 1 on. -/
def listing (values : List Value) : List (Key × Value) :=
  values.zipIdx.map fun (v, i) => (.int (Int64.ofNat (i + 1)), v)

/-- Values under names. -/
def naming (named : List (String × Value)) : List (Key × Value) :=
  named.map fun (name, v) => (.text name, v)

theorem mem_listing {values : List Value} {k : Key} {v : Value} : (k, v) ∈ listing values ↔
    ∃ i : Nat, values[i]? = some v ∧ k = .int (Int64.ofNat (i + 1)) := by
  simp only [listing, List.mem_map, Prod.mk.injEq, Prod.exists, List.mem_zipIdx_iff_getElem?]
  constructor
  · rintro ⟨_, i, found, rfl, rfl⟩
    exact ⟨i, found, rfl⟩
  · rintro ⟨i, found, rfl⟩
    exact ⟨v, i, found, rfl, rfl⟩

theorem mem_naming {named : List (String × Value)} {k : Key} {v : Value} :
    (k, v) ∈ naming named ↔ ∃ name, (name, v) ∈ named ∧ k = .text name := by
  simp only [naming, List.mem_map, Prod.mk.injEq, Prod.exists]
  constructor
  · rintro ⟨name, _, member, rfl, rfl⟩
    exact ⟨name, member, rfl⟩
  · rintro ⟨name, member, rfl⟩
    exact ⟨name, v, member, rfl, rfl⟩

theorem exists_mem_listing {values : List Value} {k : Key} : (∃ v, (k, v) ∈ listing values) ↔
    ∃ i : Nat, i < values.length ∧ k = .int (Int64.ofNat (i + 1)) := by
  simp only [mem_listing]
  constructor
  · rintro ⟨v, i, found, rfl⟩
    exact ⟨i, (List.getElem?_eq_some_iff.mp found).1, rfl⟩
  · rintro ⟨i, inside, rfl⟩
    exact ⟨values[i], i, List.getElem?_eq_getElem inside, rfl⟩

theorem exists_mem_naming {named : List (String × Value)} {k : Key} :
    (∃ v, (k, v) ∈ naming named) ↔ ∃ name ∈ named.map Prod.fst, k = .text name := by
  simp only [mem_naming, List.mem_map]
  constructor
  · rintro ⟨v, name, member, rfl⟩
    exact ⟨name, ⟨_, member, rfl⟩, rfl⟩
  · rintro ⟨_, ⟨⟨name, v⟩, member, rfl⟩, rfl⟩
    exact ⟨v, name, member, rfl⟩

/-- Positions that a 64-bit integer can count have different keys. -/
theorem toInt_ofNat_succ {i n : Nat} (inside : i < n) (short : n < 2 ^ 63) :
    (Int64.ofNat (i + 1)).toInt = i + 1 := by
  rw [Int64.toInt_ofNat_of_lt (by omega)]
  rfl

namespace Table

variable [Hashing] {t : Table} {alive : Ref → Bool} {entries : List (Key × Value)}

/-- Having these pairs and no others for every reader, whatever is alive. -/
structure Reads (t : Table) (entries : List (Key × Value)) : Prop where
  /-- The keys are keys of values. -/
  spelled : ∀ k v, (k, v) ∈ entries → ∃ key : Value, key.toKey? = some k
  /-- The pairs are these. -/
  get_iff : ∀ alive key v, t.get alive key = some v ↔
    ∃ k, key.toKey? = some k ∧ (k, v) ∈ entries

/-- What is listed can be read. -/
theorem Reads.exists_get (reads : t.Reads entries)
    (alive : Ref → Bool) {k : Key} {v : Value} (member : (k, v) ∈ entries) :
    ∃ key, t.get alive key = some v := by
  obtain ⟨key, spelled⟩ := reads.spelled k v member
  exact ⟨key, (reads.get_iff alive key v).mpr ⟨k, spelled, member⟩⟩

/-- The order of the pairs makes no difference. -/
theorem Reads.of_perm {entries' : List (Key × Value)} (reads : t.Reads entries)
    (perm : entries.Perm entries') : t.Reads entries' where
  spelled k v member := reads.spelled k v (perm.mem_iff.mpr member)
  get_iff alive key v := by simp only [reads.get_iff, perm.mem_iff]

/-- All keys that a traversal meets are in normal form. -/
theorem normal_of_mem_pairs (sound : t.Sound) {k v : Value} (met : (k, v) ∈ t.pairs alive) :
    k.toKey? ≠ none ∧ k.IsNormal :=
  named_of_mem_outline sound ((keys_sublist sound alive).mem (List.mem_map.mpr ⟨_, met, rfl⟩))

/-- What is read under a key is met by a traversal, in the spelling of the table. -/
theorem exists_mem_pairs (sound : t.Sound) {key v : Value} (read : t.get alive key = some v) :
    ∃ own, own.IsNormal ∧ own.toKey? = key.toKey? ∧ (own, v) ∈ t.pairs alive := by
  have present := Option.ne_none_iff_exists'.mpr ⟨v, read⟩
  obtain ⟨own, listed, same⟩ := (exists_mem_keys_iff sound).mpr present
  obtain ⟨⟨own, v'⟩, met, rfl⟩ := List.mem_map.mp listed
  obtain ⟨named, normal⟩ := normal_of_mem_pairs sound met
  obtain ⟨k, named⟩ := Option.ne_none_iff_exists'.mp named
  have spelled := named.trans ((Value.rawEqual_iff named).mp same).symm
  have found := get_of_mem_pairs sound met
  rw [get_congr sound spelled, read] at found
  cases found
  exact ⟨own, normal, spelled, met⟩

/-- What is read is met by a traversal under one spelling. -/
theorem Reads.mem_iff (reads : t.Reads entries) (sound : t.Sound) (alive : Ref → Bool) {k : Key}
    {v : Value} : (k, v) ∈ entries ↔
      ∃ own, own.IsNormal ∧ own.toKey? = some k ∧ (own, v) ∈ t.pairs alive := by
  constructor
  · intro member
    obtain ⟨key, spelled⟩ := reads.spelled k v member
    rw [← spelled]
    exact exists_mem_pairs sound ((reads.get_iff alive key v).mpr ⟨k, spelled, member⟩)
  · rintro ⟨own, -, named, met⟩
    obtain ⟨k', named', member⟩ := (reads.get_iff alive own v).mp (get_of_mem_pairs sound met)
    cases named.symm.trans named'
    exact member

/-- No key is met twice. -/
theorem nodup_toKey? (sound : t.Sound) (alive : Ref → Bool) :
    ((t.pairs alive).map fun pair => pair.1.toKey?).Nodup := by
  have apart := List.pairwise_map.mp (keys_pairwise sound alive)
  exact List.pairwise_map.mpr apart

end Table

/-! ## Lists -/

/-- The pairs of a list in the order of their keys. -/
def listed (values : List Value) : List (Value × Value) :=
  values.zipIdx.map fun (v, i) => (.int (Int64.ofNat (i + 1)), v)

theorem getElem?_listed (values : List Value) (i : Nat) :
    (listed values)[i]? = values[i]?.map fun v => (.int (Int64.ofNat (i + 1)), v) := by
  simp [listed, List.getElem?_zipIdx, Function.comp_def]

theorem mem_listed {values : List Value} {k v : Value} : (k, v) ∈ listed values ↔
    ∃ i : Nat, values[i]? = some v ∧ k = .int (Int64.ofNat (i + 1)) := by
  simp only [List.mem_iff_getElem?, getElem?_listed, Option.map_eq_some_iff, Prod.mk.injEq]
  constructor
  · rintro ⟨i, _, found, rfl, rfl⟩
    exact ⟨i, found, rfl⟩
  · rintro ⟨i, found, rfl⟩
    exact ⟨i, v, found, rfl, rfl⟩

theorem length_listed (values : List Value) : (listed values).length = values.length := by
  simp [listed]

theorem map_snd_listed (values : List Value) : (listed values).map Prod.snd = values := by
  rw [listed, List.map_map]
  exact List.zipIdx_map_fst 0 values

theorem isListing_listed (values : List Value) : isListing (listed values) = true := by
  refine List.all_eq_true.mpr fun ⟨pair, i⟩ member => ?_
  have found := List.mem_zipIdx_iff_getElem?.mp member
  rw [getElem?_listed] at found
  obtain ⟨v, -, same⟩ := Option.map_eq_some_iff.mp found
  exact beq_iff_eq.mpr (congrArg Prod.fst same.symm)

/-- Reading what a function gives for the numbers below a limit. -/
theorem getElem?_map_range {α : Type} (f : Nat → α) (n i : Nat) (v : α) :
    ((List.range n).map f)[i]? = some v ↔ i < n ∧ f i = v := by
  by_cases inside : i < n
  · rw [List.getElem?_map, List.getElem?_range inside, Option.map_some, Option.some.injEq]
    simp only [inside, true_and]
  · rw [List.getElem?_eq_none (by simpa using inside)]
    simp only [inside, false_and, reduceCtorEq]

/-- The number that an integer key is. -/
def keyNumber : Value → Int
  | .int i => i.toInt
  | _ => 0

/-- Whether the first key of a pair is at most the second, as numbers. -/
def numberAtMost (a b : Value × Value) : Bool := decide (keyNumber a.1 ≤ keyNumber b.1)

theorem listed_pairwise {values : List Value} (short : values.length < 2 ^ 63) :
    (listed values).Pairwise fun a b => keyNumber a.1 < keyNumber b.1 := by
  rw [List.pairwise_iff_getElem]
  intro i j hi hj before
  have number {n : Nat} (inside : n < (listed values).length) :
      keyNumber (listed values)[n].1 = n + 1 := by
    have found := List.getElem?_eq_getElem inside
    rw [length_listed] at inside
    rw [getElem?_listed, List.getElem?_eq_getElem inside] at found
    rw [← Option.some.inj found]
    exact toInt_ofNat_succ inside short
  rw [number hi, number hj]
  omega

theorem nodup_keyNumber {values : List Value} (short : values.length < 2 ^ 63) :
    ((listed values).map fun pair => keyNumber pair.1).Nodup :=
  List.pairwise_map.mpr ((listed_pairwise short).imp Int.ne_of_lt)

/-- A pair of a list is found by its number. -/
theorem eq_of_keyNumber {values : List Value} (short : values.length < 2 ^ 63)
    {a b : Value × Value} (first : a ∈ listed values) (second : b ∈ listed values)
    (same : keyNumber a.1 = keyNumber b.1) : a = b :=
  List.inj_on_of_nodup_map (nodup_keyNumber short) first second same

theorem isListKey_of_mem_listed {values : List Value} (short : values.length < 2 ^ 63)
    {pair : Value × Value} (member : pair ∈ listed values) : pair.1.isListKey = true := by
  obtain ⟨i, found, key⟩ := mem_listed.mp member
  have inside := (List.getElem?_eq_some_iff.mp found).1
  rw [key, Value.isListKey, decide_eq_true_iff, Int64.lt_iff_toInt_lt,
    toInt_ofNat_succ inside short]
  exact Int.lt_of_lt_of_le (by decide) (Int.le_add_of_nonneg_left (Int.natCast_nonneg i))

/-- Sorting the pairs of a list in whatever order gives them in the order of their keys. -/
theorem mergeSort_eq_listed {values : List Value} (short : values.length < 2 ^ 63)
    {pairs : List (Value × Value)} (perm : pairs.Perm (listed values)) :
    pairs.mergeSort keyAtMost = listed values := by
  have integral {pair : Value × Value} (member : pair ∈ pairs) : ∃ i, pair.1 = .int i := by
    obtain ⟨i, -, key⟩ := mem_listed.mp (perm.mem_iff.mp member)
    exact ⟨_, key⟩
  -- `keyAtMost` is transitive and total among integers only
  have agree : ∀ a ∈ pairs, ∀ b ∈ pairs, keyAtMost a b = numberAtMost (id a) (id b) := by
    intro a first b second
    obtain ⟨i, key⟩ := integral first
    obtain ⟨j, key'⟩ := integral second
    simp only [keyAtMost, numberAtMost, keyNumber, key, key', id_eq, Int64.le_iff_toInt_le]
  have tests : pairs.mergeSort keyAtMost = pairs.mergeSort numberAtMost := by
    have mapped := List.map_mergeSort (r := keyAtMost) (s := numberAtMost) (f := id) agree
    rwa [List.map_id, List.map_id] at mapped
  have ascending : (pairs.mergeSort numberAtMost).Pairwise fun a b => numberAtMost a b = true := by
    apply List.pairwise_mergeSort
    · intro a b c first second
      simp only [numberAtMost, decide_eq_true_eq] at *
      exact first.trans second
    · intro a b
      simp only [numberAtMost, Bool.or_eq_true, decide_eq_true_eq]
      exact Int.le_total _ _
  have strict := listed_pairwise short
  rw [tests]
  refine List.Perm.eq_of_pairwise (fun a b first second upper lower => ?_) ascending
    (strict.imp fun before => decide_eq_true (Int.le_of_lt before))
    ((List.mergeSort_perm _ _).trans perm)
  have member := perm.mem_iff.mp ((List.mergeSort_perm _ _).mem_iff.mp first)
  exact eq_of_keyNumber short member second
    (Int.le_antisymm (of_decide_eq_true upper) (of_decide_eq_true lower))

/-- The pairs of a list come in the order of their keys, in whatever order they are met. -/
theorem orderedPairs_eq_listed {values : List Value} (short : values.length < 2 ^ 63)
    {pairs : List (Value × Value)} (perm : pairs.Perm (listed values)) :
    orderedPairs pairs = listed values := by
  have integers : pairs.all (·.1.isListKey) = true :=
    List.all_eq_true.mpr fun pair member => isListKey_of_mem_listed short (perm.mem_iff.mp member)
  rw [orderedPairs, if_pos integers, mergeSort_eq_listed short perm]

/-- The pairs of a list, as they are written, are in the order of their keys. -/
theorem orderedPairs_listing [Hashing] {t : Table} {values : List Value} (sound : t.Sound)
    (reads : t.Reads (listing values)) (short : values.length < 2 ^ 63) (alive : Ref → Bool) :
    orderedPairs (t.pairs alive) = listed values := by
  have perm : (t.pairs alive).Perm (listed values) := by
    refine (List.perm_ext_iff_of_nodup (Table.nodup_toKey? sound alive).of_map
      (nodup_keyNumber short).of_map).mpr fun pair => ?_
    obtain ⟨key, v⟩ := pair
    rw [mem_listed]
    constructor
    · intro met
      obtain ⟨named, normal⟩ := Table.normal_of_mem_pairs sound met
      obtain ⟨k, spelled⟩ := Option.ne_none_iff_exists'.mp named
      obtain ⟨i, found, rfl⟩ :=
        mem_listing.mp ((reads.mem_iff sound alive).mpr ⟨key, normal, spelled, met⟩)
      exact ⟨i, found, Value.eq_int_of_normal normal spelled⟩
    · rintro ⟨i, found, rfl⟩
      obtain ⟨own, normal, spelled, met⟩ :=
        (reads.mem_iff sound alive).mp (mem_listing.mpr ⟨i, found, rfl⟩)
      rwa [Value.eq_int_of_normal normal spelled] at met
  exact orderedPairs_eq_listed short perm

/-! ## Names -/

/-- The content of a string key. -/
def nameOf : Value → String
  | .text s => s.content
  | _ => ""

theorem eq_text_of_toKey? {key : Value} {name : String} (spelled : key.toKey? = some (.text name)) :
    ∃ s : Text, key = .text s ∧ s.content = name := by
  cases key with
  | text s =>
    cases spelled
    exact ⟨s, rfl, rfl⟩
  | float x =>
    rcases Value.number_of_float spelled with same | ⟨i, same⟩ <;> cases same
  | _ => cases spelled

section
variable [Hashing] {t : Table} {named : List (String × Value)} (sound : t.Sound)
  (reads : t.Reads (naming named))
include sound reads

/-- All keys of a table with names are strings. -/
theorem text_of_mem_pairs {alive : Ref → Bool} {k v : Value} (met : (k, v) ∈ t.pairs alive) :
    ∃ s : Text, k = .text s ∧ (s.content, v) ∈ named := by
  obtain ⟨spelled, normal⟩ := Table.normal_of_mem_pairs sound met
  obtain ⟨key, spelled⟩ := Option.ne_none_iff_exists'.mp spelled
  obtain ⟨name, member, rfl⟩ :=
    mem_naming.mp ((reads.mem_iff sound alive).mpr ⟨k, normal, spelled, met⟩)
  obtain ⟨s, rfl, rfl⟩ := eq_text_of_toKey? spelled
  exact ⟨s, rfl, member⟩

/-- A traversal meets all names with their values, in some order. -/
theorem perm_naming (distinct : (named.map Prod.fst).Nodup) (alive : Ref → Bool) :
    ((t.pairs alive).map fun pair => (nameOf pair.1, pair.2)).Perm named := by
  have once : ((t.pairs alive).map fun pair => (nameOf pair.1, pair.2)).Nodup := by
    have distinct := Table.nodup_toKey? sound alive
    refine List.Nodup.map_on (fun p first q second same => ?_) distinct.of_map
    obtain ⟨s, key, -⟩ := text_of_mem_pairs sound reads first
    obtain ⟨s', key', -⟩ := text_of_mem_pairs sound reads second
    refine List.inj_on_of_nodup_map distinct first second ?_
    have name := congrArg Prod.fst same
    simp only [key, key', nameOf] at name
    simp only [key, key', Value.toKey?, name]
  refine (List.perm_ext_iff_of_nodup once distinct.of_map).mpr fun field => ?_
  obtain ⟨name, v⟩ := field
  rw [List.mem_map]
  constructor
  · rintro ⟨⟨k, v⟩, met, same⟩
    obtain ⟨s, rfl, member⟩ := text_of_mem_pairs sound reads met
    rwa [← same]
  · intro member
    obtain ⟨own, -, spelled, met⟩ :=
      (reads.mem_iff sound alive).mp (mem_naming.mpr ⟨name, member, rfl⟩)
    obtain ⟨s, rfl, rfl⟩ := eq_text_of_toKey? spelled
    exact ⟨_, met, rfl⟩

/-- The pairs of a table with names are written in the order of traversal. -/
theorem orderedPairs_naming (distinct : (named.map Prod.fst).Nodup) (some_name : named ≠ [])
    (alive : Ref → Bool) :
    orderedPairs (t.pairs alive) = t.pairs alive ∧ isListing (t.pairs alive) = false := by
  have perm := perm_naming sound reads distinct alive
  have texts {k v : Value} (met : (k, v) ∈ t.pairs alive) : ∃ s, k = .text s := by
    obtain ⟨s, text, -⟩ := text_of_mem_pairs sound reads met
    exact ⟨s, text⟩
  generalize t.pairs alive = pairs at *
  cases pairs with
  | nil => exact absurd (List.perm_nil.mp perm.symm) some_name
  | cons first rest =>
    obtain ⟨k, v⟩ := first
    obtain ⟨s, rfl⟩ := texts List.mem_cons_self
    exact ⟨rfl, rfl⟩

end

/-! ## Tables that have such a shape -/

namespace Table

variable [Hashing] {t : Table} {alive : Ref → Bool}

/-- Being strong and having come about in any way. -/
def Plain (t : Table) : Prop := t.Reachable ∧ t.policy = .allStrong

theorem Plain.sound (plain : t.Plain) : t.Sound := plain.1.sound_bounded.1

/-- A strong table is read alike whatever is alive. -/
theorem Plain.get_eq (plain : t.Plain) (alive alive' : Ref → Bool) (key : Value) :
    t.get alive key = t.get alive' key := by
  apply Option.ext
  intro v
  rw [plain.sound.get_eq_some_iff, plain.sound.get_eq_some_iff, plain.2]
  simp only [WeakPolicy.spares_allStrong]

/-- A table whose keys are the integers from 1 to `n` is a list. -/
theorem reads_of_keys (plain : t.Plain) {n : Nat} (keys : ∀ key, t.get alive key ≠ none ↔
      ∃ i, i < n ∧ key.toKey? = some (.int (Int64.ofNat (i + 1)))) :
    ∃ values, values.length = n ∧ t.Reads (listing values) := by
  have sound := plain.sound
  let value (i : Nat) : Value := (t.get alive (.int (Int64.ofNat (i + 1)))).getD .nil
  have read {i : Nat} (inside : i < n) :
      t.get alive (.int (Int64.ofNat (i + 1))) = some (value i) := by
    obtain ⟨v, read⟩ := Option.ne_none_iff_exists'.mp
      ((keys (.int (Int64.ofNat (i + 1)))).mpr ⟨i, inside, rfl⟩)
    simp only [value, read, Option.getD_some]
  refine ⟨(List.range n).map value, by simp, fun k v member => ?_, fun other key v => ?_⟩
  · obtain ⟨i, -, rfl⟩ := mem_listing.mp member
    exact ⟨.int _, rfl⟩
  · rw [plain.get_eq other alive]
    simp only [mem_listing, getElem?_map_range]
    constructor
    · intro found
      obtain ⟨i, inside, spelled⟩ := (keys key).mp (Option.ne_none_iff_exists'.mpr ⟨v, found⟩)
      have same : t.get alive key = t.get alive (.int (Int64.ofNat (i + 1))) :=
        get_congr sound spelled
      rw [same, read inside] at found
      exact ⟨_, spelled, i, ⟨inside, Option.some.inj found⟩, rfl⟩
    · rintro ⟨_, spelled, i, ⟨inside, rfl⟩, rfl⟩
      rw [← read inside]
      exact get_congr sound spelled

/-- What a traversal of a strong table meets is all that is read of it. -/
theorem Plain.reads (plain : t.Plain) (alive : Ref → Bool) {entries : List (Key × Value)}
    (met : ((t.pairs alive).map fun pair => (pair.1.toKey?, pair.2)).Perm
      (entries.map fun entry => (some entry.1, entry.2))) : t.Reads entries := by
  have sound := plain.sound
  have member_iff (k : Key) (v : Value) :
      (k, v) ∈ entries ↔ ∃ own, own.toKey? = some k ∧ (own, v) ∈ t.pairs alive := by
    have listed : (k, v) ∈ entries ↔
        (some k, v) ∈ entries.map fun entry => (some entry.1, entry.2) := by simp
    rw [listed, ← met.mem_iff]
    simp [and_comm]
  refine ⟨fun k v member => ?_, fun other key v => ?_⟩
  · obtain ⟨own, spelled, -⟩ := (member_iff k v).mp member
    exact ⟨own, spelled⟩
  · rw [plain.get_eq other alive]
    simp only [member_iff]
    constructor
    · intro read
      obtain ⟨own, -, same, met⟩ := exists_mem_pairs sound read
      obtain ⟨k, spelled⟩ := Option.ne_none_iff_exists'.mp (normal_of_mem_pairs sound met).1
      exact ⟨k, same.symm.trans spelled, own, spelled, met⟩
    · rintro ⟨k, spelled, own, named, met⟩
      rw [← get_of_mem_pairs sound met]
      exact get_congr sound (spelled.trans named.symm)

/-- A table whose keys are strings has the names that a traversal meets. -/
theorem reads_of_texts (plain : t.Plain)
    (texts : ∀ key, t.get alive key ≠ none → ∃ s, key = .text s) :
    ((t.pairs alive).map fun pair => nameOf pair.1).Nodup ∧
      t.Reads (naming ((t.pairs alive).map fun pair => (nameOf pair.1, pair.2))) := by
  have sound := plain.sound
  have named : ∀ pair ∈ t.pairs alive, pair.1.toKey? = some (.text (nameOf pair.1)) := by
    rintro ⟨k, v⟩ met
    obtain ⟨s, rfl⟩ := texts k (Option.ne_none_iff_exists'.mpr ⟨v, get_of_mem_pairs sound met⟩)
    rfl
  constructor
  · have distinct := nodup_toKey? sound alive
    rw [List.map_congr_left named] at distinct
    exact .of_map (fun name => some (Key.text name)) (by rwa [List.map_map])
  · refine plain.reads alive (.of_eq ?_)
    rw [naming, List.map_map, List.map_map]
    exact List.map_congr_left fun pair met => congrArg (·, pair.2) (named pair met)

end Table

end HybridTable
