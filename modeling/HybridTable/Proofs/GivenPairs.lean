import Mathlib.Data.List.Find
import HybridTable.Proofs.Construction
import HybridTable.Proofs.Sizing

/-! What a table constructor makes of named and positional values. Names may repeat, may be spelled
in different ways, and may be those of positions; the last named value counts, and a position only
if no named value takes its key. The regions are made as large as the lists of values ask for, and
since every new key finds a bucket, they are that large at the end. -/
namespace HybridTable

open Table

/-- The value of the last named pair that has a value and whose key is equal to a key. -/
def lastNamed? (named : List (Value × Value)) (key : Value) : Option Value :=
  (named.reverse.find? fun (own, value) => !value.isNil && own.rawEqual key).map Prod.snd

/-- The value at the position that a key is, unless that is `nil`. -/
def valueAt? (values : List Value) : Key → Option Value
  | .int i => if 1 ≤ i.toInt then values[i.toInt.toNat - 1]?.filter fun v => !v.isNil else none
  | _ => none

/-- The value that a constructor is given for a key. -/
def given? (named : List (Value × Value)) (positional : List Value) (key : Value) : Option Value :=
  (lastNamed? named key).or (key.toKey?.bind (valueAt? positional))

/-- Being the least power of two that is large enough. -/
def IsLeastPower (enough p : Nat) : Prop := IsLeast {p | ∃ bits, p = 2 ^ bits ∧ enough ≤ p} p

/-- What stops a value from being a key. -/
theorem Value.toKey?_eq_none {key : Value} :
    key.toKey? = none ↔ key = .nil ∨ ∃ x, key = .float x ∧ x.isNaN = true := by
  rw [key.toKey?_eq_none_iff]
  cases key <;> simp [keyDefect?]

namespace Contents

/-- Of pairs that are written one after another, the last one under a key counts. -/
theorem lookup_foldl_record {pairs : List (Value × Value)} (valued : ∀ p ∈ pairs, p.2 ≠ .nil)
    (m : Contents) (k : Key) :
    (pairs.foldl (fun m (key, value) => Change.record m (.set key value)) m).lookup k =
      ((pairs.reverse.find? fun p => p.1.toKey? = some k).map Prod.snd).or (m.lookup k) := by
  induction pairs using List.reverseRecOn with
  | nil => rfl
  | append_singleton earlier last ih =>
    obtain ⟨key, value⟩ := last
    have before := ih fun p member => valued p (List.mem_append_left _ member)
    have some_value : value ≠ .nil := valued (key, value) (by simp)
    rw [List.foldl_append, List.reverse_append, List.reverse_singleton, List.singleton_append,
      List.find?_cons, List.foldl_cons, List.foldl_nil]
    generalize earlier.foldl (fun m (key, value) => Change.record m (.set key value)) m = now at *
    cases named : key.toKey? with
    | none => simpa [Change.record, named] using before
    | some own =>
      by_cases same : own = k
      · subst same
        simp [Change.record, named, lookup_write_same, some_value]
      · simp [Change.record, named, lookup_write_other _ value (Ne.symm same), before, same]

theorem ofSequence_concat (values : List Value) (v : Value) : ofSequence (values ++ [v]) =
    if v = .nil then ofSequence values
    else (ofSequence values).write (.int (Int64.ofNat (values.length + 1))) v := by
  unfold ofSequence
  rw [List.zipIdx_append, List.foldl_append]
  simp

/-- Positional values are found under the integers that are their positions. -/
theorem lookup_ofSequence {values : List Value} (short : values.length < 2 ^ 63) (k : Key) :
    (ofSequence values).lookup k = valueAt? values k := by
  induction values using List.reverseRecOn with
  | nil => cases k <;> simp [ofSequence, valueAt?]
  | append_singleton earlier v ih =>
    rw [List.length_append, List.length_singleton] at short
    have before := ih (by omega)
    have number : (Int64.ofNat (earlier.length + 1)).toInt = earlier.length + 1 :=
      toInt_ofNat_succ (Nat.lt_succ_self _) short
    rw [ofSequence_concat]
    by_cases last : k = .int (Int64.ofNat (earlier.length + 1))
    · subst last
      have unused : valueAt? earlier (.int (Int64.ofNat (earlier.length + 1))) = none := by
        simp only [valueAt?, number]
        rw [if_pos (by omega), List.getElem?_eq_none (by omega)]
        rfl
      have own : valueAt? (earlier ++ [v]) (.int (Int64.ofNat (earlier.length + 1))) =
          if v = .nil then none else some v := by
        simp only [valueAt?, number]
        rw [if_pos (by omega),
          show ((earlier.length : Int) + 1).toNat - 1 = earlier.length by omega,
          List.getElem?_concat_length]
        cases v <;> rfl
      rw [own]
      split
      · rw [before, unused]
      · rename_i some_value
        rw [lookup_write_same, if_neg some_value]
    · have other : valueAt? (earlier ++ [v]) k = valueAt? earlier k := by
        cases k with
        | int i =>
          have apart : i.toInt ≠ earlier.length + 1 := fun same =>
            last (congrArg Key.int (Int64.toInt_inj.mp (same.trans number.symm)))
          simp only [valueAt?]
          split
          · rw [List.getElem?_append]
            split
            · rfl
            · rw [List.getElem?_eq_none (by rw [List.length_singleton]; omega),
                List.getElem?_eq_none (by omega)]
          · rfl
        | _ => rfl
      rw [other, ← before]
      split
      · rfl
      · exact lookup_write_other _ v last

end Contents

namespace Table

variable [Hashing] {t t' : Table}

/-- Pairs that are stored one after another are refused when a key is invalid, and not before. -/
theorem exists_foldlM_set_iff {pairs : List (Value × Value)} :
    (∃ t', pairs.foldlM (fun t (key, value) => t.set nothingReclaimed key value) t = .ok t') ↔
      ∀ p ∈ pairs, p.1.toKey? ≠ none := by
  refine ⟨fun ⟨t', stored⟩ => ?_, fun named => foldlM_set_eq_ok named t⟩
  clear * - stored
  induction pairs generalizing t with
  | nil => exact List.forall_mem_nil _
  | cons first rest ih =>
    obtain ⟨key, value⟩ := first
    rw [List.foldlM_cons] at stored
    dsimp only at stored
    cases named : key.toKey? with
    | none =>
      obtain ⟨defect, -, refused⟩ := set_of_invalid nothingReclaimed t value named
      rw [refused] at stored
      cases stored
    | some k =>
      rw [set_of_named named] at stored
      exact List.forall_mem_cons.mpr ⟨by simp [named], ih stored⟩

/-- While there is a bucket for each of the pairs, storing them moves nothing. -/
theorem unmoved_foldlM_set {pairs : List (Value × Value)}
    (room : t.count + pairs.length ≤ t.buckets.size)
    (stored : pairs.foldlM (fun t (key, value) => t.set nothingReclaimed key value) t = .ok t') :
    t'.capacities = t.capacities := by
  induction pairs generalizing t with
  | nil =>
    cases stored
    rfl
  | cons first rest ih =>
    obtain ⟨key, value⟩ := first
    obtain ⟨k, named⟩ : ∃ k, key.toKey? = some k := Option.ne_none_iff_exists'.mp
      (exists_foldlM_set_iff.mp ⟨t', stored⟩ (key, value) List.mem_cons_self)
    rw [List.length_cons] at room
    rw [List.foldlM_cons] at stored
    dsimp only at stored
    rw [set_of_named named] at stored
    obtain ⟨arraySize, hashSize, count⟩ : Unmoved t (t.put nothingReclaimed key value) :=
      unmoved_put (by omega)
    exact (ih (by omega) stored).trans (Prod.ext arraySize hashSize)

omit [Hashing] in
/-- Among pairs with valid keys, those for a key are those whose key is equal to it. -/
theorem lastNamed?_eq {named : List (Value × Value)}
    (valid : ∀ p ∈ named.filter (fun (_, value) => !value.isNil), p.1.toKey? ≠ none)
    (key : Value) : lastNamed? named key = key.toKey?.bind fun k =>
      ((named.filter fun (_, value) => !value.isNil).reverse.find? fun p =>
        p.1.toKey? = some k).map Prod.snd := by
  have among (p : Value × Value) (listed : p ∈ named.reverse) (valued : p.2.isNil = false) :
      p.1.rawEqual key = decide (p.1.toKey? = key.toKey?) := by
    have stored : p ∈ named.filter fun (_, value) => !value.isNil :=
      List.mem_filter.mpr ⟨List.mem_reverse.mp listed, by simp [valued]⟩
    obtain ⟨own, spelled⟩ := Option.ne_none_iff_exists'.mp (valid p stored)
    rw [Bool.eq_iff_iff, decide_eq_true_iff, spelled, eq_comm (a := some own)]
    exact Value.rawEqual_iff spelled
  unfold lastNamed?
  rw [← List.filter_reverse]
  cases spelled : key.toKey? with
  | none =>
    rw [Option.bind_none, Option.map_eq_none_iff, List.find?_eq_none]
    rintro ⟨own, value⟩ listed same
    obtain ⟨valued, equal⟩ : value.isNil = false ∧ own.rawEqual key = true := by simpa using same
    have stored : (own, value) ∈ named.filter fun (_, value) => !value.isNil :=
      List.mem_filter.mpr ⟨List.mem_reverse.mp listed, by simp [valued]⟩
    rw [among (own, value) listed valued, spelled, decide_eq_true_iff] at equal
    exact valid (own, value) stored equal
  | some k =>
    rw [Option.bind_some, List.find?_filter]
    congr 1
    refine List.find?_congr fun p listed => ?_
    cases valued : p.2.isNil with
    | true => simp [valued]
    | false => simp [valued, among p listed valued, spelled]

/-- A constructor makes a table when every value has a valid key. -/
theorem exists_ofParts_iff {named : List (Value × Value)} {positional : List Value} :
    (∃ t, ofParts named positional = .ok t) ↔
      ∀ p ∈ named.filter (fun (_, value) => !value.isNil), p.1.toKey? ≠ none :=
  exists_foldlM_set_iff

theorem exists_ofParts_error_iff {named : List (Value × Value)} {positional : List Value} :
    (∃ e, ofParts named positional = .error e) ↔ ∃ key value, (key, value) ∈ named ∧
      value ≠ .nil ∧ (key = .nil ∨ ∃ x, key = .float x ∧ x.isNaN = true) := by
  have refused : (∃ e, ofParts named positional = .error e) ↔
      ¬ ∃ t, ofParts named positional = .ok t := by
    cases ofParts named positional <;> simp
  rw [refused, exists_ofParts_iff]
  push Not
  constructor
  · rintro ⟨⟨key, value⟩, listed, invalid⟩
    obtain ⟨member, valued⟩ := List.mem_filter.mp listed
    refine ⟨key, value, member, ?_, Value.toKey?_eq_none.mp invalid⟩
    rintro rfl
    cases valued
  · rintro ⟨key, value, member, valued, invalid⟩
    have stored : value.isNil = false :=
      Bool.eq_false_iff.mpr fun none => valued (Value.isNil_iff.mp none)
    exact ⟨(key, value), List.mem_filter.mpr ⟨member, by simp [stored]⟩,
      Value.toKey?_eq_none.mpr invalid⟩

section
variable {named : List (Value × Value)} {positional : List Value}
  (short : positional.length ≤ maxArrayCapacity) (built : ofParts named positional = .ok t)
include short built

/-- What is read is what was given. -/
theorem get_of_ofParts (alive : Ref → Bool) (key : Value) :
    t.get alive key = given? named positional key := by
  have inside : (Origin.parts named positional).Bounded := arrayCapacityFor_le short
  have few : positional.length < 2 ^ 63 := Nat.lt_of_le_of_lt short (by decide)
  rw [(represents_build inside built).1.get_eq, given?,
    lastNamed?_eq (exists_ofParts_iff.mp ⟨t, built⟩)]
  cases key.toKey? with
  | none => rfl
  | some k =>
    have valued : ∀ p ∈ named.filter (fun (_, value) => !value.isNil), p.2 ≠ .nil := by
      rintro ⟨key, _⟩ listed rfl
      cases (List.mem_filter.mp listed).2
    simp only [Option.bind_some]
    rw [← Contents.lookup_ofSequence few]
    exact Contents.lookup_foldl_record valued _ k

/-- The regions have the sizes with which they were made. -/
theorem capacities_of_ofParts : t.capacities = (arrayCapacityFor positional.length,
    hashCapacityFor (named.countP fun p => !p.2.isNil)) := by
  obtain ⟨-, arrays, buckets, count⟩ := represents_ofSequence
    (named.filter fun (_, value) => !value.isNil).length (arrayCapacityFor_le short)
  have kept : t.capacities = _ := unmoved_foldlM_set
    (by rw [count, buckets, Nat.zero_add]; exact le_hashCapacityFor _) built
  rw [kept, List.countP_eq_length_filter]
  exact Prod.ext arrays buckets

end

/-- A constructor refuses a value under what cannot be a key, and nothing else. The table that it
makes has what it is given: under each key the value of the last named pair that has one, or else
that at the position. It has the least regions in which all the values have their places, as no
pair was moved on the way. -/
theorem ofParts_stores_given (named : List (Value × Value)) {positional : List Value}
    (short : positional.length ≤ 2 ^ 30) :
    ((∃ e, ofParts named positional = .error e) ↔ ∃ key value, (key, value) ∈ named ∧
        value ≠ .nil ∧ (key = .nil ∨ ∃ x, key = .float x ∧ x.isNaN = true)) ∧
      ∀ t, ofParts named positional = .ok t →
        (∀ alive key, t.get alive key = given? named positional key) ∧
        (if positional.length = 0 then t.arrayCapacity = 0
          else IsLeastPower positional.length t.arrayCapacity) ∧
        let stored := named.countP fun p => !p.2.isNil
        if stored = 0 then t.hashCapacity = 0 else IsLeastPower (max 2 stored) t.hashCapacity := by
  refine ⟨exists_ofParts_error_iff, fun t built => ?_⟩
  obtain ⟨array, hash⟩ := Prod.mk.inj (capacities_of_ofParts short built)
  refine ⟨get_of_ofParts short built, ?_, ?_⟩
  · rw [array, arrayCapacityFor]
    split
    · rfl
    · exact isLeast_ceilPowerOfTwo _
  · dsimp only
    rw [hash, hashCapacityFor]
    split
    · rfl
    · rw [max_comm]
      exact isLeast_ceilPowerOfTwo _

omit [Hashing] in
/-- A position and two pairs, one of them under a float, are for one key, and the last pair counts.
A pair without a value is skipped although its key is invalid. -/
theorem ofParts_of_overlapping_pairs :
    let named : List (Value × Value) := [(.float ⟨0x4000000000000000⟩, .int 20), (.nil, .nil),
      (.text (.short "a"), .bool true), (.int 2, .int 21), (.int 7, .int 70)]
    let positional : List Value := [.int 10, .int 15, .int 30]
    positional.length ≤ 2 ^ 30 ∧ ∃ t, @ofParts .uniform named positional = .ok t ∧
      (∀ alive, @get .uniform t alive (.int 2) = some (.int 21) ∧
        @get .uniform t alive (.float ⟨0x4008000000000000⟩) = some (.int 30) ∧
        @get .uniform t alive (.int 4) = none) ∧
      IsLeastPower 3 t.arrayCapacity ∧ IsLeastPower 4 t.hashCapacity ∧
      ∃ e, @ofParts .uniform [(.nil, .int 0)] positional = .error e := by
  intro named positional
  have short : positional.length ≤ 2 ^ 30 := by decide
  obtain ⟨t, built⟩ : ∃ t, @ofParts .uniform named positional = .ok t :=
    (@exists_ofParts_iff .uniform ..).mpr (by decide +kernel)
  obtain ⟨reads, array, hash⟩ := (@ofParts_stores_given .uniform named positional short).2 t built
  refine ⟨short, t, built, fun alive => ?_, array, hash, ?_⟩
  · simp only [reads]
    decide +kernel
  · exact (@ofParts_stores_given .uniform _ _ short).1.mpr
      ⟨.nil, .int 0, by simp, nofun, .inl rfl⟩

end Table

end HybridTable
