import Mathlib.Data.Nat.Log
import HybridTable.Proofs.ArrayLimit

/-! How often a table is resized while it grows. An array region grows only with the integer keys,
and a rehash that leaves it as it is makes the hash region larger, since there was no bucket left.
So the exponents of the two capacities, read as a number of two digits, go up with every rehash.
Both digits are small because the capacities are at most twice the number of keys. -/
namespace HybridTable

/-- Being an integer. -/
def Key.isInteger : Key → Bool
  | .int _ => true
  | _ => false

/-- Being a write of a value other than `nil`. -/
def Change.IsStore : Change → Prop
  | .set _ value => value ≠ .nil
  | .setInt _ value => value ≠ .nil
  | _ => False

theorem Change.IsStore.isWrite {c : Change} (store : c.IsStore) : c.IsWrite := by
  cases c with
  | set | setInt => trivial
  | presize | attach => exact store

/-! ## Capacities and their exponents -/

/-- Being a number that regions can have as their capacity. -/
def IsCapacity (n : Nat) : Prop := n = 0 ∨ ∃ bits, n = 2 ^ (bits + 1)

/-- The greater of two capacities has the greater exponent, nothing having the exponent zero. -/
theorem IsCapacity.log_lt_log {m n : Nat} (first : IsCapacity m) (second : IsCapacity n)
    (less : m < n) : Nat.log 2 m < Nat.log 2 n := by
  rcases second with rfl | ⟨bits, rfl⟩
  · omega
  rw [Nat.log_pow (by decide)]
  rcases first with rfl | ⟨fewer, rfl⟩
  · rw [Nat.log_zero_right]
    omega
  · rw [Nat.log_pow (by decide)]
    exact (Nat.pow_lt_pow_iff_right (by decide)).mp less

theorem hashCapacityFor_mono {m n : Nat} (more : m ≤ n) :
    hashCapacityFor m ≤ hashCapacityFor n := by
  unfold hashCapacityFor
  split
  · exact Nat.zero_le _
  · rw [if_neg (by omega)]
    -- a power of two that is enough for more is enough for fewer
    have fewer := isLeast_ceilPowerOfTwo (max m minHashCapacity)
    obtain ⟨⟨bits, power, enough⟩, -⟩ := isLeast_ceilPowerOfTwo (max n minHashCapacity)
    exact fewer.2 ⟨bits, power, Nat.le_trans (by omega) enough⟩

theorem hashCapacityFor_le (n : Nat) : hashCapacityFor n ≤ 2 ^ (Nat.clog 2 n + 1) := by
  unfold hashCapacityFor
  split
  · exact Nat.zero_le _
  · refine (isLeast_ceilPowerOfTwo _).2 ⟨_, rfl, ?_⟩
    have enough := Nat.le_pow_clog (show 1 < 2 by decide) n
    have positive := Nat.one_le_two_pow (n := Nat.clog 2 n)
    have two : minHashCapacity = 2 := rfl
    rw [Nat.pow_succ]
    omega

section
variable {keys more : Finset Key}

theorem countInside_mono (part : keys ⊆ more) (limit : Nat) :
    countInside keys limit ≤ countInside more limit :=
  Finset.card_le_card (Finset.filter_subset_filter _ part)

theorem countInside_le (keys : Finset Key) (limit : Nat) :
    countInside keys limit ≤ (keys.filter fun k => k.isInteger).card := by
  refine Finset.card_le_card (Finset.monotone_filter_right keys fun k _ inside => ?_)
  cases k with
  | int i => rfl
  | _ => cases inside

theorem isCapacity_idealArray (keys : Finset Key) : IsCapacity (idealArray keys) := by
  unfold idealArray
  split
  · exact .inl rfl
  · exact .inr ⟨_, rfl⟩

/-- More keys never ask for a smaller array region. -/
theorem idealArray_mono (part : keys ⊆ more) : idealArray keys ≤ idealArray more := by
  have exponents :
      Nat.findGreatest (fun bits => 2 ^ bits ≤ 2 * countInside keys (min (2 ^ bits) maxArrayKey))
          maxArrayBits ≤
        Nat.findGreatest (fun bits => 2 ^ bits ≤ 2 * countInside more (min (2 ^ bits) maxArrayKey))
          maxArrayBits := by
    refine Nat.findGreatest_mono_left (fun bits half => ?_) maxArrayBits
    exact Nat.le_trans half (Nat.mul_le_mul_left 2 (countInside_mono part _))
  unfold idealArray
  split
  · exact Nat.zero_le _
  · split
    · omega
    · exact Nat.pow_le_pow_right (by decide) (by omega)

/-- Half of an array region is used. -/
theorem idealArray_le_integers (keys : Finset Key) :
    idealArray keys ≤ 2 * (keys.filter fun k => k.isInteger).card := by
  unfold idealArray
  split
  · exact Nat.zero_le _
  · rename_i bits found
    have half := Nat.findGreatest_of_ne_zero found (Nat.succ_ne_zero bits)
    exact Nat.le_trans half (Nat.mul_le_mul_left 2 (countInside_le keys _))

end

/-! ## The machine of shapes -/

namespace Shape

variable {s : Shape} {k : Key} {value : Value} {c : Change}

/-- What holds of a shape while keys are only added. -/
structure Growing (s : Shape) : Prop where
  /-- The array region is zero or a power of two. -/
  array : IsCapacity s.array
  /-- So is the hash region. -/
  hash : IsCapacity s.hash
  /-- The array region is not larger than the keys ask for. -/
  arraySize : s.array ≤ idealArray s.present
  /-- The hash region is not larger than if no key had a position. -/
  hashSize : s.hash ≤ hashCapacityFor s.present.card

theorem growing_empty : (⟨0, 0, ∅⟩ : Shape).Growing :=
  ⟨.inl rfl, .inl rfl, Nat.zero_le _, Nat.zero_le _⟩

/-- The two capacities. -/
def sizes (s : Shape) : Nat × Nat := (s.array, s.hash)

/-- The two exponents as a number, each digit of which is below `base`. -/
def rank (base : Nat) (s : Shape) : Nat := Nat.log 2 s.array * base + Nat.log 2 s.hash

/-- Either a larger array region or, with the same array region, a larger hash region. -/
def Larger (s s' : Shape) : Prop :=
  s.array < s'.array ∨ s.array = s'.array ∧ s.hash < s'.hash

/-- What a write of a value does to a shape. -/
structure Grows (s s' : Shape) : Prop where
  /-- The new shape is as the keys ask for. -/
  growing : s'.Growing
  /-- There is one more key at most. -/
  present : s'.present.card ≤ s.present.card + 1
  /-- The capacities are the same or larger. -/
  sizes : s'.sizes = s.sizes ∨ s.Larger s'

/-- A new pair leaves the capacities alone or makes them larger. -/
theorem Growing.store (growing : s.Growing) (k : Key) (stored : value ≠ .nil) :
    s.Grows (s.store k value) := by
  have present := s.present_store k value
  rw [if_neg stored] at present
  have part : s.present ⊆ (s.store k value).present := present ▸ Finset.subset_insert k s.present
  have more : (s.store k value).present.card ≤ s.present.card + 1 :=
    present ▸ Finset.card_insert_le k s.present
  have ideal := Nat.le_trans growing.arraySize (idealArray_mono part)
  by_cases kept : k ∈ s.present ∨ k.within s.array = true ∨ s.count < s.hash
  · obtain ⟨keys, same⟩ := s.store_kept k value (.inr kept)
    rw [same] at part more ideal ⊢
    have size := Nat.le_trans growing.hashSize (hashCapacityFor_mono (Finset.card_le_card part))
    exact ⟨⟨growing.array, growing.hash, ideal, size⟩, more, .inl rfl⟩
  · simp only [not_or, Bool.not_eq_true, Nat.not_lt] at kept
    obtain ⟨fresh, unplaced, full⟩ := kept
    rw [store_grown stored fresh unplaced full] at more ideal ⊢
    refine ⟨⟨isCapacity_idealArray _, hashCapacityFor_eq _, Nat.le_refl _, ?_⟩, more, .inr ?_⟩
    · exact hashCapacityFor_mono (Finset.card_filter_le ..)
    · rcases Nat.lt_or_eq_of_le ideal with less | same
      · exact .inl less
      · -- all buckets are taken, and the new key has no position in the same array region
        refine .inr ⟨same, ?_⟩
        dsimp only at same ⊢
        have enough := le_hashCapacityFor (countOutside (insert k s.present) s.array)
        rw [← same]
        rw [countOutside_insert fresh, unplaced] at enough ⊢
        exact Nat.lt_of_lt_of_le (Nat.lt_succ_of_le full) enough

/-- So does every write of a value, one that is refused included. -/
theorem Growing.record (growing : s.Growing) (store : c.IsStore) : s.Grows (s.record c) := by
  cases c with
  | set key value =>
    cases named : key.toKey? with
    | none =>
      simp only [Shape.record, named]
      exact ⟨growing, Nat.le_succ _, .inl rfl⟩
    | some k =>
      simp only [Shape.record, named]
      exact growing.store k store
  | setInt i value => exact growing.store (.int i) store
  | presize | attach => exact store.elim

/-- A run adds at most as many keys as it has steps. -/
theorem Growing.after {changes : List Change} (growing : s.Growing)
    (stores : ∀ c ∈ changes, c.IsStore) : (s.after changes).Growing ∧
      (s.after changes).present.card ≤ s.present.card + changes.length := by
  induction changes generalizing s with
  | nil => exact ⟨growing, Nat.le_refl _⟩
  | cons c rest ih =>
    have first := growing.record (stores c List.mem_cons_self)
    obtain ⟨final, count⟩ := ih first.growing fun c member =>
      stores c (List.mem_cons_of_mem _ member)
    refine ⟨final, count.trans ?_⟩
    have more := first.present
    rw [List.length_cons]
    omega

/-- A change of the capacities makes the rank go up, if the digits are small. -/
theorem Larger.rank_lt {s' : Shape} {base : Nat} (larger : s.Larger s') (growing : s.Growing)
    (growing' : s'.Growing) (small : Nat.log 2 s.hash < base) : s.rank base < s'.rank base := by
  unfold rank
  rcases larger with array | ⟨array, hash⟩
  · have digit := growing.array.log_lt_log growing'.array array
    have next := Nat.mul_le_mul_right base (Nat.succ_le_of_lt digit)
    rw [Nat.succ_mul] at next
    omega
  · have digit := growing.hash.log_lt_log growing'.hash hash
    rw [array]
    omega

theorem Growing.array_le_integers (growing : s.Growing) :
    s.array ≤ 2 * (s.present.filter fun k => k.isInteger).card :=
  Nat.le_trans growing.arraySize (idealArray_le_integers s.present)

/-- Both exponents are small if there are few keys. -/
theorem Growing.exponents (growing : s.Growing) {n : Nat} (few : s.present.card ≤ n) :
    Nat.log 2 s.array ≤ Nat.clog 2 n + 1 ∧ Nat.log 2 s.hash ≤ Nat.clog 2 n + 1 := by
  have exponent {m : Nat} (small : m ≤ 2 ^ (Nat.clog 2 n + 1)) :
      Nat.log 2 m ≤ Nat.clog 2 n + 1 := by
    have below := Nat.log_mono_right (b := 2) small
    rwa [Nat.log_pow (by decide)] at below
  constructor
  · apply exponent
    have part := Finset.card_filter_le s.present fun k => k.isInteger
    have enough := Nat.le_pow_clog (show 1 < 2 by decide) n
    have half := growing.array_le_integers
    rw [Nat.pow_succ]
    omega
  · apply exponent
    exact (growing.hashSize.trans (hashCapacityFor_mono few)).trans (hashCapacityFor_le n)

end Shape

/-- Something that goes up with every change bounds the number of changes. -/
theorem card_changes_le {α : Type} [DecidableEq α] (f : Nat → α) (rank : Nat → Nat) {n : Nat}
    (steps : ∀ i < n, f (i + 1) = f i ∧ rank i ≤ rank (i + 1) ∨ rank i < rank (i + 1)) :
    ((Finset.range n).filter fun i => f (i + 1) ≠ f i).card + rank 0 ≤ rank n := by
  induction n with
  | zero => simp
  | succ n ih =>
    have before := ih fun i inside => steps i (Nat.lt_succ_of_lt inside)
    rw [Finset.range_add_one, Finset.filter_insert]
    rcases steps n (Nat.lt_succ_self n) with ⟨same, up⟩ | up
    · rw [if_neg (not_not_intro same)]
      omega
    · have one := Finset.card_insert_le n ((Finset.range n).filter fun i => f (i + 1) ≠ f i)
      split <;> omega

namespace Table

variable [Hashing] {steps : List (Liveness × Change)}

/-- The shape after so many steps from the empty table. -/
def emptyShape (steps : List (Liveness × Change)) (n : Nat) : Shape :=
  (⟨0, 0, ∅⟩ : Shape).after ((steps.take n).map Prod.snd)

section
variable (stores : ∀ step ∈ steps, step.2.IsStore)
include stores

omit [Hashing] in
theorem growing_emptyShape (n : Nat) :
    (emptyShape steps n).Growing ∧ (emptyShape steps n).present.card ≤ steps.length := by
  have along : ∀ c ∈ (steps.take n).map Prod.snd, c.IsStore := by
    intro c listed
    obtain ⟨step, member, rfl⟩ := List.mem_map.mp listed
    exact stores step (List.mem_of_mem_take member)
  obtain ⟨growing, few⟩ := Shape.growing_empty.after along
  rw [List.length_map, List.length_take, Finset.card_empty] at few
  exact ⟨growing, by unfold emptyShape; omega⟩

omit [Hashing] in
theorem grows_emptyShape {n : Nat} (inside : n < steps.length) :
    (emptyShape steps n).Grows (emptyShape steps (n + 1)) := by
  have next : emptyShape steps (n + 1) = (emptyShape steps n).record steps[n].2 := by
    unfold emptyShape Shape.after
    rw [List.take_add_one, List.getElem?_eq_getElem inside, List.map_append, List.foldl_append]
    rfl
  rw [next]
  exact (growing_emptyShape stores n).1.record (stores _ (List.getElem_mem inside))

/-- So few steps leave the table with the capacities of the machine. -/
theorem shaped_emptyShape (few : steps.length < 2 ^ 30) (n : Nat) :
    (Table.empty.after (steps.take n)).Shaped (emptyShape steps n) := by
  have inside : Origin.empty.Bounded := by decide
  have start : Table.empty.Shaped ⟨0, 0, ∅⟩ := shaped_build inside rfl rfl
  refine start.after (fun step member => (stores step (List.mem_of_mem_take member)).isWrite)
    fun done begun => ?_
  -- every part of the run is the run of so many steps
  have within := begun.length_le
  have short : done = (steps.take done.length).map Prod.snd := by
    rw [List.map_take] at begun ⊢
    exact List.prefix_iff_eq_take.mp (begun.trans (List.take_prefix ..))
  obtain ⟨growing, count⟩ := growing_emptyShape stores done.length
  rw [short]
  refine growing.arraySize.trans (idealArray_le ?_)
  exact Nat.lt_of_le_of_lt (Finset.card_filter_le ..) (Nat.lt_of_le_of_lt count few)

end

theorem Shaped.liveKeys_eq {t : Table} {s : Shape} (shaped : t.Shaped s) (alive : Ref → Bool) :
    t.liveKeys alive = s.present := by
  ext k
  rw [holds_liveKeys shaped.sound shaped.strong alive k, shaped.holds k]

/-- While values are stored in an empty table, its capacities change a number of times that is
quadratic in the number of digits of the number of writes, whatever the keys are and in whatever
order they come. The array region never shrinks, and at least half of it is used. -/
theorem growth_is_logarithmic (stores : ∀ step ∈ steps, step.2.IsStore)
    (few : steps.length < 2 ^ 30) :
    let now (n : Nat) := Table.empty.after (steps.take n)
    ((Finset.range steps.length).filter
          fun n => (now (n + 1)).capacities ≠ (now n).capacities).card ≤
        (Nat.clog 2 steps.length + 2) ^ 2 ∧
      (∀ m n, m ≤ n → (now m).arrayCapacity ≤ (now n).arrayCapacity) ∧
      ∀ n alive, (now n).arrayCapacity ≤
        2 * (((now n).liveKeys alive).filter fun k => k.isInteger).card := by
  intro now
  have shaped (n : Nat) : (now n).Shaped (emptyShape steps n) := shaped_emptyShape stores few n
  have growing (n : Nat) := (growing_emptyShape stores n).1
  have grows {n : Nat} (inside : n < steps.length) := grows_emptyShape stores inside
  have digits (n : Nat) := (growing n).exponents (growing_emptyShape stores n).2
  refine ⟨?_, fun m n later => ?_, fun n alive => ?_⟩
  · let base := Nat.clog 2 steps.length + 2
    have changes := card_changes_le (fun n => (now n).capacities)
      (fun n => (emptyShape steps n).rank base) (n := steps.length) fun n inside => by
        rcases (grows inside).sizes with same | larger
        · refine .inl ⟨?_, ?_⟩
          · exact (shaped (n + 1)).capacities_eq.trans (same.trans (shaped n).capacities_eq.symm)
          · obtain ⟨array, hash⟩ := Prod.mk.inj same
            rw [Shape.rank, Shape.rank, array, hash]
        · exact .inr (larger.rank_lt (growing n) (growing (n + 1))
            (Nat.lt_succ_of_le (digits n).2))
    obtain ⟨array, hash⟩ := digits steps.length
    calc _ ≤ (emptyShape steps steps.length).rank base := Nat.le_of_add_right_le changes
      _ ≤ (Nat.clog 2 steps.length + 1) * base + (Nat.clog 2 steps.length + 1) :=
        Nat.add_le_add (Nat.mul_le_mul_right base array) hash
      _ ≤ (Nat.clog 2 steps.length + 2) ^ 2 := by
        rw [Nat.pow_two]
        simp only [base, Nat.add_mul, Nat.mul_add]
        omega
  · refine Nat.le_induction (Nat.le_refl _) (fun n _ ih => ih.trans ?_) n later
    rw [(shaped n).arraySize, (shaped (n + 1)).arraySize]
    by_cases inside : n < steps.length
    · rcases (grows inside).sizes with same | larger
      · exact (Prod.mk.inj same).1.ge
      · exact larger.elim Nat.le_of_lt fun same => same.1.le
    · rw [emptyShape, emptyShape, List.take_of_length_le (by omega),
        List.take_of_length_le (by omega)]
  · rw [(shaped n).arraySize, (shaped n).liveKeys_eq]
    exact (growing n).array_le_integers

omit [Hashing] in
/-- Integers pile up in the hash region until an array region takes them, which makes the hash
region smaller for a while. -/
theorem growth_of_mixed_keys :
    let steps : List (Liveness × Change) := [
      (nothingReclaimed, .setInt 3 (.int 30)),
      (nothingReclaimed, .set (.text (.short "a")) (.bool true)),
      (nothingReclaimed, .set (.float ⟨0x4004000000000000⟩) (.table 5)),
      (nothingReclaimed, .setInt 1 (.int 10)),
      (nothingReclaimed, .set (.float ⟨0x4010000000000000⟩) (.int 40)),
      (nothingReclaimed, .set (.text (.short "b")) (.bool true)),
      (nothingReclaimed, .setInt 2 (.int 20))]
    let now (n : Nat) := @after .uniform .empty (steps.take n)
    (∀ step ∈ steps, step.2.IsStore) ∧ steps.length < 2 ^ 30 ∧
      (List.range 8).map (fun n => (now n).capacities) =
        [(0, 0), (0, 2), (0, 2), (0, 4), (0, 4), (4, 2), (4, 4), (4, 4)] ∧
      ((Finset.range 7).filter fun n => (now (n + 1)).capacities ≠ (now n).capacities).card ≤ 25 ∧
      (now 4).arrayCapacity ≤ (now 6).arrayCapacity := by
  intro steps now
  have stores : ∀ step ∈ steps, step.2.IsStore := by simp [steps, Change.IsStore]
  have few : steps.length < 2 ^ 30 := by decide
  obtain ⟨changes, larger, -⟩ := @growth_is_logarithmic .uniform steps stores few
  have digits : Nat.clog 2 steps.length ≤ 3 := Nat.clog_le_of_le_pow (by decide)
  have few_changes := changes.trans (Nat.pow_le_pow_left (Nat.add_le_add_right digits 2) 2)
  exact ⟨stores, few, by decide +kernel, few_changes, larger 4 6 (by decide)⟩

end Table

end HybridTable
