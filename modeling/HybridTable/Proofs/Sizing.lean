import Mathlib.Order.Bounds.Basic
import HybridTable.Proofs.Capacities
import HybridTable.Proofs.Listing
import HybridTable.Proofs.Reachable

/-! The sizes that a rehash chooses. `Optimal` says what the best sizes for a set of keys are without
saying how to find them: the array region is the largest of which half the positions are used, the
hash region the smallest with room for the rest. A rehash counts what it finds in the storage at its
moment; that this is the set of the keys that can be read then, with the key that waits to be
stored, makes its choice the best one. Nothing that was reclaimed takes any room. -/
namespace HybridTable

/-- The keys that can have a position at all. -/
def arrayKeys (keys : Finset Key) : Finset Key := keys.filter fun k => k.within maxArrayKey

/-- At least half of the positions up to `n` would be used. -/
def HalfUsed (keys : Finset Key) (n : Nat) : Prop := n / 2 ≤ countInside (arrayKeys keys) n

/-- The best capacities for a set of keys. -/
structure Optimal (keys : Finset Key) (capacities : Nat × Nat) : Prop where
  /-- The array region is the largest power of two from 2 on of which half would be used, if there
  is one. -/
  array : (capacities.1 = 0 ∧ ∀ bits, ¬ HalfUsed keys (2 ^ (bits + 1))) ∨
    IsGreatest {n | ∃ bits, n = 2 ^ (bits + 1) ∧ HalfUsed keys n} capacities.1
  /-- The hash region is the smallest power of two from 2 on with a bucket for each of the other
  keys, if there are any. -/
  hash : (capacities.2 = 0 ∧ countOutside keys capacities.1 = 0) ∨
    countOutside keys capacities.1 ≠ 0 ∧
      IsLeast {n | ∃ bits, n = 2 ^ bits ∧ max 2 (countOutside keys capacities.1) ≤ n} capacities.2

/-! ## Powers of two -/

theorem isLeast_ceilPowerOfTwo (n : Nat) :
    IsLeast {p | ∃ bits, p = 2 ^ bits ∧ n ≤ p} (ceilPowerOfTwo n) := by
  obtain ⟨bits, power⟩ := ceilPowerOfTwo_eq n
  refine ⟨⟨bits, power, le_ceilPowerOfTwo n⟩, ?_⟩
  rintro p ⟨bits, rfl, enough⟩
  unfold ceilPowerOfTwo
  split
  · exact Nat.one_le_two_pow
  · have below : (n - 1).log2 < bits := (Nat.log2_lt (by omega)).mpr (by omega)
    exact Nat.pow_le_pow_right (by decide) below

/-- Searching for the greatest exponent finds the greatest power. -/
theorem isGreatest_findGreatest {suits : Nat → Prop} {p : Nat → Prop} [DecidablePred p] {n : Nat}
    (agree : ∀ bits, suits (2 ^ (bits + 1)) ↔ p (bits + 1))
    (inside : ∀ bits, suits (2 ^ (bits + 1)) → bits + 1 ≤ n) {size : Nat}
    (same : size = match Nat.findGreatest p n with
      | 0 => 0
      | bits + 1 => 2 ^ (bits + 1)) :
    (size = 0 ∧ ∀ bits, ¬ suits (2 ^ (bits + 1))) ∨
      IsGreatest {m | ∃ bits, m = 2 ^ (bits + 1) ∧ suits m} size := by
  subst same
  cases found : Nat.findGreatest p n with
  | zero =>
    refine .inl ⟨rfl, fun bits own => ?_⟩
    exact Nat.findGreatest_eq_zero_iff.mp found (Nat.succ_pos bits) (inside bits own)
      ((agree bits).mp own)
  | succ bits =>
    refine .inr ⟨⟨bits, rfl, (agree bits).mpr ?_⟩, ?_⟩
    · exact Nat.findGreatest_of_ne_zero found (Nat.succ_ne_zero bits)
    · rintro m ⟨more, rfl, own⟩
      have below := Nat.le_findGreatest (inside more own) ((agree more).mp own)
      exact Nat.pow_le_pow_right (by decide) (found ▸ below)

theorem countInside_arrayKeys (keys : Finset Key) (n : Nat) :
    countInside (arrayKeys keys) n = countInside keys (min n maxArrayKey) := by
  unfold countInside arrayKeys
  rw [Finset.filter_filter]
  congr 1
  refine Finset.filter_congr fun k _ => ?_
  cases k with
  | int i =>
    simp only [Key.within, decide_eq_true_eq]
    omega
  | _ => simp [Key.within]

theorem halfUsed_iff (keys : Finset Key) (bits : Nat) : HalfUsed keys (2 ^ (bits + 1)) ↔
    2 ^ (bits + 1) ≤ 2 * countInside keys (min (2 ^ (bits + 1)) maxArrayKey) := by
  rw [HalfUsed, countInside_arrayKeys, Nat.pow_succ]
  omega

section
variable {keys : Finset Key} (few : (arrayKeys keys).card < Table.maxArrayCapacity)
include few

/-- So few keys use half of small array regions only. -/
theorem HalfUsed.small {bits : Nat} (used : HalfUsed keys (2 ^ (bits + 1))) :
    bits + 1 < maxArrayBits := by
  have part : countInside (arrayKeys keys) (2 ^ (bits + 1)) ≤ (arrayKeys keys).card :=
    Finset.card_filter_le ..
  rw [HalfUsed, Nat.pow_succ, Nat.mul_div_cancel _ (by decide)] at used
  have below : 2 ^ bits < Table.maxArrayCapacity := Nat.lt_of_le_of_lt (Nat.le_trans used part) few
  have := (Nat.pow_lt_pow_iff_right (show 1 < 2 by decide)).mp below
  omega

theorem isGreatest_idealArray : (idealArray keys = 0 ∧ ∀ bits, ¬ HalfUsed keys (2 ^ (bits + 1))) ∨
    IsGreatest {n | ∃ bits, n = 2 ^ (bits + 1) ∧ HalfUsed keys n} (idealArray keys) := by
  exact isGreatest_findGreatest (halfUsed_iff keys)
    (fun _ used => Nat.le_of_lt (HalfUsed.small few used)) rfl

theorem idealArray_le : idealArray keys ≤ Table.maxArrayCapacity := by
  rcases isGreatest_idealArray few with ⟨none, _⟩ | ⟨⟨bits, power, used⟩, _⟩
  · rw [none]
    exact Nat.zero_le _
  · rw [power] at used ⊢
    have small := HalfUsed.small few used
    exact Nat.pow_le_pow_right (show 0 < 2 by decide) (Nat.le_sub_one_of_lt small)

/-- The sizes that the code computes are the best ones. -/
theorem optimal_ideal :
    Optimal keys (idealArray keys, hashCapacityFor (countOutside keys (idealArray keys))) := by
  refine ⟨isGreatest_idealArray few, ?_⟩
  unfold hashCapacityFor
  dsimp only
  split
  · rename_i none
    exact .inl ⟨rfl, none⟩
  · rename_i some_key
    refine .inr ⟨some_key, ?_⟩
    rw [max_comm]
    exact isLeast_ceilPowerOfTwo _

end

namespace Table

variable [Hashing] {t : Table} {live : Liveness} {alive : Ref → Bool} {key value : Value} {k : Key}

/-- The keys of a sound table under which something can be read. -/
theorem readable_liveKeys (sound : t.Sound) (alive : Ref → Bool) :
    t.Readable alive (t.liveKeys alive) := by
  intro k
  rw [mem_liveKeys_iff sound]
  constructor
  · rintro ⟨key, spelled, present⟩
    obtain ⟨v, read⟩ := Option.ne_none_iff_exists'.mp present
    obtain ⟨k', named, found⟩ := sound.get_eq_some_iff.mp read
    cases spelled.symm.trans named
    exact ⟨v, found⟩
  · rintro ⟨v, stored, spared⟩
    obtain ⟨key, _, spelled⟩ := exists_mem_outline stored
    have read : t.get alive key = some v :=
      sound.get_eq_some_iff.mpr ⟨k, spelled, stored, spared⟩
    exact ⟨key, spelled, read ▸ nofun⟩

/-- The sizes for what can be read and what is pending are the best ones. -/
theorem optimal_idealSizes (sound : t.Sound) (bounded : t.Bounded) {pending : Option Key}
    (fresh : ∀ k ∈ pending, k ∉ t.liveKeys alive)
    (few : (arrayKeys (withPending pending (t.liveKeys alive))).card < maxArrayCapacity) :
    Optimal (withPending pending (t.liveKeys alive)) (t.idealSizes alive (.of pending)) := by
  have reads := readable_liveKeys sound alive
  have array := idealSizes_fst reads sound fresh bounded
  have hash := idealSizes_snd reads sound fresh bounded (idealArray_le few)
  rw [show t.idealSizes alive (.of pending) = (_, _) from Prod.ext array hash]
  exact optimal_ideal few

/-- A write of a new key without a position goes on to find a bucket for it. -/
theorem put_of_absent (sound : t.Sound) (named : key.toKey? = some k) (stored : value ≠ .nil)
    (unplaced : ∀ i, key.normalize = .int i → t.position? i = none) (absent : ∀ v, ¬ t.Stores k v) :
    t.put live key value = (t.pruneChain (live.holding (key.refs ++ value.refs))
      (t.bucketOf key.normalize)).addHashed (live.holding (key.refs ++ value.refs)) key.normalize
        value := by
  have spelled : key.normalize.toKey? = some k := key.toKey?_normalize.trans named
  have hashed : t.put live key value = t.setHashed live key.normalize value := by
    unfold put
    split
    · rename_i i integer
      simp only [setInt, unplaced i integer, integer]
    · rfl
  rw [hashed, setHashed]
  dsimp only
  rw [if_neg fun none => stored (Value.isNil_iff.mp none), Value.refs_normalize]
  split
  · rename_i chain found
    obtain ⟨before, e, after, split, _, same, _⟩ := Chain.amend?_eq_some (sound.named _) found
    have member : .live e ∈ t.chain (t.bucketOf key.normalize) := by simp [split]
    exact absurd (.entry member (same.trans spelled)) (absent e.value)
  · rfl

/-- Every rehash chooses the best sizes for the keys that can be read at its moment. A write makes
one if its key is new, has no position, and finds as many entries as buckets after its chain was
swept; the new key counts as well. A change of the policy makes one in any case. -/
theorem rehash_is_optimal (reachable : t.Reachable) (lawful : live.Lawful) :
    (∀ key value k, key.toKey? = some k → value ≠ .nil →
      (∀ i, key.normalize = .int i → t.position? i = none) → (∀ v, ¬ t.Stores k v) →
      let writing := live.holding (key.refs ++ value.refs)
      let before := t.pruneChain writing (t.bucketOf key.normalize)
      let keys := withPending (some k) (before.liveKeys fun r => writing before.refs r)
      before.hashCapacity ≤ before.count → (arrayKeys keys).card < maxArrayCapacity →
        Optimal keys (t.put live key value).capacities) ∧
    ∀ metatable policy, policy ≠ t.policy →
      let keys := t.liveKeys fun r => live (t.governed metatable policy).refs r
      (arrayKeys keys).card < maxArrayCapacity →
        Optimal keys (t.attachMetatable live metatable policy).capacities := by
  obtain ⟨sound, bounded⟩ := reachable.sound_bounded
  constructor
  · intro key value k named stored unplaced absent writing before keys full few
    have fair : writing.Fair t.policy := (Liveness.Fair.holding (.inr lawful) _)
    obtain ⟨moved, array, _⟩ := migrated_pruneChain sound fair (t.bucketOf key.normalize)
    have bounded' : before.Bounded := bounded.of_size (congrArg Array.size array)
    have fresh : ∀ k' ∈ some k, k' ∉ before.liveKeys fun r => writing before.refs r := by
      rintro _ ⟨⟩ present
      obtain ⟨v, kept, _⟩ := (readable_liveKeys moved.sound _ k).mp present
      exact absent v (moved.keeps.stale k v trivial kept)
    have sizes := before.capacities_addHashed writing value key.isNormal_normalize
      (key.toKey?_normalize.trans named)
    rw [if_neg (show ¬ before.count < before.buckets.size from Nat.not_lt.mpr full)] at sizes
    rw [put_of_absent sound named stored unplaced absent, sizes]
    exact optimal_idealSizes moved.sound bounded' fresh few
  · intro metatable policy changed keys few
    have anew : t.attachMetatable live metatable policy =
        (t.governed metatable policy).rehash live .none := by
      simp [attachMetatable, governed, changed]
    have fresh : ∀ k ∈ (none : Option Key), k ∉ keys := by
      intro k absent
      cases absent
    rw [anew, capacities_rehash]
    exact optimal_idealSizes sound bounded fresh few

omit [Hashing] in
/-- A new integer key gets an array region, although the four other keys still take all buckets. When
the mode changes after two of their values were reclaimed, there is no room left for these. -/
theorem rehash_of_weak_values :
    let text (name : String) : Value := .text (.short name)
    let changes : List Change := [.attach none (some (text "v")), .set (text "a") (.table 5),
      .set (text "b") (.table 6), .set (text "c") (.table 8), .set (text "d") (.table 9)]
    let t := @after .uniform .empty (changes.map (nothingReclaimed, ·))
    let live : Liveness := .sparing fun r => r != 5 && r != 6
    t.capacities = (0, 4) ∧
      (@put .uniform nothingReclaimed t (.int 1) (.int 7)).capacities = (2, 4) ∧
      (∃ keys : Finset Key, keys.card = 5 ∧ Optimal keys (2, 4)) ∧
      (@attachMetatable .uniform live none .allStrong t).capacities = (0, 2) ∧
      ∃ keys : Finset Key, keys.card = 2 ∧ Optimal keys (0, 2) := by
  intro text changes t live
  let hashing : Hashing := .uniform
  have bounded : ∀ done ∈ (changes.map (nothingReclaimed, ·)).inits, (after .empty done).Bounded := by
    decide +kernel
  have inside : Origin.empty.Bounded := by decide
  have made : Reachable .empty := .made inside rfl
  have lawful : ∀ step ∈ changes.map (nothingReclaimed, ·), step.1.Lawful := by
    intro step member
    obtain ⟨c, _, rfl⟩ := List.mem_map.mp member
    exact nothingReclaimed_lawful
  have reachable : t.Reachable := made.after lawful fun done begun =>
    bounded done ((List.mem_inits done _).mpr begun)
  have absent (v : Value) : ¬ t.Stores (.int 1) v := by
    intro stored
    have read : t.getInt (fun _ => true) 1 = some v := reachable.sound_bounded.1.getInt_eq_some_iff.mpr
      ⟨stored, fun _ _ _ => rfl, fun _ _ _ _ => rfl⟩
    have none : t.getInt (fun _ => true) 1 = none := by decide +kernel
    cases none.symm.trans read
  have unplaced (i : Int64) (same : (Value.int 1).normalize = .int i) : t.position? i = none := by
    cases same
    decide +kernel
  have written := (rehash_is_optimal reachable nothingReclaimed_lawful).1 (.int 1) (.int 7) (.int 1)
    rfl nofun unplaced absent (by decide +kernel) (by decide +kernel)
  have sparing : live.Lawful := Liveness.sparing_lawful _
  have weakened := (rehash_is_optimal reachable sparing).2 none .allStrong (by decide +kernel)
    (by decide +kernel)
  have grown : (t.put nothingReclaimed (.int 1) (.int 7)).capacities = (2, 4) := by decide +kernel
  have shrunk : (t.attachMetatable live none .allStrong).capacities = (0, 2) := by decide +kernel
  rw [grown] at written
  rw [shrunk] at weakened
  exact ⟨by decide +kernel, grown, ⟨_, by decide +kernel, written⟩, shrunk, _, by decide +kernel,
    weakened⟩

end Table

end HybridTable
