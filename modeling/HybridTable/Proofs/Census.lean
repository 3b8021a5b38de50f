import Mathlib.Data.Finset.Card
import Mathlib.Data.Nat.Find
import HybridTable.Proofs.Resizing

/-! The sizes of regions as functions of the set of present keys. The code counts what is stored
while it goes through the storage; here the same numbers are read off a set of keys, in which
neither the order of the storage nor a hash code occurs. -/
namespace HybridTable

/-- Being an integer from 1 up to a limit. -/
def Key.within (limit : Nat) : Key → Bool
  | .int i => decide (1 ≤ i.toInt ∧ i.toInt ≤ limit)
  | _ => false

/-- The number of keys from 1 up to a limit. -/
def countInside (keys : Finset Key) (limit : Nat) : Nat :=
  (keys.filter fun k => k.within limit).card

/-- The number of the other keys. -/
def countOutside (keys : Finset Key) (limit : Nat) : Nat :=
  (keys.filter fun k => !k.within limit).card

/-- The capacity of an array region for some keys: the greatest power of two of which at least half
of the positions would be in use. -/
def idealArray (keys : Finset Key) : Nat :=
  match Nat.findGreatest (fun bits => 2 ^ bits ≤ 2 * countInside keys (min (2 ^ bits) maxArrayKey))
    maxArrayBits with
  | 0 => 0
  | bits + 1 => 2 ^ (bits + 1)

/-- What a rehash makes room for when a key is new. -/
def Key.pending : Key → Pending
  | .int i => if 0 < i.toInt ∧ i.toInt ≤ maxArrayKey then .arrayKey i.toInt.toNat else .hashKey
  | _ => .hashKey

/-- What a rehash makes room for: a new key, or nothing if the policy changed. -/
def Pending.of : Option Key → Pending
  | .none => .none
  | some k => k.pending

/-- Some keys and a pending one. -/
def withPending (pending : Option Key) (keys : Finset Key) : Finset Key :=
  match pending with
  | none => keys
  | some k => insert k keys

/-- The integer keys that a rehash counts, those of the storage being given. -/
def Pending.counted : Pending → List Nat → List Nat
  | .arrayKey key, stored => key :: stored
  | _, stored => stored

section
variable {keys : Finset Key} {k : Key} {limit : Nat}

theorem countOutside_insert (fresh : k ∉ keys) :
    countOutside (insert k keys) limit =
      countOutside keys limit + if k.within limit then 0 else 1 := by
  unfold countOutside
  rw [Finset.filter_insert]
  cases k.within limit with
  | true => rfl
  | false =>
    simp only [Bool.not_false, ↓reduceIte, Bool.false_eq_true]
    exact Finset.card_insert_of_notMem fun listed => fresh (Finset.mem_filter.mp listed).1

theorem countInside_insert (fresh : k ∉ keys) :
    countInside (insert k keys) limit =
      countInside keys limit + if k.within limit then 1 else 0 := by
  unfold countInside
  rw [Finset.filter_insert]
  cases k.within limit with
  | true =>
    simp only [↓reduceIte]
    exact Finset.card_insert_of_notMem fun listed => fresh (Finset.mem_filter.mp listed).1
  | false => rfl

end

/-- Searching from above finds the greatest. -/
theorem find?_reverse_range (p : Nat → Bool) (n : Nat) :
    ((List.range n).map (· + 1)).reverse.find? p =
      match Nat.findGreatest (fun i => p i = true) n with
      | 0 => none
      | i + 1 => some (i + 1) := by
  induction n with
  | zero => rfl
  | succ n ih =>
    rw [List.range_succ, List.map_append, List.reverse_append, Nat.findGreatest_succ]
    cases found : p (n + 1) with
    | true => simp [found]
    | false => simpa [found] using ih

theorem arraySizeFor_eq_findGreatest (keys : List Nat) : arraySizeFor keys =
    match Nat.findGreatest (fun bits => 2 ^ bits ≤ 2 * keys.countP (· ≤ 2 ^ bits)) maxArrayBits with
      | 0 => 0
      | bits + 1 => 2 ^ (bits + 1) := by
  have enough (bits : Nat) : (decide (2 ^ bits ≤ 2 * keys.length) &&
      decide (2 ^ bits ≤ 2 * keys.countP (· ≤ 2 ^ bits))) =
        decide (2 ^ bits ≤ 2 * keys.countP (· ≤ 2 ^ bits)) := by
    have := keys.countP_le_length (p := (· ≤ 2 ^ bits))
    simp only [Bool.and_eq_right_iff_imp, decide_eq_true_eq]
    omega
  unfold arraySizeFor
  dsimp only
  rw [find?_reverse_range]
  simp only [Nat.pow_eq, enough, decide_eq_true_eq]
  generalize Nat.findGreatest (fun bits => 2 ^ bits ≤ 2 * keys.countP (· ≤ 2 ^ bits))
    maxArrayBits = greatest
  cases greatest <;> rfl

namespace Moving

/-- A piece goes to the array region exactly if its key is within the limit. -/
theorem Proper.isSome_arrayKey? {item : Moving} {policy : WeakPolicy} {k : Key}
    (proper : item.Proper policy) (named : item.key.toKey? = some k) (limit : Nat) :
    (item.arrayKey? limit).isSome = k.within limit := by
  rw [Bool.eq_iff_iff, Option.isSome_iff_exists]
  constructor
  · rintro ⟨n, found⟩
    obtain ⟨low, high, small, integer⟩ := proper.arrayKey?_eq_some_iff.mp found
    rw [integer] at named
    cases named
    simp only [Key.within, decide_eq_true_eq]
    rw [Int64.toInt_ofNat_of_lt small]
    omega
  · intro within
    cases k with
    | int i =>
      simp only [Key.within, decide_eq_true_eq] at within
      have top := i.toInt_lt
      have again : Int64.ofNat i.toInt.toNat = i := by
        rw [← Int64.toInt_inj, Int64.toInt_ofNat_of_lt (by omega)]
        omega
      refine ⟨i.toInt.toNat, proper.arrayKey?_eq_some_iff.mpr ⟨by omega, by omega, by omega, ?_⟩⟩
      rw [again]
      exact Value.eq_int_of_normal proper.normal named
    | _ => cases within

/-- A smaller limit leaves the smaller keys. -/
theorem Proper.any_arrayKey? {item : Moving} {policy : WeakPolicy} (proper : item.Proper policy)
    (limit more : Nat) :
    (item.arrayKey? more).any (· ≤ limit) = (item.arrayKey? (min limit more)).isSome := by
  cases found : item.arrayKey? more with
  | none =>
    have absent : item.arrayKey? (min limit more) = none := by
      refine Option.eq_none_iff_forall_ne_some.mpr fun n smaller => ?_
      obtain ⟨low, high, rest⟩ := proper.arrayKey?_eq_some_iff.mp smaller
      rw [proper.arrayKey?_eq_some_iff.mpr ⟨low, by omega, rest⟩] at found
      cases found
    rw [absent]
    rfl
  | some n =>
    obtain ⟨low, high, small, integer⟩ := proper.arrayKey?_eq_some_iff.mp found
    by_cases below : n ≤ limit
    · rw [proper.arrayKey?_eq_some_iff.mpr ⟨low, by omega, small, integer⟩]
      simpa using below
    · have absent : item.arrayKey? (min limit more) = none := by
        refine Option.eq_none_iff_forall_ne_some.mpr fun m smaller => ?_
        obtain ⟨_, high, small', integer'⟩ := proper.arrayKey?_eq_some_iff.mp smaller
        have equal := congrArg Int64.toInt (Value.int.inj (integer.symm.trans integer'))
        rw [Int64.toInt_ofNat_of_lt small, Int64.toInt_ofNat_of_lt small'] at equal
        omega
      rw [absent]
      simpa using below

end Moving

namespace Table

/-- The set of keys under which something is stored. -/
def Holds [Hashing] (t : Table) (keys : Finset Key) : Prop := ∀ k, k ∈ keys ↔ ∃ v, t.Stores k v

/-- The set of keys under which something can be read. -/
def Readable [Hashing] (t : Table) (alive : Ref → Bool) (keys : Finset Key) : Prop :=
  ∀ k, k ∈ keys ↔ ∃ v, t.Stores k v ∧ t.policy.Spares alive k v

/-- Pieces of storage with the set of their keys. -/
structure Lists (t : Table) (items : List Moving) (keys : Finset Key) : Prop where
  /-- The pieces are in the storage, each once. -/
  part : items.Sublist t.moving
  /-- The keys are those of the pieces. -/
  all : ∀ k, k ∈ keys ↔ ∃ item ∈ items, item.key.toKey? = some k

variable [Hashing] {t : Table} {keys : Finset Key} {items : List Moving} {alive : Ref → Bool}

/-- Whatever is stored moves. -/
theorem Holds.lists (holds : t.Holds keys) : t.Lists t.moving keys := by
  refine ⟨.refl _, fun k => (holds k).trans ⟨?_, ?_⟩⟩
  · rintro ⟨v, stored⟩
    obtain ⟨item, moves, spelled, _⟩ := stores_iff_moving.mp stored
    exact ⟨item, moves, spelled⟩
  · rintro ⟨item, moves, spelled⟩
    exact ⟨item.value, stores_iff_moving.mpr ⟨item, moves, spelled, rfl⟩⟩

/-- Whatever can be read is counted. -/
theorem Readable.lists (reads : t.Readable alive keys) (sound : t.Sound) :
    t.Lists (t.moving.filter (·.isAlive alive)) keys := by
  refine ⟨List.filter_sublist, fun k => (reads k).trans ⟨?_, ?_⟩⟩
  · rintro ⟨v, stored, spared⟩
    obtain ⟨item, moves, spelled, rfl⟩ := stores_iff_moving.mp stored
    have readable := ((sound.proper moves).isAlive_iff spelled).mpr spared
    exact ⟨item, List.mem_filter.mpr ⟨moves, readable⟩, spelled⟩
  · rintro ⟨item, listed, spelled⟩
    obtain ⟨moves, readable⟩ := List.mem_filter.mp listed
    exact ⟨item.value, stores_iff_moving.mpr ⟨item, moves, spelled, rfl⟩,
      ((sound.proper moves).isAlive_iff spelled).mp readable⟩

/-- In a strong table whatever is stored can be read. -/
theorem Holds.readable (holds : t.Holds keys) (strong : t.policy = .allStrong) (alive : Ref → Bool) :
    t.Readable alive keys := by
  intro k
  rw [holds k, strong]
  exact exists_congr fun v => (and_iff_left (WeakPolicy.spares_allStrong alive k v)).symm

section
variable (lists : t.Lists items keys) (sound : t.Sound)
include lists sound

/-- Every key is that of one piece. -/
theorem Lists.countP_eq (p : Key → Bool) :
    items.countP (fun item => item.key.toKey?.any p) = (keys.filter fun k => p k).card := by
  let listed := items.filterMap (·.key.toKey?)
  have distinct : listed.Nodup := by
    refine List.pairwise_filterMap.mpr ((sound.moving_pairwise.sublist lists.part).imp ?_)
    intro a b apart k spelled k' spelled' same
    exact apart (spelled.trans ((congrArg some same).trans spelled'.symm))
  have all : listed.toFinset = keys := by
    ext k
    rw [List.mem_toFinset, List.mem_filterMap, lists.all k]
  rw [← all, ← List.toFinset_filter, List.toFinset_card_of_nodup (distinct.filter _),
    ← List.countP_eq_length_filter, List.countP_filterMap]
  congr 1
  funext item
  cases item.key.toKey? <;> rfl

/-- What stays out of an array region of some size. -/
theorem Lists.countP_stays (limit : Nat) :
    items.countP (fun item => (item.arrayKey? limit).isNone) = countOutside keys limit := by
  rw [countOutside, ← lists.countP_eq sound]
  refine List.countP_congr fun item listed => ?_
  have proper := sound.proper (lists.part.mem listed)
  obtain ⟨k, named⟩ := Option.ne_none_iff_exists'.mp proper.named
  rw [← Option.not_isSome, proper.isSome_arrayKey? named, named, Option.any_some]

/-- The integer keys that count for the size of the array region. -/
theorem Lists.countP_countedKey? (bounded : t.Bounded) (limit : Nat) :
    (items.filterMap Moving.countedKey?).countP (· ≤ limit) =
      countInside keys (min limit maxArrayKey) := by
  rw [countInside, ← lists.countP_eq sound, List.countP_filterMap]
  refine List.countP_congr fun item listed => ?_
  have moves := lists.part.mem listed
  have proper := sound.proper moves
  obtain ⟨k, named⟩ := Option.ne_none_iff_exists'.mp proper.named
  have counted : item.countedKey? = item.arrayKey? maxArrayKey := by
    cases item with
    | cell n c =>
      obtain ⟨position, c', used, same⟩ :=
        (mem_moving_iff.mp moves).resolve_right fun ⟨_, _, _, other⟩ => nomatch other
      cases same
      have inside := (Array.getElem?_eq_some_iff.mp used).1
      have small : t.array.size ≤ maxArrayCapacity := bounded
      have limit : maxArrayCapacity ≤ maxArrayKey := by decide
      exact (if_pos (by omega)).symm
    | entry e => rfl
  rw [named, Option.any_some, ← proper.isSome_arrayKey? named, ← proper.any_arrayKey?, counted]
  cases item.arrayKey? maxArrayKey <;> rfl

end

/-- The count is the number of keys without a position. -/
theorem Holds.count_eq (holds : t.Holds keys) (sound : t.Sound) :
    t.count = countOutside keys t.array.size := by
  rw [← holds.lists.countP_stays sound, sound.counted, ← length_movingEntries, moving,
    List.countP_append]
  have cells : t.movingCells.countP (fun item => (item.arrayKey? t.array.size).isNone) = 0 := by
    refine List.countP_eq_zero.mpr fun item listed => ?_
    obtain ⟨position, c, used, rfl⟩ := mem_movingCells_iff.mp listed
    have := (Array.getElem?_eq_some_iff.mp used).1
    rw [Moving.arrayKey?, if_pos (by omega)]
    simp
  have entries : t.movingEntries.countP (fun item => (item.arrayKey? t.array.size).isNone) =
      t.movingEntries.length := by
    refine List.countP_eq_length.mpr fun item listed => ?_
    have proper := sound.proper (mem_moving_iff.mpr (.inr (mem_movingEntries_iff.mp listed)))
    obtain ⟨bucket, e, member, rfl⟩ := mem_movingEntries_iff.mp listed
    have outside := (sound.slots bucket _ member).outside
    rw [Option.isNone_iff_eq_none]
    refine Option.eq_none_iff_forall_ne_some.mpr fun n found => ?_
    obtain ⟨low, high, small, integer⟩ := proper.arrayKey?_eq_some_iff.mp found
    have unplaced := outside _ integer
    rw [position?, Int64.toInt_ofNat_of_lt small, if_pos (by omega)] at unplaced
    cases unplaced
  omega

/-- In a strong table everything can be read. -/
theorem Sound.filter_moving (sound : t.Sound) (strong : t.policy = .allStrong)
    (alive : Ref → Bool) : t.moving.filter (·.isAlive alive) = t.moving := by
  refine List.filter_eq_self.mpr fun item moves => ?_
  have proper := sound.proper moves
  obtain ⟨k, named⟩ := Option.ne_none_iff_exists'.mp proper.named
  rw [proper.isAlive_iff named, strong]
  exact WeakPolicy.spares_allStrong ..

/-- The integer keys that can be read, as far as they count for the size of the array region. -/
def countedKeys (t : Table) (alive : Ref → Bool) : List Nat :=
  (t.moving.filter (·.isAlive alive)).filterMap Moving.countedKey?

omit [Hashing] in
/-- The array region has the size for the keys that count. -/
theorem idealSizes_array (t : Table) (alive : Ref → Bool) (pending : Pending) :
    (t.idealSizes alive pending).1 = arraySizeFor (pending.counted (t.countedKeys alive)) := by
  unfold idealSizes
  cases pending <;> rfl

omit [Hashing] in
/-- The hash region has room for what stays out of the array region and what is to arrive. -/
theorem idealSizes_room (t : Table) (alive : Ref → Bool) (pending : Pending) :
    (t.idealSizes alive pending).2 = hashCapacityFor
      (t.stays alive (t.idealSizes alive pending).1 +
        pending.arriving (t.idealSizes alive pending).1) := by
  unfold idealSizes
  cases pending <;> rfl

section
variable {pending : Option Key} (reads : t.Readable alive keys) (sound : t.Sound)
  (fresh : ∀ k ∈ pending, k ∉ keys)
include reads sound fresh

/-- The array region is sized for all keys that can be read and the pending one. -/
theorem idealSizes_fst (bounded : t.Bounded) :
    (t.idealSizes alive (.of pending)).1 = idealArray (withPending pending keys) := by
  have counts (limit : Nat) :
      ((Pending.of pending).counted (t.countedKeys alive)).countP (· ≤ limit) =
        countInside (withPending pending keys) (min limit maxArrayKey) := by
    have own : (t.countedKeys alive).countP (· ≤ limit) =
        countInside keys (min limit maxArrayKey) :=
      (reads.lists sound).countP_countedKey? sound bounded limit
    cases pending with
    | none => exact own
    | some k =>
      rw [withPending, countInside_insert (fresh k rfl), ← own]
      cases k with
      | int i =>
        by_cases range : 0 < i.toInt ∧ i.toInt ≤ maxArrayKey
        · have same : decide (i.toInt.toNat ≤ limit) =
              Key.within (min limit maxArrayKey) (.int i) := by
            simp only [Key.within, decide_eq_decide]
            omega
          simp only [Pending.of, Key.pending, if_pos range, Pending.counted, List.countP_cons, same]
        · have beyond : Key.within (min limit maxArrayKey) (.int i) = false := by
            simp only [Key.within, decide_eq_false_iff_not]
            omega
          simp only [Pending.of, Key.pending, if_neg range, Pending.counted, beyond]
          rfl
      | _ => rfl
  rw [idealSizes_array, arraySizeFor_eq_findGreatest, idealArray]
  simp only [counts]

/-- The hash region is sized for the keys that get no position. -/
theorem idealSizes_snd (bounded : t.Bounded)
    (small : idealArray (withPending pending keys) ≤ maxArrayCapacity) :
    (t.idealSizes alive (.of pending)).2 = hashCapacityFor (countOutside (withPending pending keys)
      (idealArray (withPending pending keys))) := by
  rw [idealSizes_room, idealSizes_fst reads sound fresh bounded]
  generalize idealArray (withPending pending keys) = limit at small ⊢
  rw [stays, (reads.lists sound).countP_stays sound]
  congr 1
  cases pending with
  | none => rfl
  | some k =>
    rw [withPending, countOutside_insert (fresh k rfl)]
    congr 1
    cases k with
    | int i =>
      have largest : maxArrayCapacity ≤ maxArrayKey := by decide
      by_cases range : 0 < i.toInt ∧ i.toInt ≤ maxArrayKey
      · simp only [Pending.of, Key.pending, if_pos range, Pending.arriving, Key.within,
          decide_eq_true_eq]
        split <;> split <;> omega
      · have beyond : Key.within limit (.int i) = false := by
          simp only [Key.within, decide_eq_false_iff_not]
          omega
        simp only [Pending.of, Key.pending, if_neg range, Pending.arriving, beyond]
        rfl
    | _ => rfl

end

/-- The sizes for a new key and all keys that can be read. -/
theorem idealSizes_new {k : Key} (reads : t.Readable alive keys) (sound : t.Sound) (fresh : k ∉ keys)
    (bounded : t.Bounded) : (t.idealSizes alive k.pending).1 = idealArray (insert k keys) ∧
      (idealArray (insert k keys) ≤ maxArrayCapacity → (t.idealSizes alive k.pending).2 =
        hashCapacityFor (countOutside (insert k keys) (idealArray (insert k keys)))) := by
  have new : ∀ k' ∈ some k, k' ∉ keys := fun _ same => Option.some.inj same ▸ fresh
  have sizes := And.intro (idealSizes_fst reads sound new bounded)
    (idealSizes_snd reads sound new bounded)
  simpa only [Pending.of, withPending] using sizes

end Table

end HybridTable
