import HybridTable.Proofs.Migration

/-! Regions of other sizes, and other policies. Sizes are chosen so that what can be read fits in,
with the pending key; since a pair arrives only if it could be read at the start, what was counted
is enough room for what arrives. -/
namespace HybridTable

theorem ceilPowerOfTwo_eq (n : Nat) : ∃ m, ceilPowerOfTwo n = 2 ^ m := by
  unfold ceilPowerOfTwo
  split
  · exact ⟨0, rfl⟩
  · exact ⟨_, rfl⟩

theorem le_ceilPowerOfTwo (n : Nat) : n ≤ ceilPowerOfTwo n := by
  unfold ceilPowerOfTwo
  split
  · assumption
  · have : n - 1 < Nat.pow 2 ((n - 1).log2 + 1) := Nat.lt_log2_self
    omega

theorem arrayCapacityFor_eq (positions : Nat) :
    arrayCapacityFor positions = 0 ∨ ∃ n, arrayCapacityFor positions = 2 ^ n := by
  unfold arrayCapacityFor
  split
  · exact .inl rfl
  · exact .inr (ceilPowerOfTwo_eq positions)

theorem le_arrayCapacityFor (positions : Nat) : positions ≤ arrayCapacityFor positions := by
  unfold arrayCapacityFor
  split
  · omega
  · exact le_ceilPowerOfTwo positions

theorem le_hashCapacityFor (entries : Nat) : entries ≤ hashCapacityFor entries := by
  unfold hashCapacityFor
  split
  · omega
  · exact Nat.le_trans (Nat.le_max_left ..) (le_ceilPowerOfTwo _)

/-- A hash region has at least the least capacity, so its capacity is never one. -/
theorem hashCapacityFor_eq (entries : Nat) :
    hashCapacityFor entries = 0 ∨ ∃ n, hashCapacityFor entries = 2 ^ (n + 1) := by
  unfold hashCapacityFor
  split
  · exact .inl rfl
  · right
    obtain ⟨m, power⟩ := ceilPowerOfTwo_eq (max entries minHashCapacity)
    have least : 2 ≤ 2 ^ m :=
      Nat.le_trans (Nat.le_max_right ..) (power ▸ le_ceilPowerOfTwo _)
    cases m with
    | zero => simp at least
    | succ n => exact ⟨n, power⟩

/-- An array region is chosen among the powers of two up to a limit. -/
theorem arraySizeFor_eq (keys : List Nat) :
    arraySizeFor keys = 0 ∨ ∃ n, n ≤ maxArrayBits ∧ arraySizeFor keys = 2 ^ n := by
  unfold arraySizeFor
  dsimp only
  split
  · rename_i bits found
    have listed := List.mem_of_find?_eq_some found
    simp only [List.mem_reverse, List.mem_map, List.mem_range] at listed
    obtain ⟨n, below, rfl⟩ := listed
    exact .inr ⟨n + 1, below, rfl⟩
  · exact .inl rfl

/-- The number of pairs that a pending key brings to the hash region. -/
def Pending.arriving (pending : Pending) (arraySize : Nat) : Nat :=
  match pending with
  | .none => 0
  | .arrayKey key => if arraySize < key then 1 else 0
  | .hashKey => 1

namespace Table

/-- The capacity that an array region is meant not to exceed. -/
def maxArrayCapacity : Nat := 2 ^ (maxArrayBits - 1)

/-- The array region is no larger than it is meant to be. -/
def Bounded (t : Table) : Prop := t.arrayCapacity ≤ maxArrayCapacity

instance (t : Table) : Decidable t.Bounded := inferInstanceAs (Decidable (_ ≤ _))

/-- The table under another metatable and policy, its storage as it was. -/
def governed (t : Table) (metatable : Option Ref) (policy : WeakPolicy) : Table :=
  { t with metatable, policy }

/-- The number of pieces that can be read and have no position in an array region of some size. -/
def stays (t : Table) (alive : Ref → Bool) (limit : Nat) : Nat :=
  (t.moving.filter (·.isAlive alive)).countP fun item => (item.arrayKey? limit).isNone

section
variable {t t' : Table} {metatable : Option Ref} {policy : WeakPolicy}

theorem maxArrayCapacity_le : maxArrayCapacity ≤ 2 ^ maxArrayBits :=
  Nat.pow_le_pow_right (by decide) (Nat.sub_le ..)

theorem Bounded.addressable (bounded : t.Bounded) : t.array.size ≤ 2 ^ maxArrayBits :=
  Nat.le_trans bounded maxArrayCapacity_le

theorem Bounded.of_size (bounded : t.Bounded) (same : t'.array.size = t.array.size) :
    t'.Bounded := by
  rw [Bounded, arrayCapacity, same]
  exact bounded

theorem stores_governed {k : Key} {v : Value} :
    (t.governed metatable policy).Stores k v ↔ t.Stores k v := by
  constructor
  · intro stored
    cases stored with
    | cell used => exact .cell used
    | entry member named => exact .entry (t := t) member named
  · intro stored
    cases stored with
    | cell used => exact .cell (t := t.governed metatable policy) used
    | entry member named => exact .entry (t := t.governed metatable policy) member named

theorem refs_sized {arrayCapacity hashCapacity : Nat} {r : Ref}
    (member : r ∈ (sized arrayCapacity hashCapacity metatable policy).refs) :
    r ∈ metatable.toList := by
  rcases mem_refs.mp member with own | ⟨position, c, used, _⟩ | ⟨bucket, s, slot, _⟩
  · exact own
  · simp [sized, Array.getElem?_replicate] at used
  · obtain ⟨chain, found, inChain⟩ := mem_chain_iff.mp slot
    simp only [sized, Array.getElem?_replicate] at found
    split at found <;> cases found
    cases inChain

theorem chain_sized (arrayCapacity hashCapacity bucket : Nat) :
    (sized arrayCapacity hashCapacity metatable policy).chain bucket = [] := by
  simp only [chain, sized, Array.getElem?_replicate]
  split <;> rfl

theorem not_stores_sized {arrayCapacity hashCapacity : Nat} {k : Key} {v : Value} :
    ¬ (sized arrayCapacity hashCapacity metatable policy).Stores k v := by
  intro stored
  cases stored with
  | cell used => simp [sized, Array.getElem?_replicate] at used
  | entry member named =>
    rw [chain_sized] at member
    cases member

end

variable [Hashing] {t : Table} {live : Liveness} {metatable : Option Ref} {policy : WeakPolicy}

/-- Regions with nothing in them are sound. -/
theorem sound_sized {arrayCapacity hashCapacity : Nat}
    (arraySize : arrayCapacity = 0 ∨ ∃ n, arrayCapacity = 2 ^ n)
    (hashSize : hashCapacity = 0 ∨ ∃ n, hashCapacity = 2 ^ (n + 1))
    (addressable : arrayCapacity ≤ 2 ^ maxArrayBits) :
    (sized arrayCapacity hashCapacity metatable policy).Sound where
  arraySize := by simpa [sized] using arraySize
  hashSize := by simpa [sized] using hashSize
  addressable := by simpa [sized] using addressable
  cells position c used := by simp [sized, Array.getElem?_replicate] at used
  slots bucket s member := by
    rw [chain_sized] at member
    cases member
  distinct bucket := by
    rw [chain_sized]
    exact .nil
  counted := by
    simp only [sized, Array.toList_replicate, List.flatten_replicate_nil]
    rfl
  room := Nat.zero_le _

/-- The layout does not depend on the metatable. -/
theorem Sound.governed (sound : t.Sound) (metatable : Option Ref) :
    (t.governed metatable t.policy).Sound :=
  ⟨sound.arraySize, sound.hashSize, sound.addressable, sound.cells,
    fun bucket s member => (sound.slots bucket s member).congr rfl rfl rfl, sound.distinct,
    sound.counted, sound.room⟩

/-- What the pairs of a table have become under another metatable or policy, or in regions of other
sizes. -/
structure Migrated (live : Liveness) (t : Table) (metatable : Option Ref) (policy : WeakPolicy)
    (t' : Table) : Prop where
  /-- The layout is kept. -/
  sound : t'.Sound
  /-- The policy is the one asked for. -/
  ruled : t'.policy = policy
  /-- The metatable is the one asked for. -/
  attached : t'.metatable = metatable
  /-- Whatever the old policy let be spared is still there. -/
  keeps : Keeps live t.policy (fun _ => True) (t.governed metatable policy) t'

omit [Hashing] in
/-- New storage and what moves to it hold no more than the table did. -/
theorem held_moving {arrayCapacity hashCapacity : Nat} {r : Ref}
    (member : r ∈ (sized arrayCapacity hashCapacity metatable policy).refs ++
      t.moving.flatMap Moving.refs) : r ∈ (t.governed metatable policy).refs := by
  rcases List.mem_append.mp member with own | moves
  · exact mem_refs.mpr (.inl (refs_sized own))
  · exact refs_moving (t := t.governed metatable policy) moves

/-- What arrives has been counted if it could be read then. -/
theorem countP_placed_le_stays {alive : Ref → Bool} {rebuild : Bool} {new : Table}
    (readable : ∀ item ∈ placed live rebuild t.moving new, item.isAlive alive = true)
    (limit : Nat) : (placed live rebuild t.moving new).countP
      (fun item => (item.arrayKey? limit).isNone) ≤ t.stays alive limit := by
  have part := (placed_sublist live rebuild t.moving new).filter (·.isAlive alive)
  rw [List.filter_eq_self.mpr readable] at part
  exact part.countP_le

/-- What arrives could be read at the start, so it has been counted. -/
theorem countP_placed_le (sound : t.Sound) (fair : live.Fair t.policy) {rebuild : Bool}
    {arrayCapacity hashCapacity : Nat} (limit : Nat) :
    (placed live rebuild t.moving (sized arrayCapacity hashCapacity metatable policy)).countP
        (fun item => (item.arrayKey? limit).isNone) ≤
      t.stays (fun r => live (t.governed metatable policy).refs r) limit := by
  refine countP_placed_le_stays (fun item arrives => ?_) limit
  have proper : ∀ item ∈ t.moving, item.Proper t.policy := fun item => sound.proper
  have own := proper item ((placed_sublist ..).mem arrives)
  obtain ⟨k, named⟩ := Option.ne_none_iff_exists'.mp own.named
  refine (own.isAlive_iff named).mpr (fair.spares_earlier ?_ (spared_of_placed fair proper arrives
    named))
  exact fair.imp_right fun lawful r member => lawful.holds (held_moving member)

/-- All pairs that are spared arrive in regions that are large enough for them. -/
theorem migrated_resize (sound : t.Sound) (fair : live.Fair t.policy) (metatable : Option Ref)
    {rebuild : Bool}
    (fitting : rebuild = true ∨ policy = t.policy) {arrayCapacity hashCapacity : Nat}
    (arraySize : arrayCapacity = 0 ∨ ∃ n, arrayCapacity = 2 ^ n)
    (hashSize : hashCapacity = 0 ∨ ∃ n, hashCapacity = 2 ^ (n + 1))
    (addressable : arrayCapacity ≤ 2 ^ maxArrayBits)
    (room : t.stays (fun r => live (t.governed metatable policy).refs r) arrayCapacity ≤
      hashCapacity) :
    let t' := (t.governed metatable policy).resize live rebuild arrayCapacity hashCapacity
    Migrated live t metatable policy t' ∧ t'.Clean ∧ t'.array.size = arrayCapacity ∧
      t'.buckets.size = hashCapacity ∧
      t'.count ≤ t.stays (fun r => live (t.governed metatable policy).refs r) arrayCapacity := by
  intro t'
  let new := sized arrayCapacity hashCapacity metatable policy
  let arriving := placed live rebuild t.moving new
  have proper : ∀ item ∈ t.moving, item.Proper t.policy := fun item => sound.proper
  have fits : arriving.countP (fun item => (item.arrayKey? arrayCapacity).isNone) ≤
      t.stays (fun r => live (t.governed metatable policy).refs r) arrayCapacity :=
    countP_placed_le sound fair arrayCapacity
  have arrays : new.array.size = arrayCapacity := by simp [new, sized]
  have buckets : new.buckets.size = hashCapacity := by simp [new, sized]
  have none : new.count = 0 := rfl
  have filled : Filled new arriving t' := by
    have made : t' = arriving.foldl (place rebuild) new := placeAll_eq_foldl ..
    rw [made]
    refine filled_foldl (sound_sized arraySize hashSize addressable) ?_
      (fun item arrives => proper item ((placed_sublist ..).mem arrives)) fitting
      (sound.moving_pairwise.sublist (placed_sublist ..)) ?_ ?_
    · intro bucket s member
      rw [chain_sized] at member
      cases member
    · exact fun item _ k v _ => not_stores_sized
    · rw [arrays, buckets, none]
      omega
  refine ⟨⟨filled.sound, filled.policy, filled.metatable, ⟨?_, ?_, ?_⟩⟩, filled.clean,
    filled.arraySize.trans arrays, filled.hashSize.trans buckets, ?_⟩
  · intro k v _ stored
    rcases (filled.stores k v).mp stored with absent | ⟨item, arrives, named, value⟩
    · exact absurd absent not_stores_sized
    · exact stores_governed.mpr (stores_iff_moving.mpr
        ⟨item, (placed_sublist ..).mem arrives, named, value⟩)
  · intro k v _ stored spared
    obtain ⟨item, moves, named, rfl⟩ := stores_iff_moving.mp (stores_governed.mp stored)
    exact (filled.stores k _).mpr (.inr
      ⟨item, placed_of_spared fair proper moves named spared, named, rfl⟩)
  · apply fair.imp_right
    intro lawful r member
    exact lawful.mono (fun r => held_moving) (placeAll_held lawful r member)
  · have := filled.count
    rw [arrays, none] at this
    omega

theorem rehash_eq (t : Table) (live : Liveness) (pending : Pending) : ∃ keys rebuild,
    (pending = .none → rebuild = true) ∧
      t.rehash live pending = t.resize live rebuild (arraySizeFor keys) (hashCapacityFor
        (t.stays (fun r => live t.refs r) (arraySizeFor keys) +
          pending.arriving (arraySizeFor keys))) := by
  cases pending with
  | none => exact ⟨_, true, fun _ => rfl, rfl⟩
  | arrayKey key => exact ⟨_, false, nofun, rfl⟩
  | hashKey => exact ⟨_, false, nofun, rfl⟩

/-- A rehash keeps all pairs that are spared and leaves room for a pending key that gets no position
in the array region. -/
theorem migrated_rehash (sound : t.Sound) (fair : live.Fair t.policy) (metatable : Option Ref)
    (pending : Pending)
    (fitting : pending = .none ∨ policy = t.policy) :
    let t' := (t.governed metatable policy).rehash live pending
    Migrated live t metatable policy t' ∧ t'.Clean ∧
      t'.count + pending.arriving t'.array.size ≤ t'.buckets.size := by
  intro t'
  let old := t.governed metatable policy
  obtain ⟨keys, rebuild, anew, made⟩ := old.rehash_eq live pending
  have enough := le_hashCapacityFor (old.stays (fun r => live old.refs r) (arraySizeFor keys) +
    pending.arriving (arraySizeFor keys))
  have arraySize : arraySizeFor keys = 0 ∨ ∃ n, arraySizeFor keys = 2 ^ n :=
    (arraySizeFor_eq keys).imp_right fun ⟨n, _, power⟩ => ⟨n, power⟩
  have addressable : arraySizeFor keys ≤ 2 ^ maxArrayBits := by
    rcases arraySizeFor_eq keys with zero | ⟨n, below, power⟩
    · rw [zero]
      exact Nat.zero_le _
    · rw [power]
      exact Nat.pow_le_pow_right (by decide) below
  obtain ⟨migrated, clean, arrays, buckets, count⟩ := migrated_resize sound fair metatable
    (fitting.imp_left anew) arraySize (hashCapacityFor_eq _) addressable
    (Nat.le_trans (Nat.le_add_right _ _) enough)
  rw [show t' = _ from made]
  refine ⟨migrated, clean, ?_⟩
  rw [arrays, buckets]
  exact Nat.le_trans (Nat.add_le_add_right count _) enough

omit [Hashing] in
/-- Only entries stay out of an array region that is no smaller than the one they are outside of. -/
theorem countP_moving_le {limit : Nat} (larger : t.array.size ≤ limit) :
    t.moving.countP (fun item => (item.arrayKey? limit).isNone) ≤
      Chain.entryCount t.buckets.toList.flatten := by
  have cells : t.movingCells.countP (fun item => (item.arrayKey? limit).isNone) = 0 := by
    apply List.countP_eq_zero.mpr
    intro item listed outside
    obtain ⟨position, c, used, rfl⟩ := mem_movingCells_iff.mp listed
    have inside := (Array.getElem?_eq_some_iff.mp used).1
    rw [Moving.arrayKey?, if_pos (by omega)] at outside
    cases outside
  rw [moving, List.countP_append, cells, Nat.zero_add, ← length_movingEntries]
  exact List.countP_le_length

theorem Sound.stays_le (sound : t.Sound) {alive : Ref → Bool} {limit : Nat}
    (larger : t.array.size ≤ limit) : t.stays alive limit ≤ t.count := by
  rw [sound.counted]
  exact Nat.le_trans List.filter_sublist.countP_le (countP_moving_le larger)

theorem size_array_place (rebuild : Bool) (t : Table) (item : Moving) :
    (t.place rebuild item).array.size = t.array.size := by
  cases found : item.arrayKey? t.array.size with
  | some n => rw [place_of_some found, size_array_setCell]
  | none => rw [place_of_none found, array_rechain]

theorem size_buckets_place (rebuild : Bool) (t : Table) (item : Moving) :
    (t.place rebuild item).buckets.size = t.buckets.size := by
  cases found : item.arrayKey? t.array.size with
  | some n => rw [place_of_some found, buckets_setCell]
  | none => rw [place_of_none found, size_buckets_rechain]

/-- What no piece changes that is put in its place, a resize leaves as it is in the new storage. -/
theorem resize_keeps {β : Type} (view : Table → β) {rebuild : Bool}
    (kept : ∀ t item, view (place rebuild t item) = view t) (live : Liveness)
    (arrayCapacity hashCapacity : Nat) (t : Table) :
    view (t.resize live rebuild arrayCapacity hashCapacity) =
      view (sized arrayCapacity hashCapacity t.metatable t.policy) := by
  have placing (items : List Moving) (t : Table) :
      view (items.foldl (place rebuild) t) = view t := by
    induction items generalizing t with
    | nil => rfl
    | cons item rest ih => exact (ih _).trans (kept t item)
  rw [resize, placeAll_eq_foldl, placing]

theorem size_array_resize (live : Liveness) (rebuild : Bool) (arrayCapacity hashCapacity : Nat)
    (t : Table) :
    (t.resize live rebuild arrayCapacity hashCapacity).array.size = arrayCapacity :=
  (resize_keeps (·.array.size) (size_array_place rebuild) ..).trans (by simp [sized])

theorem policy_rehash (live : Liveness) (pending : Pending) (t : Table) :
    (t.rehash live pending).policy = t.policy := by
  unfold rehash
  exact resize_keeps Table.policy (policy_place _) ..

/-- More positions only ever take pairs out of the hash region. -/
theorem migrated_presizeArray (sound : t.Sound) (fair : live.Fair t.policy) {positions : Nat}
    (bounded : (t.presizeArray live positions).Bounded) :
    Migrated live t t.metatable t.policy (t.presizeArray live positions) := by
  unfold presizeArray at bounded ⊢
  split
  · rename_i more
    have larger : t.array.size ≤ arrayCapacityFor positions :=
      Nat.le_trans (Nat.le_of_lt more) (le_arrayCapacityFor positions)
    have inside : arrayCapacityFor positions ≤ 2 ^ maxArrayBits := by
      rw [if_pos more, Bounded, arrayCapacity, size_array_resize] at bounded
      exact Nat.le_trans bounded maxArrayCapacity_le
    exact (migrated_resize sound fair t.metatable (.inr rfl)
      (arrayCapacityFor_eq positions) sound.hashSize inside
      (Nat.le_trans (sound.stays_le larger) sound.room)).1
  · exact ⟨sound, rfl, rfl, .refl fair _ t⟩

/-- Another metatable, with another policy or with the same, keeps all pairs that are spared. -/
theorem migrated_attachMetatable (sound : t.Sound) (fair : live.Fair t.policy)
    (metatable : Option Ref) (policy : WeakPolicy) :
    Migrated live t metatable policy (t.attachMetatable live metatable policy) := by
  by_cases changed : policy = t.policy
  · subst changed
    have same : t.attachMetatable live metatable t.policy = t.governed metatable t.policy := by
      simp [attachMetatable, governed]
    rw [same]
    exact ⟨sound.governed metatable, rfl, rfl, .refl fair _ _⟩
  · have anew : t.attachMetatable live metatable policy =
        (t.governed metatable policy).rehash live .none := by
      simp [attachMetatable, governed, changed]
    rw [anew]
    exact (migrated_rehash sound fair metatable .none (.inl rfl)).1

end Table

end HybridTable
