import HybridTable.Proofs.Census
import HybridTable.Proofs.FiniteMap

/-! How the capacities of a table evolve. `Shape` is a machine that knows the two capacities and the
set of present keys and nothing of chains, tombstones or hash codes. A table in which nothing is
weak goes through the same capacities, whatever its keys are hashed to. The code decides on a resize
by a count that it keeps up, after it pruned one chain; that this comes to the same is because a
sound table counts exactly the present keys that have no position. -/
namespace HybridTable

/-- What the capacities of a table depend on. -/
structure Shape where
  /-- The capacity of the array region. -/
  array : Nat
  /-- The capacity of the hash region. -/
  hash : Nat
  /-- The keys that have a value. -/
  present : Finset Key

namespace Shape

/-- The number of present keys that have no position in the array region. -/
def count (s : Shape) : Nat := countOutside s.present s.array

/-- A write under a key; `nil` removes the key. Only a new key without a position makes the regions
change, and only if there are as many such keys as buckets already. -/
def store (s : Shape) (k : Key) (value : Value) : Shape :=
  if value = .nil then { s with present := s.present.erase k }
  else
    let present := insert k s.present
    if k ∈ s.present ∨ k.within s.array = true ∨ s.count < s.hash then { s with present }
    else
      let array := idealArray present
      { array, hash := hashCapacityFor (countOutside present array), present }

/-- What a change does; what cannot be a key is refused, and only writes are looked at. -/
def record (s : Shape) : Change → Shape
  | .set key value => match key.toKey? with
    | some k => s.store k value
    | none => s
  | .setInt key value => s.store (.int key) value
  | .presize _ => s
  | .attach _ _ => s

/-- The machine after a sequence of changes. -/
def after (s : Shape) (changes : List Change) : Shape := changes.foldl record s

theorem present_store (s : Shape) (k : Key) (value : Value) : (s.store k value).present =
    if value = .nil then s.present.erase k else insert k s.present := by
  unfold store
  dsimp only
  split
  · rfl
  · split <;> rfl

/-- Most writes leave the capacities alone. -/
theorem store_kept (s : Shape) (k : Key) (value : Value) (kept : value = .nil ∨
    k ∈ s.present ∨ k.within s.array = true ∨ s.count < s.hash) :
    ∃ present, s.store k value = { s with present } := by
  unfold store
  rcases kept with removed | kept
  · rw [if_pos removed]
    exact ⟨_, rfl⟩
  · dsimp only
    rw [if_pos kept]
    split <;> exact ⟨_, rfl⟩

/-- A new key for which there is neither a position nor a bucket makes both regions change. -/
theorem store_grown {s : Shape} {k : Key} {value : Value} (stored : value ≠ .nil)
    (fresh : k ∉ s.present) (unplaced : k.within s.array = false) (full : s.hash ≤ s.count) :
    s.store k value = ⟨idealArray (insert k s.present), hashCapacityFor (countOutside
      (insert k s.present) (idealArray (insert k s.present))), insert k s.present⟩ := by
  unfold store
  dsimp only
  rw [if_neg stored, if_neg (by simp only [fresh, unplaced, Bool.false_eq_true, false_or]; omega)]

/-- While no more keys need a bucket than there are, nothing changes the capacities. -/
theorem after_presized {s : Shape} {changes : List Change} (room : ∀ done, done <+: changes →
    countOutside (s.after done).present s.array ≤ s.hash) :
    ∃ present, s.after changes = { s with present } := by
  induction changes generalizing s with
  | nil => exact ⟨s.present, rfl⟩
  | cons c rest ih =>
    have first := room [c] (List.cons_prefix_cons.mpr ⟨rfl, List.nil_prefix⟩)
    have stored (k : Key) (value : Value)
        (room : countOutside (s.store k value).present s.array ≤ s.hash) :
        ∃ present, s.store k value = { s with present } := by
      by_cases kept : value = .nil ∨ k ∈ s.present ∨ k.within s.array = true ∨ s.count < s.hash
      · exact s.store_kept k value kept
      · -- such a key would be one more than there are buckets
        simp only [not_or, Bool.not_eq_true, Nat.not_lt] at kept
        obtain ⟨some_value, fresh, unplaced, full⟩ := kept
        rw [present_store, if_neg some_value, countOutside_insert fresh, unplaced] at room
        have : s.hash + 1 ≤ s.hash := (Nat.succ_le_succ full).trans room
        omega
    obtain ⟨present, same⟩ : ∃ present, s.record c = { s with present } := by
      cases c with
      | set key value =>
        cases named : key.toKey? with
        | none => exact ⟨s.present, by simp only [record, named]⟩
        | some k =>
          simp only [after, List.foldl, record, named] at first ⊢
          exact stored k value first
      | setInt i value => exact stored (.int i) value first
      | presize positions => exact ⟨s.present, rfl⟩
      | attach metatable mode => exact ⟨s.present, rfl⟩
    have others (done : List Change) (begun : done <+: rest) :
        countOutside ((s.record c).after done).present (s.record c).array ≤ (s.record c).hash := by
      have along : countOutside ((s.record c).after done).present s.array ≤ s.hash :=
        room (c :: done) (List.cons_prefix_cons.mpr ⟨rfl, begun⟩)
      rwa [same] at along ⊢
    obtain ⟨final, reached⟩ := ih others
    exact ⟨final, reached.trans (by rw [same])⟩

end Shape

/-- Being a write. -/
def Change.IsWrite : Change → Prop
  | .set _ _ => True
  | .setInt _ _ => True
  | _ => False

/-- The capacities with which a table without pairs is made. -/
def Origin.shape? : Origin → Option Shape
  | .empty => some ⟨0, 0, ∅⟩
  | .capacity positions entries =>
    some ⟨arrayCapacityFor positions, hashCapacityFor entries, ∅⟩
  | _ => none

namespace Table

variable [Hashing] {t t' : Table} {live : Liveness} {key value : Value} {k : Key}

/-! ## The capacities after one write -/

theorem capacities_resize (live : Liveness) (rebuild : Bool) (arrayCapacity hashCapacity : Nat)
    (t : Table) : (t.resize live rebuild arrayCapacity hashCapacity).capacities =
      (arrayCapacity, hashCapacity) := by
  have hashSize := resize_keeps (·.buckets.size) (size_buckets_place rebuild) live arrayCapacity
    hashCapacity t
  exact Prod.ext (size_array_resize ..) (hashSize.trans (by simp [sized]))

theorem capacities_rehash (live : Liveness) (pending : Pending) (t : Table) :
    (t.rehash live pending).capacities = t.idealSizes (fun r => live t.refs r) pending := by
  unfold rehash
  exact capacities_resize ..

theorem capacities_append (some_bucket : 0 < t.buckets.size) :
    (t.append key value).capacities = t.capacities := by
  obtain ⟨arraySize, hashSize, _⟩ : Unmoved t (t.append key value) := unmoved_append some_bucket
  exact Prod.ext arraySize hashSize

omit [Hashing] in
theorem capacities_setPosition (t : Table) (position : Nat) (value : Value) :
    (t.setPosition position value).capacities = t.capacities :=
  Prod.ext (size_array_setCell ..) rfl

/-- Making room for a key that gets no position leaves a bucket for it. -/
theorem capacities_rehash_append {pending : Pending}
    (arrives : pending.arriving (t.rehash live pending).arrayCapacity = 1) :
    ((t.rehash live pending).append key value).capacities =
      t.idealSizes (fun r => live t.refs r) pending := by
  have sizes := capacities_rehash live pending t
  refine (capacities_append ?_).trans sizes
  have array : (t.rehash live pending).arrayCapacity = _ := congrArg Prod.fst sizes
  have hash : (t.rehash live pending).hashCapacity = _ := congrArg Prod.snd sizes
  show 0 < (t.rehash live pending).hashCapacity
  rw [array] at arrives
  rw [hash, idealSizes_room, arrives]
  exact Nat.lt_of_lt_of_le (Nat.succ_pos _) (le_hashCapacityFor _)

/-- A new key without a position gets a free bucket, or else both regions get the sizes that suit
all keys. -/
theorem capacities_addHashed (t : Table) (live : Liveness) (value : Value)
    (normal : key.IsNormal) (named : key.toKey? = some k) :
    (t.addHashed live key value).capacities =
      if t.count < t.buckets.size then t.capacities
      else t.idealSizes (fun r => live t.refs r) k.pending := by
  unfold addHashed
  by_cases room : t.count < t.buckets.size
  · rw [if_pos room, if_pos room]
    exact capacities_append (by omega)
  · rw [if_neg room, if_neg room]
    cases key with
    | int i =>
      cases named
      by_cases range : 0 < i.toInt ∧ i.toInt ≤ maxArrayKey
      · simp only [Key.pending, if_pos range]
        split
        · exact (capacities_setPosition ..).trans (capacities_rehash ..)
        · rename_i unplaced
          refine capacities_rehash_append ?_
          unfold position? at unplaced
          split at unplaced
          · cases unplaced
          · exact if_pos (by unfold arrayCapacity; omega)
      · simp only [Key.pending, if_neg range]
        exact capacities_rehash_append rfl
    | _ =>
      have other : k.pending = .hashKey := by
        cases k with
        | int i => cases Value.eq_int_of_normal normal named
        | _ => rfl
      rw [other]
      exact capacities_rehash_append rfl

/-- A strong table with the capacities and the keys of the machine. -/
structure Shaped (t : Table) (s : Shape) : Prop where
  sound : t.Sound
  strong : t.policy = .allStrong
  bounded : t.Bounded
  arraySize : t.arrayCapacity = s.array
  hashSize : t.hashCapacity = s.hash
  holds : t.Holds s.present

variable {s : Shape}

theorem Shaped.count_eq (shaped : t.Shaped s) : t.count = s.count := by
  rw [shaped.holds.count_eq shaped.sound, Shape.count, ← shaped.arraySize]
  rfl

theorem Shaped.capacities_eq (shaped : t.Shaped s) : t.capacities = (s.array, s.hash) :=
  Prod.ext shaped.arraySize shaped.hashSize

/-- In a strong table a write changes the set of keys as the machine does. -/
theorem Written.holds {keys : Finset Key} (written : Written live t k value t')
    (strong : t.policy = .allStrong) (holds : t.Holds keys) :
    t'.Holds (if value = .nil then keys.erase k else insert k keys) := by
  intro k'
  by_cases own : k' = k
  · subst own
    simp only [written.own]
    split
    · rename_i removed
      simp [removed]
    · rename_i stored
      simp [stored]
  · have kept : (∃ v, t'.Stores k' v) ↔ ∃ v, t.Stores k' v := by
      refine exists_congr fun v => ⟨written.others.stale k' v own, fun stored => ?_⟩
      refine written.others.spared k' v own stored ?_
      rw [strong]
      exact WeakPolicy.spares_allStrong ..
    rw [kept, ← holds k']
    split <;> simp [own]

/-- In a strong table no migration changes the set of keys. -/
theorem Migrated.holds {keys : Finset Key} {metatable : Option Ref} {policy : WeakPolicy}
    (moved : Migrated live t metatable policy t') (strong : t.policy = .allStrong)
    (holds : t.Holds keys) : t'.Holds keys := by
  intro k
  rw [holds k]
  refine exists_congr fun v => ⟨fun stored => ?_, fun stored => ?_⟩
  · refine moved.keeps.spared k v trivial (stores_governed.mpr stored) ?_
    rw [strong]
    exact WeakPolicy.spares_allStrong ..
  · exact stores_governed.mp (moved.keeps.stale k v trivial stored)

/-- Sweeping a chain of a strong table takes only tombstones away. -/
theorem Shaped.pruneChain (shaped : t.Shaped s) (live : Liveness) (bucket : Nat) :
    (t.pruneChain live bucket).Shaped s := by
  have fair : live.Fair t.policy := .inl shaped.strong
  obtain ⟨moved, array, buckets, _⟩ := migrated_pruneChain shaped.sound fair bucket
  have size := congrArg Array.size array
  exact ⟨moved.sound, moved.ruled.trans shaped.strong, shaped.bounded.of_size size,
    size.trans shaped.arraySize, buckets.trans shaped.hashSize,
    moved.holds shaped.strong shaped.holds⟩

/-- The capacities are those of the machine; as for the hash region, if the array region is no
larger than it is meant to be. -/
def SizedAs (t : Table) (s : Shape) : Prop :=
  t.arrayCapacity = s.array ∧ (s.array ≤ maxArrayCapacity → t.hashCapacity = s.hash)

theorem Shaped.sizedAs (shaped : t.Shaped s) (same : t'.capacities = t.capacities) :
    t'.SizedAs s :=
  ⟨(congrArg Prod.fst same).trans shaped.arraySize,
    fun _ => (congrArg Prod.snd same).trans shaped.hashSize⟩

omit [Hashing] in
theorem isSome_position? (t : Table) (i : Int64) :
    (t.position? i).isSome = (Key.int i).within t.arrayCapacity := by
  unfold position? Key.within arrayCapacity
  split
  · rename_i inside
    exact (decide_eq_true inside).symm
  · rename_i outside
    exact (decide_eq_false outside).symm

/-- A write in the hash region makes the capacities what the machine makes them. -/
theorem sizedAs_setHashed (shaped : t.Shaped s) (normal : key.IsNormal)
    (named : key.toKey? = some k) (outside : ∀ i, key = .int i → t.position? i = none) :
    (t.setHashed live key value).SizedAs (s.store k value) := by
  have fair : live.Fair t.policy := .inl shaped.strong
  have holds := fair.holds (key.refs ++ value.refs)
  unfold setHashed
  dsimp only
  by_cases removed : value.isNil = true
  · obtain ⟨present, same⟩ := s.store_kept k value (.inl (Value.isNil_iff.mp removed))
    rw [if_pos removed, same]
    refine shaped.sizedAs ?_
    unfold removeHashed
    dsimp only
    split
    · exact Prod.ext rfl (size_buckets_setChain ..)
    · rfl
  have stored : value ≠ .nil := fun none => removed (Value.isNil_iff.mpr none)
  rw [if_neg removed]
  split
  · rename_i chain found
    have present : k ∈ s.present := by
      obtain ⟨before, e, after, split, _, same, _⟩ :=
        Chain.amend?_eq_some (shaped.sound.named _) found
      have member : .live e ∈ t.chain (t.bucketOf key) := by simp [split]
      exact (shaped.holds k).mpr ⟨e.value, .entry member (same.trans named)⟩
    obtain ⟨present, same⟩ := s.store_kept k value (.inr (.inl present))
    rw [same]
    exact shaped.sizedAs (Prod.ext rfl (size_buckets_setChain ..))
  · rename_i absent
    have missing := not_stores_of_amend? shaped.sound holds normal named outside absent
    have fresh : k ∉ s.present := fun present =>
      ((shaped.holds k).mp present).elim fun v stored => missing v stored
    have pruned := shaped.pruneChain (live.holding (key.refs ++ value.refs)) (t.bucketOf key)
    generalize t.pruneChain (live.holding (key.refs ++ value.refs)) (t.bucketOf key) = t' at pruned
    have sizes := t'.capacities_addHashed (live.holding (key.refs ++ value.refs)) value normal named
    rw [pruned.count_eq, show t'.buckets.size = s.hash from pruned.hashSize] at sizes
    by_cases room : s.count < s.hash
    · obtain ⟨present, same⟩ := s.store_kept k value (.inr (.inr (.inr room)))
      rw [same]
      rw [if_pos room] at sizes
      exact pruned.sizedAs sizes
    · rw [if_neg room] at sizes
      have unplaced : k.within s.array = false := by
        cases k with
        | int i =>
          rw [← shaped.arraySize, ← isSome_position?,
            outside i (Value.eq_int_of_normal normal named)]
          rfl
        | _ => rfl
      rw [Shape.store_grown stored fresh unplaced (by omega)]
      have reads := pruned.holds.readable pruned.strong
        fun r => live.holding (key.refs ++ value.refs) t'.refs r
      obtain ⟨array, hash⟩ := idealSizes_new reads pruned.sound fresh pruned.bounded
      exact ⟨(congrArg Prod.fst sizes).trans array,
        fun small => (congrArg Prod.snd sizes).trans (hash small)⟩

theorem sizedAs_setInt (shaped : t.Shaped s) (i : Int64) :
    (t.setInt live i value).SizedAs (s.store (.int i) value) := by
  unfold setInt
  cases found : t.position? i with
  | some position =>
    have placed : (Key.int i).within s.array = true := by
      rw [← shaped.arraySize, ← isSome_position?, found]
      rfl
    obtain ⟨present, same⟩ := s.store_kept (.int i) value (.inr (.inr (.inl placed)))
    rw [same]
    exact shaped.sizedAs (t.capacities_setPosition position value)
  | none =>
    have normal : (Value.int i).IsNormal := rfl
    exact sizedAs_setHashed shaped normal rfl fun j same => Value.int.inj same ▸ found

theorem sizedAs_put (shaped : t.Shaped s) (named : key.toKey? = some k) :
    (t.put live key value).SizedAs (s.store k value) := by
  have spelled : key.normalize.toKey? = some k := key.toKey?_normalize.trans named
  have normal := key.isNormal_normalize
  unfold put
  generalize key.normalize = key' at spelled normal
  cases key' with
  | int i =>
    cases spelled
    exact sizedAs_setInt shaped i
  | _ => exact sizedAs_setHashed shaped normal spelled fun i => nofun

/-- The capacities after one write are those of the machine. -/
theorem Shaped.sizedAs_perform {c : Change} (shaped : t.Shaped s) (live : Liveness)
    (write : c.IsWrite) :
    (c.perform live t).SizedAs (s.record c) := by
  cases c with
  | set key value =>
    cases named : key.toKey? with
    | none =>
      rw [perform_set_of_invalid named]
      simpa only [Shape.record, named] using shaped.sizedAs rfl
    | some k =>
      rw [perform_set_of_named named]
      simpa only [Shape.record, named] using sizedAs_put shaped named
  | setInt i value => exact sizedAs_setInt shaped i
  | presize positions => exact write.elim
  | attach metatable mode => exact write.elim

/-- One write takes a table to where it takes the machine. -/
theorem Shaped.perform {c : Change} (shaped : t.Shaped s) (write : c.IsWrite)
    (small : (s.record c).array ≤ maxArrayCapacity) :
    (c.perform live t).Shaped (s.record c) := by
  have fair : live.Fair t.policy := .inl shaped.strong
  have sized := shaped.sizedAs_perform live write
  have bounded : (c.perform live t).Bounded := by
    rw [Table.Bounded, sized.1]
    exact small
  have changed {k : Key} {value : Value} {seen : Liveness}
      (written : Written seen t k value (c.perform live t))
      (present : (s.record c).present = (s.store k value).present) :
      (c.perform live t).Shaped (s.record c) := by
    refine ⟨written.sound, written.ruled.trans shaped.strong, bounded, sized.1, sized.2 small, ?_⟩
    rw [present, Shape.present_store]
    exact written.holds shaped.strong shaped.holds
  cases c with
  | set key value =>
    cases named : key.toKey? with
    | none =>
      rw [perform_set_of_invalid named]
      simpa only [Shape.record, named] using shaped
    | some k =>
      rw [perform_set_of_named named] at bounded
      have written := written_put shaped.sound fair named bounded
      rw [← perform_set_of_named named] at written
      exact changed written (by simp only [Shape.record, named])
  | setInt i value => exact changed (written_setInt shaped.sound fair bounded) rfl
  | presize positions => exact write.elim
  | attach metatable mode => exact write.elim

/-- A run of writes takes a table to where it takes the machine. -/
theorem Shaped.after {steps : List (Liveness × Change)} (shaped : t.Shaped s)
    (writes : ∀ step ∈ steps, step.2.IsWrite)
    (small : ∀ done, done <+: steps.map Prod.snd → (s.after done).array ≤ maxArrayCapacity) :
    (t.after steps).Shaped (s.after (steps.map Prod.snd)) := by
  induction steps generalizing t s with
  | nil => exact shaped
  | cons step rest ih =>
    obtain ⟨live, c⟩ := step
    have first := small [c] (List.cons_prefix_cons.mpr ⟨rfl, List.nil_prefix⟩)
    refine ih (shaped.perform (writes _ List.mem_cons_self) first)
      (fun step member => writes step (List.mem_cons_of_mem _ member)) fun done begun => ?_
    exact small (c :: done) (List.cons_prefix_cons.mpr ⟨rfl, begun⟩)

/-- If the array region of the table stays in its range, then so does that of the machine. -/
theorem Shaped.small {steps : List (Liveness × Change)} (shaped : t.Shaped s)
    (writes : ∀ step ∈ steps, step.2.IsWrite)
    (bounded : ∀ done, done <+: steps → (t.after done).Bounded) :
    ∀ done, done <+: steps.map Prod.snd → (s.after done).array ≤ maxArrayCapacity := by
  have start : s.array ≤ maxArrayCapacity := shaped.arraySize ▸ shaped.bounded
  induction steps generalizing t s with
  | nil =>
    intro done begun
    rw [List.prefix_nil.mp begun]
    exact start
  | cons step rest ih =>
    obtain ⟨live, c⟩ := step
    obtain ⟨first, others⟩ := bounded_cons bounded
    have write : c.IsWrite := writes _ List.mem_cons_self
    have next : (s.record c).array ≤ maxArrayCapacity :=
      (shaped.sizedAs_perform live write).1 ▸ first
    intro done begun
    cases done with
    | nil => exact start
    | cons c' done =>
      obtain ⟨rfl, rest_begun⟩ := List.cons_prefix_cons.mp begun
      exact ih (shaped.perform write next) (fun step member => writes step
        (List.mem_cons_of_mem _ member)) others next done rest_begun

/-- A table without pairs is made with the capacities of the machine. -/
theorem shaped_build {origin : Origin} (inside : origin.Bounded) (built : origin.build = .ok t)
    (bare : origin.shape? = some s) : t.Shaped s := by
  obtain ⟨represents, bounded⟩ := represents_build inside built
  have none : origin.contents = ∅ → t.Holds ∅ := fun empty k => by
    simp only [Finset.notMem_empty, false_iff, represents.stores, empty, Finmap.lookup_empty]
    simp
  cases origin with
  | empty =>
    cases bare
    cases built
    exact ⟨represents.sound, represents.strong, bounded, rfl, rfl, none rfl⟩
  | capacity positions entries =>
    cases bare
    cases built
    refine ⟨represents.sound, represents.strong, bounded, ?_, ?_, none rfl⟩
    · simp [arrayCapacity, withCapacity, sized]
    · simp [hashCapacity, withCapacity, sized]
  | parts named positional => cases bare
  | arguments values => cases bare

omit [Hashing] in
/-- Without pairs there is nothing to hash. -/
theorem build_of_shape? {origin : Origin} (bare : origin.shape? = some s)
    (hashing other : Hashing) : @Origin.build hashing origin = @Origin.build other origin := by
  cases origin with
  | empty | capacity => rfl
  | parts | arguments => cases bare

/-- The keys of the machine are those under which something can be read. -/
theorem Shaped.isSome_get (shaped : t.Shaped s) (alive : Ref → Bool) (key : Value) :
    (t.get alive key).isSome ↔ ∃ k ∈ s.present, key.toKey? = some k := by
  have holds : ∀ k, k ∈ s.present ↔ ∃ v, t.Stores k v := shaped.holds
  simp only [Option.isSome_iff_exists, shaped.sound.get_eq_some_iff, holds,
    shaped.strong, WeakPolicy.spares_allStrong, and_true]
  constructor
  · rintro ⟨v, k, named, stored⟩
    exact ⟨k, ⟨v, stored⟩, named⟩
  · rintro ⟨k, ⟨v, stored⟩, named⟩
    exact ⟨v, k, named, stored⟩

omit [Hashing] in
/-- The capacities and the count of a strong table are those of a machine that knows only which keys
are present. So they are the same after every step if the same writes are made with other hash
codes and in other environments; and as long as no more keys need a bucket than the table was made
with, it keeps the capacities with which it was made. -/
theorem capacities_of_writes [hashing : Hashing] {origin : Origin} (inside : origin.Bounded)
    (built : origin.build = .ok t) (bare : origin.shape? = some s)
    {steps : List (Liveness × Change)} (writes : ∀ step ∈ steps, step.2.IsWrite)
    (bounded : ∀ done, done <+: steps → (t.after done).Bounded) :
    (∀ n, let now := t.after (steps.take n)
      let shape := s.after ((steps.take n).map Prod.snd)
      now.capacities = (shape.array, shape.hash) ∧ now.count = shape.count ∧
        ∀ alive key, (now.get alive key).isSome ↔ ∃ k ∈ shape.present, key.toKey? = some k) ∧
    (∀ (other : Hashing) (again : List (Liveness × Change)),
      again.map Prod.snd = steps.map Prod.snd → ∀ n,
        (@after other t (again.take n)).capacities =
            (@after hashing t (steps.take n)).capacities ∧
          (@after other t (again.take n)).count = (@after hashing t (steps.take n)).count) ∧
    (∀ n, (∀ m ≤ n,
        countOutside (s.after ((steps.take m).map Prod.snd)).present s.array ≤ s.hash) →
      (t.after (steps.take n)).capacities = t.capacities) := by
  have shaped := shaped_build inside built bare
  have small := shaped.small writes bounded
  have reached (other : Hashing) (again : List (Liveness × Change))
      (same : again.map Prod.snd = steps.map Prod.snd) (n : Nat) :
      @Shaped other (@after other t (again.take n))
        (s.after ((steps.take n).map Prod.snd)) := by
    have built_again : @Origin.build other origin = .ok t :=
      (build_of_shape? bare other hashing).trans built
    have start := @shaped_build other t s origin inside built_again bare
    have changes : (again.take n).map Prod.snd = (steps.take n).map Prod.snd := by
      rw [List.map_take, same, List.map_take]
    rw [← changes]
    refine start.after (fun step member => ?_) fun done begun => small done (begun.trans ?_)
    · have listed : step.2 ∈ again.map Prod.snd :=
        List.mem_map_of_mem (List.mem_of_mem_take member)
      rw [same] at listed
      obtain ⟨first, source, equal⟩ := List.mem_map.mp listed
      exact equal ▸ writes first source
    · rw [changes, List.map_take]
      exact List.take_prefix ..
  have own (n : Nat) := reached hashing steps rfl n
  have sizes (n : Nat) := (own n).capacities_eq
  have counts (n : Nat) := (own n).count_eq
  refine ⟨fun n => ⟨sizes n, counts n, (own n).isSome_get⟩, fun other again same n => ?_,
    fun n room => ?_⟩
  · have there := reached other again same n
    have sizes_there := @Shaped.capacities_eq other _ _ there
    have count_there := @Shaped.count_eq other _ _ there
    exact ⟨sizes_there.trans (sizes n).symm, count_there.trans (counts n).symm⟩
  · have along (done : List Change) (begun : done <+: (steps.take n).map Prod.snd) :
        countOutside (s.after done).present s.array ≤ s.hash := by
      have within := begun.length_le
      rw [List.length_map, List.length_take] at within
      have short : done = (steps.take done.length).map Prod.snd := by
        rw [List.map_take] at begun ⊢
        exact List.prefix_iff_eq_take.mp (begun.trans (List.take_prefix ..))
      rw [short]
      exact room _ (within.trans (Nat.min_le_left ..))
    obtain ⟨present, kept⟩ := Shape.after_presized along
    rw [sizes n, kept, shaped.capacities_eq]

omit [Hashing] in
/-- With two buckets the third key without a position makes the table larger; that is so for every
hash code and although a key was removed before. -/
theorem capacities_of_hashed_run :
    let steps : List (Liveness × Change) := [
      (nothingReclaimed, .set (.text (.short "a")) (.bool true)),
      (nothingReclaimed, .setInt 1 (.int 10)),
      (nothingReclaimed, .set (.text (.short "a")) .nil),
      (nothingReclaimed, .set (.text (.short "b")) (.bool true)),
      (nothingReclaimed, .setInt 3 (.int 30)),
      (nothingReclaimed, .set (.float ⟨0x4000000000000000⟩) (.int 20))]
    (Origin.capacity 1 2).shape? = some ⟨1, 2, ∅⟩ ∧
      (@after .uniform (withCapacity 1 2) (steps.take 5)).capacities = (1, 2) ∧
      ∀ hashing : Hashing, (@after hashing (withCapacity 1 2) steps).capacities = (4, 2) := by
  intro steps
  have inside : (Origin.capacity 1 2).Bounded := by decide
  have writes : ∀ step ∈ steps, step.2.IsWrite := by simp [steps, Change.IsWrite]
  have bounded : ∀ done ∈ steps.inits,
      (@after .uniform (withCapacity 1 2) done).Bounded := by decide +kernel
  have same := (@capacities_of_writes (withCapacity 1 2) ⟨1, 2, ∅⟩ .uniform (.capacity 1 2) inside
    rfl rfl steps writes fun done begun => bounded done ((List.mem_inits done steps).mpr begun)).2.1
  have last : (@after .uniform (withCapacity 1 2) steps).capacities = (4, 2) := by decide +kernel
  refine ⟨rfl, by decide +kernel, fun hashing => ?_⟩
  exact (same hashing steps rfl steps.length).1.trans last

end Table

end HybridTable
