import HybridTable.Proofs.Changes

/-! Tables as they are made. A constructor sizes its regions first, so filling them never moves a
pair: the positional values have their positions already, and there is a bucket for every named
pair. What it makes is sound, strong, and has exactly the pairs that were given. -/
namespace HybridTable

/-- A way in which a table is made. -/
inductive Origin where
  /-- Without any capacity. -/
  | empty
  /-- With room for so many positions and entries. -/
  | capacity (positions entries : Nat)
  /-- With named and positional values. -/
  | parts (named : List (Value × Value)) (positional : List Value)
  /-- With the given values and their number. -/
  | arguments (values : List Value)

/-- Values under the keys from 1 on, `nil` being skipped. -/
def Contents.ofSequence (values : List Value) : Contents :=
  values.zipIdx.foldl (fun m (value, i) =>
    if value = .nil then m else m.write (.int (Int64.ofNat (i + 1))) value) ∅

namespace Origin

/-- What the table has from the start. Of the named pairs, later ones win over earlier ones and over
positional values. -/
def contents : Origin → Contents
  | empty => ∅
  | capacity _ _ => ∅
  | parts named positional =>
    (named.filter fun (_, value) => !value.isNil).foldl
      (fun m (key, value) => Change.record m (.set key value)) (.ofSequence positional)
  | arguments values =>
    (Contents.ofSequence values).write (.text "n") (.int (Int64.ofNat values.length))

/-- The number of positions that are asked for. -/
def positions : Origin → Nat
  | empty => 0
  | capacity positions _ => positions
  | parts _ positional => positional.length
  | arguments values => values.length

/-- The array region is made no larger than it is meant to be. -/
def Bounded (origin : Origin) : Prop :=
  arrayCapacityFor origin.positions ≤ Table.maxArrayCapacity

instance (origin : Origin) : Decidable origin.Bounded := inferInstanceAs (Decidable (_ ≤ _))

/-- Makes the table. -/
def build [Hashing] : Origin → Except Error Table
  | empty => .ok .empty
  | capacity positions entries => .ok (.withCapacity positions entries)
  | parts named positional => Table.ofParts named positional
  | arguments values => .ok (.ofArguments values)

end Origin

namespace Table

variable [Hashing] {t t' : Table} {live : Liveness} {key value : Value} {m : Contents}

/-- Being sound and strong, and having exactly these pairs. -/
structure Represents (t : Table) (m : Contents) : Prop where
  /-- The layout is sound. -/
  sound : t.Sound
  /-- Nothing is weak. -/
  strong : t.policy = .allStrong
  /-- The pairs are these. -/
  stores : ∀ k v, t.Stores k v ↔ m.lookup k = some v

theorem Represents.tracks (represents : t.Represents m) (claimed : Key → Value → Prop) :
    Tracks claimed t m :=
  ⟨fun k v => (represents.stores k v).mp, fun k v found _ => (represents.stores k v).mpr found⟩

/-- A table in which nothing is weak has all pairs that it was ever claimed to have. -/
theorem Represents.of_tracks (sound : t.Sound) (strong : t.policy = .allStrong)
    (tracks : Tracks (fun _ _ => True) t m) : t.Represents m :=
  ⟨sound, strong, fun k v => ⟨tracks.recorded k v, fun found => tracks.kept k v found trivial⟩⟩

/-- A write in which nothing weak is involved changes the pairs as recorded. -/
theorem Represents.written {k : Key} (represents : t.Represents m)
    (written : Written live t k value t') : t'.Represents (m.write k value) := by
  refine .of_tracks written.sound (written.ruled.trans represents.strong) ?_
  apply written.tracks (represents.tracks _)
  intro k v _
  rw [represents.strong]
  exact WeakPolicy.spares_allStrong ..

theorem represents_sized {arrayCapacity hashCapacity : Nat}
    (arraySize : arrayCapacity = 0 ∨ ∃ n, arrayCapacity = 2 ^ n)
    (hashSize : hashCapacity = 0 ∨ ∃ n, hashCapacity = 2 ^ (n + 1))
    (addressable : arrayCapacity ≤ 2 ^ maxArrayBits) :
    (sized arrayCapacity hashCapacity none .allStrong).Represents ∅ := by
  refine ⟨sound_sized arraySize hashSize addressable, rfl, fun k v => ?_⟩
  rw [Finmap.lookup_empty]
  exact ⟨fun stored => (not_stores_sized stored).elim, nofun⟩

/-- What a write leaves as it is while there is a free bucket: the sizes of the regions. -/
structure Unmoved (t t' : Table) : Prop where
  /-- The array region has its size. -/
  arraySize : t'.array.size = t.array.size
  /-- The hash region has its size. -/
  hashSize : t'.buckets.size = t.buckets.size
  /-- One entry was added at most. -/
  count : t'.count ≤ t.count + 1

theorem unmoved_append (some_bucket : 0 < t.buckets.size) : Unmoved t (t.append key value) := by
  rw [append_eq, opened_of_buckets some_bucket]
  exact ⟨rfl, size_buckets_rechain, Nat.le_refl _⟩

theorem unmoved_removeHashed (live : Liveness) (t : Table) (key : Value) :
    Unmoved t (t.removeHashed live key) := by
  unfold removeHashed
  dsimp only
  split
  · exact ⟨rfl, size_buckets_setChain .., Nat.le_succ_of_le (Nat.sub_le ..)⟩
  · exact ⟨rfl, rfl, Nat.le_succ _⟩

theorem unmoved_setHashed (room : t.count < t.buckets.size) :
    Unmoved t (t.setHashed live key value) := by
  unfold setHashed
  dsimp only
  split
  · exact unmoved_removeHashed ..
  · split
    · exact ⟨rfl, size_buckets_setChain .., Nat.le_succ _⟩
    · let pruned := t.pruneChain (live.holding (key.refs ++ value.refs)) (t.bucketOf key)
      have buckets : pruned.buckets.size = t.buckets.size := size_buckets_setChain ..
      have count : pruned.count ≤ t.count := Nat.sub_le ..
      have free : pruned.count < pruned.buckets.size := by omega
      have appended : Unmoved pruned (pruned.append key value) := unmoved_append (by omega)
      have made : pruned.addHashed (live.holding (key.refs ++ value.refs)) key value =
          pruned.append key value := if_pos free
      have := appended.count
      show Unmoved t (pruned.addHashed _ key value)
      rw [made]
      exact ⟨appended.arraySize, appended.hashSize.trans buckets, by omega⟩

theorem unmoved_setInt {i : Int64} (room : t.count < t.buckets.size) :
    Unmoved t (t.setInt live i value) := by
  unfold setInt
  split
  · exact ⟨size_array_setCell .., rfl, Nat.le_succ _⟩
  · exact unmoved_setHashed room

theorem unmoved_put (room : t.count < t.buckets.size) : Unmoved t (t.put live key value) := by
  unfold put
  split
  · exact unmoved_setInt room
  · exact unmoved_setHashed room

/-- A removal needs no free bucket. -/
theorem unmoved_put_nil (live : Liveness) (t : Table) (key : Value) :
    Unmoved t (t.put live key .nil) := by
  unfold put
  split
  · unfold setInt
    split
    · exact ⟨size_array_setCell .., rfl, Nat.le_succ _⟩
    · exact unmoved_removeHashed ..
  · exact unmoved_removeHashed ..

/-- Filling positions that are there. -/
private theorem represents_fill {values : List (Value × Nat)} (represents : t.Represents m)
    (bounded : t.Bounded) (inside : ∀ v i, (v, i) ∈ values → i < t.array.size) :
    let t' := values.foldl (fun t (value, i) =>
      if value.isNil then t else t.setInt nothingReclaimed (Int64.ofNat (i + 1)) value) t
    t'.Represents (values.foldl (fun m (value, i) =>
      if value = .nil then m else m.write (.int (Int64.ofNat (i + 1))) value) m) ∧
      t'.array.size = t.array.size ∧ t'.buckets.size = t.buckets.size ∧ t'.count = t.count := by
  induction values generalizing t m with
  | nil => exact ⟨represents, rfl, rfl, rfl⟩
  | cons head rest ih =>
    obtain ⟨value, i⟩ := head
    have restInside : ∀ v j, (v, j) ∈ rest → j < t.array.size := fun v j member =>
      inside v j (List.mem_cons_of_mem _ member)
    simp only [List.foldl_cons]
    by_cases skipped : value = .nil
    · simp only [skipped, Value.isNil, ↓reduceIte]
      exact ih represents bounded restInside
    · have some_value : value.isNil = false :=
        Bool.eq_false_iff.mpr fun none => skipped (Value.isNil_iff.mp none)
      simp only [skipped, some_value, Bool.false_eq_true, ↓reduceIte]
      have found : t.position? (Int64.ofNat (i + 1)) = some i :=
        (position?_eq_some_iff bounded.addressable).mpr
          ⟨inside value i List.mem_cons_self, rfl⟩
      have made :
          t.setInt nothingReclaimed (Int64.ofNat (i + 1)) value = t.setPosition i value := by
        simp only [setInt, found]
      have size : (t.setPosition i value).array.size = t.array.size := size_array_setCell ..
      have bounded' : (t.setPosition i value).Bounded := bounded.of_size size
      have inside' : (t.setInt nothingReclaimed (Int64.ofNat (i + 1)) value).Bounded :=
        made ▸ bounded'
      have written := written_setInt represents.sound (.inl represents.strong) inside'
      rw [made] at written ⊢
      obtain ⟨filled, arrays, buckets, count⟩ := ih (represents.written written) bounded'
        (fun v j member => size.symm ▸ restInside v j member)
      exact ⟨filled, arrays.trans size, buckets, count⟩

theorem represents_ofSequence {values : List Value} (entries : Nat)
    (inside : arrayCapacityFor values.length ≤ maxArrayCapacity) :
    (ofSequence values entries).Represents (.ofSequence values) ∧
      (ofSequence values entries).array.size = arrayCapacityFor values.length ∧
      (ofSequence values entries).buckets.size = hashCapacityFor entries ∧
      (ofSequence values entries).count = 0 := by
  have arrays :
      (withCapacity values.length entries).array.size = arrayCapacityFor values.length := by
    simp [withCapacity, sized]
  have buckets : (withCapacity values.length entries).buckets.size = hashCapacityFor entries := by
    simp [withCapacity, sized]
  have represents : (withCapacity values.length entries).Represents ∅ :=
    represents_sized (arrayCapacityFor_eq _) (hashCapacityFor_eq _)
      (Nat.le_trans inside maxArrayCapacity_le)
  have fits : ∀ v i, (v, i) ∈ values.zipIdx →
      i < (withCapacity values.length entries).array.size := by
    intro v i member
    have := le_arrayCapacityFor values.length
    have := (List.mem_zipIdx' member).1
    omega
  obtain ⟨filled, sizes⟩ :=
    represents_fill represents (by rwa [Bounded, arrayCapacity, arrays]) fits
  rw [arrays, buckets] at sizes
  exact ⟨filled, sizes⟩

/-- Storing pairs for which there are buckets. -/
private theorem represents_store {pairs : List (Value × Value)} (represents : t.Represents m)
    (bounded : t.Bounded) (room : t.count + pairs.length ≤ t.buckets.size)
    (stored : pairs.foldlM (fun t (key, value) => t.set nothingReclaimed key value) t = .ok t') :
    t'.Represents (pairs.foldl (fun m (key, value) => Change.record m (.set key value)) m) ∧
      t'.array.size = t.array.size := by
  induction pairs generalizing t m with
  | nil =>
    cases stored
    exact ⟨represents, rfl⟩
  | cons head rest ih =>
    obtain ⟨key, value⟩ := head
    rw [List.length_cons] at room
    rw [List.foldlM_cons] at stored
    dsimp only at stored
    cases named : key.toKey? with
    | none =>
      obtain ⟨defect, _, refused⟩ := set_of_invalid nothingReclaimed t value named
      rw [refused] at stored
      cases stored
    | some k =>
      rw [set_of_named named] at stored
      have unmoved : Unmoved t (t.put nothingReclaimed key value) := unmoved_put (by omega)
      have bounded' : (t.put nothingReclaimed key value).Bounded :=
        bounded.of_size unmoved.arraySize
      have written := written_put represents.sound (.inl represents.strong) named bounded'
      have count := unmoved.count
      have buckets := unmoved.hashSize
      obtain ⟨filled, size⟩ := ih (represents.written written) bounded' (by omega) stored
      simp only [List.foldl_cons, Change.record, named]
      exact ⟨filled, size.trans unmoved.arraySize⟩

/-- Every table is made with exactly the pairs that were given, in an array region of the size that
was asked for. -/
theorem represents_build {origin : Origin} (bounded : origin.Bounded)
    (built : origin.build = .ok t) : t.Represents origin.contents ∧ t.Bounded := by
  have addressable : arrayCapacityFor origin.positions ≤ 2 ^ maxArrayBits :=
    Nat.le_trans bounded maxArrayCapacity_le
  cases origin with
  | empty =>
    cases built
    exact ⟨represents_sized (.inl rfl) (.inl rfl) (Nat.zero_le _), Nat.zero_le _⟩
  | capacity positions entries =>
    cases built
    refine ⟨represents_sized (arrayCapacityFor_eq _) (hashCapacityFor_eq _) addressable, ?_⟩
    simpa [withCapacity, sized, Table.Bounded, arrayCapacity] using
      show arrayCapacityFor positions ≤ maxArrayCapacity from bounded
  | parts named positional =>
    obtain ⟨represents, arrays, buckets, count⟩ := represents_ofSequence
      (named.filter fun (_, value) => !value.isNil).length bounded
    have inside : (ofSequence positional
        (named.filter fun (_, value) => !value.isNil).length).Bounded := by
      rwa [Table.Bounded, arrayCapacity, arrays]
    obtain ⟨filled, size⟩ := represents_store represents inside
      (by rw [count, buckets, Nat.zero_add]; exact le_hashCapacityFor _) built
    exact ⟨filled, inside.of_size size⟩
  | arguments values =>
    obtain ⟨represents, arrays, buckets, count⟩ := represents_ofSequence 1 bounded
    cases built
    have room : (ofSequence values 1).count < (ofSequence values 1).buckets.size := by
      have := le_hashCapacityFor 1
      omega
    have unmoved : Unmoved (ofSequence values 1) (ofArguments values) := unmoved_setHashed room
    have inside : (ofSequence values 1).Bounded := by
      rwa [Table.Bounded, arrayCapacity, arrays]
    have inside' := inside.of_size unmoved.arraySize
    exact ⟨represents.written (written_setHashed represents.sound (.inl represents.strong) rfl rfl
      (fun i same => by cases same) inside'), inside'⟩

end Table

end HybridTable
