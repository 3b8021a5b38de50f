import HybridTable.Proofs.Construction
import HybridTable.Proofs.Sizing

/-! The limits of the array region at their edge. A rehash may make the array region twice as large
as it is documented to be, and that gives a position to one key that is beyond the range of array
keys, the first of them. It is found there, but when it is new it is stored as an entry. All other
writes can be read back, also in tables that have outgrown the documented size. -/
namespace HybridTable.Table

variable [Hashing] {t t' next : Table} {live : Liveness} {alive : Ref → Bool} {value : Value}
  {i : Int64}

/-! ## The sizes that a rehash chooses -/

omit [Hashing] in
/-- A size beyond the documented one takes that many integer keys. -/
theorem arraySizeFor_limit (keys : List Nat) : arraySizeFor keys ≤ maxArrayCapacity ∨
    arraySizeFor keys = 2 ^ maxArrayBits ∧
      maxArrayCapacity ≤ keys.countP (· ≤ 2 ^ maxArrayBits) := by
  rw [arraySizeFor_eq_findGreatest]
  cases found : Nat.findGreatest (fun bits => 2 ^ bits ≤ 2 * keys.countP (· ≤ 2 ^ bits))
      maxArrayBits with
  | zero => exact .inl (Nat.zero_le _)
  | succ bits =>
    have enough := Nat.findGreatest_of_ne_zero found (Nat.succ_ne_zero bits)
    have inside : bits + 1 ≤ maxArrayBits := found ▸ Nat.findGreatest_le maxArrayBits
    by_cases last : bits + 1 = maxArrayBits
    · right
      rw [last] at enough ⊢
      have half : 2 ^ maxArrayBits = 2 * maxArrayCapacity := rfl
      exact ⟨rfl, by omega⟩
    · left
      exact Nat.pow_le_pow_right (by decide) (by omega)

omit [Hashing] in
theorem within_mono {k : Key} {limit more : Nat} (larger : limit ≤ more)
    (inside : k.within limit = true) : k.within more = true := by
  cases k with
  | int i =>
    simp only [Key.within, decide_eq_true_eq] at inside ⊢
    omega
  | _ => cases inside

/-- No key is counted twice. -/
theorem Lists.countP_countedKey?_le {items : List Moving} {keys : Finset Key}
    (lists : t.Lists items keys) (sound : t.Sound) :
    (items.filterMap Moving.countedKey?).countP (· ≤ 2 ^ maxArrayBits) ≤
      countInside keys (2 ^ maxArrayBits) := by
  rw [countInside, ← lists.countP_eq sound, List.countP_filterMap]
  refine List.countP_mono_left fun item listed counted => ?_
  have proper := sound.proper (lists.part.mem listed)
  obtain ⟨k, named⟩ := Option.ne_none_iff_exists'.mp proper.named
  rw [named, Option.any_some, ← proper.isSome_arrayKey? named]
  cases item with
  | cell n c =>
    have inside : n ≤ 2 ^ maxArrayBits := of_decide_eq_true counted
    rw [Moving.arrayKey?, if_pos inside]
    rfl
  | entry e =>
    have found : ((Moving.entry e).arrayKey? maxArrayKey).isSome = true := by
      rw [← Option.isSome_map]
      exact Option.isSome_of_any counted
    rw [proper.isSome_arrayKey? named]
    exact within_mono (by decide) ((proper.isSome_arrayKey? named maxArrayKey).symm.trans found)

/-- A rehash that goes beyond the documented size has that many integer keys to make room for. -/
theorem idealSizes_limit {keys : Finset Key} {k : Key} (reads : t.Readable alive keys)
    (sound : t.Sound) (fresh : k ∉ keys) :
    (t.idealSizes alive k.pending).1 ≤ maxArrayCapacity ∨
      (t.idealSizes alive k.pending).1 = 2 ^ maxArrayBits ∧
        maxArrayCapacity ≤ countInside (withPending (some k) keys) (2 ^ maxArrayBits) := by
  rw [idealSizes_array]
  refine (arraySizeFor_limit _).imp_right fun ⟨size, many⟩ => ⟨size, Nat.le_trans many ?_⟩
  have own : (t.countedKeys alive).countP (· ≤ 2 ^ maxArrayBits) ≤
      countInside keys (2 ^ maxArrayBits) := (reads.lists sound).countP_countedKey?_le sound
  rw [withPending, countInside_insert fresh]
  cases k with
  | int i =>
    by_cases range : 0 < i.toInt ∧ i.toInt ≤ maxArrayKey
    · have array : (Key.int i).within maxArrayKey = true := decide_eq_true range
      have inside : (Key.int i).within (2 ^ maxArrayBits) = true := within_mono (by decide) array
      have one : List.countP (· ≤ 2 ^ maxArrayBits) [i.toInt.toNat] ≤ 1 := List.countP_le_length
      simp only [Key.pending, if_pos range, Pending.counted, inside, ↓reduceIte]
      rw [← List.singleton_append, List.countP_append]
      omega
    · simp only [Key.pending, if_neg range, Pending.counted]
      exact Nat.le_trans own (Nat.le_add_right ..)
  | _ => exact Nat.le_trans own (Nat.le_add_right ..)

/-- In a strong table all stored keys can be read. -/
theorem holds_liveKeys (sound : t.Sound) (strong : t.policy = .allStrong) (alive : Ref → Bool) :
    t.Holds (t.liveKeys alive) := by
  intro k
  rw [readable_liveKeys sound alive k, strong]
  exact exists_congr fun v => and_iff_left (WeakPolicy.spares_allStrong alive k v)

/-- Making room for a new key leaves the size of the array region alone or makes a rehash. -/
theorem arrayCapacity_addHashed {keys : Finset Key} {key : Value} {k : Key} (sound : t.Sound)
    (strong : t.policy = .allStrong) (holds : t.Holds keys) (fresh : k ∉ keys)
    (normal : key.IsNormal) (named : key.toKey? = some k)
    (moved : (t.addHashed live key value).arrayCapacity ≠ t.arrayCapacity) :
    (t.addHashed live key value).arrayCapacity ≤ maxArrayCapacity ∨
      (t.addHashed live key value).arrayCapacity = 2 ^ maxArrayBits ∧ maxArrayCapacity ≤
        countInside (withPending (some k) keys) (2 ^ maxArrayBits) := by
  have sizes := congrArg Prod.fst (capacities_addHashed t live value normal named)
  by_cases room : t.count < t.buckets.size
  · rw [if_pos room] at sizes
    exact absurd sizes moved
  · rw [if_neg room] at sizes
    have size : (t.addHashed live key value).arrayCapacity = _ := sizes
    rw [size]
    exact idealSizes_limit (holds.readable strong _) sound fresh

/-- A write changes the size of the array region only by a rehash for a new key. -/
theorem arrayCapacity_setInt (sound : t.Sound) (strong : t.policy = .allStrong)
    (stored : value ≠ .nil) (live : Liveness) (alive : Ref → Bool) (i : Int64)
    (moved : (t.setInt live i value).arrayCapacity ≠ t.arrayCapacity) :
    (t.setInt live i value).arrayCapacity ≤ maxArrayCapacity ∨
      (t.setInt live i value).arrayCapacity = 2 ^ maxArrayBits ∧ maxArrayCapacity ≤
        countInside (withPending (some (.int i)) (t.liveKeys alive)) (2 ^ maxArrayBits) := by
  have fair : live.Fair t.policy := .inl strong
  cases placed : t.position? i with
  | some position =>
    refine absurd ?_ moved
    simp only [setInt, placed]
    exact congrArg Prod.fst (capacities_setPosition t position value)
  | none =>
    by_cases present : ∃ v, t.Stores (.int i) v
    · exact absurd (size_array_of_frame (frame_setInt sound fair fun _ => present)) moved
    have absent (v : Value) : ¬ t.Stores (.int i) v := fun found => present ⟨v, found⟩
    have outside (j : Int64) (same : (Value.int i).normalize = .int j) : t.position? j = none :=
      Value.int.inj same ▸ placed
    obtain ⟨pruned, array, -, -⟩ := migrated_pruneChain sound
      (fair.holding ((Value.int i).refs ++ value.refs)) (t.bucketOf (.int i))
    have size := congrArg Array.size array
    have holds := holds_liveKeys sound strong alive
    have fresh : Key.int i ∉ t.liveKeys alive := fun listed => present ((holds _).mp listed)
    have made : t.put live (.int i) value = _ := put_of_absent sound rfl stored outside absent
    rw [show t.setInt live i value = t.put live (.int i) value from rfl] at moved ⊢
    rw [made] at moved ⊢
    exact arrayCapacity_addHashed pruned.sound (pruned.ruled.trans strong)
      (pruned.holds strong holds) fresh rfl rfl fun same => moved (same.trans size)

/-! ## The key at the limit -/

/-- How a write can lose what it stores: the array region outgrows the array keys by its rehash, and
the key is the first one beyond these. -/
structure Outgrown (t next : Table) (i : Int64) : Prop where
  /-- The key is the first one that is no array key. -/
  first : i.toInt = maxArrayKey + 1
  /-- Before, there were positions for array keys at most. -/
  before : t.arrayCapacity ≤ maxArrayKey
  /-- Now the key has a position. -/
  after : maxArrayKey < next.arrayCapacity

instance (t next : Table) (i : Int64) : Decidable (t.Outgrown next i) :=
  decidable_of_iff (i.toInt = maxArrayKey + 1 ∧ t.arrayCapacity ≤ maxArrayKey ∧
      maxArrayKey < next.arrayCapacity)
    ⟨fun ⟨first, before, after⟩ => ⟨first, before, after⟩,
      fun ⟨first, before, after⟩ => ⟨first, before, after⟩⟩

omit [Hashing] in
/-- A key without a position stays without one unless the array region outgrows it. -/
theorem leavesOut_iff (outside : t.position? i = none) (small : next.array.size ≤ maxArrayKey + 1) :
    next.LeavesOut i ↔ ¬ t.Outgrown next i := by
  have apart : ¬ (1 ≤ i.toInt ∧ i.toInt ≤ t.array.size) := fun inside => by
    rw [position?, if_pos inside] at outside
    cases outside
  constructor
  · intro leftOut grown
    have first := grown.first
    have after : maxArrayKey < next.array.size := grown.after
    have unplaced := leftOut (by omega)
    rw [position?, if_pos (by omega)] at unplaced
    cases unplaced
  · intro kept beyond
    unfold position?
    split
    · rename_i inside
      refine absurd ⟨by omega, ?_, ?_⟩ kept
      · unfold arrayCapacity
        omega
      · unfold arrayCapacity
        omega
    · rfl

theorem array_append (t : Table) (key value : Value) : (t.append key value).array = t.array := by
  unfold append
  split <;> rfl

/-- A new entry is not looked for under a key with a position. -/
theorem getInt_append_of_position (key value : Value) (placed : t.position? i ≠ none) :
    (t.append key value).getInt alive i = t.getInt alive i := by
  obtain ⟨position, found⟩ := Option.ne_none_iff_exists'.mp placed
  have found' : (t.append key value).position? i = some position := by
    rw [← found, position?, size_array_append]
    rfl
  rw [getInt, getInt, found, found']
  dsimp only
  rw [readPosition, array_append]
  rfl

/-- A write by which the array region outgrows its key cannot be read back. -/
theorem get_of_outgrown (sound : t.Sound) (fair : live.Fair t.policy)
    (grown : t.Outgrown (t.setInt live i value) i) :
    (t.setInt live i value).get alive (.int i) = none := by
  show (t.setInt live i value).getInt alive i = none
  have first := grown.first
  have before : t.array.size ≤ maxArrayKey := grown.before
  have after : maxArrayKey < (t.setInt live i value).array.size := grown.after
  have outside : t.position? i = none := if_neg (by omega)
  have made : t.setInt live i value = t.setHashed live (.int i) value := by
    simp only [setInt, outside]
  rw [made] at after ⊢
  rcases setHashed_beyond sound fair (by omega) outside value with same | again
  · omega
  obtain ⟨between, pruned, -, absent, -, made⟩ := again
  obtain ⟨moved, -, -⟩ := migrated_rehash pruned.sound
    (pruned.ruled.symm ▸ fair.holding value.refs) between.metatable .hashKey (.inr rfl)
  rw [made] at after ⊢
  rw [size_array_append] at after
  have placed : (between.rehash (live.holding value.refs) .hashKey).position? i ≠ none := by
    rw [position?, if_pos (by omega)]
    exact Option.some_ne_none _
  rw [getInt_append_of_position _ _ placed]
  refine Option.eq_none_iff_forall_ne_some.mpr fun v read => ?_
  have stored := (moved.sound.getInt_eq_some_iff.mp read).1
  exact absent v (stores_governed.mp (moved.keeps.stale _ v trivial stored))

/-! ## Tables of any size -/

/-- The tables that operations can leave behind, whatever size the array region comes to, if only as
many positions are asked for as it is documented to have, and as long as no write has lost its
pair. -/
inductive Attainable : Table → Prop
  /-- A new table. -/
  | made {origin : Origin} {t : Table} (inside : origin.Bounded) (built : origin.build = .ok t) :
    Attainable t
  /-- A write that may be refused, more room, or another metatable with any mode. -/
  | changed {t : Table} {live : Liveness} {c : Change} (earlier : Attainable t)
    (lawful : live.Lawful) (hint : ∀ positions, c = .presize positions →
      positions ≤ maxArrayCapacity) (parted : (c.perform live t).Parted) :
    Attainable (c.perform live t)
  /-- An insertion into a list. -/
  | inserted {t : Table} {live : Liveness} {key : Int64} {value : Value} (earlier : Attainable t)
    (lawful : live.Lawful) (parted : (t.insert live key value).Parted) :
    Attainable (t.insert live key value)
  /-- A removal from a list that found something to remove. -/
  | removed {t t' : Table} {live : Liveness} {key : Int64} {value : Value} (earlier : Attainable t)
    (lawful : live.Lawful) (found : t.remove live key = some (value, t')) : Attainable t'
  /-- A sort during which the table could not be changed. -/
  | sortedBy {σ ε : Type} {less : Sort.Comparison Value σ ε} {alive : Ref → Bool} {t t' : Table}
    {s s' : σ} (earlier : Attainable t) (sorted : t.sortBy less alive s = (.ok t', s')) :
    Attainable t'
  /-- A sort of a copy of the leading values, which is written back to what has become of the table
  meanwhile. -/
  | sorted {σ ε : Type} {less : Sort.Comparison Value σ ε} {alive : Ref → Bool} {source t : Table}
    {s s' : σ} {values : Vector Value (source.sequence alive).toArray.size}
    (copied : Attainable source) (earlier : Attainable t)
    (sorted : Sort.heapSort less (source.sequence alive).toArray.toVector s =
      ⟨.ok (), values, s'⟩) : Attainable (t.storeSequence values.toList)

theorem Sound.presizeArray (sound : t.Sound) (fair : live.Fair t.policy) {positions : Nat}
    (hint : positions ≤ maxArrayCapacity) : (t.presizeArray live positions).Sound := by
  by_cases more : t.array.size < positions
  · refine (migrated_presizeArray sound fair ?_).sound
    rw [Table.presizeArray, if_pos more, Bounded, arrayCapacity, size_array_resize]
    exact arrayCapacityFor_le hint
  · rw [Table.presizeArray, if_neg more]
    exact sound

/-- A change keeps the layout if it loses nothing. -/
theorem Sound.perform_of_parted {c : Change} (sound : t.Sound) (fair : live.Fair t.policy)
    (hint : ∀ positions, c = .presize positions → positions ≤ maxArrayCapacity)
    (parted : (c.perform live t).Parted) : (c.perform live t).Sound := by
  cases c with
  | set key value =>
    cases named : key.toKey? with
    | none => rwa [perform_set_of_invalid named]
    | some k =>
      rw [perform_set_of_named named] at parted ⊢
      exact (written_put_of_parted sound fair named parted).sound
  | setInt key value => exact (written_setInt_of_parted sound fair parted).sound
  | presize positions => exact sound.presizeArray fair (hint positions rfl)
  | attach metatable mode =>
    exact (migrated_attachMetatable sound fair metatable (.ofMode mode)).sound

/-- As long as no write loses its pair, every operation keeps the layout. -/
theorem Attainable.sound (attainable : t.Attainable) : t.Sound := by
  induction attainable with
  | made inside built => exact (represents_build inside built).1.sound
  | changed _ lawful hint parted ih => exact ih.perform_of_parted (.inr lawful) hint parted
  | inserted _ lawful parted ih => exact ih.insert_of_parted (.inr lawful) parted
  | removed _ lawful found ih => exact (ih.remove (.inr lawful) found).1
  | sortedBy _ sorted ih => exact (ih.sortBy sorted).1
  | sorted _ _ sorted source ih => exact ih.storeSorted source sorted

/-- Tables that keep to the documented size are among them. -/
theorem Reachable.attainable (reachable : t.Reachable) : t.Attainable := by
  induction reachable with
  | made inside built => exact .made inside built
  | @changed t live c earlier lawful bounded ih =>
    refine .changed ih lawful (fun positions same => ?_) bounded.parted
    subst same
    have small : (t.presizeArray live positions).array.size ≤ maxArrayCapacity := bounded
    have enough := le_arrayCapacityFor positions
    unfold presizeArray at small
    split at small
    · rw [size_array_resize] at small
      omega
    · omega
  | inserted _ lawful bounded ih => exact .inserted ih lawful bounded.parted
  | removed _ lawful found ih => exact .removed ih lawful found
  | sortedBy _ sorted ih => exact .sortedBy ih sorted
  | sorted _ _ sorted source ih => exact .sorted source ih sorted

/-- A write of an integer key can be read back, however many there are already, unless the array
region outgrows the key by it. That takes a rehash that chooses twice the documented size, and as
many integer keys as half of its positions. -/
theorem set_at_array_limit (attainable : t.Attainable) (strong : t.policy = .allStrong)
    (live : Liveness) (alive : Ref → Bool) (i : Int64) {value : Value} (stored : value ≠ .nil) :
    ∃ next, t.set live (.int i) value = .ok next ∧
      next.get alive (.int i) = (if t.Outgrown next i then none else some value) ∧
      (live.Lawful → ¬ t.Outgrown next i → next.Attainable) ∧
      (next.arrayCapacity ≠ t.arrayCapacity → next.arrayCapacity ≤ maxArrayCapacity ∨
        next.arrayCapacity = 2 * maxArrayCapacity ∧ maxArrayCapacity ≤
          countInside (withPending (some (.int i)) (t.liveKeys alive)) (2 * maxArrayCapacity)) := by
  have sound := attainable.sound
  have fair : live.Fair t.policy := .inl strong
  have sizes := arrayCapacity_setInt sound strong stored live alive i
  have small : (t.setInt live i value).array.size ≤ maxArrayKey + 1 := by
    have limit : maxArrayCapacity ≤ maxArrayKey := by decide
    have largest : 2 ^ maxArrayBits = maxArrayKey + 1 := by decide
    have addressable := sound.addressable
    by_cases same : (t.setInt live i value).arrayCapacity = t.arrayCapacity
    · exact Nat.le_trans (Nat.le_of_eq same) (largest ▸ addressable)
    · rcases sizes same with documented | ⟨twice, _⟩
      · exact Nat.le_trans documented (by omega)
      · exact Nat.le_of_eq (twice.trans largest)
  have written (kept : ¬ t.Outgrown (t.setInt live i value) i) :
      Written (live.holding value.refs) t (.int i) value (t.setInt live i value) :=
    written_setInt_of_leavesOut sound fair fun outside => (leavesOut_iff outside small).mpr kept
  refine ⟨t.setInt live i value, set_of_named rfl, ?_, fun lawful kept => ?_, sizes⟩
  · split
    · rename_i grown
      exact get_of_outgrown sound fair grown
    · rename_i kept
      exact (written kept).getInt_own strong stored
  · have parted : ((Change.setInt i value).perform live t).Parted := (written kept).sound.parted
    refine .changed attainable lawful (fun positions same => ?_) parted
    cases same

omit [Hashing] in
/-- A new key at the limit in a table with few integer keys. -/
theorem set_at_array_limit_of_few :
    let changes : List Change := [.setInt 1 (.int 10), .set (.text (.short "a")) (.bool true),
      .setInt 2147483647 (.int 20)]
    let t := @after .uniform .empty (changes.map (nothingReclaimed, ·))
    let alive : Ref → Bool := fun _ => true
    ∃ next, @set .uniform nothingReclaimed t (.int 2147483648) (.int 30) = .ok next ∧
      @get .uniform next alive (.int 2147483648) = some (.int 30) ∧
      t.capacities = (2, 2) ∧ next.capacities = (2, 4) := by
  intro changes t alive
  let hashing : Hashing := .uniform
  have reachable : t.Reachable := reachable_after_empty (by decide +kernel)
  obtain ⟨next, made, read, -⟩ := set_at_array_limit reachable.attainable (by decide +kernel)
    nothingReclaimed alive 2147483648 (show Value.int 30 ≠ .nil from nofun)
  obtain rfl : t.setInt nothingReclaimed 2147483648 (.int 30) = next := Except.ok.inj made
  refine ⟨_, made, ?_, by decide +kernel, by decide +kernel⟩
  rwa [if_neg (by decide +kernel)] at read

/-! ## A write that is lost -/

/-- A table with a value at each position of its array region, stored one after another. -/
def filled (n : Nat) : Table :=
  after (.withCapacity n 0) ((List.range n).map fun i =>
    (nothingReclaimed, .setInt (Int64.ofNat (i + 1)) (.bool true)))

theorem filled_eq (n : Nat) : filled n = ofSequence (List.replicate n (.bool true)) 0 := by
  have listed (start : Nat) : (List.replicate n (Value.bool true)).zipIdx start =
      (List.range' start n).map fun i => (.bool true, i) := by
    induction n generalizing start with
    | zero => rfl
    | succ n ih => rw [List.replicate_succ, List.zipIdx_cons, List.range'_succ, List.map_cons, ih]
  rw [filled, ofSequence, listed, ← List.range_eq_range', List.length_replicate, after,
    List.foldl_map, List.foldl_map]
  rfl

omit [Hashing] in
theorem le_countInside {keys : Finset Key} {n limit : Nat} (inside : n ≤ limit)
    (short : limit < 2 ^ 63) (all : ∀ j < n, Key.int (Int64.ofNat (j + 1)) ∈ keys) :
    n ≤ countInside keys limit := by
  have number {j : Nat} (below : j < n) : (Int64.ofNat (j + 1)).toInt = j + 1 :=
    toInt_ofNat_succ below (by omega)
  calc n = (Finset.range n).card := (Finset.card_range n).symm
    _ ≤ countInside keys limit := by
      refine Finset.card_le_card_of_injOn (fun j => Key.int (Int64.ofNat (j + 1))) ?_ ?_
      · intro j member
        have below : j < n := by simpa using member
        refine Finset.mem_filter.mpr ⟨all j below, ?_⟩
        simp only [Key.within, decide_eq_true_eq, number below]
        omega
      · intro j member j' member' same
        have below : j < n := by simpa using member
        have below' : j' < n := by simpa using member'
        have equal := congrArg Int64.toInt (Key.int.inj same)
        rw [number below, number below'] at equal
        omega

section
variable {n : Nat} (small : n ≤ maxArrayCapacity)
include small

theorem reachable_filled : (filled n).Reachable := by
  have inside : (Origin.parts [] (List.replicate n (.bool true))).Bounded := by
    rw [Origin.Bounded, Origin.positions, List.length_replicate]
    exact arrayCapacityFor_le small
  refine .made inside ?_
  rw [filled_eq]
  rfl

/-- The array region has the capacity that was asked for, and there is no bucket. -/
theorem shaped_filled (alive : Ref → Bool) :
    (filled n).Shaped ⟨arrayCapacityFor n, 0, (filled n).liveKeys alive⟩ := by
  obtain ⟨sound, bounded⟩ := (reachable_filled small).sound_bounded
  have inside : arrayCapacityFor (List.replicate n (Value.bool true)).length ≤
      maxArrayCapacity := by
    rw [List.length_replicate]
    exact arrayCapacityFor_le small
  obtain ⟨represents, arrays, buckets, -⟩ := represents_ofSequence 0 inside
  rw [← filled_eq] at represents arrays buckets
  rw [List.length_replicate] at arrays
  exact ⟨sound, represents.strong, bounded, arrays, buckets,
    holds_liveKeys sound represents.strong alive⟩

/-- What can be read are the values of all positions. -/
theorem mem_liveKeys_filled (alive : Ref → Bool) (k : Key) : k ∈ (filled n).liveKeys alive ↔
    ∃ j < n, k = .int (Int64.ofNat (j + 1)) := by
  have limit : maxArrayCapacity < 2 ^ 63 := by decide
  have sound := (reachable_filled small).sound_bounded.1
  have reads : (ofSequence (List.replicate n (.bool true)) 0).Reads _ :=
    reads_ofSequence (fun v member => by simp [List.eq_of_mem_replicate member])
      (by rw [List.length_replicate]; omega)
  rw [← filled_eq] at reads
  rw [mem_liveKeys_iff sound]
  constructor
  · rintro ⟨key, spelled, present⟩
    obtain ⟨v, read⟩ := Option.ne_none_iff_exists'.mp present
    obtain ⟨k', named, listed⟩ := (reads.get_iff alive key v).mp read
    cases spelled.symm.trans named
    obtain ⟨j, found, rfl⟩ := mem_listing.mp listed
    rw [List.getElem?_replicate] at found
    split at found
    · exact ⟨j, ‹_›, rfl⟩
    · cases found
  · rintro ⟨j, below, rfl⟩
    refine ⟨.int (Int64.ofNat (j + 1)), rfl, ?_⟩
    have found := List.getElem?_replicate_of_lt (a := Value.bool true) below
    rw [(reads.get_iff alive _ _).mpr ⟨_, rfl, mem_listing.mpr ⟨j, found, rfl⟩⟩]
    nofun

end

omit [Hashing] in
theorem idealArray_eq_of_many {keys : Finset Key}
    (many : maxArrayCapacity ≤ countInside keys maxArrayKey) :
    idealArray keys = 2 ^ maxArrayBits := by
  have greatest : Nat.findGreatest
      (fun bits => 2 ^ bits ≤ 2 * countInside keys (min (2 ^ bits) maxArrayKey)) maxArrayBits =
        maxArrayBits := by
    refine Nat.le_antisymm (Nat.findGreatest_le _) (Nat.le_findGreatest (Nat.le_refl _) ?_)
    have limit : min (2 ^ maxArrayBits) maxArrayKey = maxArrayKey := by decide
    have half : 2 ^ maxArrayBits = 2 * maxArrayCapacity := rfl
    rw [limit]
    omega
  rw [idealArray, greatest]
  rfl

/-- If all positions of the documented size are in use and there is no bucket, the first key that is
no array key makes the array region twice as large. -/
theorem outgrown_filled {n : Nat} (full : n = maxArrayCapacity) (live : Liveness)
    (stored : value ≠ .nil) (first : i.toInt = maxArrayKey + 1) :
    (filled n).Outgrown ((filled n).setInt live i value) i := by
  have small : n ≤ maxArrayCapacity := Nat.le_of_eq full
  have limit : maxArrayCapacity ≤ maxArrayKey := by decide
  have short : maxArrayKey < 2 ^ 63 := by decide
  have members := mem_liveKeys_filled small fun _ => true
  have shaped := shaped_filled small fun _ => true
  generalize (filled n).liveKeys (fun _ => true) = keys at members shaped
  have array : (filled n).array.size ≤ maxArrayCapacity := shaped.bounded
  have capacity : (filled n).arrayCapacity = arrayCapacityFor n := shaped.arraySize
  have outside : (filled n).position? i = none := if_neg (by omega)
  have fresh : Key.int i ∉ keys := by
    intro listed
    obtain ⟨j, below, same⟩ := (members _).mp listed
    have number := toInt_ofNat_succ below (by omega)
    rw [← Key.int.inj same] at number
    omega
  have many : maxArrayCapacity ≤ countInside (withPending (some (.int i)) keys) maxArrayKey := by
    refine le_countInside limit short fun j below => Finset.mem_insert_of_mem ?_
    exact (members _).mpr ⟨j, full ▸ below, rfl⟩
  have unplaced : (Key.int i).within (arrayCapacityFor n) = false := by
    rw [← capacity, ← isSome_position?, outside]
    rfl
  have normal : (Value.int i).IsNormal := rfl
  have sized : ((filled n).setHashed live (.int i) value).SizedAs _ :=
    sizedAs_setHashed shaped normal rfl fun j same => Value.int.inj same ▸ outside
  have size := sized.1
  rw [Shape.store_grown stored fresh unplaced (Nat.zero_le _)] at size
  have size : ((filled n).setHashed live (.int i) value).arrayCapacity =
      idealArray (withPending (some (.int i)) keys) := size
  have made : (filled n).setInt live i value = (filled n).setHashed live (.int i) value := by
    simp only [setInt, outside]
  refine ⟨first, Nat.le_trans array limit, ?_⟩
  rw [made, size, idealArray_eq_of_many many]
  decide

/-- Such a write is not refused, but it is lost. -/
theorem set_filled {n : Nat} (full : n = maxArrayCapacity) (live : Liveness) (stored : value ≠ .nil)
    (first : i.toInt = maxArrayKey + 1) :
    ∃ next, (filled n).set live (.int i) value = .ok next ∧
      maxArrayCapacity < next.arrayCapacity ∧ ∀ alive, next.get alive (.int i) = none := by
  have shaped := shaped_filled (Nat.le_of_eq full) fun _ => true
  have grown := outgrown_filled full live stored first
  have documented : maxArrayCapacity ≤ maxArrayKey := by decide
  exact ⟨(filled n).setInt live i value, set_of_named rfl,
    Nat.lt_of_le_of_lt documented grown.after,
    fun _ => get_of_outgrown shaped.sound (.inl shaped.strong) grown⟩

omit [Hashing] in
/-- After 2 ^ 30 values were stored in an array region of that size, the key 2 ^ 31 cannot be read
after it was written, and the array region is larger than it is documented to be. -/
theorem set_lost_at_array_limit :
    let t := @filled .uniform maxArrayCapacity
    @Attainable .uniform t ∧ t.policy = .allStrong ∧ t.arrayCapacity = maxArrayCapacity ∧
      ∃ next, @set .uniform nothingReclaimed t (.int 2147483648) (.int 1) = .ok next ∧
        maxArrayCapacity < next.arrayCapacity ∧
        ∀ alive, @get .uniform next alive (.int 2147483648) = none := by
  let hashing : Hashing := .uniform
  have shaped := shaped_filled (Nat.le_refl maxArrayCapacity) fun _ => true
  have size : arrayCapacityFor maxArrayCapacity = maxArrayCapacity := by decide +kernel
  have first : (2147483648 : Int64).toInt = maxArrayKey + 1 := by decide
  have some_value : Value.int 1 ≠ .nil := nofun
  exact ⟨(reachable_filled (Nat.le_refl maxArrayCapacity)).attainable, shaped.strong,
    shaped.arraySize.trans size, set_filled rfl nothingReclaimed some_value first⟩

end HybridTable.Table
