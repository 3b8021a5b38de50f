import HybridTable.Proofs.Chains

/-! Where a table keeps its pairs. `Stores` says which value was last put under a key, read off the
storage alone: no lookup defines it, and neither does what is alive. `Sound` is the layout that
every operation relies on and restores. In a sound table a key has one place at most, and reading
finds exactly what is stored and spared. -/
namespace HybridTable

/-- One hash code for all strings and objects, so that they share a bucket with each other. -/
@[reducible] def Hashing.uniform : Hashing := ⟨fun _ => 0, fun _ => 0⟩

/-- The entries of joined chains add up. -/
theorem Chain.entryCount_append (a b : Chain) :
    Chain.entryCount (a ++ b) = a.entryCount + b.entryCount := List.countP_append

/-- Replacing one of many chains changes the number of entries by what the two differ in. -/
theorem Chain.entryCount_set {chains : List Chain} {bucket : Nat} {chain : Chain}
    (found : chains[bucket]? = some chain) (written : Chain) :
    Chain.entryCount (chains.set bucket written).flatten + chain.entryCount =
      Chain.entryCount chains.flatten + written.entryCount := by
  induction chains generalizing bucket with
  | nil => cases found
  | cons first rest ih =>
    cases bucket with
    | zero =>
      cases found
      simp only [List.set_cons_zero, List.flatten_cons, entryCount_append]
      omega
    | succ bucket =>
      have := ih (show rest[bucket]? = some chain by simpa using found)
      simp only [List.set_cons_succ, List.flatten_cons, entryCount_append]
      omega

namespace Table

variable [Hashing] {t : Table} {alive : Ref → Bool} {key : Value} {k : Key} {v : Value}

/-- The value that was last put under a key, whether or not the pair can still be read. -/
inductive Stores (t : Table) : Key → Value → Prop
  /-- A position of the array region that is in use. -/
  | cell {position : Nat} {c : Cell} : t.array[position]? = some (some c) →
    t.Stores (.int (Int64.ofNat (position + 1))) c.content
  /-- An entry of the hash region. -/
  | entry {bucket : Nat} {e : Entry} {k : Key} : .live e ∈ t.chain bucket →
    e.key.toKey? = some k → t.Stores k e.value

/-- A slot in its place: in the bucket of its key, which is in normal form and has no position in
the array region, and with a stored value that is as weak as the policy wants it. -/
structure Admits (t : Table) (bucket : Nat) (s : Slot) : Prop where
  /-- The hash of the key picks this bucket. -/
  here : bucket = t.bucketOf s.key
  /-- The key is neither `nil` nor NaN. -/
  named : s.key.toKey? ≠ none
  /-- The key is no float with an exact integer value. -/
  normal : s.key.IsNormal
  /-- The key is none of the array region. -/
  outside : ∀ i, s.key = .int i → t.position? i = none
  /-- Of an entry, the halves are held as the policy says. -/
  fitted : ∀ e, s = .live e → e.Fitted t.policy
  /-- An entry has a value. -/
  valued : ∀ e, s = .live e → e.value ≠ .nil

/-- The layout that all operations keep. Tombstones and entries that lost a half are in their places
like all others. -/
structure Sound (t : Table) : Prop where
  /-- The array region has no position or a power of two. -/
  arraySize : t.array.size = 0 ∨ ∃ n, t.array.size = 2 ^ n
  /-- The hash region has no bucket or a power of two, but never just one. -/
  hashSize : t.buckets.size = 0 ∨ ∃ n, t.buckets.size = 2 ^ (n + 1)
  /-- Every position of the array region has an integer key. -/
  addressable : t.array.size ≤ 2 ^ maxArrayBits
  /-- A position in use has a value, held as the policy says. -/
  cells : ∀ (position : Nat) (c : Cell), t.array[position]? = some (some c) →
    c = t.policy.valueCell c.content ∧ c.content ≠ .nil
  /-- Every slot is in its place. -/
  slots : ∀ bucket s, s ∈ t.chain bucket → t.Admits bucket s
  /-- No two slots of a chain are for the same key. -/
  distinct : ∀ bucket, (t.chain bucket).Distinct
  /-- The count is that of the entries of all chains. -/
  counted : t.count = Chain.entryCount t.buckets.toList.flatten
  /-- There are no more entries than buckets. -/
  room : t.count ≤ t.buckets.size

theorem bucketOf_lt (t : Table) (key : Value) (some_bucket : 0 < t.buckets.size) :
    t.bucketOf key < t.buckets.size := by
  have := key.keyHash.bucket_le (t.buckets.size - 1)
  unfold bucketOf
  omega

theorem bucketOf_of_size {t' : Table} (same : t'.buckets.size = t.buckets.size) (key : Value) :
    t'.bucketOf key = t.bucketOf key := by
  rw [bucketOf, bucketOf, same]

/-- One key in normal form has one bucket. -/
theorem bucketOf_congr {a b : Value} (normal : a.IsNormal) (other : b.IsNormal)
    (named : a.toKey? ≠ none) (same : a.toKey? = b.toKey?) : t.bucketOf a = t.bucketOf b := by
  obtain ⟨k, spelled⟩ := Option.ne_none_iff_exists'.mp named
  rw [bucketOf, bucketOf, Value.keyHash_eq normal spelled,
    Value.keyHash_eq other (same.symm.trans spelled)]

omit [Hashing] in
theorem mem_chain_iff {bucket : Nat} {s : Slot} :
    s ∈ t.chain bucket ↔ ∃ chain, t.buckets[bucket]? = some chain ∧ s ∈ chain := by
  unfold chain
  cases t.buckets[bucket]? <;> simp

omit [Hashing] in
theorem chain_eq {bucket : Nat} {chain : Chain} (found : t.buckets.toList[bucket]? = some chain) :
    t.chain bucket = chain := by
  rw [Array.getElem?_toList] at found
  rw [Table.chain, found, Option.getD_some]

omit [Hashing] in
theorem getElem?_buckets (t : Table) {bucket : Nat} (inside : bucket < t.buckets.size) :
    t.buckets.toList[bucket]? = some (t.chain bucket) := by
  simp [Table.chain, inside]

omit [Hashing] in
theorem lt_of_mem_chain {bucket : Nat} {s : Slot} (member : s ∈ t.chain bucket) :
    bucket < t.buckets.size := by
  obtain ⟨chain, found, _⟩ := mem_chain_iff.mp member
  exact (Array.getElem?_eq_some_iff.mp found).1

omit [Hashing] in
theorem mem_flatten_buckets {s : Slot} :
    s ∈ t.buckets.toList.flatten ↔ ∃ bucket, s ∈ t.chain bucket := by
  constructor
  · intro member
    obtain ⟨chain, listed, member⟩ := List.mem_flatten.mp member
    obtain ⟨bucket, found⟩ := List.mem_iff_getElem?.mp listed
    exact ⟨bucket, mem_chain_iff.mpr ⟨chain, by simpa using found, member⟩⟩
  · rintro ⟨bucket, member⟩
    obtain ⟨chain, found, member⟩ := mem_chain_iff.mp member
    exact List.mem_flatten.mpr ⟨chain, List.mem_iff_getElem?.mpr ⟨bucket, by simpa using found⟩,
      member⟩

omit [Hashing] in
/-- The positions of the array region are its keys, less one. -/
theorem position?_eq_some_iff (addressable : t.array.size ≤ 2 ^ maxArrayBits) {i : Int64}
    {position : Nat} : t.position? i = some position ↔
      position < t.array.size ∧ i = Int64.ofNat (position + 1) := by
  have limit : (2 : Nat) ^ maxArrayBits = 2147483648 := rfl
  unfold position?
  constructor
  · intro found
    split at found
    · rename_i inside
      cases found
      refine ⟨by omega, ?_⟩
      rw [← Int64.toInt_inj, Int64.toInt_ofNat_of_lt (by omega)]
      omega
    · cases found
  · rintro ⟨inside, rfl⟩
    rw [Int64.toInt_ofNat_of_lt (by omega), if_pos (by omega)]
    simp

omit [Hashing] in
/-- The entries of one chain are among those of all chains. -/
theorem entryCount_chain_le (t : Table) (bucket : Nat) :
    (t.chain bucket).entryCount ≤ Chain.entryCount t.buckets.toList.flatten := by
  by_cases inside : bucket < t.buckets.size
  · have listed : t.chain bucket ∈ t.buckets.toList :=
      List.mem_of_getElem? (t.getElem?_buckets inside)
    exact (List.sublist_flatten_of_mem listed).countP_le
  · rw [chain, Array.getElem?_eq_none (Nat.le_of_not_lt inside)]
    exact Nat.zero_le _

namespace Sound

theorem named (sound : t.Sound) (bucket : Nat) : (t.chain bucket).Named :=
  fun s member => (sound.slots bucket s member).named

/-- A key that no entry is for is stored, if at all, at its position. -/
theorem position_of_stores (sound : t.Sound) {i : Int64} {position : Nat}
    (found : t.position? i = some position) (stored : t.Stores (.int i) v) :
    ∃ c, t.array[position]? = some (some c) ∧ c.content = v := by
  generalize same : Key.int i = k at stored
  cases stored with
  | @cell other c used =>
    have inside := (Array.getElem?_eq_some_iff.mp used).1
    obtain ⟨_, rfl⟩ := (position?_eq_some_iff sound.addressable).mp found
    have again := (position?_eq_some_iff sound.addressable).mpr ⟨inside, rfl⟩
    rw [← Key.int.inj same, found] at again
    cases again
    exact ⟨c, used, rfl⟩
  | @entry bucket e _ member named =>
    subst same
    have admitted := sound.slots bucket _ member
    have own := admitted.outside i (Value.eq_int_of_normal admitted.normal named)
    rw [found] at own
    cases own

/-- A key that has no position is stored, if at all, in the chain of its bucket. -/
theorem entry_of_stores (sound : t.Sound) (normal : key.IsNormal) (named : key.toKey? = some k)
    (outside : ∀ i, key = .int i → t.position? i = none) (stored : t.Stores k v) :
    ∃ e, .live e ∈ t.chain (t.bucketOf key) ∧ e.key.toKey? = some k ∧ e.value = v := by
  cases stored with
  | @cell position c used =>
    have inside := (Array.getElem?_eq_some_iff.mp used).1
    have own := outside _ (Value.eq_int_of_normal normal named)
    rw [(position?_eq_some_iff sound.addressable).mpr ⟨inside, rfl⟩] at own
    cases own
  | @entry bucket e k member spelled =>
    have admitted := sound.slots bucket _ member
    have place : bucket = t.bucketOf key :=
      admitted.here.trans (bucketOf_congr admitted.normal normal admitted.named
        (spelled.trans named.symm))
    exact ⟨e, place ▸ member, spelled, rfl⟩

/-- A key has one value at most. -/
theorem functional (sound : t.Sound) {v' : Value} (stored : t.Stores k v) (again : t.Stores k v') :
    v = v' := by
  cases stored with
  | @cell position c used =>
    have inside := (Array.getElem?_eq_some_iff.mp used).1
    have found := (position?_eq_some_iff sound.addressable).mpr ⟨inside, rfl⟩
    obtain ⟨c', used', rfl⟩ := sound.position_of_stores found again
    rw [used] at used'
    cases used'
    rfl
  | @entry bucket e k member named =>
    have admitted := sound.slots bucket _ member
    obtain ⟨e', member', named', rfl⟩ :=
      sound.entry_of_stores admitted.normal named admitted.outside again
    rw [← admitted.here] at member'
    cases (sound.distinct bucket).eq_of_toKey? member member' (named.trans named'.symm)
    rfl

theorem value_ne_nil (sound : t.Sound) (stored : t.Stores k v) : v ≠ .nil := by
  cases stored with
  | cell used => exact (sound.cells _ _ used).2
  | entry member _ => exact (sound.slots _ _ member).valued _ rfl

/-- Where there is an entry, the count is not zero. -/
theorem count_pos (sound : t.Sound) {bucket : Nat} {e : Entry} (member : .live e ∈ t.chain bucket) :
    0 < t.count := by
  rw [sound.counted]
  exact List.countP_pos_iff.mpr ⟨.live e, mem_flatten_buckets.mpr ⟨bucket, member⟩, rfl⟩

/-- The entries of one chain are counted with all others. -/
theorem entryCount_le (sound : t.Sound) (bucket : Nat) :
    (t.chain bucket).entryCount ≤ t.count :=
  sound.counted ▸ t.entryCount_chain_le bucket

theorem getHashed_eq_some_iff (sound : t.Sound) (normal : key.IsNormal)
    (outside : ∀ i, key = .int i → t.position? i = none) : t.getHashed alive key = some v ↔
      ∃ k, key.toKey? = some k ∧ t.Stores k v ∧ t.policy.Spares alive k v := by
  have read : t.getHashed alive key = (t.chain (t.bucketOf key)).lookup alive key := by
    unfold getHashed
    split
    · rename_i empty
      refine Eq.symm (Option.eq_none_iff_forall_ne_some.mpr fun v found => ?_)
      obtain ⟨e, member, _⟩ := (Chain.lookup_eq_some_iff (sound.distinct _) (sound.named _)
        normal).mp found
      exact absurd empty (Nat.ne_of_gt (sound.count_pos member))
    · rfl
  rw [read, Chain.lookup_eq_some_iff (sound.distinct _) (sound.named _) normal]
  constructor
  · rintro ⟨e, member, same, readable, rfl⟩
    have admitted := sound.slots _ _ member
    obtain ⟨k, spelled⟩ := Option.ne_none_iff_exists'.mp admitted.named
    exact ⟨k, same.symm.trans spelled, .entry member spelled,
      ((admitted.fitted e rfl).isAlive_iff spelled).mp readable⟩
  · rintro ⟨k, named, stored, spared⟩
    obtain ⟨e, member, spelled, rfl⟩ := sound.entry_of_stores normal named outside stored
    have fitted := (sound.slots _ _ member).fitted e rfl
    exact ⟨e, member, spelled.trans named.symm, (fitted.isAlive_iff spelled).mpr spared, rfl⟩

theorem readPosition_eq_some_iff (sound : t.Sound) {i : Int64} {position : Nat}
    (found : t.position? i = some position) : t.readPosition alive position = some v ↔
      t.Stores (.int i) v ∧ t.policy.Spares alive (.int i) v := by
  have spared_iff {c : Cell} (used : t.array[position]? = some (some c)) :
      c.isAlive alive = true ↔ t.policy.Spares alive (.int i) c.content := by
    rw [(sound.cells position c used).1, WeakPolicy.isAlive_valueCell_iff,
      WeakPolicy.content_valueCell]
    exact ⟨fun spared => ⟨nofun, spared⟩, (·.value)⟩
  obtain ⟨_, rfl⟩ := (position?_eq_some_iff sound.addressable).mp found
  constructor
  · intro read
    unfold readPosition at read
    split at read
    · rename_i c used
      rw [Cell.read_eq] at read
      split at read
      · rename_i readable
        cases read
        exact ⟨.cell used, (spared_iff used).mp readable⟩
      · cases read
    · cases read
  · rintro ⟨stored, spared⟩
    obtain ⟨c, used, rfl⟩ := sound.position_of_stores found stored
    simp only [readPosition, used, Cell.read_eq, (spared_iff used).mpr spared, ↓reduceIte]

theorem getInt_eq_some_iff (sound : t.Sound) {i : Int64} : t.getInt alive i = some v ↔
    t.Stores (.int i) v ∧ t.policy.Spares alive (.int i) v := by
  unfold getInt
  split
  · rename_i position found
    exact sound.readPosition_eq_some_iff found
  · rename_i outside
    have normal : (Value.int i).IsNormal := rfl
    rw [sound.getHashed_eq_some_iff normal fun j same => Value.int.inj same ▸ outside]
    simp [Value.toKey?]

/-- Reading a key gives what is stored under it, as long as the environment spared the pair. -/
theorem get_eq_some_iff (sound : t.Sound) : t.get alive key = some v ↔
    ∃ k, key.toKey? = some k ∧ t.Stores k v ∧ t.policy.Spares alive k v := by
  rw [← key.toKey?_normalize]
  have normal := key.isNormal_normalize
  unfold get
  split
  · rename_i none
    simp [none, Value.toKey?]
  · rename_i i integer
    rw [integer, sound.getInt_eq_some_iff]
    simp [Value.toKey?]
  · rename_i other
    exact sound.getHashed_eq_some_iff normal fun i integer => absurd integer (other i)

end Sound

/-- The keys of all places in the order of traversal. -/
def outline (t : Table) : List Value :=
  (List.range t.array.size).map (fun i => .int (Int64.ofNat (i + 1))) ++
    t.buckets.toList.flatten.map Slot.key

/-- No two places are for the same key. -/
theorem outline_pairwise (sound : t.Sound) :
    t.outline.Pairwise fun a b => a.toKey? ≠ b.toKey? := by
  refine List.pairwise_append.mpr ⟨?_, ?_, ?_⟩
  · rw [List.pairwise_map]
    refine List.pairwise_lt_range.imp_of_mem ?_
    intro i j first second before same
    have limit := sound.addressable
    have small : (2 : Nat) ^ maxArrayBits < 2 ^ 63 := by decide
    have first := List.mem_range.mp first
    have second := List.mem_range.mp second
    have equal := congrArg Int64.toInt (Key.int.inj (Option.some.inj same))
    rw [Int64.toInt_ofNat_of_lt (by omega), Int64.toInt_ofNat_of_lt (by omega)] at equal
    omega
  · rw [List.pairwise_map, List.pairwise_flatten]
    constructor
    · intro chain listed
      obtain ⟨bucket, found⟩ := List.mem_iff_getElem?.mp listed
      exact chain_eq found ▸ sound.distinct bucket
    · -- in different buckets the keys are hashed differently
      rw [List.pairwise_iff_getElem]
      intro i j first second before s member s' member' same
      rw [← chain_eq (List.getElem?_eq_getElem first)] at member
      rw [← chain_eq (List.getElem?_eq_getElem second)] at member'
      have admitted := sound.slots i _ member
      have admitted' := sound.slots j _ member'
      have : i = j := admitted.here.trans
        ((bucketOf_congr admitted.normal admitted'.normal admitted.named same).trans
          admitted'.here.symm)
      omega
  · intro k listed k' listed' same
    obtain ⟨position, inside, rfl⟩ := List.mem_map.mp listed
    obtain ⟨s, slot, rfl⟩ := List.mem_map.mp listed'
    obtain ⟨bucket, member⟩ := mem_flatten_buckets.mp slot
    have admitted := sound.slots bucket s member
    have found := (position?_eq_some_iff sound.addressable).mpr ⟨List.mem_range.mp inside, rfl⟩
    rw [admitted.outside _ (Value.eq_int_of_normal admitted.normal same.symm)] at found
    cases found

end Table

end HybridTable
