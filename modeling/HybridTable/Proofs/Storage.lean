import HybridTable.Proofs.Layout

/-! The elementary changes of storage: writing one position of the array region and writing one
chain together with the count. Every operation is made of these, so the layout is shown to survive
here once. `Keeps` says what a change does to the other keys in an environment that may reclaim:
nothing new turns up, and what is spared afterwards is still there. -/
namespace HybridTable

namespace Entry

/-- Overwriting lets the entry hold the new value and nothing else that it did not hold. -/
theorem refs_replace {policy : WeakPolicy} {value : Value} {e : Entry} {r : Ref}
    (member : r ∈ (e.replace policy value).refs) : r ∈ e.refs ∨ r ∈ value.refs := by
  cases e with
  | plain key old =>
    have part := (make policy key value).refs_subset member
    rw [key_make, value_make] at part
    rcases List.mem_append.mp part with own | new
    · exact .inl (List.mem_append_left _ own)
    · exact .inr new
  | guarded key old =>
    rcases List.mem_append.mp member with own | new
    · exact .inl (List.mem_append_left _ own)
    · exact .inr (by simpa using (policy.valueCell value).refs_subset new)

end Entry

/-- A tombstone holds nothing. -/
theorem Cell.refs_forTombstone (key : Value) : (Cell.forTombstone key).refs = [] := by
  unfold forTombstone
  split
  · rfl
  · rename_i small
    cases found : key.ref? with
    | none => simp [Cell.refs, Value.refs, found]
    | some r => simp [Value.isLargeKey, found] at small

@[simp] theorem Cell.content_forTombstone (key : Value) :
    (Cell.forTombstone key).content = key := by
  unfold forTombstone
  split <;> rfl

/-- An entry for a key with a value is in the chain. -/
def Chain.Stores (chain : Chain) (k : Key) (v : Value) : Prop :=
  ∃ e, .live e ∈ chain ∧ e.key.toKey? = some k ∧ e.value = v

namespace Table

/-- The table with another chain in a bucket, and another count. -/
def rechain (t : Table) (bucket : Nat) (chain : Chain) (count : Nat) : Table :=
  { t.setChain bucket chain with count }

section
variable {t : Table} {bucket count : Nat} {chain : Chain} {r : Ref}

@[simp] theorem array_rechain : (t.rechain bucket chain count).array = t.array := rfl

@[simp] theorem policy_rechain : (t.rechain bucket chain count).policy = t.policy := rfl

@[simp] theorem metatable_rechain : (t.rechain bucket chain count).metatable = t.metatable := rfl

@[simp] theorem count_rechain : (t.rechain bucket chain count).count = count := rfl

@[simp] theorem size_buckets_rechain :
    (t.rechain bucket chain count).buckets.size = t.buckets.size := t.size_buckets_setChain ..

theorem chain_rechain (inside : bucket < t.buckets.size) (other : Nat) :
    (t.rechain bucket chain count).chain other =
      if other = bucket then chain else t.chain other := by
  split
  · rename_i same
    subst same
    exact t.chain_setChain_same chain inside
  · rename_i apart
    exact t.chain_setChain_other chain (Ne.symm apart)

@[simp] theorem count_setChain (t : Table) (bucket : Nat) (chain : Chain) :
    (t.setChain bucket chain).count = t.count := rfl

@[simp] theorem policy_setCell (t : Table) (position : Nat) (cell : Option Cell) :
    (t.setCell position cell).policy = t.policy := rfl

@[simp] theorem metatable_setCell (t : Table) (position : Nat) (cell : Option Cell) :
    (t.setCell position cell).metatable = t.metatable := rfl

@[simp] theorem chain_setCell (t : Table) (position bucket : Nat) (cell : Option Cell) :
    (t.setCell position cell).chain bucket = t.chain bucket := rfl

/-- A table holds what its parts hold. -/
theorem mem_refs : r ∈ t.refs ↔ r ∈ t.metatable.toList ∨
    (∃ (position : Nat) (c : Cell), t.array[position]? = some (some c) ∧ r ∈ c.refs) ∨
      ∃ bucket s, s ∈ t.chain bucket ∧ r ∈ s.refs := by
  unfold refs
  rw [List.mem_append, List.mem_append, or_assoc]
  refine or_congr Iff.rfl (or_congr ?_ ?_)
  · rw [List.mem_flatMap]
    constructor
    · rintro ⟨cell, listed, member⟩
      obtain ⟨position, found⟩ := List.mem_iff_getElem?.mp listed
      cases cell with
      | none => cases member
      | some c => exact ⟨position, c, by simpa using found, member⟩
    · rintro ⟨position, c, found, member⟩
      exact ⟨some c, List.mem_iff_getElem?.mpr ⟨position, by simpa using found⟩, member⟩
  · simp only [List.mem_flatMap]
    constructor
    · rintro ⟨chain, listed, s, member, own⟩
      obtain ⟨bucket, inChain⟩ :=
        mem_flatten_buckets.mp (List.mem_flatten.mpr ⟨chain, listed, member⟩)
      exact ⟨bucket, s, inChain, own⟩
    · rintro ⟨bucket, s, member, own⟩
      obtain ⟨chain, listed, inChain⟩ :=
        List.mem_flatten.mp (mem_flatten_buckets.mpr ⟨bucket, member⟩)
      exact ⟨chain, listed, s, inChain, own⟩

theorem refs_rechain (member : r ∈ (t.rechain bucket chain count).refs) :
    r ∈ t.refs ∨ r ∈ chain.flatMap Slot.refs := by
  rcases mem_refs.mp member with own | ⟨position, c, found, own⟩ | ⟨other, s, slot, own⟩
  · exact .inl (mem_refs.mpr (.inl own))
  · exact .inl (mem_refs.mpr (.inr (.inl ⟨position, c, found, own⟩)))
  · have inside := size_buckets_rechain ▸ lt_of_mem_chain slot
    by_cases same : other = bucket
    · subst same
      rw [chain_rechain inside, if_pos rfl] at slot
      exact .inr (List.mem_flatMap.mpr ⟨s, slot, own⟩)
    · have kept : (t.rechain bucket chain count).chain other = t.chain other :=
        t.chain_setChain_other chain (Ne.symm same)
      exact .inl (mem_refs.mpr (.inr (.inr ⟨other, s, kept ▸ slot, own⟩)))

theorem getElem?_setCell {position : Nat} (inside : position < t.array.size) (cell : Option Cell)
    (other : Nat) : (t.setCell position cell).array[other]? =
      if other = position then some cell else t.array[other]? := by
  simp only [setCell, Array.getElem?_setIfInBounds, eq_comm (a := position)]
  split
  · rfl
  · rfl

theorem refs_setCell {position : Nat} {cell : Option Cell}
    (member : r ∈ (t.setCell position cell).refs) :
    r ∈ t.refs ∨ ∃ c, cell = some c ∧ r ∈ c.refs := by
  rcases mem_refs.mp member with own | ⟨other, c, found, own⟩ | slot
  · exact .inl (mem_refs.mpr (.inl own))
  · have inside : other < t.array.size := by
      simpa using (Array.getElem?_eq_some_iff.mp found).1
    by_cases same : other = position
    · subst same
      rw [getElem?_setCell inside, if_pos rfl] at found
      exact .inr ⟨c, Option.some.inj found, own⟩
    · have kept : (t.setCell position cell).array[other]? = t.array[other]? :=
        Array.getElem?_setIfInBounds_ne (Ne.symm same)
      exact .inl (mem_refs.mpr (.inr (.inl ⟨other, c, kept ▸ found, own⟩)))
  · exact .inl (mem_refs.mpr (.inr (.inr slot)))

end

variable {t t' : Table} {bucket count : Nat} {chain : Chain} {k : Key} {v : Value}

theorem stores_of_rechain (inside : bucket < t.buckets.size)
    (stored : (t.rechain bucket chain count).Stores k v) : t.Stores k v ∨ chain.Stores k v := by
  cases stored with
  | cell used => exact .inl (.cell used)
  | @entry other e k member named =>
    rw [chain_rechain inside] at member
    split at member
    · exact .inr ⟨e, member, named, rfl⟩
    · exact .inl (.entry member named)

theorem stores_rechain (inside : bucket < t.buckets.size) (stored : chain.Stores k v) :
    (t.rechain bucket chain count).Stores k v := by
  obtain ⟨e, member, named, rfl⟩ := stored
  refine .entry (show .live e ∈ (t.rechain bucket chain count).chain bucket from ?_) named
  rw [chain_rechain inside, if_pos rfl]
  exact member

/-- What is not in the chain that goes stays, and of what is there, what is in the new one too. -/
theorem Stores.rechain (inside : bucket < t.buckets.size) (stored : t.Stores k v)
    (again : (t.chain bucket).Stores k v → chain.Stores k v) :
    (t.rechain bucket chain count).Stores k v := by
  cases stored with
  | cell used => exact .cell used
  | @entry other e k member named =>
    by_cases same : other = bucket
    · subst same
      exact stores_rechain inside (again ⟨e, member, named, rfl⟩)
    · refine .entry (show .live e ∈ (t.rechain bucket chain count).chain other from ?_) named
      rw [chain_rechain inside, if_neg same]
      exact member

theorem stores_setCell {position : Nat} (inside : position < t.array.size) (c : Cell) :
    (t.setCell position (some c)).Stores (.int (Int64.ofNat (position + 1))) c.content :=
  .cell (by rw [getElem?_setCell inside, if_pos rfl])

/-- Writing a position touches no other key. -/
theorem stores_setCell_iff {position : Nat} (inside : position < t.array.size) {cell : Option Cell}
    (other : k ≠ .int (Int64.ofNat (position + 1))) :
    (t.setCell position cell).Stores k v ↔ t.Stores k v := by
  constructor
  · intro stored
    cases stored with
    | @cell at' c used =>
      rw [getElem?_setCell inside, if_neg fun same => other (by rw [same])] at used
      exact .cell used
    | entry member named => exact .entry member named
  · intro stored
    cases stored with
    | @cell at' c used =>
      refine .cell ?_
      rwa [getElem?_setCell inside, if_neg fun same => other (by rw [same])]
    | entry member named => exact .entry (t := t.setCell position cell) member named

section
variable [Hashing]

theorem Admits.congr {s : Slot} (admitted : t.Admits bucket s)
    (array : t'.array.size = t.array.size) (hash : t'.buckets.size = t.buckets.size)
    (policy : t'.policy = t.policy) : t'.Admits bucket s where
  here := by
    rw [bucketOf, hash]
    exact admitted.here
  named := admitted.named
  normal := admitted.normal
  outside i same := by
    rw [position?, array]
    exact admitted.outside i same
  fitted e same := policy ▸ admitted.fitted e same
  valued := admitted.valued

omit [Hashing] in
/-- Another chain changes the number of all entries by what the two chains differ in. -/
theorem entryCount_rechain (inside : bucket < t.buckets.size) (chain : Chain) (count : Nat) :
    Chain.entryCount (t.rechain bucket chain count).buckets.toList.flatten +
      (t.chain bucket).entryCount =
        Chain.entryCount t.buckets.toList.flatten + chain.entryCount := by
  have listed : (t.rechain bucket chain count).buckets.toList = t.buckets.toList.set bucket chain :=
    Array.toList_setIfInBounds ..
  rw [listed]
  exact Chain.entryCount_set (t.getElem?_buckets inside) chain

/-- The layout survives a new chain of slots that belong there, counted correctly. -/
theorem Sound.rechain (sound : t.Sound) (inside : bucket < t.buckets.size)
    (admitted : ∀ s ∈ chain, t.Admits bucket s) (distinct : chain.Distinct)
    (counted : count + (t.chain bucket).entryCount = t.count + chain.entryCount)
    (room : count ≤ t.buckets.size) : (t.rechain bucket chain count).Sound where
  arraySize := sound.arraySize
  hashSize := by simpa using sound.hashSize
  addressable := sound.addressable
  cells := sound.cells
  slots other s member := by
    rw [chain_rechain inside] at member
    split at member
    · rename_i same
      exact (same ▸ admitted s member).congr rfl size_buckets_rechain rfl
    · exact (sound.slots other s member).congr rfl size_buckets_rechain rfl
  distinct other := by
    rw [chain_rechain inside]
    split
    · exact distinct
    · exact sound.distinct other
  counted := by
    have change := entryCount_rechain inside chain count
    have := sound.counted
    rw [count_rechain]
    omega
  room := by simpa using room

/-- The layout survives a new value at a position. -/
theorem Sound.setCell (sound : t.Sound) {position : Nat} (inside : position < t.array.size)
    (cell : Option Cell)
    (fitted : ∀ c, cell = some c → c = t.policy.valueCell c.content ∧ c.content ≠ .nil) :
    (t.setCell position cell).Sound where
  arraySize := by simpa using sound.arraySize
  hashSize := sound.hashSize
  addressable := by simpa using sound.addressable
  cells other c used := by
    rw [getElem?_setCell inside] at used
    split at used
    · exact fitted c (Option.some.inj used)
    · exact sound.cells other c used
  slots bucket s member := (sound.slots bucket s member).congr (t.size_array_setCell ..) rfl rfl
  distinct := sound.distinct
  counted := sound.counted
  room := sound.room

end

/-- What a change does to the keys that it is not about, in an environment that reclaims. -/
structure Keeps (live : Liveness) (policy : WeakPolicy) (others : Key → Prop) (t t' : Table) :
    Prop where
  /-- Nothing new turns up. -/
  stale : ∀ k v, others k → t'.Stores k v → t.Stores k v
  /-- What is spared afterwards is still there. -/
  spared : ∀ k v, others k → t.Stores k v → policy.Spares (live t'.refs) k v → t'.Stores k v
  /-- Nothing is held that was not alive before, if that matters. -/
  held : policy = .allStrong ∨ ∀ r ∈ t'.refs, live t.refs r = true

namespace Keeps

variable {live : Liveness} {policy : WeakPolicy} {others : Key → Prop} {t t' t'' : Table}

theorem refl (fair : live.Fair policy) (others : Key → Prop) (t : Table) :
    Keeps live policy others t t :=
  ⟨fun _ _ _ stored => stored, fun _ _ _ stored _ => stored,
    fair.imp_right fun lawful _ => lawful.holds⟩

/-- A change that loses nothing, made by an operation that holds what it adds. -/
theorem of_iff (fair : live.Fair policy) {args : List Ref} (holds : live.Holds policy args)
    (same : ∀ k v, others k → (t'.Stores k v ↔ t.Stores k v))
    (part : ∀ r ∈ t'.refs, r ∈ t.refs ∨ r ∈ args) : Keeps live policy others t t' where
  stale k v other := (same k v other).mp
  spared k v other stored _ := (same k v other).mpr stored
  held := by
    rcases fair with strong | lawful
    · exact .inl strong
    · apply holds.imp_right
      intro holds r member
      rcases part r member with own | argument
      · exact lawful.holds own
      · exact holds t.refs r argument

/-- What was lost on the way can no longer be spared at the end, since nothing comes back. -/
theorem trans (fair : live.Fair policy) (first : Keeps live policy others t t')
    (second : Keeps live policy others t' t'') : Keeps live policy others t t'' where
  stale k v other stored := first.stale k v other (second.stale k v other stored)
  spared k v other stored spared := by
    have earlier : policy.Spares (live t'.refs) k v := fair.spares_earlier second.held spared
    exact second.spared k v other (first.spared k v other stored earlier) spared
  held := by
    rcases fair with strong | lawful
    · exact .inl strong
    · rcases first.held with strong | first
      · exact .inl strong
      · exact second.held.imp_right fun second r member => lawful.settled first (second r member)

theorem weaken {fewer : Key → Prop} (keeps : Keeps live policy others t t')
    (part : ∀ k, fewer k → others k) : Keeps live policy fewer t t' where
  stale k v other := keeps.stale k v (part k other)
  spared k v other := keeps.spared k v (part k other)
  held := keeps.held

end Keeps

end Table

end HybridTable
