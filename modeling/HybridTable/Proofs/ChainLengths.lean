import HybridTable.Proofs.Capacities
import HybridTable.Proofs.Upkeep

/-! How long chains can become. A removal leaves its slot where it is, so a chain may have any number
of tombstones next to its entries, and while no new key comes to it nothing takes them away. What
bounds its length is the moment at which it last grew: a new entry goes to the end of a chain that
was just pruned, and then the chain has only entries, which are counted, and there is a free bucket
for the new one. Between two such moments no chain grows, and the number of buckets changes only
when all tombstones are left behind. -/
namespace HybridTable

namespace Chain

variable {alive : Ref → Bool} {key : Value} {f : Entry → Slot} {chain amended : Chain}

/-- A chain without tombstones is as long as it has entries. -/
theorem length_eq_entryCount (entries : ∀ s ∈ chain, ∃ e, s = .live e) :
    chain.length = chain.entryCount := by
  refine (List.countP_eq_length.mpr fun s member => ?_).symm
  obtain ⟨e, rfl⟩ := entries s member
  rfl

theorem length_of_amend? (found : chain.amend? alive key f = some amended) :
    amended.length = chain.length := by
  obtain ⟨before, e, after, rfl, rfl, -⟩ := exists_of_amend? found
  simp only [List.length_append, List.length_cons]

/-- Amending a chain gives up one entry for what is made of it. -/
theorem entryCount_of_amend? (found : chain.amend? alive key f = some amended) :
    ∃ e, amended.entryCount + 1 = chain.entryCount + entryCount [f e] := by
  obtain ⟨before, e, after, rfl, rfl, -⟩ := exists_of_amend? found
  refine ⟨e, ?_⟩
  simp only [entryCount, List.countP_append, List.countP_cons, List.countP_nil, Slot.isDead,
    Bool.not_false, ↓reduceIte]
  omega

end Chain

namespace Table

/-- The slots of all chains, entries and tombstones. -/
def slotCount (t : Table) : Nat := t.buckets.toList.flatten.length

/-- No chain has more slots than there are buckets, and there is a bucket for each entry. -/
structure ShortChains (t : Table) : Prop where
  /-- The count is that of the entries of all chains. -/
  counted : t.count = Chain.entryCount t.buckets.toList.flatten
  /-- There are no more entries than buckets. -/
  room : t.count ≤ t.buckets.size
  /-- A chain has a slot for each bucket at most. -/
  short : ∀ bucket, (t.chain bucket).length ≤ t.buckets.size

variable {t : Table} {bucket count : Nat} {chain : Chain}

theorem ShortChains.entryCount_le (short : t.ShortChains) (bucket : Nat) :
    (t.chain bucket).entryCount ≤ t.count :=
  short.counted ▸ t.entryCount_chain_le bucket

/-- Chains of bounded length have their product with the number of buckets as a bound together. -/
theorem ShortChains.slotCount_le (short : t.ShortChains) : t.slotCount ≤ t.buckets.size ^ 2 := by
  have listed : ∀ chain ∈ t.buckets.toList, chain.length ≤ t.buckets.size := by
    intro chain member
    obtain ⟨bucket, found⟩ := List.mem_iff_getElem?.mp member
    have own : t.chain bucket = chain := by
      rw [Table.chain, show t.buckets[bucket]? = some chain by simpa using found]
      rfl
    exact own ▸ short.short bucket
  have total (bound : Nat) (chains : List Chain) (each : ∀ chain ∈ chains, chain.length ≤ bound) :
      chains.flatten.length ≤ chains.length * bound := by
    induction chains with
    | nil => exact Nat.zero_le _
    | cons chain rest ih =>
      obtain ⟨first, later⟩ := List.forall_mem_cons.mp each
      have := ih later
      rw [List.flatten_cons, List.length_append, List.length_cons, Nat.succ_mul]
      omega
  rw [Nat.pow_two]
  exact total _ _ listed

namespace ShortChains

/-! ## Single changes of the storage -/

theorem congr {t' : Table} (short : t.ShortChains) (buckets : t'.buckets = t.buckets)
    (count : t'.count = t.count) : t'.ShortChains where
  counted := by rw [count, buckets, short.counted]
  room := by rw [count, buckets]; exact short.room
  short bucket := by rw [chain, buckets]; exact short.short bucket

theorem sized (arrayCapacity hashCapacity : Nat) (metatable : Option Ref) (policy : WeakPolicy) :
    (sized arrayCapacity hashCapacity metatable policy).ShortChains where
  counted := by
    simp only [Table.sized, Array.toList_replicate, List.flatten_replicate_nil]
    rfl
  room := Nat.zero_le _
  short bucket := by
    rw [chain_sized]
    exact Nat.zero_le _

/-- A chain is replaced by a short one, and the count is corrected. -/
theorem rechain (short : t.ShortChains) (inside : bucket < t.buckets.size)
    (counted : count + (t.chain bucket).entryCount = t.count + chain.entryCount)
    (room : count ≤ t.buckets.size) (length : chain.length ≤ t.buckets.size) :
    (t.rechain bucket chain count).ShortChains where
  counted := by
    have change := entryCount_rechain inside chain count
    have := short.counted
    rw [count_rechain]
    omega
  room := by simpa using room
  short other := by
    rw [chain_rechain inside, size_buckets_rechain]
    split
    · exact length
    · exact short.short other

/-- What a removal does: the chain keeps its length. -/
theorem bury (short : t.ShortChains) {alive : Ref → Bool} {key : Value} {own : Entry → Cell}
    (found : (t.chain bucket).amend? alive key (fun e => .dead (own e)) = some chain) :
    (t.rechain bucket chain (t.count - 1)).ShortChains := by
  obtain ⟨before, e, after, split, -⟩ := Chain.exists_of_amend? found
  have inside : bucket < t.buckets.size := lt_of_mem_chain (show .live e ∈ _ by simp [split])
  obtain ⟨e', changed⟩ := Chain.entryCount_of_amend? found
  have none : Chain.entryCount [.dead (own e')] = 0 := rfl
  have some_entry := short.entryCount_le bucket
  have room := short.room
  refine short.rechain inside (by omega) (by omega) ?_
  exact Chain.length_of_amend? found ▸ short.short bucket

/-- What overwriting does: the chain keeps its length and its entries. -/
theorem overwrite (short : t.ShortChains) {alive : Ref → Bool} {key : Value} {new : Entry → Entry}
    (found : (t.chain bucket).amend? alive key (fun e => .live (new e)) = some chain) :
    (t.rechain bucket chain t.count).ShortChains := by
  obtain ⟨before, e, after, split, -⟩ := Chain.exists_of_amend? found
  have inside : bucket < t.buckets.size := lt_of_mem_chain (show .live e ∈ _ by simp [split])
  obtain ⟨e', changed⟩ := Chain.entryCount_of_amend? found
  have one : Chain.entryCount [.live (new e')] = 1 := rfl
  refine short.rechain inside (by omega) short.room ?_
  exact Chain.length_of_amend? found ▸ short.short bucket

/-- Pruning a chain leaves entries only, no more of them than there were. -/
theorem pruneChain (short : t.ShortChains) (live : Liveness) (bucket : Nat) :
    (t.pruneChain live bucket).ShortChains ∧
      ∀ s ∈ (t.pruneChain live bucket).chain bucket, ∃ e, s = .live e := by
  by_cases inside : bucket < t.buckets.size
  · let others : Liveness := fun held => live ((t.setChain bucket []).refs ++ held)
    let pruned := (t.chain bucket).prune others
    have part : pruned.Sublist (t.chain bucket) := Chain.prune_sublist ..
    have fewer : pruned.entryCount ≤ (t.chain bucket).entryCount := part.countP_le
    have made : t.pruneChain live bucket = t.rechain bucket pruned
      (t.count - ((t.chain bucket).entryCount - pruned.entryCount)) := rfl
    have some_entry := short.entryCount_le bucket
    have room := short.room
    rw [made]
    refine ⟨short.rechain inside (by omega) (by omega)
      (Nat.le_trans part.length_le (short.short bucket)), fun s member => ?_⟩
    rw [chain_rechain inside, if_pos rfl] at member
    exact Chain.live_of_mem_prune member
  · rw [pruneChain_outside (Nat.le_of_not_lt inside)]
    exact ⟨short, fun s member => absurd (lt_of_mem_chain member) inside⟩

/-! ## Moving to new storage -/

variable [Hashing] {item : Moving} {rebuild : Bool} {live : Liveness}

/-- A chain of entries stays short under one more entry, for which there is a bucket. -/
theorem link (short : t.ShortChains) (room : t.count < t.buckets.size) (key : Value)
    (entries : ∀ s ∈ t.chain (t.bucketOf key), ∃ e, s = .live e)
    (length : chain.length = (t.chain (t.bucketOf key)).length + 1)
    (counted : chain.entryCount = (t.chain (t.bucketOf key)).entryCount + 1) :
    (t.rechain (t.bucketOf key) chain (t.count + 1)).ShortChains := by
  have inside : t.bucketOf key < t.buckets.size := t.bucketOf_lt key (by omega)
  have clean := Chain.length_eq_entryCount entries
  have some_entry := short.entryCount_le (t.bucketOf key)
  exact short.rechain inside (by omega) room (by omega)

theorem place (short : t.ShortChains) (rebuild : Bool) (clean : t.Clean)
    (room : item.arrayKey? t.array.size = none → t.count < t.buckets.size) :
    (t.place rebuild item).ShortChains ∧ (t.place rebuild item).Clean ∧
      (t.place rebuild item).count =
        t.count + if (item.arrayKey? t.array.size).isNone then 1 else 0 := by
  cases found : item.arrayKey? t.array.size with
  | some n =>
    rw [place_of_some found]
    exact ⟨short.congr rfl rfl, clean, rfl⟩
  | none =>
    have free := room found
    have inside : t.bucketOf item.key < t.buckets.size := t.bucketOf_lt item.key (by omega)
    rw [place_of_none found]
    refine ⟨short.link free item.key (clean _) rfl ?_, fun other s member => ?_, rfl⟩
    · exact List.countP_cons_of_pos rfl
    · rw [chain_rechain inside] at member
      split at member
      · rcases List.mem_cons.mp member with rfl | old
        · exact ⟨_, rfl⟩
        · exact clean _ s old
      · exact clean other s member

/-- Pieces are placed while there is a bucket for each that gets no position. -/
theorem foldl_place {items : List Moving} (short : t.ShortChains) (rebuild : Bool)
    (clean : t.Clean)
    (room : t.count + items.countP (fun item => (item.arrayKey? t.array.size).isNone) ≤
      t.buckets.size) :
    (items.foldl (Table.place rebuild) t).ShortChains ∧
      (items.foldl (Table.place rebuild) t).Clean ∧
      (items.foldl (Table.place rebuild) t).count =
        t.count + items.countP fun item => (item.arrayKey? t.array.size).isNone := by
  induction items generalizing t with
  | nil => exact ⟨short, clean, rfl⟩
  | cons item rest ih =>
    rw [List.countP_cons] at room ⊢
    have free (outside : item.arrayKey? t.array.size = none) : t.count < t.buckets.size := by
      rw [outside] at room
      simp only [Option.isNone_none, ↓reduceIte] at room
      omega
    obtain ⟨short', clean', count'⟩ := short.place rebuild clean free
    have size' : (t.place rebuild item).array.size = t.array.size := size_array_place ..
    have buckets' : (t.place rebuild item).buckets.size = t.buckets.size :=
      size_buckets_place ..
    obtain ⟨filled, clean'', count''⟩ := ih short' clean' (by rw [size', buckets', count']; omega)
    refine ⟨filled, clean'', ?_⟩
    rw [List.foldl_cons, count'', size', count']
    omega

/-- In new storage no chain is long, whatever the old one was like, if there is a bucket for each
pair that arrives and gets no position. -/
theorem resize {arrayCapacity hashCapacity : Nat}
    (room : (placed live rebuild t.moving (Table.sized arrayCapacity hashCapacity t.metatable
      t.policy)).countP (fun item => (item.arrayKey? arrayCapacity).isNone) ≤ hashCapacity) :
    let t' := t.resize live rebuild arrayCapacity hashCapacity
    t'.ShortChains ∧ t'.Clean ∧ t'.count = (placed live rebuild t.moving
      (Table.sized arrayCapacity hashCapacity t.metatable t.policy)).countP
        fun item => (item.arrayKey? arrayCapacity).isNone := by
  intro t'
  have arrays : (Table.sized arrayCapacity hashCapacity t.metatable t.policy).array.size =
      arrayCapacity := by simp [Table.sized]
  have buckets : (Table.sized arrayCapacity hashCapacity t.metatable t.policy).buckets.size =
      hashCapacity := by simp [Table.sized]
  have none : (Table.sized arrayCapacity hashCapacity t.metatable t.policy).count = 0 := rfl
  have clean : (Table.sized arrayCapacity hashCapacity t.metatable t.policy).Clean := by
    intro bucket s member
    rw [chain_sized] at member
    cases member
  have made : t' = (placed live rebuild t.moving _).foldl (Table.place rebuild) _ :=
    placeAll_eq_foldl ..
  rw [made]
  have filled := (ShortChains.sized arrayCapacity hashCapacity t.metatable t.policy).foldl_place
    rebuild clean (by rwa [arrays, buckets, none, Nat.zero_add])
  rwa [arrays, none, Nat.zero_add] at filled

/-- A rehash counts the pairs that can be read, and no other pair arrives. -/
theorem rehash (lawful : live.Lawful) (pending : Pending) (t : Table) :
    (t.rehash live pending).ShortChains ∧ (t.rehash live pending).Clean ∧
      (t.rehash live pending).count + pending.arriving (t.rehash live pending).array.size ≤
        (t.rehash live pending).buckets.size := by
  obtain ⟨keys, rebuild, -, made⟩ := t.rehash_eq live pending
  have enough := le_hashCapacityFor (t.stays (fun r => live t.refs r) (arraySizeFor keys) +
    pending.arriving (arraySizeFor keys))
  generalize hashCapacityFor _ = hashCapacity at made enough
  have readable : ∀ item ∈ placed live rebuild t.moving (Table.sized (arraySizeFor keys)
      hashCapacity t.metatable t.policy), item.isAlive (fun r => live t.refs r) = true :=
    fun item arrives => Moving.isAlive_mono (fun r => lawful.mono fun r => held_moving)
      (alive_of_placed lawful arrives)
  have counted := countP_placed_le_stays readable (arraySizeFor keys)
  have sizes := capacities_resize live rebuild (arraySizeFor keys) hashCapacity t
  have arrays : (t.resize live rebuild (arraySizeFor keys) hashCapacity).array.size =
      arraySizeFor keys := congrArg Prod.fst sizes
  have buckets : (t.resize live rebuild (arraySizeFor keys) hashCapacity).buckets.size =
      hashCapacity := congrArg Prod.snd sizes
  obtain ⟨short, clean, count⟩ := resize (Nat.le_trans counted (by omega))
  rw [made]
  exact ⟨short, clean, by rw [arrays, buckets, count]; omega⟩

theorem presizeArray (short : t.ShortChains) (live : Liveness) (positions : Nat) :
    (t.presizeArray live positions).ShortChains := by
  unfold Table.presizeArray
  split
  · rename_i more
    have larger : t.array.size ≤ arrayCapacityFor positions :=
      Nat.le_trans (Nat.le_of_lt more) (le_arrayCapacityFor positions)
    have staying := countP_moving_le larger
    have arriving : (placed live false t.moving (Table.sized (arrayCapacityFor positions)
        t.buckets.size t.metatable t.policy)).countP
          (fun item => (item.arrayKey? (arrayCapacityFor positions)).isNone) ≤ _ :=
      (placed_sublist ..).countP_le
    have counted := short.counted
    have room := short.room
    exact (resize (by omega)).1
  · exact short

theorem attachMetatable (short : t.ShortChains) (lawful : live.Lawful) (metatable : Option Ref)
    (policy : WeakPolicy) : (t.attachMetatable live metatable policy).ShortChains := by
  unfold Table.attachMetatable
  dsimp only
  split
  · exact (rehash lawful .none _).1
  · exact short.congr rfl rfl

/-! ## Writing -/

variable {key value : Value}

theorem append (short : t.ShortChains) (room : t.count < t.buckets.size)
    (entries : ∀ s ∈ t.chain (t.bucketOf key), ∃ e, s = .live e) (value : Value) :
    (t.append key value).ShortChains := by
  rw [append_eq, opened_of_buckets (by omega)]
  refine short.link room key entries ?_ ?_
  · rw [List.length_append, List.length_singleton]
  · rw [Chain.entryCount_append]
    rfl

/-- A new key comes to a chain of entries, or to storage that has no tombstone. -/
theorem addHashed (short : t.ShortChains) (lawful : live.Lawful)
    (entries : ∀ s ∈ t.chain (t.bucketOf key), ∃ e, s = .live e) (value : Value) :
    (t.addHashed live key value).ShortChains := by
  have grown (pending : Pending)
      (arrives : pending.arriving (t.rehash live pending).array.size = 1) :
      ((t.rehash live pending).append key value).ShortChains := by
    obtain ⟨short', clean, room⟩ := rehash lawful pending t
    exact short'.append (by omega) (clean _) value
  unfold Table.addHashed
  split
  · rename_i free
    exact short.append free entries value
  · split
    · rename_i i
      split
      · rename_i range
        dsimp only
        split
        · exact (rehash lawful (.arrayKey i.toInt.toNat) t).1.congr rfl rfl
        · rename_i outside
          refine grown _ (if_pos ?_)
          unfold position? at outside
          split at outside
          · cases outside
          · omega
      · exact grown .hashKey rfl
    · exact grown .hashKey rfl

theorem setHashed (short : t.ShortChains) (lawful : live.Lawful) (value : Value) :
    (t.setHashed live key value).ShortChains := by
  unfold Table.setHashed
  dsimp only
  split
  · unfold removeHashed
    dsimp only
    split
    · rename_i chain found
      exact short.bury found
    · exact short
  · split
    · rename_i chain found
      exact short.overwrite found
    · obtain ⟨pruned, entries⟩ := short.pruneChain (live.holding (key.refs ++ value.refs))
        (t.bucketOf key)
      have same : (t.pruneChain (live.holding (key.refs ++ value.refs))
          (t.bucketOf key)).bucketOf key = t.bucketOf key :=
        bucketOf_of_size (size_buckets_setChain ..) key
      exact pruned.addHashed (lawful.holding _)
        (fun s member => entries s (by rwa [same] at member)) value

end ShortChains

variable [Hashing]

theorem kept_shortChains : Kept Liveness.Lawful ShortChains where
  sized := ShortChains.sized
  setCell _ _ _ short := short.congr rfl rfl
  setHashed value lawful _ short := short.setHashed lawful value
  presizeArray positions _ short := short.presizeArray _ positions
  attachMetatable metatable policy lawful short := short.attachMetatable lawful metatable policy

theorem ArisesIn.shortChains (arises : t.ArisesIn Liveness.Lawful) : t.ShortChains :=
  kept_shortChains.arisesIn Liveness.closed_lawful arises

/-! ## Churn -/

/-- A run of writes each of which removes its key or finds a bucket free for it. -/
def Churns : Table → List (Liveness × Change) → Prop
  | _, [] => True
  | t, (live, c) :: rest =>
    (∃ key value, c = .set key value ∧ (value = .nil ∨ t.count < t.hashCapacity)) ∧
      (c.perform live t).Churns rest

/-- Neither a removal nor a write that finds a free bucket makes a table move. -/
theorem capacities_set {live : Liveness} {key value : Value}
    (fits : value = .nil ∨ t.count < t.hashCapacity) :
    ((Change.set key value).perform live t).capacities = t.capacities := by
  cases named : key.toKey? with
  | none => rw [perform_set_of_invalid named]
  | some k =>
    rw [perform_set_of_named named]
    have unmoved : Unmoved t (t.put live key value) := by
      rcases fits with rfl | room
      · exact unmoved_put_nil live t key
      · exact unmoved_put room
    exact Prod.ext unmoved.arraySize unmoved.hashSize

theorem Churns.capacities_after {steps : List (Liveness × Change)} (churns : t.Churns steps) :
    (t.after steps).capacities = t.capacities := by
  induction steps generalizing t with
  | nil => rfl
  | cons step rest ih =>
    obtain ⟨live, c⟩ := step
    obtain ⟨⟨key, value, rfl, fits⟩, others⟩ := churns
    exact (ih others).trans (capacities_set fits)

/-- In every table that can come about, of whatever size, no chain has more slots than there are
buckets, tombstones included, and so all chains together have no more slots than the square of that.
However long a table is written to without its hash region being sized anew, it never has more slots
than that, and it is not sized anew while every write removes a key or finds a free bucket. -/
theorem chains_stay_short (arises : t.ArisesIn Liveness.Lawful) :
    (∀ bucket, (t.chain bucket).length ≤ t.hashCapacity) ∧
    t.slotCount ≤ t.hashCapacity ^ 2 ∧
    ∀ steps : List (Liveness × Change), (∀ step ∈ steps, step.1.Lawful) →
      ((t.after steps).hashCapacity = t.hashCapacity →
        (t.after steps).slotCount ≤ t.hashCapacity ^ 2) ∧
      (t.Churns steps → (t.after steps).capacities = t.capacities ∧
        (t.after steps).slotCount ≤ t.hashCapacity ^ 2) := by
  refine ⟨arises.shortChains.short, arises.shortChains.slotCount_le, fun steps lawful => ?_⟩
  have bounded : (t.after steps).slotCount ≤ (t.after steps).hashCapacity ^ 2 :=
    (arises.after lawful).shortChains.slotCount_le
  refine ⟨fun same => same ▸ bounded, fun churns => ⟨churns.capacities_after, ?_⟩⟩
  have same : (t.after steps).hashCapacity = t.hashCapacity :=
    congrArg Prod.snd churns.capacities_after
  exact same ▸ bounded

omit [Hashing] in
/-- Two pairs of keys that each share a bucket come and go. All that is left of them are tombstones,
as many as the bound allows. -/
theorem chains_full_of_tombstones :
    let a : Value := .text (.short "a")
    let b : Value := .text (.short "b")
    let t := @after .uniform .empty [(nothingReclaimed, .set a (.int 1))]
    let steps := [Change.set b (.int 2), .set a .nil, .set b .nil, .set (.bool true) (.int 3),
      .set (.bool false) (.int 4), .set (.bool true) .nil, .set (.bool false) .nil].map
        (nothingReclaimed, ·)
    let now := @after .uniform t steps
    @ArisesIn .uniform Liveness.Lawful t ∧ @Churns .uniform t steps ∧
      now.capacities = t.capacities ∧ now.slotCount ≤ t.hashCapacity ^ 2 ∧
      now.count = 0 ∧ now.slotCount = 4 ∧ t.hashCapacity = 2 := by
  intro a b t steps now
  let hashing : Hashing := .uniform
  have spared (changes : List Change) :
      ∀ step ∈ changes.map (nothingReclaimed, ·), step.1.Lawful := by
    intro step member
    obtain ⟨c, -, rfl⟩ := List.mem_map.mp member
    exact nothingReclaimed_lawful
  have arises : t.ArisesIn Liveness.Lawful :=
    (ArisesIn.made (show Origin.empty.build = .ok .empty from rfl)).after
      (spared [Change.set a (.int 1)])
  have churns : t.Churns steps := by
    refine ⟨⟨_, _, rfl, .inr (by decide +kernel)⟩, ⟨_, _, rfl, .inl rfl⟩, ⟨_, _, rfl, .inl rfl⟩,
      ⟨_, _, rfl, .inr (by decide +kernel)⟩, ⟨_, _, rfl, .inr (by decide +kernel)⟩,
      ⟨_, _, rfl, .inl rfl⟩, ⟨_, _, rfl, .inl rfl⟩, trivial⟩
  obtain ⟨-, -, runs⟩ := chains_stay_short arises
  obtain ⟨capacities, slots⟩ := (runs steps (spared _)).2 churns
  exact ⟨arises, churns, capacities, slots, by decide +kernel, by decide +kernel,
    by decide +kernel⟩

end Table

end HybridTable
