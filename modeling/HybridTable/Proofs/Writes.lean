import HybridTable.Proofs.Resizing

/-! Storing and removing one pair. Whatever a write has to do to the storage, afterwards the key has
the new value or none, the layout is intact, and of the other pairs only such are gone as can no
longer be read. The key and the value are held by the running operation, so an entry for the key is
always recognized, even if nothing else holds the key any more. -/
namespace HybridTable

namespace Table

/-- What a write under a key has done to a table. -/
structure Written [Hashing] (live : Liveness) (t : Table) (k : Key) (value : Value) (t' : Table) :
    Prop where
  /-- The layout is kept. -/
  sound : t'.Sound
  /-- The policy is the same. -/
  ruled : t'.policy = t.policy
  /-- The metatable is the same. -/
  attached : t'.metatable = t.metatable
  /-- The key has this value, or none if it is `nil`. -/
  own : ∀ v, t'.Stores k v ↔ v = value ∧ value ≠ .nil
  /-- The other keys have what they had, as far as it can be read. -/
  others : Keeps live t.policy (· ≠ k) t t'

variable [Hashing] {t t' t'' : Table} {live : Liveness} {key value : Value} {k : Key}

/-- A write may be preceded by a migration. -/
theorem Written.after (fair : live.Fair t.policy)
    (moved : Migrated live t t.metatable t.policy t') (written : Written live t' k value t'') :
    Written live t k value t'' where
  sound := written.sound
  ruled := written.ruled.trans moved.ruled
  attached := written.attached.trans moved.attached
  own := written.own
  others := (moved.keeps.weaken fun _ _ => trivial).trans fair (moved.ruled ▸ written.others)

/-- The table with a hash region. -/
def opened (t : Table) : Table :=
  if t.buckets.isEmpty then { t with buckets := Array.replicate minHashCapacity [] } else t

omit [Hashing] in
theorem opened_of_buckets (some_bucket : 0 < t.buckets.size) : t.opened = t := by
  have inside : t.buckets.isEmpty = false := by
    rw [Array.isEmpty_eq_false_iff]
    rintro empty
    simp [empty] at some_bucket
  unfold opened
  rw [inside, if_neg Bool.false_ne_true]

theorem append_eq (t : Table) (key value : Value) : t.append key value =
    t.opened.rechain (t.opened.bucketOf key) (t.opened.chain (t.opened.bucketOf key) ++
      [.live (.make t.opened.policy key value)]) (t.opened.count + 1) := by
  have hash (policy : WeakPolicy) : (Entry.make policy key value).keyHash = key.keyHash := by
    rw [Entry.keyHash_eq, Entry.key_make]
  simp only [append, hash]
  rfl

theorem size_array_append (t : Table) (key value : Value) :
    (t.append key value).array.size = t.array.size := by
  unfold append
  split <;> rfl

/-- A new key that is no integer gets an entry in any case. -/
theorem addHashed_of_other (live : Liveness) (t : Table) (value : Value)
    (other : ∀ i, key ≠ .int i) : t.addHashed live key value =
      if t.count < t.buckets.size then t.append key value
      else (t.rehash live .hashKey).append key value := by
  unfold addHashed
  cases key with
  | int i => exact absurd rfl (other i)
  | _ => rfl

theorem put_of_other (live : Liveness) (t : Table) (value : Value)
    (other : ∀ i, key.normalize ≠ .int i) :
    t.put live key value = t.setHashed live key.normalize value := by
  unfold put
  split
  · rename_i i integer
    exact absurd integer (other i)
  · rfl

/-- Writing the position of a key. -/
theorem written_setPosition (sound : t.Sound) (fair : live.Fair t.policy)
    (holds : live.Holds t.policy value.refs) {i : Int64} {position : Nat}
    (found : t.position? i = some position) :
    Written live t (.int i) value (t.setPosition position value) := by
  obtain ⟨inside, rfl⟩ := (position?_eq_some_iff sound.addressable).mp found
  unfold setPosition
  by_cases removed : value = .nil
  · subst removed
    have sound' := sound.setCell inside none nofun
    refine ⟨sound', rfl, rfl, fun v => ⟨fun stored => ?_, fun absurd => (absurd.2 rfl).elim⟩, ?_⟩
    · have same : (t.setCell position none).position? (Int64.ofNat (position + 1)) =
          some position := by simpa [position?] using found
      obtain ⟨c, used, _⟩ := sound'.position_of_stores same stored
      rw [getElem?_setCell inside, if_pos rfl] at used
      cases used
    · refine .of_iff fair holds (fun k v other => stores_setCell_iff inside other)
        fun r member => ?_
      refine (refs_setCell member).imp_right ?_
      rintro ⟨c, ⟨⟩, _⟩
  · rw [if_neg fun none => removed (Value.isNil_iff.mp none)]
    have sound' := sound.setCell inside (some (t.policy.valueCell value)) fun c same => by
      cases same
      exact ⟨by rw [WeakPolicy.content_valueCell], by simpa using removed⟩
    have own := stores_setCell inside (t.policy.valueCell value)
    rw [WeakPolicy.content_valueCell] at own
    refine ⟨sound', rfl, rfl, fun v => ⟨fun stored => ?_, ?_⟩, ?_⟩
    · exact ⟨sound'.functional stored own, removed⟩
    · rintro ⟨rfl, _⟩
      exact own
    · refine .of_iff fair holds (fun k v other => stores_setCell_iff inside other)
        fun r member => ?_
      apply (refs_setCell member).imp_right
      rintro ⟨c, same, part⟩
      cases same
      simpa using (t.policy.valueCell value).refs_subset part

omit [Hashing] in
/-- What is listed after one slot was put in the place of another is that slot or was listed before.
-/
theorem mem_of_replaced {before after : Chain} {new s : Slot} (old : Slot)
    (listed : s ∈ before ++ new :: after) : s = new ∨ s ∈ before ++ old :: after := by
  rcases List.mem_append.mp listed with early | listed
  · exact .inr (List.mem_append_left _ early)
  · rcases List.mem_cons.mp listed with same | late
    · exact .inl same
    · exact .inr (List.mem_append_right _ (List.mem_cons_of_mem old late))

/-- Replacing the entry of a key by another entry or by a tombstone for it. -/
theorem written_amend (sound : t.Sound) (fair : live.Fair t.policy) (count : Nat) {args : List Ref}
    (holds : live.Holds t.policy args) {bucket : Nat} {before after : Chain} {e : Entry}
    (found : t.chain bucket = before ++ .live e :: after) (spelled : e.key.toKey? = some k)
    {s : Slot} (admitted : t.Admits bucket s) (same : s.key.toKey? = some k)
    (result : (∃ e', s = .live e' ∧ e'.value = value) ∨ s.isDead = true ∧ value = .nil)
    (counted : count + 1 = t.count + Chain.entryCount [s])
    (part : ∀ r ∈ s.refs, r ∈ t.refs ∨ r ∈ args) :
    Written live t k value (t.rechain bucket (before ++ s :: after) count) := by
  have member : .live e ∈ t.chain bucket := by simp [found]
  have inside := lt_of_mem_chain member
  have distinct : Chain.Distinct (before ++ s :: after) := by
    refine (sound.distinct bucket).congr ?_
    have keys : s.key.toKey? = (Slot.live e).key.toKey? := same.trans spelled.symm
    simp only [found, List.map_append, List.map_cons, keys]
  have room := sound.room
  have one : Chain.entryCount [s] ≤ 1 := List.countP_le_length
  have sound' : (t.rechain bucket (before ++ s :: after) count).Sound := by
    refine sound.rechain inside (fun s' listed => ?_) distinct ?_ (by omega)
    · rcases mem_of_replaced (.live e) listed with rfl | old
      · exact admitted
      · exact sound.slots bucket s' (found ▸ old)
    · rw [found]
      simp only [Chain.entryCount, List.countP_append, List.countP_cons, List.countP_nil,
        Slot.isDead, Bool.not_false, ↓reduceIte] at counted ⊢
      omega
  refine ⟨sound', rfl, rfl, fun v => ⟨fun stored => ?_, ?_⟩, ?_⟩
  · obtain ⟨e', listed, spelled', rfl⟩ := sound'.entry_of_stores admitted.normal same
      admitted.outside stored
    have here : (t.rechain bucket (before ++ s :: after) count).bucketOf s.key = bucket := by
      rw [admitted.here, bucketOf, size_buckets_rechain]
      rfl
    rw [here, chain_rechain inside, if_pos rfl] at listed
    have unique := distinct.eq_of_toKey? listed (List.mem_append_right _ List.mem_cons_self)
      (spelled'.trans same.symm)
    subst unique
    rcases result with ⟨e'', live, value⟩ | ⟨dead, _⟩
    · cases live
      exact ⟨value, value ▸ admitted.valued e' rfl⟩
    · cases dead
  · rintro ⟨rfl, removed⟩
    rcases result with ⟨e', rfl, rfl⟩ | ⟨_, none⟩
    · exact stores_rechain inside ⟨e', List.mem_append_right _ List.mem_cons_self, same, rfl⟩
    · exact absurd none removed
  · refine .of_iff fair holds (fun k' v other => ⟨fun stored => ?_, fun stored => ?_⟩)
      fun r held => ?_
    · rcases stores_of_rechain inside stored with old | ⟨e', listed, spelled', rfl⟩
      · exact old
      · rcases mem_of_replaced (.live e) listed with rfl | old
        · exact absurd (Option.some.inj (spelled'.symm.trans same)) other
        · rw [← found] at old
          exact .entry old spelled'
    · apply stored.rechain inside
      rintro ⟨e', listed, spelled', value⟩
      refine ⟨e', ?_, spelled', value⟩
      rw [found] at listed
      rcases mem_of_replaced s listed with gone | kept
      · cases gone
        exact absurd (Option.some.inj (spelled'.symm.trans spelled)) other
      · exact kept
    · rcases refs_rechain held with old | new
      · exact .inl old
      · obtain ⟨s', listed, own⟩ := List.mem_flatMap.mp new
        rcases mem_of_replaced (.live e) listed with rfl | old
        · exact part r own
        · rw [← found] at old
          exact .inl (mem_refs.mpr (.inr (.inr ⟨bucket, s', old, own⟩)))

section
variable (sound : t.Sound) (fair : live.Fair t.policy)
  (holds : live.Holds t.policy (key.refs ++ value.refs)) (normal : key.IsNormal)
  (named : key.toKey? = some k) (outside : ∀ i, key = .int i → t.position? i = none)

include sound holds normal named outside

/-- If there is nothing to amend, the key is not stored: an entry for it would have been recognized.
-/
theorem not_stores_of_amend? {held : List Ref} {f : Entry → Slot}
    (absent : (t.chain (t.bucketOf key)).amend? (fun r => live held r) key f = none) (v : Value) :
    ¬ t.Stores k v := by
  intro stored
  obtain ⟨e, member, spelled, _⟩ := sound.entry_of_stores normal named outside stored
  have lost := Chain.absent_of_amend? (sound.distinct _) (sound.named _) normal absent member
    (spelled.trans named.symm)
  have admitted := sound.slots _ _ member
  have readable := ((admitted.fitted e rfl).keyIsAlive_iff spelled).mpr
    (holds.key named (fun r => List.mem_append_left _) held)
  rw [lost] at readable
  cases readable

include fair in
theorem written_removeHashed (removed : value = .nil) :
    Written live t k value (t.removeHashed live key) := by
  subst removed
  unfold removeHashed
  dsimp only
  split
  · rename_i chain found
    obtain ⟨before, e, after, split, rfl, same, _⟩ := Chain.amend?_eq_some (sound.named _) found
    have spelled : e.key.toKey? = some k := same.trans named
    have member : .live e ∈ t.chain (t.bucketOf key) := by simp [split]
    have positive := sound.count_pos member
    refine written_amend sound fair (t.count - 1) holds split spelled ?_ ?_
      (.inr ⟨rfl, rfl⟩) ?_ ?_
    · refine ⟨?_, ?_, ?_, ?_, fun e same => (by cases same), fun e same => (by cases same)⟩ <;>
        simp only [Slot.key, Cell.content_forTombstone]
      · simp [named]
      · exact normal
      · exact outside
    · simp only [Slot.key, Cell.content_forTombstone, named]
    · simp only [Chain.entryCount, List.countP_cons, List.countP_nil, Slot.isDead, Bool.not_true,
        Bool.false_eq_true, ↓reduceIte]
      omega
    · intro r own
      rw [Slot.refs, Cell.refs_forTombstone] at own
      cases own
  · rename_i absent
    have missing := not_stores_of_amend? sound holds normal named outside absent
    exact ⟨sound, rfl, rfl, fun v => ⟨fun stored => (missing v stored).elim,
      fun removed => (removed.2 rfl).elim⟩, .refl fair _ t⟩

omit normal outside in
/-- Overwriting keeps the entry, its key and the size of its chain. -/
theorem written_overwrite (stored : value ≠ .nil) (fair : live.Fair t.policy) {held : List Ref}
    {chain : Chain}
    (found : (t.chain (t.bucketOf key)).amend? (fun r => live held r) key
      (fun e => .live (e.replace t.policy value)) = some chain) :
    Written live t k value (t.setChain (t.bucketOf key) chain) := by
  obtain ⟨before, e, after, split, rfl, same, _⟩ := Chain.amend?_eq_some (sound.named _) found
  have spelled : e.key.toKey? = some k := same.trans named
  have member : .live e ∈ t.chain (t.bucketOf key) := by simp [split]
  have admitted := sound.slots _ _ member
  refine written_amend sound fair t.count holds split spelled ?_ ?_
    (.inl ⟨_, rfl, Entry.value_replace ..⟩) rfl ?_
  · refine ⟨?_, ?_, ?_, ?_, ?_, ?_⟩
    · simpa [Slot.key] using admitted.here
    · simpa [Slot.key] using admitted.named
    · simpa [Slot.key] using admitted.normal
    · simpa [Slot.key] using admitted.outside
    · rintro e' ⟨⟩
      exact (admitted.fitted e rfl).replace value
    · rintro e' ⟨⟩
      rwa [Entry.value_replace]
  · simpa [Slot.key] using spelled
  · intro r own
    rcases Entry.refs_replace own with old | new
    · exact .inl (mem_refs.mpr (.inr (.inr ⟨_, _, member, old⟩)))
    · exact .inr (List.mem_append_right _ new)


/-- A new entry goes to the end of its chain, which must have no slot for the key any more. -/
theorem written_append (stored : value ≠ .nil) (fair : live.Fair t.policy)
    (room : t.count < t.buckets.size)
    (fresh : ∀ s ∈ t.chain (t.bucketOf key), s.key.toKey? ≠ some k) :
    Written live t k value (t.append key value) := by
  have inside : t.bucketOf key < t.buckets.size := t.bucketOf_lt key (by omega)
  let added := Entry.make t.policy key value
  have made : t.append key value = t.rechain (t.bucketOf key)
      (t.chain (t.bucketOf key) ++ [.live added]) (t.count + 1) := by
    rw [append_eq, opened_of_buckets (by omega)]
  have own : (Slot.live added).key = key := Entry.key_make ..
  have spelled : added.key.toKey? = some k := (congrArg Value.toKey? own).trans named
  have value_added : added.value = value := Entry.value_make ..
  have admitted : t.Admits (t.bucketOf key) (.live added) := by
    refine ⟨congrArg t.bucketOf own.symm, own ▸ by simp [named], own ▸ normal,
      fun i integer => outside i (own ▸ integer), ?_, ?_⟩
    · rintro e ⟨⟩
      exact Entry.fitted_make ..
    · rintro e ⟨⟩
      rwa [value_added]
  have distinct : Chain.Distinct (t.chain (t.bucketOf key) ++ [.live added]) := by
    refine List.pairwise_append.mpr ⟨sound.distinct _, List.pairwise_singleton .., ?_⟩
    intro s member s' last same
    cases List.mem_singleton.mp last
    exact fresh s member (same.trans (own ▸ named))
  have sound' : (t.rechain (t.bucketOf key) (t.chain (t.bucketOf key) ++ [.live added])
      (t.count + 1)).Sound := by
    refine sound.rechain inside (fun s member => ?_) distinct ?_ room
    · rcases List.mem_append.mp member with old | last
      · exact sound.slots _ s old
      · cases List.mem_singleton.mp last
        exact admitted
    · simp only [Chain.entryCount, List.countP_append, List.countP_cons, List.countP_nil,
        Slot.isDead, Bool.not_false, ↓reduceIte]
      omega
  rw [made]
  have present : (t.rechain (t.bucketOf key) (t.chain (t.bucketOf key) ++ [.live added])
      (t.count + 1)).Stores k value :=
    stores_rechain inside ⟨added, by simp, spelled, value_added⟩
  refine ⟨sound', rfl, rfl,
    fun v => ⟨fun other => ⟨sound'.functional other present, stored⟩, ?_⟩, ?_⟩
  · rintro ⟨rfl, _⟩
    exact present
  · refine .of_iff fair holds (fun k' v other => ⟨fun stored => ?_, fun stored => ?_⟩)
      fun r held => ?_
    · rcases stores_of_rechain inside stored with old | ⟨e, member, spelled', rfl⟩
      · exact old
      · rcases List.mem_append.mp member with old | last
        · exact .entry old spelled'
        · cases List.mem_singleton.mp last
          exact absurd (Option.some.inj (spelled'.symm.trans spelled)) other
    · refine stored.rechain inside ?_
      rintro ⟨e, member, rest⟩
      exact ⟨e, List.mem_append_left _ member, rest⟩
    · rcases refs_rechain held with old | new
      · exact .inl old
      · obtain ⟨s, member, own⟩ := List.mem_flatMap.mp new
        rcases List.mem_append.mp member with old | last
        · exact .inl (mem_refs.mpr (.inr (.inr ⟨_, s, old, own⟩)))
        · cases List.mem_singleton.mp last
          have part := added.refs_subset own
          rw [Entry.key_make, Entry.value_make] at part
          exact .inr part

end

omit [Hashing] in
/-- Outside the hash region there is nothing to prune. -/
theorem pruneChain_outside {bucket : Nat} (outside : t.buckets.size ≤ bucket) :
    t.pruneChain live bucket = t := by
  have same : t.setChain bucket [] = t := by
    cases t
    simp only [setChain, Array.setIfInBounds_eq_of_size_le outside]
  simp only [pruneChain, t.chain_outside outside, Chain.prune, Nat.sub_self, Nat.sub_zero]
  exact same

omit [Hashing] in
theorem refs_setChain {bucket : Nat} {chain : Chain} {count : Nat} {r : Ref}
    (member : r ∈ (t.rechain bucket chain count).refs) :
    r ∈ (t.setChain bucket []).refs ++ chain.flatMap Slot.refs := by
  have again :
      (t.setChain bucket []).rechain bucket chain count = t.rechain bucket chain count := by
    simp [rechain, setChain, Array.setIfInBounds_setIfInBounds]
  rw [← again] at member
  exact List.mem_append.mpr (refs_rechain member)

/-- Pruning a chain frees the buckets of what can no longer be read, and leaves no tombstone. -/
theorem migrated_pruneChain (sound : t.Sound) (fair : live.Fair t.policy) (bucket : Nat) :
    let t' := t.pruneChain live bucket
    Migrated live t t.metatable t.policy t' ∧ t'.array = t.array ∧
      t'.buckets.size = t.buckets.size ∧ ∀ s ∈ t'.chain bucket, ∃ e, s = .live e := by
  intro t'
  by_cases inside : bucket < t.buckets.size
  · let others : Liveness := fun held => live ((t.setChain bucket []).refs ++ held)
    let pruned := (t.chain bucket).prune others
    have part : pruned.Sublist (t.chain bucket) := Chain.prune_sublist ..
    let count := t.count - ((t.chain bucket).entryCount - pruned.entryCount)
    have made : t' = t.rechain bucket pruned count := rfl
    have fewer : pruned.entryCount ≤ (t.chain bucket).entryCount := part.countP_le
    have enough : (t.chain bucket).entryCount ≤ t.count := sound.entryCount_le bucket
    have room := sound.room
    have sound' : (t.rechain bucket pruned count).Sound := by
      refine sound.rechain inside (fun s member => sound.slots bucket s (part.mem member))
        ((sound.distinct bucket).sublist part) ?_ ?_
      · simp only [count]
        omega
      · simp only [count]
        omega
    rw [made]
    refine ⟨⟨sound', rfl, rfl, ⟨?_, ?_, ?_⟩⟩, rfl, size_buckets_rechain, ?_⟩
    · intro k v _ stored
      rcases stores_of_rechain inside stored with old | ⟨e, member, spelled, rfl⟩
      · exact old
      · exact .entry (t := t) (part.mem member) spelled
    · intro k v _ stored spared
      refine Stores.rechain (t := t) inside stored ?_
      rintro ⟨e, member, spelled, value⟩
      refine ⟨e, ?_, spelled, value⟩
      have fitted := (sound.slots bucket _ member).fitted e rfl
      rcases fair with strong | lawful
      · refine Chain.mem_prune_of_strong member fun alive => (fitted.isAlive_iff spelled).mpr ?_
        rw [strong]
        exact WeakPolicy.spares_allStrong ..
      · refine Chain.mem_prune (lawful.holding _) member ((fitted.isAlive_iff spelled).mpr ?_)
        rw [value]
        have more : ∀ r, live (t.rechain bucket pruned count).refs r = true →
            others (pruned.flatMap Slot.refs) r = true := fun r =>
          lawful.mono fun r => refs_setChain
        exact ⟨fun weak r member => more r (spared.key weak r member),
          fun weak object r member => more r (spared.value weak object r member)⟩
    · refine fair.imp_right fun lawful r member => lawful.holds ?_
      rcases refs_rechain member with own | new
      · exact own
      · obtain ⟨s, listed, own⟩ := List.mem_flatMap.mp new
        exact mem_refs.mpr (.inr (.inr ⟨bucket, s, part.mem listed, own⟩))
    · rw [chain_rechain inside, if_pos rfl]
      exact fun s => Chain.live_of_mem_prune
  · have same : t' = t := pruneChain_outside (Nat.le_of_not_lt inside)
    rw [same]
    refine ⟨⟨sound, rfl, rfl, .refl fair _ t⟩, rfl, rfl, fun s member => ?_⟩
    exact absurd (lt_of_mem_chain member) inside

/-- Having no position for a key, if that is beyond the range of array keys. A new key of that kind
gets an entry, whatever size the array region has after it. -/
def LeavesOut (t : Table) (i : Int64) : Prop := maxArrayKey < i.toInt → t.position? i = none

omit [Hashing] in
/-- The largest array region that is meant to be has positions for array keys only. -/
theorem Bounded.leavesOut (bounded : t.Bounded) (i : Int64) : t.LeavesOut i := by
  intro beyond
  have limit : maxArrayCapacity ≤ maxArrayKey := by decide
  have size : t.array.size ≤ maxArrayCapacity := bounded
  exact if_neg (by omega)

theorem leavesOut_append {i : Int64} :
    (t.append key value).LeavesOut i ↔ t.LeavesOut i := by
  unfold LeavesOut position?
  rw [size_array_append]

section
variable (sound : t.Sound) (fair : live.Fair t.policy)
  (holds : live.Holds t.policy (key.refs ++ value.refs)) (normal : key.IsNormal)
  (named : key.toKey? = some k) (outside : ∀ i, key = .int i → t.position? i = none)
  (stored : value ≠ .nil) (absent : ∀ v, ¬ t.Stores k v)

include sound fair holds normal named stored absent

/-- After a rehash with the key pending, the key is appended unless it got a position. -/
theorem written_rehash_append {pending : Pending}
    (unplaced : ∀ i, key = .int i → (t.rehash live pending).position? i = none)
    (arrives : pending.arriving (t.rehash live pending).array.size = 1) :
    Written live t k value ((t.rehash live pending).append key value) := by
  obtain ⟨moved, clean, room⟩ := migrated_rehash sound fair t.metatable pending
    (.inr rfl)
  rw [show t.governed t.metatable t.policy = t from rfl] at moved clean room
  refine .after fair moved (written_append moved.sound ?_ normal named unplaced stored ?_ ?_ ?_)
  · exact moved.ruled.symm ▸ holds
  · exact moved.ruled.symm ▸ fair
  · omega
  · intro s member same
    obtain ⟨e, rfl⟩ := clean _ s member
    exact absent e.value (moved.keeps.stale k _ trivial (.entry member same))

include outside in
/-- A new key gets a free bucket, or one that a rehash makes, or a position. -/
theorem written_addHashed
    (leftOut : ∀ i, key = .int i → (t.addHashed live key value).LeavesOut i)
    (fresh : ∀ s ∈ t.chain (t.bucketOf key), s.key.toKey? ≠ some k) :
    Written live t k value (t.addHashed live key value) := by
  unfold addHashed at leftOut ⊢
  by_cases room : t.count < t.buckets.size
  · rw [if_pos room]
    exact written_append sound holds normal named outside stored fair room fresh
  · rw [if_neg room] at leftOut ⊢
    cases key with
    | int i =>
      dsimp only at leftOut ⊢
      obtain ⟨moved, _⟩ := migrated_rehash sound fair t.metatable
        (.arrayKey i.toInt.toNat) (.inr rfl)
      by_cases range : 0 < i.toInt ∧ i.toInt ≤ maxArrayKey
      · rw [if_pos range]
        split
        · rename_i position found
          cases named
          exact .after fair moved (written_setPosition moved.sound (moved.ruled.symm ▸ fair)
            (moved.ruled.symm ▸ holds) found)
        · rename_i unplaced
          refine written_rehash_append sound fair holds normal named stored absent
            (fun j same => Value.int.inj same ▸ unplaced) ?_
          unfold position? at unplaced
          split at unplaced
          · cases unplaced
          · exact if_pos (by omega)
      · rw [if_neg range] at leftOut ⊢
        have unplaced := leavesOut_append.mp (leftOut i rfl)
        refine written_rehash_append sound fair holds normal named stored absent
          (fun j same => ?_) rfl
        cases same
        by_cases beyond : maxArrayKey < i.toInt
        · exact unplaced beyond
        · exact if_neg (by omega)
    | _ =>
      exact written_rehash_append sound fair holds normal named stored absent
        (fun i same => by cases same) rfl

end

/-- A write in the hash region. The key must not get a position from the rehash that makes room for
its entry. -/
theorem written_setHashed_of_leavesOut (sound : t.Sound) (fair : live.Fair t.policy)
    (normal : key.IsNormal) (named : key.toKey? = some k)
    (outside : ∀ i, key = .int i → t.position? i = none)
    (leftOut : ∀ i, key = .int i → (t.setHashed live key value).LeavesOut i) :
    Written (live.holding (key.refs ++ value.refs)) t k value (t.setHashed live key value) := by
  have holds := fair.holds (key.refs ++ value.refs)
  have fair := fair.holding (key.refs ++ value.refs)
  unfold setHashed at leftOut ⊢
  dsimp only at leftOut ⊢
  by_cases removed : value.isNil = true
  · rw [if_pos removed]
    exact written_removeHashed sound fair holds normal named outside (Value.isNil_iff.mp removed)
  · rw [if_neg removed] at leftOut ⊢
    have stored : value ≠ .nil := fun none => removed (Value.isNil_iff.mpr none)
    cases found : (t.chain (t.bucketOf key)).amend?
        (fun r => live.holding (key.refs ++ value.refs) t.refs r) key
        (fun e => .live (e.replace t.policy value)) with
    | some chain => exact written_overwrite sound holds named stored fair found
    | none =>
      rw [found] at leftOut
      have missing := not_stores_of_amend? sound holds normal named outside found
      obtain ⟨moved, array, buckets, clean⟩ := migrated_pruneChain sound fair (t.bucketOf key)
      have absent : ∀ v, ¬ (t.pruneChain (live.holding (key.refs ++ value.refs))
          (t.bucketOf key)).Stores k v := fun v stored =>
        missing v (moved.keeps.stale k v trivial stored)
      refine .after fair moved (written_addHashed moved.sound (moved.ruled.symm ▸ fair)
        (moved.ruled.symm ▸ holds) normal named (fun i same => ?_) stored absent leftOut ?_)
      · rw [position?, array]
        exact outside i same
      · intro s member same
        rw [bucketOf_of_size buckets] at member
        obtain ⟨e, rfl⟩ := clean s member
        exact absent e.value (.entry member same)

/-- A write in the hash region, if the array region keeps to the documented range. -/
theorem written_setHashed (sound : t.Sound) (fair : live.Fair t.policy) (normal : key.IsNormal)
    (named : key.toKey? = some k) (outside : ∀ i, key = .int i → t.position? i = none)
    (bounded : (t.setHashed live key value).Bounded) :
    Written (live.holding (key.refs ++ value.refs)) t k value (t.setHashed live key value) :=
  written_setHashed_of_leavesOut sound fair normal named outside fun i _ => bounded.leavesOut i

/-- A write under an integer key. A key without a position must not get one from the rehash that
makes room for its entry. -/
theorem written_setInt_of_leavesOut (sound : t.Sound) (fair : live.Fair t.policy) {i : Int64}
    (leftOut : t.position? i = none → (t.setInt live i value).LeavesOut i) :
    Written (live.holding value.refs) t (.int i) value (t.setInt live i value) := by
  unfold setInt at leftOut ⊢
  cases found : t.position? i with
  | some position =>
    exact written_setPosition sound (fair.holding value.refs) (fair.holds value.refs) found
  | none =>
    rw [found] at leftOut
    have normal : (Value.int i).IsNormal := rfl
    refine written_setHashed_of_leavesOut sound fair normal rfl
      (fun j same => Value.int.inj same ▸ found) fun j same => ?_
    exact Value.int.inj same ▸ leftOut rfl

/-- A write under an integer key, if the array region keeps to the documented range. -/
theorem written_setInt (sound : t.Sound) (fair : live.Fair t.policy) {i : Int64}
    (bounded : (t.setInt live i value).Bounded) :
    Written (live.holding value.refs) t (.int i) value (t.setInt live i value) :=
  written_setInt_of_leavesOut sound fair fun _ => bounded.leavesOut i

/-- A write under whatever can be a key. An integer key without a position must not get one from the
rehash that makes room for its entry. -/
theorem written_put_of_leavesOut (sound : t.Sound) (fair : live.Fair t.policy)
    (named : key.toKey? = some k) (leftOut : ∀ i, key.normalize = .int i → t.position? i = none →
      (t.put live key value).LeavesOut i) :
    Written (live.holding (key.refs ++ value.refs)) t k value (t.put live key value) := by
  rw [← key.refs_normalize]
  have named : key.normalize.toKey? = some k := key.toKey?_normalize.trans named
  have normal := key.isNormal_normalize
  unfold put at leftOut ⊢
  generalize key.normalize = key' at named normal leftOut ⊢
  cases key' with
  | int i =>
    cases named
    exact written_setInt_of_leavesOut sound fair (leftOut i rfl)
  | _ =>
    exact written_setHashed_of_leavesOut sound fair normal named (fun i => nofun) (fun i => nofun)

/-- A write under whatever can be a key, if the array region keeps to the documented range. -/
theorem written_put (sound : t.Sound) (fair : live.Fair t.policy) (named : key.toKey? = some k)
    (bounded : (t.put live key value).Bounded) :
    Written (live.holding (key.refs ++ value.refs)) t k value (t.put live key value) :=
  written_put_of_leavesOut sound fair named fun i _ _ => bounded.leavesOut i

/-! ## What can be read in a strong table after a write -/

section
variable {alive : Ref → Bool} (written : Written live t k value t') (sound : t.Sound)
  (strong : t.policy = .allStrong)
include written sound strong

/-- In a strong table a write leaves all other keys alone. -/
theorem Written.get_other (apart : key.toKey? ≠ some k) : t'.get alive key = t.get alive key := by
  apply Option.ext
  intro v
  rw [written.sound.get_eq_some_iff, sound.get_eq_some_iff]
  refine exists_congr fun k' => and_congr_right fun named => ?_
  have other : k' ≠ k := fun same => apart (same ▸ named)
  have spared (alive : Ref → Bool) : t.policy.Spares alive k' v := by
    rw [strong]
    exact WeakPolicy.spares_allStrong ..
  rw [written.ruled, and_iff_left (spared alive), and_iff_left (spared alive)]
  exact ⟨written.others.stale k' v other,
    fun stored => written.others.spared k' v other stored (spared _)⟩

omit sound in
/-- In a strong table the key of a write has what was written. -/
theorem Written.get_own (spelled : key.toKey? = some k) :
    t'.get alive key = if value = .nil then none else some value := by
  apply Option.ext
  intro v
  rw [written.sound.get_eq_some_iff, written.ruled, strong]
  constructor
  · rintro ⟨k', named, stored, _⟩
    cases spelled.symm.trans named
    obtain ⟨rfl, some_value⟩ := (written.own v).mp stored
    rw [if_neg some_value]
  · intro read
    split at read <;> cases read
    rename_i some_value
    exact ⟨k, spelled, (written.own _).mpr ⟨rfl, some_value⟩, WeakPolicy.spares_allStrong ..⟩

end

section
variable {alive : Ref → Bool} {i j : Int64} (written : Written live t (.int i) value t')
  (strong : t.policy = .allStrong)
include written strong

theorem Written.getInt_other (sound : t.Sound) (apart : j ≠ i) :
    t'.getInt alive j = t.getInt alive j := by
  show t'.get alive (.int j) = t.get alive (.int j)
  refine written.get_other sound strong fun same => ?_
  exact apart (Key.int.inj (Option.some.inj same))

theorem Written.getInt_own (stored : value ≠ .nil) : t'.getInt alive i = some value := by
  have read : t'.get alive (.int i) = _ := written.get_own strong rfl
  exact read.trans (if_neg stored)

end

end Table

end HybridTable
