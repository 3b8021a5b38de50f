import HybridTable.Proofs.Census
import HybridTable.Proofs.Spellings
import HybridTable.Proofs.Writes

/-! Writing up to the spelling of keys. In a table in which nothing is weak every step of a write
commutes with `canonical`, whatever is alive: the table after a write is, up to spelling, a function
of the table before it up to spelling. This is so although a tombstone takes the spelling of the
caller, because no write looks at a tombstone for more than that there is no entry for its key. -/
namespace HybridTable

namespace Table

/-- The table with other spellings of the keys in its hash region. -/
def canonical : Table → Table
  | { array, buckets, count, metatable, policy } =>
    { array, buckets := buckets.map Chain.canonical, count, metatable, policy }

section
variable {t : Table}

@[simp] theorem array_canonical (t : Table) : t.canonical.array = t.array := rfl
@[simp] theorem count_canonical (t : Table) : t.canonical.count = t.count := rfl
@[simp] theorem metatable_canonical (t : Table) : t.canonical.metatable = t.metatable := rfl
@[simp] theorem policy_canonical (t : Table) : t.canonical.policy = t.policy := rfl

@[simp] theorem size_buckets_canonical (t : Table) :
    t.canonical.buckets.size = t.buckets.size := by simp [canonical]

theorem toList_buckets_canonical (t : Table) :
    t.canonical.buckets.toList = t.buckets.toList.map Chain.canonical := Array.toList_map ..

@[simp] theorem chain_canonical (t : Table) (bucket : Nat) :
    t.canonical.chain bucket = (t.chain bucket).canonical := by
  simp only [chain, canonical, Array.getElem?_map]
  cases t.buckets[bucket]? <;> rfl

@[simp] theorem position?_canonical (t : Table) (i : Int64) :
    t.canonical.position? i = t.position? i := rfl

theorem canonical_setCell (t : Table) (position : Nat) (cell : Option Cell) :
    (t.setCell position cell).canonical = t.canonical.setCell position cell := rfl

theorem canonical_rechain (t : Table) (bucket : Nat) (chain : Chain) (count : Nat) :
    (t.rechain bucket chain count).canonical =
      t.canonical.rechain bucket chain.canonical count := by
  simp only [rechain, setChain, canonical, Array.map_setIfInBounds]

theorem canonical_sized (arrayCapacity hashCapacity : Nat) (metatable : Option Ref)
    (policy : WeakPolicy) : (sized arrayCapacity hashCapacity metatable policy).canonical =
      sized arrayCapacity hashCapacity metatable policy := by
  simp [canonical, sized, Chain.canonical]

theorem moving_canonical (t : Table) : t.canonical.moving = t.moving.map Moving.canonical := by
  have cells : t.movingCells.map Moving.canonical = t.movingCells := by
    refine (List.map_congr_left fun item listed => ?_).trans (List.map_id _)
    obtain ⟨position, c, _, rfl⟩ := mem_movingCells_iff.mp listed
    rfl
  have entries : t.canonical.movingEntries = t.movingEntries.map Moving.canonical := by
    unfold movingEntries
    rw [toList_buckets_canonical, List.flatMap_map, List.map_flatMap]
    refine congrArg (t.buckets.toList.flatMap ·) (funext fun chain => ?_)
    rw [Chain.canonical, List.filterMap_map, List.map_filterMap]
    refine congrArg (chain.filterMap ·) (funext fun s => ?_)
    cases s <;> rfl
  rw [moving, moving, List.map_append, cells, entries]
  rfl

end

variable [Hashing] {t : Table} {live : Liveness} {key value : Value}

theorem bucketOf_canonical (t : Table) (normal : key.IsNormal) (named : key.toKey? ≠ none) :
    t.canonical.bucketOf key.canonical = t.bucketOf key := by
  rw [bucketOf, bucketOf, Value.keyHash_canonical normal named, size_buckets_canonical]

/-! ## Moving to new storage -/

theorem canonical_place (strong : t.policy = .allStrong) {item : Moving}
    (proper : item.Proper .allStrong) (rebuild : Bool) :
    (t.place rebuild item).canonical = t.canonical.place rebuild item.canonical := by
  have same := proper.arrayKey?_canonical t.canonical.array.size
  cases found : item.arrayKey? t.array.size with
  | some n =>
    rw [place_of_some found, place_of_some (same.trans found), canonical_setCell,
      Moving.value_canonical]
    rfl
  | none =>
    rw [place_of_none found, place_of_none (same.trans found), canonical_rechain,
      Moving.key_canonical, bucketOf_canonical t proper.normal proper.named, policy_canonical,
      strong, ← Moving.canonical_toEntry, chain_canonical]
    rfl

theorem canonical_foldl_place (strong : t.policy = .allStrong) {items : List Moving}
    (proper : ∀ item ∈ items, item.Proper .allStrong) (rebuild : Bool) :
    (items.foldl (place rebuild) t).canonical =
      (items.map Moving.canonical).foldl (place rebuild) t.canonical := by
  induction items generalizing t with
  | nil => rfl
  | cons item rest ih =>
    have own := proper item List.mem_cons_self
    rw [List.map_cons, List.foldl_cons, List.foldl_cons, ← canonical_place strong own]
    exact ih ((policy_place ..).trans strong) fun other member =>
      proper other (List.mem_cons_of_mem item member)

/-- Where nothing is weak, everything arrives. -/
theorem placeAll_of_strong {items : List Moving} (proper : ∀ item ∈ items, item.Proper .allStrong)
    (live : Liveness) (rebuild : Bool) (t : Table) :
    placeAll live rebuild items t = items.foldl (place rebuild) t := by
  induction items generalizing t with
  | nil => rfl
  | cons item rest ih =>
    unfold placeAll
    rw [if_pos ((proper item List.mem_cons_self).isAlive _)]
    exact ih (fun other member => proper other (List.mem_cons_of_mem item member)) _

section
variable (sound : t.Sound) (strong : t.policy = .allStrong)
include sound strong

theorem Sound.proper_of_strong : ∀ item ∈ t.moving, item.Proper .allStrong :=
  fun _ moves => strong ▸ sound.proper moves

theorem Sound.firm (bucket : Nat) : (t.chain bucket).Firm := by
  intro e member alive
  have admitted := sound.slots bucket _ member
  obtain ⟨k, named⟩ := Option.ne_none_iff_exists'.mp admitted.named
  refine ((admitted.fitted e rfl).isAlive_iff named).mpr ?_
  rw [strong]
  exact WeakPolicy.spares_allStrong ..

theorem canonical_resize (rebuild : Bool) (arrayCapacity hashCapacity : Nat) :
    (t.resize live rebuild arrayCapacity hashCapacity).canonical =
      t.canonical.resize nothingReclaimed rebuild arrayCapacity hashCapacity := by
  have proper := sound.proper_of_strong strong
  have proper' : ∀ item ∈ t.canonical.moving, item.Proper .allStrong := by
    intro item moves
    rw [moving_canonical] at moves
    obtain ⟨old, listed, rfl⟩ := List.mem_map.mp moves
    exact (proper old listed).canonical
  have ruled : (sized arrayCapacity hashCapacity t.metatable t.policy).policy = .allStrong := strong
  rw [resize, resize, placeAll_of_strong proper, placeAll_of_strong proper',
    canonical_foldl_place ruled proper, moving_canonical, canonical_sized]
  rfl

theorem idealSizes_canonical (alive : Ref → Bool) (pending : Pending) :
    t.canonical.idealSizes (fun _ => true) pending = t.idealSizes alive pending := by
  have proper := sound.proper_of_strong strong
  have kept : t.canonical.moving.filter (·.isAlive fun _ => true) =
      t.moving.map Moving.canonical := by
    rw [moving_canonical]
    refine List.filter_eq_self.mpr fun item moves => ?_
    obtain ⟨old, listed, rfl⟩ := List.mem_map.mp moves
    exact (proper old listed).canonical.isAlive _
  have keys : (t.moving.map Moving.canonical).filterMap Moving.countedKey? =
      t.moving.filterMap Moving.countedKey? := by
    rw [List.filterMap_map]
    exact List.filterMap_congr fun item moves => (proper item moves).countedKey?_canonical
  have stays (limit : Nat) :
      (t.moving.map Moving.canonical).countP (fun item => (item.arrayKey? limit).isNone) =
        t.moving.countP fun item => (item.arrayKey? limit).isNone := by
    rw [List.countP_map]
    refine List.countP_congr fun item moves => ?_
    rw [Function.comp_apply, (proper item moves).arrayKey?_canonical]
  simp only [idealSizes, kept, sound.filter_moving strong, keys, stays]

theorem canonical_rehash (pending : Pending) :
    (t.rehash live pending).canonical = t.canonical.rehash nothingReclaimed pending := by
  have sizes := idealSizes_canonical sound strong (fun r => live t.refs r) pending
  unfold rehash
  rw [show (fun r => nothingReclaimed t.canonical.refs r) = fun _ => true from rfl, sizes]
  exact canonical_resize sound strong ..

end

/-! ## Writing -/

omit [Hashing] in
theorem canonical_opened (t : Table) : t.opened.canonical = t.canonical.opened := by
  unfold opened
  have same : t.canonical.buckets.isEmpty = t.buckets.isEmpty := by
    simp only [Array.isEmpty, size_buckets_canonical]
  rw [same]
  split
  · simp [canonical, Chain.canonical]
  · rfl

theorem canonical_append (strong : t.policy = .allStrong) (normal : key.IsNormal)
    (named : key.toKey? ≠ none) :
    (t.append key value).canonical = t.canonical.append key.canonical value := by
  have ruled : t.opened.policy = .allStrong := by
    unfold opened
    split <;> exact strong
  rw [append_eq, append_eq, canonical_rechain, ← canonical_opened,
    bucketOf_canonical t.opened normal named, policy_canonical, ruled, chain_canonical,
    Chain.canonical_append]
  rfl

omit [Hashing] in
theorem canonical_setPosition (t : Table) (position : Nat) (value : Value) :
    (t.setPosition position value).canonical = t.canonical.setPosition position value := rfl

section
variable (sound : t.Sound) (strong : t.policy = .allStrong)
include sound strong

theorem canonical_pruneChain (bucket : Nat) :
    (t.pruneChain live bucket).canonical = t.canonical.pruneChain nothingReclaimed bucket := by
  let others : Liveness := fun held => live ((t.setChain bucket []).refs ++ held)
  have pruned := (sound.firm strong bucket).canonical_prune others
  have made : t.pruneChain live bucket = t.rechain bucket ((t.chain bucket).prune others)
      (t.count - ((t.chain bucket).entryCount - ((t.chain bucket).prune others).entryCount)) := rfl
  rw [made, canonical_rechain, pruned, ← Chain.entryCount_canonical (t.chain bucket),
    ← Chain.entryCount_canonical ((t.chain bucket).prune others), pruned, ← chain_canonical]
  rfl

variable (normal : key.IsNormal) (named : key.toKey? ≠ none)
include normal named

theorem canonical_amend? {f g : Entry → Slot} (alive : Ref → Bool)
    (alike : ∀ e, (f e).canonical = g e.canonical) :
    (t.canonical.chain (t.canonical.bucketOf key.canonical)).amend? (fun _ => true)
      key.canonical g = ((t.chain (t.bucketOf key)).amend? alive key f).map Chain.canonical := by
  rw [bucketOf_canonical t normal named, chain_canonical]
  exact Chain.amend?_canonical (sound.distinct _) (sound.named _) (sound.firm strong _) normal alike

theorem canonical_removeHashed : (t.removeHashed live key).canonical =
    t.canonical.removeHashed nothingReclaimed key.canonical := by
  have buried := canonical_amend? sound strong normal named (fun r => live t.refs r)
    (f := fun _ => .dead (.forTombstone key)) (g := fun _ => .dead (.forTombstone key.canonical))
    fun e => by rw [Slot.canonical, Cell.content_forTombstone]
  unfold removeHashed
  dsimp only
  rw [show (fun r => nothingReclaimed t.canonical.refs r) = fun _ => true from rfl, buried,
    bucketOf_canonical t normal named]
  cases (t.chain (t.bucketOf key)).amend? (fun r => live t.refs r) key
      fun _ => .dead (.forTombstone key) with
  | none => rfl
  | some chain => exact canonical_rechain t (t.bucketOf key) chain (t.count - 1)

theorem canonical_addHashed : (t.addHashed live key value).canonical =
    t.canonical.addHashed nothingReclaimed key.canonical value := by
  have appended : (t.append key value).canonical = t.canonical.append key.canonical value :=
    canonical_append strong normal named
  have grown (pending : Pending) : ((t.rehash live pending).append key value).canonical =
      (t.rehash live pending).canonical.append key.canonical value :=
    canonical_append ((policy_rehash ..).trans strong) normal named
  have rehashed (pending : Pending) : t.canonical.rehash nothingReclaimed pending =
      (t.rehash live pending).canonical := (canonical_rehash sound strong pending).symm
  by_cases integer : ∃ i, key = .int i
  · obtain ⟨i, rfl⟩ := integer
    have spelled : (Value.int i).canonical = .int i := rfl
    rw [spelled] at appended grown ⊢
    unfold addHashed
    simp only [count_canonical, size_buckets_canonical, rehashed, position?_canonical]
    split
    · exact appended
    · split
      · cases (t.rehash live (.arrayKey i.toInt.toNat)).position? i with
        | some position => exact canonical_setPosition ..
        | none => exact grown _
      · exact grown _
  · have other : ∀ i, key ≠ .int i := fun i same => integer ⟨i, same⟩
    have other' : ∀ i, key.canonical ≠ .int i := fun i same =>
      other i ((Value.canonical_eq_int_iff normal).mp same)
    rw [addHashed_of_other live t value other, addHashed_of_other _ _ value other', count_canonical,
      size_buckets_canonical, rehashed]
    split
    · exact appended
    · exact grown .hashKey

theorem canonical_setHashed : (t.setHashed live key value).canonical =
    t.canonical.setHashed nothingReclaimed key.canonical value := by
  unfold setHashed
  dsimp only
  by_cases removed : value.isNil = true
  · rw [if_pos removed, if_pos removed]
    exact canonical_removeHashed sound strong normal named
  rw [if_neg removed, if_neg removed]
  have overwritten := canonical_amend? sound strong normal named
    (fun r => live.holding (key.refs ++ value.refs) t.refs r)
    (f := fun e => .live (e.replace t.policy value))
    (g := fun e => .live (e.replace t.canonical.policy value)) fun e => by
      rw [policy_canonical, strong, Slot.canonical, Entry.canonical, Entry.key_replace,
        Entry.value_replace]
      rfl
  generalize live.holding (key.refs ++ value.refs) = live at overwritten ⊢
  rw [show (fun r => nothingReclaimed.holding (key.canonical.refs ++ value.refs)
    t.canonical.refs r) = fun _ => true from rfl, overwritten]
  cases (t.chain (t.bucketOf key)).amend? (fun r => live t.refs r) key
      fun e => .live (e.replace t.policy value) with
  | some chain =>
    rw [bucketOf_canonical t normal named]
    exact canonical_rechain t (t.bucketOf key) chain t.count
  | none =>
    have pruned : (t.pruneChain live (t.bucketOf key)).canonical =
        t.canonical.pruneChain nothingReclaimed (t.bucketOf key) :=
      canonical_pruneChain sound strong _
    have moved : Migrated live t t.metatable t.policy (t.pruneChain live (t.bucketOf key)) :=
      (migrated_pruneChain sound (.inl strong) _).1
    rw [Option.map_none]
    dsimp only
    rw [canonical_addHashed moved.sound (moved.ruled.trans strong) normal named, pruned,
      bucketOf_canonical t normal named]
    rfl

omit normal named in
theorem canonical_setInt (i : Int64) : (t.setInt live i value).canonical =
    t.canonical.setInt nothingReclaimed i value := by
  unfold setInt
  rw [position?_canonical]
  cases t.position? i with
  | some position => exact canonical_setPosition ..
  | none =>
    have normal : (Value.int i).IsNormal := rfl
    exact canonical_setHashed sound strong normal nofun

omit normal in
/-- Storing a pair comes to the same, up to the spelling of keys, in whatever spelling the key is
given and whatever is alive. -/
theorem canonical_put : (t.put live key value).canonical =
    t.canonical.put nothingReclaimed key.canonical value := by
  have normal := key.isNormal_normalize
  have normal' : key.canonical.normalize = key.canonical := key.isNormal_canonical
  by_cases integer : ∃ i, key.normalize = .int i
  · obtain ⟨i, integer⟩ := integer
    have integer' : key.canonical = .int i := by
      rw [← key.canonical_normalize, integer]
      rfl
    unfold put
    rw [normal', integer, integer']
    exact canonical_setInt sound strong i
  · have other : ∀ i, key.normalize ≠ .int i := fun i same => integer ⟨i, same⟩
    have other' : ∀ i, key.canonical.normalize ≠ .int i := fun i same => by
      rw [normal', ← key.canonical_normalize] at same
      exact other i ((Value.canonical_eq_int_iff normal).mp same)
    rw [put_of_other live t value other, put_of_other _ _ value other', normal',
      canonical_setHashed sound strong normal (by rwa [key.toKey?_normalize]),
      key.canonical_normalize]

end

end Table

end HybridTable
