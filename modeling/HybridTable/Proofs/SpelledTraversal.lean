import HybridTable.Proofs.SpelledWrites

/-! Traversals up to the spelling of keys. The step from a key gives the same pair, up to spelling,
in tables that differ in spelling only, provided that the tombstone of the key, if there is one,
still has its key. Removing the key from which a traversal is to go on does not change where it goes
on to. -/
namespace HybridTable

/-- A pair with another spelling of its key. -/
def canonicalPair (pair : Value × Value) : Value × Value := (pair.1.canonical, pair.2)

/-- What a step of a traversal gives, up to spelling and to what is wrong with the key. -/
def followed (result : Except Error (Option (Value × Value))) :
    Option (Option (Value × Value)) :=
  result.toOption.map fun found => found.map canonicalPair

theorem Slot.pair?_canonical {s : Slot} (firm : ∀ e, s = .live e → ∀ alive, e.isAlive alive = true)
    (alive : Ref → Bool) :
    s.canonical.pair? (fun _ => true) = (s.pair? alive).map canonicalPair := by
  cases s with
  | live e =>
    rw [Slot.pair?, Entry.pair?_eq, if_pos (firm e rfl alive)]
    rfl
  | dead own => rfl

theorem Chain.findSome?_canonical {chain : Chain} (firm : chain.Firm) (alive : Ref → Bool) :
    chain.canonical.findSome? (·.pair? fun _ => true) =
      (chain.findSome? (·.pair? alive)).map canonicalPair := by
  induction chain with
  | nil => rfl
  | cons s rest ih =>
    have own := Slot.pair?_canonical (s := s) (fun e same => firm e (same ▸ List.mem_cons_self))
      alive
    have ih := ih fun e member => firm e (List.mem_cons_of_mem s member)
    rw [canonical_cons, List.findSome?_cons, List.findSome?_cons, own, ih]
    cases s.pair? alive <;> rfl

theorem Chain.Named.congr {chain other : Chain} (named : chain.Named)
    (same : other.map (·.key.toKey?) = chain.map (·.key.toKey?)) : other.Named := by
  intro s member
  have listed : s.key.toKey? ∈ other.map (·.key.toKey?) := List.mem_map.mpr ⟨s, member, rfl⟩
  rw [same] at listed
  obtain ⟨old, member, equal⟩ := List.mem_map.mp listed
  exact equal ▸ named old member

theorem Chain.after?_of_absent {chain : Chain} {alive : Ref → Bool} {key : Value}
    (named : chain.Named) (absent : ∀ s ∈ chain, s.key.toKey? ≠ key.toKey?) :
    chain.after? alive key = none := by
  induction chain with
  | nil => rfl
  | cons s rest ih =>
    have unmatched : ¬ s.hasKey alive key = true := fun found => absent s List.mem_cons_self
      (Slot.toKey?_of_hasKey (named s List.mem_cons_self) found).symm
    rw [after?, if_neg unmatched]
    exact ih (fun other member => named other (List.mem_cons_of_mem s member))
      fun other member => absent other (List.mem_cons_of_mem s member)

namespace Table

variable [Hashing] {t t' : Table} {alive : Ref → Bool} {key : Value}

/-- A step fails only because of the key that it is to go on from. -/
theorem error_of_next {e : Error} (failed : t.next alive key = .error e) :
    e = .invalidIterationKey key.normalize := by
  have hashed {key : Value} (failed : t.nextHashed alive key = .error e) :
      e = .invalidIterationKey key := by
    unfold nextHashed at failed
    dsimp only at failed
    split at failed
    · cases failed
      rfl
    · split at failed <;> cases failed
  unfold next at failed
  split at failed
  · cases failed
  · rename_i i integer
    split at failed
    · cases failed
    · rw [integer]
      exact hashed failed
  · exact hashed failed

/-- A traversal does not go on from what cannot be a key. -/
theorem next_of_invalid (named : ∀ bucket, (t.chain bucket).Named) (invalid : key.toKey? = none)
    (some_key : key ≠ .nil) : t.next alive key = .error (.invalidIterationKey key) := by
  cases key with
  | float x =>
    have fractional := Value.fractional_of_invalid invalid
    have absent : (t.chain (t.bucketOf (.float x))).after? alive (.float x) = none :=
      Chain.after?_of_absent (named _) fun s member same =>
        named _ s member (same.trans invalid)
    simp only [next, Value.normalize, fractional, nextHashed, absent]
  | nil => exact absurd rfl some_key
  | _ => cases invalid

omit [Hashing] in
theorem placed_or_outside (t : Table) (key : Value) :
    (∃ i position, key = .int i ∧ t.position? i = some position) ∨
      ∀ i, key = .int i → t.position? i = none := by
  refine Classical.or_iff_not_imp_left.mpr fun unplaced i same => ?_
  cases found : t.position? i with
  | none => rfl
  | some position => exact absurd ⟨i, position, same, found⟩ unplaced

theorem Sound.named_canonical (sound : t.Sound) (bucket : Nat) :
    (t.canonical.chain bucket).Named := by
  intro s member
  rw [chain_canonical] at member
  obtain ⟨old, listed, rfl⟩ := List.mem_map.mp member
  simpa using (sound.slots bucket old listed).named

theorem next_normalize (t : Table) (alive : Ref → Bool) (key : Value) :
    t.next alive key.normalize = t.next alive key := by
  unfold next
  rw [key.normalize_normalize]

section
variable (sound : t.Sound) (strong : t.policy = .allStrong)
include sound strong

theorem firstInBuckets_canonical (alive : Ref → Bool) (bucket : Nat) :
    t.canonical.firstInBuckets (fun _ => true) bucket =
      (t.firstInBuckets alive bucket).map canonicalPair := by
  have firm : Chain.Firm (t.buckets.toList.drop bucket).flatten := by
    intro e member
    obtain ⟨chain, listed, own⟩ := List.mem_flatten.mp member
    obtain ⟨b, slot⟩ := mem_flatten_buckets.mp
      (List.mem_flatten.mpr ⟨chain, List.mem_of_mem_drop listed, own⟩)
    exact sound.firm strong b e slot
  rw [firstInBuckets_eq, firstInBuckets_eq, toList_buckets_canonical,
    ← Chain.findSome?_canonical firm, ← List.map_drop, Chain.canonical, List.map_flatten]
  rfl

theorem readPosition_canonical (alive : Ref → Bool) (position : Nat) :
    t.canonical.readPosition (fun _ => true) position = t.readPosition alive position := by
  unfold readPosition
  rw [array_canonical]
  split
  · rename_i c used
    obtain ⟨fitted, _⟩ := sound.cells position c used
    rw [fitted, strong]
    rfl
  · rfl

theorem firstFrom_canonical (alive : Ref → Bool) (position : Nat) :
    t.canonical.firstFrom (fun _ => true) position =
      (t.firstFrom alive position).map canonicalPair := by
  fun_induction t.firstFrom alive position with
  | case1 position inside value read =>
    rw [firstFrom, if_pos (show position < t.canonical.array.size from inside),
      readPosition_canonical sound strong alive, read]
    rfl
  | case2 position inside unread ih =>
    rw [firstFrom, if_pos (show position < t.canonical.array.size from inside),
      readPosition_canonical sound strong alive, unread]
    exact ih
  | case3 position last =>
    rw [firstFrom, if_neg (show ¬ position < t.canonical.array.size from last)]
    exact firstInBuckets_canonical sound strong alive 0

theorem followed_nextHashed (normal : key.IsNormal) (named : key.toKey? ≠ none)
    (recognizable : ∀ s ∈ t.buckets.toList.flatten, key.toKey? = s.key.toKey? →
      s.isRecognizable alive = true) :
    (t.canonical.nextHashed (fun _ => true) key.canonical).toOption =
      followed (t.nextHashed alive key) := by
  have here : ∀ s ∈ t.chain (t.bucketOf key), key.toKey? = s.key.toKey? →
      s.isRecognizable alive = true :=
    fun s member => recognizable s (mem_flatten_buckets.mpr ⟨_, member⟩)
  unfold nextHashed
  dsimp only
  rw [bucketOf_canonical t normal named, chain_canonical,
    Chain.after?_canonical (sound.named _) normal here]
  cases following : (t.chain (t.bucketOf key)).after? alive key with
  | none => rfl
  | some rest =>
    have firm : Chain.Firm rest := fun e member =>
      sound.firm strong _ e ((Chain.after?_sublist following).mem member)
    rw [Option.map_some]
    dsimp only
    rw [Chain.findSome?_canonical firm alive, firstInBuckets_canonical sound strong alive]
    cases rest.findSome? (·.pair? alive) <;> rfl

/-- Up to spelling, a step of a traversal depends only on the table and the key up to spelling, if
all slots for the key can be told from others. -/
theorem followed_next (recognizable : ∀ s ∈ t.buckets.toList.flatten,
    key.toKey? = s.key.toKey? → s.isRecognizable alive = true) :
    (t.canonical.next (fun _ => true) key.canonical).toOption = followed (t.next alive key) := by
  rw [← key.toKey?_normalize] at recognizable
  rw [← key.canonical_normalize, ← t.next_normalize alive key]
  have normal := key.isNormal_normalize
  generalize key.normalize = key at recognizable normal
  cases named : key.toKey? with
  | none =>
    by_cases nil : key = .nil
    · subst nil
      exact congrArg some (firstFrom_canonical sound strong alive 0)
    · rw [Value.canonical_of_invalid named, next_of_invalid sound.named_canonical named nil,
        next_of_invalid sound.named named nil]
      rfl
  | some k =>
    have some_key : key.toKey? ≠ none := by simp [named]
    rcases t.placed_or_outside key with ⟨i, position, rfl, found⟩ | outside
    · have spelled : (Value.int i).normalize = .int i := rfl
      have spelled' : (Value.int i).canonical = .int i := rfl
      simp only [next, spelled', spelled, position?_canonical, found]
      exact congrArg some (firstFrom_canonical sound strong alive _)
    · have outside' (i : Int64) (same : key.canonical = .int i) :
          t.canonical.position? i = none :=
        outside i ((Value.canonical_eq_int_iff normal).mp same)
      rw [next_of_hashed normal some_key outside, next_of_hashed key.isNormal_canonical
        (by simpa using some_key) outside']
      exact followed_nextHashed sound strong normal some_key recognizable

end

/-! ## Removing the key of a traversal -/

omit [Hashing] in
/-- A position is of no account to what comes after it. -/
theorem firstFrom_setCell {position later : Nat} (after : position < later) (cell : Option Cell) :
    (t.setCell position cell).firstFrom alive later = t.firstFrom alive later := by
  have unwritten {later : Nat} (after : position < later) :
      (t.setCell position cell).readPosition alive later = t.readPosition alive later := by
    have same : (t.setCell position cell).array[later]? = t.array[later]? := by
      simp only [setCell, Array.getElem?_setIfInBounds, Nat.ne_of_lt after, ↓reduceIte]
    rw [readPosition, readPosition, same]
  have size := t.size_array_setCell position cell
  fun_induction t.firstFrom alive later with
  | case1 later inside value read =>
    rw [firstFrom, if_pos (by omega), unwritten after, read]
  | case2 later inside unread ih =>
    rw [firstFrom, if_pos (by omega), unwritten after, unread]
    exact ih (by omega)
  | case3 later last =>
    rw [firstFrom, if_neg (by omega), firstInBuckets_eq, firstInBuckets_eq]
    rfl

section
variable (named : ∀ bucket, (t.chain bucket).Named) (distinct : ∀ bucket, (t.chain bucket).Distinct)
  (normal : key.IsNormal)
include named distinct normal

/-- The tombstone stands where the entry stood. -/
theorem nextHashed_removeHashed :
    (t.removeHashed nothingReclaimed key).nextHashed (fun _ => true) key =
      t.nextHashed (fun _ => true) key := by
  unfold removeHashed
  dsimp only
  split
  · rename_i chain found
    obtain ⟨before, e, after, split, rfl, same, readable⟩ := Chain.amend?_eq_some (named _) found
    have member : .live e ∈ t.chain (t.bucketOf key) := by simp [split]
    have inside : t.bucketOf key < t.buckets.size := lt_of_mem_chain member
    let t' := t.rechain (t.bucketOf key) (before ++ .dead (.forTombstone key) :: after)
      (t.count - 1)
    show t'.nextHashed _ key = _
    have here : t'.bucketOf key = t.bucketOf key := bucketOf_of_size size_buckets_rechain key
    have replaced : t'.chain (t.bucketOf key) = before ++ .dead (.forTombstone key) :: after := by
      rw [chain_rechain inside, if_pos rfl]
    have keys : (before ++ Slot.dead (.forTombstone key) :: after).map (·.key.toKey?) =
        (t.chain (t.bucketOf key)).map (·.key.toKey?) := by
      rw [split]
      simp [Slot.key, same]
    have old : (t.chain (t.bucketOf key)).after? (fun _ => true) key = some after :=
      Chain.after?_eq (distinct _) (named _) split
        ((Slot.hasKey_iff (named _ _ member) normal).mpr ⟨readable, same.symm⟩)
    have new : Chain.after? (fun _ => true) key (before ++ .dead (.forTombstone key) :: after) =
        some after := by
      have named' := (named (t.bucketOf key)).congr keys
      refine Chain.after?_eq ((distinct (t.bucketOf key)).congr keys) named' rfl
        ((Slot.hasKey_iff (named' _ (by simp)) normal).mpr ⟨?_, by simp [Slot.key]⟩)
      exact Cell.isAlive_of_refs fun _ _ => rfl
    have later : t'.firstInBuckets (fun _ => true) (t.bucketOf key + 1) =
        t.firstInBuckets (fun _ => true) (t.bucketOf key + 1) := by
      have lists : t'.buckets.toList = t.buckets.toList.set (t.bucketOf key)
        (before ++ .dead (.forTombstone key) :: after) := Array.toList_setIfInBounds ..
      rw [firstInBuckets_eq, firstInBuckets_eq, lists, List.drop_set_of_lt (by omega)]
    simp only [nextHashed, here, replaced, old, new, later]
  · rfl

/-- After a removal the traversal goes on from the removed key to where it went on before. -/
theorem next_put_nil (some_key : key.toKey? ≠ none) :
    (t.put nothingReclaimed key .nil).next (fun _ => true) key = t.next (fun _ => true) key := by
  rcases t.placed_or_outside key with ⟨i, position, rfl, found⟩ | outside
  · have spelled : (Value.int i).normalize = .int i := rfl
    have cleared : t.put nothingReclaimed (.int i) .nil = t.setCell position none := by
      simp only [put, spelled, setInt, found]
      rfl
    have found' : (t.setCell position none).position? i = some position := by
      rw [position?, size_array_setCell]
      exact found
    rw [cleared]
    simp only [next, spelled, found, found']
    exact congrArg Except.ok (firstFrom_setCell (Nat.lt_succ_self _) none)
  · have removed : t.put nothingReclaimed key .nil = t.removeHashed nothingReclaimed key := by
      unfold put
      rw [normal]
      cases key with
      | int i =>
        simp only [setInt, outside i rfl]
        rfl
      | _ => rfl
    have array : (t.removeHashed nothingReclaimed key).array = t.array := by
      unfold removeHashed
      dsimp only
      split <;> rfl
    have outside' (i : Int64) (same : key = .int i) :
        (t.removeHashed nothingReclaimed key).position? i = none := by
      rw [position?, array]
      exact outside i same
    rw [removed, next_of_hashed normal some_key outside, next_of_hashed normal some_key outside']
    exact nextHashed_removeHashed named distinct normal

end

end Table

end HybridTable
