import HybridTable.Table.Traverse
import HybridTable.Proofs.Layout

/-! The places of a table in the order in which a traversal meets them: the positions of the array
region and then the slots of all chains, tombstones among them. `next` goes on from the place of its
key to the first place after it that can be read, so a traversal is a walk down one fixed list as
long as the `outline` of the table stays the same. -/
namespace HybridTable

namespace Cell

/-- A cell can be read while what it refers to is alive. -/
theorem isAlive_of_refs {alive : Ref → Bool} {c : Cell}
    (intact : ∀ r ∈ c.content.refs, alive r = true) : c.isAlive alive = true := by
  cases c with
  | strong value => rfl
  | weak value =>
    cases found : value.ref? with
    | none => simp [isAlive, found]
    | some r => simpa [isAlive, found] using intact r (by simp [content, Value.refs, found])

end Cell

namespace Slot

variable {alive : Ref → Bool} {s : Slot}

/-- A slot is found under its own key while its pair can be read or else its key is alive. -/
theorem hasKey_self (named : s.key.toKey? ≠ none) (normal : s.key.IsNormal)
    (found : s.pair? alive ≠ none ∨ ∀ r ∈ s.key.refs, alive r = true) :
    s.hasKey alive s.key = true := by
  cases s with
  | live e =>
    refine Entry.hasKey_of_toKey? normal named rfl ?_
    rcases found with read | intact
    · rw [pair?, Entry.pair?_eq] at read
      exact Entry.keyIsAlive_of_isAlive (by simpa using read)
    · cases e with
      | plain key value => rfl
      | guarded key value => exact Cell.isAlive_of_refs intact
  | dead own =>
    obtain ⟨k, spelled⟩ := Option.ne_none_iff_exists'.mp named
    have intact := found.resolve_left (fun read => read rfl)
    simp only [hasKey, Cell.holdsKey, Cell.read_eq, Cell.isAlive_of_refs intact, ↓reduceIte,
      Option.any_some]
    exact (Value.rawEqual_iff spelled).mpr spelled

/-- A pair that can be read is that of the key of the slot. -/
theorem key_of_pair? {k v : Value} (read : s.pair? alive = some (k, v)) : k = s.key := by
  cases s with
  | live e =>
    simp only [pair?, Entry.pair?_eq] at read
    split at read <;> cases read
    rfl
  | dead own => cases read

end Slot

/-- The slots after the only one for a key. -/
theorem Chain.after?_eq {alive : Ref → Bool} {chain before after : Chain} {s : Slot} {key : Value}
    (distinct : Distinct chain) (named : Named chain) (split : chain = before ++ s :: after)
    (found : s.hasKey alive key = true) : chain.after? alive key = some after := by
  subst split
  induction before with
  | nil => simp [after?, found]
  | cons head rest ih =>
    obtain ⟨apart, restDistinct⟩ := List.pairwise_cons.mp distinct
    have member : s ∈ rest ++ s :: after := by simp
    have other : ¬ head.hasKey alive key = true := fun matched => apart s member <|
      (Slot.toKey?_of_hasKey (named head List.mem_cons_self) matched).symm.trans
        (Slot.toKey?_of_hasKey (named s (List.mem_cons_of_mem head member)) found)
    rw [List.cons_append, after?, if_neg other]
    exact ih restDistinct fun s' listed => named s' (List.mem_cons_of_mem head listed)

theorem Chain.after?_sublist {alive : Ref → Bool} {chain after : Chain} {key : Value}
    (found : chain.after? alive key = some after) : after.Sublist chain := by
  induction chain with
  | nil => cases found
  | cons s rest ih =>
    unfold after? at found
    split at found
    · cases found
      exact List.sublist_cons_self ..
    · exact (ih found).cons s

/-- Where an element of joined lists comes from, and what comes after it. -/
theorem exists_of_flatten_eq {α : Type} {lists : List (List α)} {before after : List α} {a : α}
    (split : lists.flatten = before ++ a :: after) : ∃ (i : Nat) (front back : List α),
      lists[i]? = some (front ++ a :: back) ∧ after = back ++ (lists.drop (i + 1)).flatten := by
  induction lists generalizing before with
  | nil => simp at split
  | cons first rest ih =>
    rw [List.flatten_cons] at split
    rcases List.append_eq_append_iff.mp split with ⟨more, rfl, inRest⟩ | ⟨more, rfl, inFirst⟩
    · obtain ⟨i, front, back, found, rfl⟩ := ih inRest
      exact ⟨i + 1, front, back, by simpa using found, by simp⟩
    · cases more with
      | nil =>
        obtain ⟨i, front, back, found, rfl⟩ :=
          ih (show rest.flatten = [] ++ a :: after from inFirst.symm)
        exact ⟨i + 1, front, back, by simpa using found, by simp⟩
      | cons head tail =>
        cases inFirst
        exact ⟨0, before, tail, by simp, by simp⟩

namespace Table

section
variable {t t' : Table} {alive : Ref → Bool}

/-- The keys of all slots, chain by chain, and the number of positions before them. -/
def frame (t : Table) : Nat × List (List Value) :=
  (t.array.size, t.buckets.toList.map (·.map Slot.key))

/-- All places with what can be read there. -/
def readings (t : Table) (alive : Ref → Bool) : List (Value × Option Value) :=
  (List.range t.array.size).map (fun i => (.int (Int64.ofNat (i + 1)), t.readPosition alive i)) ++
    t.buckets.toList.flatten.map fun s => (s.key, (s.pair? alive).map Prod.snd)

/-- The pair at a place, if it can be read. -/
def pairAt (place : Value × Option Value) : Option (Value × Value) := place.2.map (place.1, ·)

/-- The pairs that can be read, place by place. -/
def livePairs (t : Table) (alive : Ref → Bool) : List (Value × Value) :=
  (t.readings alive).filterMap pairAt

theorem outline_of_frame (same : t'.frame = t.frame) : t'.outline = t.outline := by
  obtain ⟨arrays, chains⟩ := Prod.mk.inj same
  unfold outline
  rw [List.map_flatten, List.map_flatten, arrays, chains]

theorem size_array_of_frame (same : t'.frame = t.frame) : t'.array.size = t.array.size :=
  (Prod.mk.inj same).1

theorem map_fst_readings (t : Table) (alive : Ref → Bool) :
    (t.readings alive).map Prod.fst = t.outline := by
  simp [readings, outline, Function.comp_def]

theorem length_readings (t : Table) (alive : Ref → Bool) :
    (t.readings alive).length = t.outline.length := by
  rw [← map_fst_readings t alive, List.length_map]

theorem length_outline (t : Table) : t.outline.length = t.placeCount := by
  simp only [outline, placeCount, List.length_append, List.length_map, List.length_range]

theorem pairAt_slot (s : Slot) : pairAt (s.key, (s.pair? alive).map Prod.snd) = s.pair? alive := by
  cases read : s.pair? alive with
  | none => rfl
  | some pair =>
    obtain ⟨k, v⟩ := pair
    rw [Slot.key_of_pair? read]
    rfl

/-- The first pair of some chains is that of the slots in a row. -/
theorem firstInBuckets_eq (t : Table) (alive : Ref → Bool) (bucket : Nat) :
    t.firstInBuckets alive bucket =
      (t.buckets.toList.drop bucket).flatten.findSome? (·.pair? alive) := by
  fun_induction t.firstInBuckets alive bucket with
  | case1 bucket inside pair found =>
    have there : bucket < t.buckets.toList.length := by simpa using inside
    have chain : t.buckets.toList[bucket] = t.chain bucket := by simp [Table.chain, inside]
    rw [List.drop_eq_getElem_cons there, List.flatten_cons, List.findSome?_append, chain, found]
    rfl
  | case2 bucket inside none ih =>
    have there : bucket < t.buckets.toList.length := by simpa using inside
    have chain : t.buckets.toList[bucket] = t.chain bucket := by simp [Table.chain, inside]
    rw [List.drop_eq_getElem_cons there, List.flatten_cons, List.findSome?_append, chain, none, ih]
    rfl
  | case3 bucket outside =>
    rw [List.drop_eq_nil_of_le (by simpa using outside)]
    rfl

theorem findSome?_slots (slots : List Slot) :
    (slots.map fun s => (s.key, (s.pair? alive).map Prod.snd)).findSome? pairAt =
      slots.findSome? (·.pair? alive) := by
  rw [List.findSome?_map]
  exact congrArg (List.findSome? · slots) (funext fun s => pairAt_slot s)

theorem drop_readings {position : Nat} (inside : position < t.array.size) :
    (t.readings alive).drop position =
      (.int (Int64.ofNat (position + 1)), t.readPosition alive position) ::
        (t.readings alive).drop (position + 1) := by
  unfold readings
  rw [List.drop_append_of_le_length (by simp; omega),
    List.drop_append_of_le_length (by simp; omega),
    List.drop_eq_getElem_cons (by simpa using inside)]
  simp

/-- The first pair from a position on is that of the places in a row. -/
theorem firstFrom_eq {position : Nat} (inside : position ≤ t.array.size) :
    t.firstFrom alive position = ((t.readings alive).drop position).findSome? pairAt := by
  fun_induction t.firstFrom alive position with
  | case1 position more value read =>
    rw [drop_readings more, List.findSome?_cons, read]
    rfl
  | case2 position more none ih =>
    rw [drop_readings more, List.findSome?_cons, none, ih more]
    rfl
  | case3 position last =>
    have same : position = t.array.size := by omega
    have cells : ((List.range t.array.size).map fun i =>
        (Value.int (Int64.ofNat (i + 1)), t.readPosition alive i)).length = position := by
      simp [same]
    rw [readings, List.drop_left' cells, findSome?_slots, firstInBuckets_eq, List.drop_zero]

end

variable [Hashing] {t : Table} {alive : Ref → Bool} {k : Value} {read : Option Value}
  {before after : List (Value × Option Value)}

private theorem next_of_position (sound : t.Sound)
    (split : t.readings alive = before ++ (k, read) :: after)
    (early : before.length < t.array.size) :
    t.next alive k = .ok (after.findSome? pairAt) := by
  have here := congrArg (List.drop before.length) split
  rw [drop_readings early, List.drop_left' rfl] at here
  obtain ⟨same, rest⟩ := List.cons.inj here
  obtain ⟨rfl, _⟩ := Prod.mk.inj same
  have found := (position?_eq_some_iff sound.addressable).mpr ⟨early, rfl⟩
  have normal : (Value.int (Int64.ofNat (before.length + 1))).normalize =
      .int (Int64.ofNat (before.length + 1)) := rfl
  simp only [next, normal, found]
  rw [firstFrom_eq early, rest]

/-- A key without a position is looked for in the hash region. -/
theorem next_of_hashed {key : Value} (normal : key.IsNormal) (named : key.toKey? ≠ none)
    (outside : ∀ i, key = .int i → t.position? i = none) :
    t.next alive key = t.nextHashed alive key := by
  unfold next
  rw [normal]
  cases key with
  | nil => exact absurd rfl named
  | int i => simp only [outside i rfl]
  | _ => rfl

private theorem next_of_slot (sound : t.Sound)
    (split : t.readings alive = before ++ (k, read) :: after) (late : t.array.size ≤ before.length)
    (found : read ≠ none ∨ ∀ r ∈ k.refs, alive r = true) :
    t.next alive k = .ok (after.findSome? pairAt) := by
  have slots := congrArg (List.drop t.array.size) split
  rw [List.drop_append_of_le_length late, readings, List.drop_left' (by simp)] at slots
  obtain ⟨front, rest, flat, _, tail⟩ := List.map_eq_append_iff.mp slots
  obtain ⟨s, later, rfl, same, rfl⟩ := List.map_eq_cons_iff.mp tail
  obtain ⟨rfl, rfl⟩ := Prod.mk.inj same
  obtain ⟨bucket, ahead, back, listed, rfl⟩ := exists_of_flatten_eq flat
  have chain := chain_eq listed
  have admitted := sound.slots bucket s (by simp [chain])
  have matched := Slot.hasKey_self admitted.named admitted.normal
    (found.imp_left (by simpa using ·))
  have next_slots : (t.chain bucket).after? alive s.key = some back :=
    Chain.after?_eq (sound.distinct bucket) (sound.named bucket) chain matched
  rw [next_of_hashed admitted.normal admitted.named admitted.outside, nextHashed,
    ← admitted.here, next_slots, findSome?_slots, List.findSome?_append]
  dsimp only
  cases back.findSome? (·.pair? alive) with
  | some pair => rfl
  | none => rw [firstInBuckets_eq]; rfl

/-- `next` gives the first pair that can be read after the place of its key, whether or not there is
still a pair in that place. -/
theorem next_of_place (sound : t.Sound) (split : t.readings alive = before ++ (k, read) :: after)
    (found : read ≠ none ∨ ∀ r ∈ k.refs, alive r = true) :
    t.next alive k = .ok (after.findSome? pairAt) := by
  by_cases early : before.length < t.array.size
  · exact next_of_position sound split early
  · exact next_of_slot sound split (Nat.le_of_not_lt early) found

/-- From the start, `next` gives the first pair of all. -/
theorem next_nil (t : Table) (alive : Ref → Bool) :
    t.next alive .nil = .ok ((t.readings alive).findSome? pairAt) := by
  simp only [next, Value.normalize]
  rw [firstFrom_eq (Nat.zero_le _), List.drop_zero]

omit [Hashing] in
theorem mem_readings_iff : (k, read) ∈ t.readings alive ↔
    (∃ position, position < t.array.size ∧ k = .int (Int64.ofNat (position + 1)) ∧
      read = t.readPosition alive position) ∨
    ∃ bucket s, s ∈ t.chain bucket ∧ k = s.key ∧ read = (s.pair? alive).map Prod.snd := by
  unfold readings
  rw [List.mem_append]
  refine or_congr ?_ ?_
  · rw [List.mem_map]
    constructor
    · rintro ⟨position, inside, same⟩
      cases same
      exact ⟨position, List.mem_range.mp inside, rfl, rfl⟩
    · rintro ⟨position, inside, rfl, rfl⟩
      exact ⟨position, List.mem_range.mpr inside, rfl⟩
  · rw [List.mem_map]
    constructor
    · rintro ⟨s, listed, same⟩
      cases same
      obtain ⟨bucket, member⟩ := mem_flatten_buckets.mp listed
      exact ⟨bucket, s, member, rfl, rfl⟩
    · rintro ⟨bucket, s, member, rfl, rfl⟩
      exact ⟨s, mem_flatten_buckets.mpr ⟨bucket, member⟩, rfl⟩

omit [Hashing] in
theorem mem_livePairs_iff {v : Value} :
    (k, v) ∈ t.livePairs alive ↔ (k, some v) ∈ t.readings alive := by
  unfold livePairs
  rw [List.mem_filterMap]
  constructor
  · rintro ⟨⟨own, value⟩, member, read⟩
    obtain ⟨_, rfl, same⟩ := Option.map_eq_some_iff.mp read
    cases same
    exact member
  · exact fun member => ⟨(k, some v), member, rfl⟩

omit [Hashing] in
private theorem mem_readings_of_slot {bucket : Nat} {s : Slot} {v : Value}
    (member : s ∈ t.chain bucket) (found : s.pair? alive = some (k, v)) :
    (k, some v) ∈ t.readings alive :=
  mem_readings_iff.mpr (.inr ⟨bucket, s, member, Slot.key_of_pair? found, by rw [found]; rfl⟩)

omit [Hashing] in
private theorem mem_readings_of_firstInBuckets {bucket : Nat} {v : Value}
    (found : t.firstInBuckets alive bucket = some (k, v)) : (k, some v) ∈ t.readings alive := by
  rw [firstInBuckets_eq] at found
  obtain ⟨s, listed, own⟩ := List.exists_of_findSome?_eq_some found
  obtain ⟨chain, inTable, member⟩ := List.mem_flatten.mp listed
  obtain ⟨b, slot⟩ := mem_flatten_buckets.mp
    (List.mem_flatten.mpr ⟨chain, List.mem_of_mem_drop inTable, member⟩)
  exact mem_readings_of_slot slot own

omit [Hashing] in
private theorem mem_readings_of_firstFrom {position : Nat} {v : Value}
    (inside : position ≤ t.array.size) (found : t.firstFrom alive position = some (k, v)) :
    (k, some v) ∈ t.readings alive := by
  rw [firstFrom_eq inside] at found
  obtain ⟨⟨own, value⟩, listed, same⟩ := List.exists_of_findSome?_eq_some found
  obtain ⟨_, rfl, same⟩ := Option.map_eq_some_iff.mp same
  cases same
  exact List.mem_of_mem_drop listed

/-- Whatever key `next` goes on from, it gives a pair that can be read in some place. -/
theorem mem_readings_of_next {key v : Value} (found : t.next alive key = .ok (some (k, v))) :
    (k, some v) ∈ t.readings alive := by
  have hashed (key : Value) (found : t.nextHashed alive key = .ok (some (k, v))) :
      (k, some v) ∈ t.readings alive := by
    unfold nextHashed at found
    dsimp only at found
    split at found
    · cases found
    · rename_i rest following
      split at found
      · rename_i pair first
        cases found
        obtain ⟨s, listed, own⟩ := List.exists_of_findSome?_eq_some first
        exact mem_readings_of_slot ((Chain.after?_sublist following).mem listed) own
      · exact mem_readings_of_firstInBuckets (Except.ok.inj found)
  unfold next at found
  split at found
  · exact mem_readings_of_firstFrom (Nat.zero_le _) (Except.ok.inj found)
  · split at found
    · rename_i i position inside
      refine mem_readings_of_firstFrom ?_ (Except.ok.inj found)
      unfold position? at inside
      split at inside <;> cases inside
      omega
    · exact hashed _ found
  · exact hashed _ found

/-- What can be read in a place is what is read under its key. -/
theorem get_of_mem_readings (sound : t.Sound) (member : (k, read) ∈ t.readings alive) :
    t.get alive k = read := by
  rcases mem_readings_iff.mp member with ⟨position, inside, rfl, rfl⟩ | ⟨bucket, s, slot, rfl, rfl⟩
  · have found := (position?_eq_some_iff sound.addressable).mpr ⟨inside, rfl⟩
    have normal : (Value.int (Int64.ofNat (position + 1))).normalize =
      .int (Int64.ofNat (position + 1)) := rfl
    simp only [get, normal, getInt, found]
  · have admitted := sound.slots bucket s slot
    obtain ⟨k, spelled⟩ := Option.ne_none_iff_exists'.mp admitted.named
    apply Option.ext
    intro v
    rw [sound.get_eq_some_iff]
    cases s with
    | live e =>
      have readable : e.isAlive alive = true ↔ t.policy.Spares alive k e.value :=
        (admitted.fitted e rfl).isAlive_iff spelled
      simp only [Slot.pair?, Entry.pair?_eq]
      constructor
      · rintro ⟨k', named, stored, spared⟩
        cases spelled.symm.trans named
        cases sound.functional stored (.entry slot spelled)
        rw [if_pos (readable.mpr spared)]
        rfl
      · intro found
        split at found <;> cases found
        rename_i alive
        exact ⟨k, spelled, .entry slot spelled, readable.mp alive⟩
    | dead own =>
      refine ⟨?_, nofun⟩
      rintro ⟨k', named, stored, _⟩
      obtain ⟨e, member, named', _⟩ :=
        sound.entry_of_stores admitted.normal named admitted.outside stored
      rw [← admitted.here] at member
      have := (sound.distinct bucket).eq_of_toKey? slot member (named.trans named'.symm)
      cases this

omit [Hashing] in
theorem mem_outline_iff : k ∈ t.outline ↔
    (∃ position, position < t.array.size ∧ k = .int (Int64.ofNat (position + 1))) ∨
    ∃ bucket s, s ∈ t.chain bucket ∧ k = s.key := by
  unfold outline
  rw [List.mem_append, List.mem_map, List.mem_map]
  refine or_congr ?_ ?_
  · simp only [List.mem_range, eq_comm]
  · constructor
    · rintro ⟨s, listed, rfl⟩
      obtain ⟨bucket, member⟩ := mem_flatten_buckets.mp listed
      exact ⟨bucket, s, member, rfl⟩
    · rintro ⟨bucket, s, member, rfl⟩
      exact ⟨s, mem_flatten_buckets.mpr ⟨bucket, member⟩, rfl⟩

/-- Every place has a key, in normal form. -/
theorem named_of_mem_outline (sound : t.Sound) (member : k ∈ t.outline) :
    k.toKey? ≠ none ∧ k.IsNormal := by
  rcases mem_outline_iff.mp member with ⟨position, _, rfl⟩ | ⟨bucket, s, slot, rfl⟩
  · exact ⟨nofun, rfl⟩
  · exact ⟨(sound.slots bucket s slot).named, (sound.slots bucket s slot).normal⟩

omit [Hashing] in
/-- What is stored has a place. -/
theorem exists_mem_outline {key : Key} {v : Value} (stored : t.Stores key v) :
    ∃ k ∈ t.outline, k.toKey? = some key := by
  cases stored with
  | @cell position c used =>
    have inside := (Array.getElem?_eq_some_iff.mp used).1
    exact ⟨_, mem_outline_iff.mpr (.inl ⟨position, inside, rfl⟩), rfl⟩
  | @entry bucket e key member named =>
    exact ⟨e.key, mem_outline_iff.mpr (.inr ⟨bucket, .live e, member, rfl⟩), named⟩

end Table

end HybridTable
