import HybridTable.Proofs.Cells

/-! What the operations on one chain do, given that no two of its slots are for the same key. Only
entries are ever found: a tombstone that comes first for a key ends a search as an absent key does,
and by distinctness there is no entry behind it. A slot of which the key was reclaimed matches
nothing any more, but it still counts as a slot for its key. -/
namespace HybridTable

namespace Slot

/-- The key that the slot is or was for, whether or not it can still be read. -/
def key : Slot → Value
  | live e => e.key
  | dead own => own.content

variable {alive : Ref → Bool}

/-- A slot is found only under its own key. -/
theorem toKey?_of_hasKey {s : Slot} {key : Value} (named : s.key.toKey? ≠ none)
    (found : s.hasKey alive key = true) : key.toKey? = s.key.toKey? := by
  cases s with
  | live e => exact Entry.toKey?_of_hasKey named found
  | dead own =>
    obtain ⟨k, spelled⟩ := Option.ne_none_iff_exists'.mp named
    simp only [hasKey, Cell.holdsKey, Cell.read_eq] at found
    split at found
    · exact ((Value.rawEqual_iff spelled).mp found).trans spelled.symm
    · simp at found

theorem exists_live_of_isAlive {s : Slot} (readable : s.isAlive alive = true) :
    ∃ e, s = .live e ∧ e.isAlive alive = true := by
  cases s with
  | live e => exact ⟨e, rfl, readable⟩
  | dead own => cases readable

theorem isAlive_mono {alive' : Ref → Bool} {s : Slot}
    (more : ∀ r, alive r = true → alive' r = true) (readable : s.isAlive alive = true) :
    s.isAlive alive' = true := by
  cases s with
  | live e => exact Entry.isAlive_mono more readable
  | dead own => cases readable

end Slot

/-- What is pairwise different in a list tells its members apart. -/
theorem eq_of_pairwise_ne {α β : Type} {f : α → β} {l : List α}
    (distinct : l.Pairwise fun a b => f a ≠ f b) {a b : α} (first : a ∈ l) (second : b ∈ l)
    (same : f a = f b) : a = b := by
  induction l with
  | nil => cases first
  | cons head rest ih =>
    obtain ⟨apart, restDistinct⟩ := List.pairwise_cons.mp distinct
    rcases List.mem_cons.mp first with rfl | earlier
    · rcases List.mem_cons.mp second with rfl | later
      · rfl
      · exact absurd same (apart b later)
    · rcases List.mem_cons.mp second with rfl | later
      · exact absurd same.symm (apart a earlier)
      · exact ih restDistinct earlier later

/-- A test that tells equal keys from others holds for one element at most. -/
theorem countP_le_one_of_pairwise_ne {α β : Type} {f : α → β} {p : α → Bool} {l : List α}
    (apart : l.Pairwise fun a b => f a ≠ f b)
    (same : ∀ a ∈ l, ∀ b ∈ l, p a = true → p b = true → f a = f b) : l.countP p ≤ 1 := by
  induction l with
  | nil => exact Nat.zero_le 1
  | cons a rest ih =>
    obtain ⟨first, restApart⟩ := List.pairwise_cons.mp apart
    by_cases found : p a = true
    · have others : rest.countP p = 0 := by
        refine List.countP_eq_zero.mpr fun b member again => first b member ?_
        exact same a List.mem_cons_self b (List.mem_cons_of_mem a member) found again
      have one : (a :: rest).countP p = 1 := by rw [List.countP_cons_of_pos found, others]
      exact Nat.le_of_eq one
    · rw [List.countP_cons_of_neg found]
      exact ih restApart fun b second c third =>
        same b (List.mem_cons_of_mem a second) c (List.mem_cons_of_mem a third)

namespace Chain

variable {alive : Ref → Bool} {key : Value} {chain : Chain}

/-- No two slots are for the same key. -/
def Distinct (chain : Chain) : Prop := chain.Pairwise fun a b => a.key.toKey? ≠ b.key.toKey?

/-- Every slot is for something that can be a key. -/
def Named (chain : Chain) : Prop := ∀ s ∈ chain, s.key.toKey? ≠ none

/-- Distinctness is a matter of the keys alone. -/
theorem Distinct.congr {other : Chain} (distinct : Distinct chain)
    (same : other.map (·.key.toKey?) = chain.map (·.key.toKey?)) : Distinct other := by
  have keys := List.pairwise_map.mpr distinct
  rw [← same] at keys
  exact List.pairwise_map.mp keys

theorem Distinct.eq_of_toKey? (distinct : Distinct chain) {a b : Slot} (first : a ∈ chain)
    (second : b ∈ chain) (same : a.key.toKey? = b.key.toKey?) : a = b :=
  eq_of_pairwise_ne distinct first second same

/-- A key matches at most one slot, whatever is alive. -/
theorem Distinct.countP_hasKey (distinct : Distinct chain) (named : Named chain)
    (alive : Ref → Bool) (key : Value) : chain.countP (·.hasKey alive key) ≤ 1 :=
  countP_le_one_of_pairwise_ne distinct fun a first b second found again =>
    (Slot.toKey?_of_hasKey (named a first) found).symm.trans
      (Slot.toKey?_of_hasKey (named b second) again)

/-- A lookup gives the value of the entry for the key, if both its halves can be read. -/
theorem lookup_eq_some_iff (distinct : Distinct chain) (named : Named chain)
    (normal : key.IsNormal) {v : Value} : chain.lookup alive key = some v ↔
      ∃ e, .live e ∈ chain ∧ e.key.toKey? = key.toKey? ∧ e.isAlive alive = true ∧ e.value = v := by
  induction chain with
  | nil => simp [lookup]
  | cons s rest ih =>
    obtain ⟨apart, restDistinct⟩ := List.pairwise_cons.mp distinct
    have restNamed : Named rest := fun s' member => named s' (List.mem_cons_of_mem s member)
    have ih := ih restDistinct restNamed
    cases s with
    | dead own => simpa [lookup] using ih
    | live e =>
      have spelled : e.key.toKey? ≠ none := named (.live e) List.mem_cons_self
      by_cases found : e.hasKey alive key = true
      · have same := Entry.toKey?_of_hasKey spelled found
        simp only [lookup, found, ↓reduceIte, Entry.value?_eq (Entry.keyIsAlive_of_hasKey found)]
        constructor
        · intro read
          split at read
          · rename_i readable
            exact ⟨e, List.mem_cons_self, same.symm, readable, Option.some.inj read⟩
          · cases read
        · rintro ⟨e', member, same', readable, rfl⟩
          have unique :=
            distinct.eq_of_toKey? List.mem_cons_self member (same.symm.trans same'.symm)
          cases unique
          rw [if_pos readable]
      · simp only [lookup, found]
        refine ih.trans ⟨?_, ?_⟩
        · rintro ⟨e', member, rest⟩
          exact ⟨e', List.mem_cons_of_mem _ member, rest⟩
        · rintro ⟨e', member, same, readable, value⟩
          rcases List.mem_cons.mp member with head | member
          · cases head
            exact absurd (Entry.hasKey_of_toKey? normal spelled same.symm
              (Entry.keyIsAlive_of_isAlive readable)) found
          · exact ⟨e', member, same, readable, value⟩

/-- An amended chain differs in one slot, which was an entry. -/
theorem exists_of_amend? {f : Entry → Slot} {amended : Chain}
    (found : chain.amend? alive key f = some amended) : ∃ before e after,
      chain = before ++ .live e :: after ∧ amended = before ++ f e :: after ∧
        e.hasKey alive key = true := by
  induction chain generalizing amended with
  | nil => cases found
  | cons s rest ih =>
    unfold amend? at found
    split at found
    · rename_i matched
      cases s with
      | dead own => cases found
      | live e =>
        cases found
        exact ⟨[], e, rest, rfl, rfl, matched⟩
    · obtain ⟨tail, inRest, rfl⟩ := Option.map_eq_some_iff.mp found
      obtain ⟨before, e, after, rfl, rfl, matched⟩ := ih inRest
      exact ⟨s :: before, e, after, rfl, rfl, matched⟩

/-- The entry that was amended was the one for the key. -/
theorem amend?_eq_some (named : Named chain) {f : Entry → Slot} {amended : Chain}
    (found : chain.amend? alive key f = some amended) : ∃ before e after,
      chain = before ++ .live e :: after ∧ amended = before ++ f e :: after ∧
        e.key.toKey? = key.toKey? ∧ e.keyIsAlive alive = true := by
  obtain ⟨before, e, after, rfl, rfl, matched⟩ := exists_of_amend? found
  have spelled : e.key.toKey? ≠ none := named (.live e) (by simp)
  exact ⟨before, e, after, rfl, rfl, (Entry.toKey?_of_hasKey spelled matched).symm,
    Entry.keyIsAlive_of_hasKey matched⟩

/-- If no slot could be amended, no entry for the key has it readable. -/
theorem absent_of_amend? (distinct : Distinct chain) (named : Named chain) (normal : key.IsNormal)
    {f : Entry → Slot} (absent : chain.amend? alive key f = none) {e : Entry}
    (member : .live e ∈ chain) (same : e.key.toKey? = key.toKey?) : e.keyIsAlive alive = false := by
  apply Bool.eq_false_iff.mpr
  intro readable
  induction chain with
  | nil => cases member
  | cons s rest ih =>
    obtain ⟨apart, restDistinct⟩ := List.pairwise_cons.mp distinct
    have restNamed : Named rest := fun s' member => named s' (List.mem_cons_of_mem s member)
    have spelled : e.key.toKey? ≠ none := named (.live e) member
    have matched := Entry.hasKey_of_toKey? normal spelled same.symm readable
    unfold amend? at absent
    split at absent
    · rename_i found
      have unique := distinct.eq_of_toKey? List.mem_cons_self member
        ((Slot.toKey?_of_hasKey (named s List.mem_cons_self) found).symm.trans same.symm)
      subst unique
      cases absent
    · rename_i unmatched
      rcases List.mem_cons.mp member with rfl | member
      · exact unmatched matched
      · exact ih restDistinct restNamed (by simpa using absent) member

/-- Pruning leaves no tombstone. -/
theorem live_of_mem_prune {live : Liveness} {s : Slot} (member : s ∈ chain.prune live) :
    ∃ e, s = .live e := by
  induction chain generalizing live with
  | nil => cases member
  | cons head rest ih =>
    unfold prune at member
    split at member
    · rename_i readable
      rcases List.mem_cons.mp member with rfl | member
      · obtain ⟨e, rfl, _⟩ := Slot.exists_live_of_isAlive readable
        exact ⟨e, rfl⟩
      · exact ih member
    · exact ih member

theorem refs_of_prune {live : Liveness} {r : Ref}
    (held : r ∈ (chain.prune live).flatMap Slot.refs) : r ∈ chain.flatMap Slot.refs := by
  obtain ⟨s, member, own⟩ := List.mem_flatMap.mp held
  exact List.mem_flatMap.mpr ⟨s, (prune_sublist live chain).mem member, own⟩

/-- Pruning spares what is not weak, whatever the environment does. -/
theorem mem_prune_of_strong {live : Liveness} {s : Slot} (member : s ∈ chain)
    (strong : ∀ alive, s.isAlive alive = true) : s ∈ chain.prune live := by
  induction chain generalizing live with
  | nil => cases member
  | cons head rest ih =>
    unfold prune
    rcases List.mem_cons.mp member with rfl | later
    · rw [if_pos (strong _)]
      exact List.mem_cons_self
    · split
      · exact List.mem_cons_of_mem head (ih later)
      · exact ih later

/-- Pruning loses nothing that can still be read afterwards. -/
theorem mem_prune {live : Liveness} (lawful : live.Lawful) {s : Slot} (member : s ∈ chain)
    (readable : s.isAlive (live ((chain.prune live).flatMap Slot.refs)) = true) :
    s ∈ chain.prune live := by
  induction chain generalizing live with
  | nil => cases member
  | cons head rest ih =>
    unfold prune at readable ⊢
    split at readable
    · rename_i kept
      rw [if_pos kept]
      rcases List.mem_cons.mp member with rfl | member
      · exact List.mem_cons_self
      · exact List.mem_cons_of_mem head (ih (lawful.holding head.refs) member readable)
    · rename_i lost
      rw [if_neg lost]
      rcases List.mem_cons.mp member with rfl | member
      · refine absurd (Slot.isAlive_mono (fun r => lawful.mono fun r held => ?_) readable) lost
        exact List.mem_append_right _ (refs_of_prune held)
      · exact ih lawful member readable

end Chain

end HybridTable
