import Mathlib.Data.Finset.Card
import HybridTable.Proofs.Places

/-! Listing all pairs of a table that is left alone. Each step of the traversal goes on to the next
place that can be read, so what is listed is what can be read, place by place. -/
namespace HybridTable

namespace Table

variable [Hashing] {t : Table} {alive : Ref → Bool}

/-- Spellings of one key are read alike. -/
theorem get_congr (sound : t.Sound) {a b : Value} (same : a.toKey? = b.toKey?) :
    t.get alive a = t.get alive b := by
  apply Option.ext
  intro v
  rw [sound.get_eq_some_iff, sound.get_eq_some_iff, same]

/-- From a key on, all pairs are listed whose places come after that key. -/
theorem pairsAfter_eq (sound : t.Sound) {limit : Nat} {key : Value}
    {before after : List (Value × Option Value)} (split : t.readings alive = before ++ after)
    (found : t.next alive key = .ok (after.findSome? pairAt)) (enough : after.length ≤ limit) :
    t.pairsAfter alive limit key = after.filterMap pairAt := by
  induction limit generalizing key before after with
  | zero =>
    cases List.length_eq_zero_iff.mp (Nat.le_zero.mp enough)
    rfl
  | succ limit ih =>
    unfold pairsAfter
    rw [found]
    cases first : after.findSome? pairAt with
    | none => exact (List.filterMap_eq_nil_iff.mpr (List.findSome?_eq_none_iff.mp first)).symm
    | some pair =>
      obtain ⟨skipped, place, later, rfl, read, none⟩ := List.findSome?_eq_some_iff.mp first
      obtain ⟨k, value⟩ := place
      obtain ⟨v, rfl, rfl⟩ := Option.map_eq_some_iff.mp read
      have here : t.readings alive = (before ++ skipped) ++ (k, some v) :: later := by
        rw [split, List.append_assoc]
      have onwards : t.readings alive = (before ++ skipped ++ [(k, some v)]) ++ later := by
        simp [here]
      have rest := ih onwards (next_of_place sound here (.inl nofun)) (by simp at enough; omega)
      rw [List.filterMap_append, List.filterMap_eq_nil_iff.mpr none, List.nil_append,
        List.filterMap_cons_some read, ← rest]

/-- The pairs that are listed are those that can be read, in the order of their places. -/
theorem pairs_eq (sound : t.Sound) (alive : Ref → Bool) :
    t.pairs alive = t.livePairs alive := by
  refine pairsAfter_eq sound (List.nil_append _).symm (next_nil t alive) ?_
  rw [length_readings, length_outline]

theorem mem_pairs_iff (sound : t.Sound) {k v : Value} :
    (k, v) ∈ t.pairs alive ↔ (k, some v) ∈ t.readings alive := by
  rw [pairs_eq sound, mem_livePairs_iff]

/-- Every pair that is listed is read under its key. -/
theorem get_of_mem_pairs (sound : t.Sound) {k v : Value} (member : (k, v) ∈ t.pairs alive) :
    t.get alive k = some v :=
  get_of_mem_readings sound ((mem_pairs_iff sound).mp member)

/-- The keys that are listed are keys of places, in the order of the places. -/
theorem keys_sublist (sound : t.Sound) (alive : Ref → Bool) :
    (t.keys alive).Sublist t.outline := by
  have part (places : List (Value × Option Value)) :
      ((places.filterMap pairAt).map Prod.fst).Sublist (places.map Prod.fst) := by
    induction places with
    | nil => exact .slnil
    | cons place rest ih =>
      obtain ⟨k, read⟩ := place
      cases read with
      | none => exact .cons k ih
      | some v => exact .cons_cons k ih
  rw [keys, pairs_eq sound, ← map_fst_readings t alive]
  exact part _

/-- A key can be read exactly if it is listed under some spelling. -/
theorem exists_mem_keys_iff (sound : t.Sound) {key : Value} :
    (∃ k ∈ t.keys alive, k.rawEqual key = true) ↔ t.get alive key ≠ none := by
  constructor
  · rintro ⟨k, listed, same⟩ absent
    obtain ⟨named, _⟩ := named_of_mem_outline sound ((keys_sublist sound alive).mem listed)
    obtain ⟨name, spelled⟩ := Option.ne_none_iff_exists'.mp named
    obtain ⟨⟨_, v⟩, member, rfl⟩ := List.mem_map.mp listed
    have read := get_of_mem_pairs sound member
    rw [get_congr sound (spelled.trans ((Value.rawEqual_iff spelled).mp same).symm), absent] at read
    cases read
  · intro present
    obtain ⟨v, read⟩ := Option.ne_none_iff_exists'.mp present
    obtain ⟨name, named, stored, _⟩ := sound.get_eq_some_iff.mp read
    obtain ⟨k, place, spelled⟩ := exists_mem_outline stored
    rw [← map_fst_readings t alive] at place
    obtain ⟨⟨own, value⟩, member, rfl⟩ := List.mem_map.mp place
    have found := get_of_mem_readings sound member
    rw [get_congr sound (spelled.trans named.symm), read] at found
    cases found
    exact ⟨own, List.mem_map.mpr ⟨_, (mem_pairs_iff sound).mpr member, rfl⟩,
      (Value.rawEqual_iff spelled).mpr named⟩

/-- No key is listed twice. -/
theorem keys_pairwise (sound : t.Sound) (alive : Ref → Bool) :
    (t.keys alive).Pairwise fun a b => a.toKey? ≠ b.toKey? :=
  (outline_pairwise sound).sublist (keys_sublist sound alive)

/-- The keys under which something can be read. -/
def liveKeys (t : Table) (alive : Ref → Bool) : Finset Key :=
  ((t.keys alive).filterMap Value.toKey?).toFinset

theorem exists_toKey?_of_mem_keys (sound : t.Sound) {key : Value} (listed : key ∈ t.keys alive) :
    ∃ k, key.toKey? = some k :=
  Option.ne_none_iff_exists'.mp
    (named_of_mem_outline sound ((keys_sublist sound alive).mem listed)).1

theorem mem_liveKeys_iff (sound : t.Sound) {k : Key} :
    k ∈ t.liveKeys alive ↔ ∃ key, key.toKey? = some k ∧ t.get alive key ≠ none := by
  rw [liveKeys, List.mem_toFinset, List.mem_filterMap]
  constructor
  · rintro ⟨key, listed, spelled⟩
    exact ⟨key, spelled, (exists_mem_keys_iff sound).mp
      ⟨key, listed, (Value.rawEqual_iff spelled).mpr spelled⟩⟩
  · rintro ⟨key, spelled, present⟩
    obtain ⟨own, listed, same⟩ := (exists_mem_keys_iff sound).mpr present
    obtain ⟨k', spelled'⟩ := exists_toKey?_of_mem_keys sound listed
    have := (Value.rawEqual_iff spelled').mp same
    cases spelled.symm.trans this
    exact ⟨own, listed, spelled'⟩

theorem card_liveKeys (sound : t.Sound) (alive : Ref → Bool) :
    (t.liveKeys alive).card = (t.keys alive).length := by
  have distinct : ((t.keys alive).filterMap Value.toKey?).Nodup := by
    refine List.pairwise_filterMap.mpr
      ((keys_pairwise sound alive).imp fun apart k first k' second => ?_)
    rintro rfl
    exact apart (first.trans second.symm)
  rw [liveKeys, List.toFinset_card_of_nodup distinct]
  apply (List.filterMap_length_eq_length).mpr
  exact fun key listed => Option.isSome_iff_exists.mpr (exists_toKey?_of_mem_keys sound listed)

/-- As many keys are listed as can be read. -/
theorem exists_card_eq_length_keys (sound : t.Sound) (alive : Ref → Bool) :
    ∃ present : Finset Key,
      (∀ k, k ∈ present ↔ ∃ key, key.toKey? = some k ∧ t.get alive key ≠ none) ∧
      present.card = (t.keys alive).length :=
  ⟨t.liveKeys alive, fun _ => mem_liveKeys_iff sound, card_liveKeys sound alive⟩

end Table

end HybridTable
