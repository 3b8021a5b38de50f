import HybridTable.Proofs.Places
import HybridTable.Proofs.Writes

/-! Changes that move nothing. A key that is present is overwritten in its place, and a key that is
removed leaves a tombstone in its place, so that the `frame` of the table stays as it was. A
tombstone is for the key as it was given; the frame stays literally the same if that is the very
value that was stored. -/
namespace HybridTable

namespace Table

section
variable {t : Table}

theorem frame_setCell (t : Table) (position : Nat) (cell : Option Cell) :
    (t.setCell position cell).frame = t.frame := by
  simp [frame]

/-- A chain with the same keys keeps the frame. -/
theorem frame_rechain {bucket count : Nat} {chain : Chain}
    (same : chain.map Slot.key = (t.chain bucket).map Slot.key) :
    (t.rechain bucket chain count).frame = t.frame := by
  refine Prod.ext rfl ?_
  by_cases inside : bucket < t.buckets.size
  · have written :
        (t.rechain bucket chain count).buckets.toList = t.buckets.toList.set bucket chain :=
      Array.toList_setIfInBounds ..
    have there : bucket < (t.buckets.toList.map (·.map Slot.key)).length := by simpa using inside
    have keys :
        (t.chain bucket).map Slot.key = (t.buckets.toList.map (·.map Slot.key))[bucket] := by
      simp [Table.chain, inside]
    show (t.rechain bucket chain count).buckets.toList.map _ = t.buckets.toList.map _
    rw [written, List.map_set, same, keys, List.set_getElem_self]
  · have untouched : (t.rechain bucket chain count).buckets = t.buckets :=
      Array.setIfInBounds_eq_of_size_le (Nat.le_of_not_lt inside)
    rw [frame, frame, untouched]

end

variable [Hashing] {t : Table} {live : Liveness} {key value : Value} {k : Key}

section
variable (sound : t.Sound) (normal : key.IsNormal) (named : key.toKey? = some k)
include sound named

private theorem frame_amend {alive : Ref → Bool} {f : Entry → Slot} {chain : Chain} (count : Nat)
    (found : (t.chain (t.bucketOf key)).amend? alive key f = some chain)
    (same : ∀ e, .live e ∈ t.chain (t.bucketOf key) → e.key.toKey? = some k → (f e).key = e.key) :
    (t.rechain (t.bucketOf key) chain count).frame = t.frame := by
  obtain ⟨before, e, after, split, rfl, spelled, _⟩ := Chain.amend?_eq_some (sound.named _) found
  refine frame_rechain ?_
  have kept : (f e).key = (Slot.live e).key := same e (by simp [split]) (spelled.trans named)
  simp only [split, List.map_append, List.map_cons, kept]

theorem frame_removeHashed (very : ∀ bucket s, s ∈ t.chain bucket → s.key.toKey? = some k →
    s.key = key) : (t.removeHashed live key).frame = t.frame := by
  unfold removeHashed
  dsimp only
  split
  · rename_i chain found
    apply frame_amend sound named (t.count - 1) found
    intro e member spelled
    rw [Slot.key, Cell.content_forTombstone]
    exact (very _ _ member spelled).symm
  · rfl

include normal in
/-- In the hash region, a key that is present or is to be removed keeps the frame. -/
theorem frame_setHashed (fair : live.Fair t.policy)
    (outside : ∀ i, key = .int i → t.position? i = none)
    (present : value ≠ .nil → ∃ v, t.Stores k v)
    (very : value = .nil → ∀ bucket s, s ∈ t.chain bucket → s.key.toKey? = some k → s.key = key) :
    (t.setHashed live key value).frame = t.frame := by
  unfold setHashed
  dsimp only
  by_cases removed : value.isNil = true
  · rw [if_pos removed]
    exact frame_removeHashed sound named (very (Value.isNil_iff.mp removed))
  · rw [if_neg removed]
    split
    · rename_i chain found
      exact frame_amend sound named t.count found fun e _ _ => Entry.key_replace ..
    · rename_i absent
      obtain ⟨v, stored⟩ := present fun none => removed (Value.isNil_iff.mpr none)
      exact absurd stored (not_stores_of_amend? sound (fair.holds _) normal named outside absent v)

end

/-- An integer key that is present or is to be removed keeps the frame. -/
theorem frame_setInt (sound : t.Sound) (fair : live.Fair t.policy) {i : Int64}
    (present : value ≠ .nil → ∃ v, t.Stores (.int i) v) :
    (t.setInt live i value).frame = t.frame := by
  unfold setInt
  split
  · exact frame_setCell ..
  · rename_i outside
    refine frame_setHashed sound rfl rfl fair (fun j same => Value.int.inj same ▸ outside) present
      fun _ bucket s member spelled => ?_
    exact Value.eq_int_of_normal (sound.slots bucket s member).normal spelled

/-- A key that is present, or that is to be removed by the very value under which it is stored,
keeps the frame. -/
theorem frame_put (sound : t.Sound) (fair : live.Fair t.policy) (named : key.toKey? = some k)
    (present : value ≠ .nil → ∃ v, t.Stores k v) (very : value = .nil → key ∈ t.outline) :
    (t.put live key value).frame = t.frame := by
  have spelled : key.normalize.toKey? = some k := key.toKey?_normalize.trans named
  have normal := key.isNormal_normalize
  have kept : value = .nil → ∀ bucket s, s ∈ t.chain bucket → s.key.toKey? = some k →
      s.key = key.normalize := by
    intro removed bucket s member same
    have place := very removed
    rw [(named_of_mem_outline sound place).2]
    exact eq_of_pairwise_ne (outline_pairwise sound)
      (mem_outline_iff.mpr (.inr ⟨bucket, s, member, rfl⟩)) place (same.trans named.symm)
  unfold put
  generalize key.normalize = key' at spelled normal kept
  cases key' with
  | int i =>
    cases spelled
    exact frame_setInt sound fair present
  | _ => exact frame_setHashed sound normal spelled fair (fun i => nofun) present kept

end Table

end HybridTable
