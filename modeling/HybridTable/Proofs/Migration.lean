import HybridTable.Proofs.Placement

/-! What moves from old storage to new. Which pairs arrive depends on what is alive when the turn of
each comes; `placed` is that selection, so that the rest of the argument is about a plain fold over
pairs with different keys. What does not arrive could not be read at its turn and cannot be read at
the end either, because the new storage holds only what was alive then. -/
namespace HybridTable

namespace Table

section
variable {t : Table} {item : Moving}

theorem mem_movingCells_iff : item ∈ t.movingCells ↔
    ∃ (position : Nat) (c : Cell), t.array[position]? = some (some c) ∧
      item = .cell (position + 1) c := by
  unfold movingCells
  rw [List.mem_filterMap]
  constructor
  · rintro ⟨⟨cell, position⟩, listed, made⟩
    obtain ⟨c, rfl, rfl⟩ := Option.map_eq_some_iff.mp made
    exact ⟨position, c, by simpa using List.mem_zipIdx_iff_getElem?.mp listed, rfl⟩
  · rintro ⟨position, c, used, rfl⟩
    exact ⟨(some c, position), List.mem_zipIdx_iff_getElem?.mpr (by simpa using used), rfl⟩

theorem mem_filterMap_stored? {chain : Chain} :
    item ∈ chain.filterMap (fun slot => slot.stored?.map Moving.entry) ↔
      ∃ e, .live e ∈ chain ∧ item = .entry e := by
  rw [List.mem_filterMap]
  constructor
  · rintro ⟨s, member, made⟩
    obtain ⟨e, own, rfl⟩ := Option.map_eq_some_iff.mp made
    cases s <;> cases own
    exact ⟨e, member, rfl⟩
  · rintro ⟨e, member, rfl⟩
    exact ⟨.live e, member, rfl⟩

theorem mem_movingEntries_iff : item ∈ t.movingEntries ↔
    ∃ bucket e, .live e ∈ t.chain bucket ∧ item = .entry e := by
  unfold movingEntries
  simp only [List.mem_flatMap, mem_filterMap_stored?]
  constructor
  · rintro ⟨chain, listed, e, member, rfl⟩
    obtain ⟨bucket, member⟩ := mem_flatten_buckets.mp (List.mem_flatten.mpr ⟨chain, listed, member⟩)
    exact ⟨bucket, e, member, rfl⟩
  · rintro ⟨bucket, e, member, rfl⟩
    obtain ⟨chain, listed, member⟩ := List.mem_flatten.mp (mem_flatten_buckets.mpr ⟨bucket, member⟩)
    exact ⟨chain, listed, e, member, rfl⟩

/-- Whatever is stored moves: the positions in use and the entries. -/
theorem mem_moving_iff : item ∈ t.moving ↔
    (∃ (position : Nat) (c : Cell), t.array[position]? = some (some c) ∧
      item = .cell (position + 1) c) ∨
    ∃ bucket e, .live e ∈ t.chain bucket ∧ item = .entry e := by
  rw [moving, List.mem_append, mem_movingCells_iff, mem_movingEntries_iff]

theorem stores_iff_moving {k : Key} {v : Value} :
    t.Stores k v ↔ ∃ item ∈ t.moving, item.key.toKey? = some k ∧ item.value = v := by
  constructor
  · intro stored
    cases stored with
    | cell used => exact ⟨_, mem_moving_iff.mpr (.inl ⟨_, _, used, rfl⟩), rfl, rfl⟩
    | entry member named =>
      exact ⟨_, mem_moving_iff.mpr (.inr ⟨_, _, member, rfl⟩), named, Moving.value_entry _⟩
  · rintro ⟨item, moves, named, rfl⟩
    rcases mem_moving_iff.mp moves with ⟨position, c, used, rfl⟩ | ⟨bucket, e, member, rfl⟩
    · cases named
      exact .cell used
    · rw [Moving.value_entry]
      exact .entry member named

/-- What moves holds nothing that the table did not hold. -/
theorem refs_moving {r : Ref} (member : r ∈ t.moving.flatMap Moving.refs) : r ∈ t.refs := by
  obtain ⟨item, moves, own⟩ := List.mem_flatMap.mp member
  rcases mem_moving_iff.mp moves with ⟨position, c, used, rfl⟩ | ⟨bucket, e, slot, rfl⟩
  · exact mem_refs.mpr (.inr (.inl ⟨position, c, used, own⟩))
  · exact mem_refs.mpr (.inr (.inr ⟨bucket, .live e, slot, own⟩))

/-- Only entries are counted. -/
theorem length_movingEntries (t : Table) :
    t.movingEntries.length = Chain.entryCount t.buckets.toList.flatten := by
  unfold movingEntries
  induction t.buckets.toList with
  | nil => rfl
  | cons chain rest ih =>
    have own : (chain.filterMap fun slot => slot.stored?.map Moving.entry).length =
        chain.entryCount := by
      induction chain with
      | nil => rfl
      | cons s slots ihSlots =>
        cases s with
        | live e => simpa [Slot.stored?, Chain.entryCount, Slot.isDead] using ihSlots
        | dead own => simpa [Slot.stored?, Chain.entryCount, Slot.isDead] using ihSlots
    rw [List.flatMap_cons, List.length_append, List.flatten_cons, Chain.entryCount_append, own, ih]

private theorem map_filterMap_sublist {α β γ : Type} {f : α → Option β} {g : β → γ} {h : α → γ}
    (agree : ∀ a b, f a = some b → g b = h a) (l : List α) :
    ((l.filterMap f).map g).Sublist (l.map h) := by
  induction l with
  | nil => exact .slnil
  | cons a rest ih =>
    cases made : f a with
    | none =>
      rw [List.filterMap_cons_none made, List.map_cons]
      exact .cons _ ih
    | some b =>
      rw [List.filterMap_cons_some made, List.map_cons, List.map_cons, agree a b made]
      exact .cons_cons _ ih

/-- What moves is in the places of the table, in their order. -/
theorem moving_sublist (t : Table) : (t.moving.map Moving.key).Sublist t.outline := by
  unfold moving outline
  rw [List.map_append]
  refine .append ?_ ?_
  · have positions : (List.range t.array.size).map (fun i => Value.int (Int64.ofNat (i + 1))) =
        t.array.toList.zipIdx.map fun place => .int (Int64.ofNat (place.2 + 1)) := by
      rw [List.range_eq_range', ← Array.length_toList, ← List.zipIdx_map_snd 0 t.array.toList,
        List.map_map]
      rfl
    rw [positions]
    refine map_filterMap_sublist (fun place item made => ?_) _
    obtain ⟨c, _, rfl⟩ := Option.map_eq_some_iff.mp made
    rfl
  · have slots : t.movingEntries =
        t.buckets.toList.flatten.filterMap fun slot => slot.stored?.map Moving.entry := by
      rw [List.filterMap_flatten]
      exact List.flatMap_def ..
    rw [slots]
    refine map_filterMap_sublist (fun s item made => ?_) _
    obtain ⟨e, own, rfl⟩ := Option.map_eq_some_iff.mp made
    cases s <;> cases own
    rfl

end

variable [Hashing] {t : Table} {item : Moving}

namespace Sound

theorem proper (sound : t.Sound) (moves : item ∈ t.moving) : item.Proper t.policy := by
  rcases mem_moving_iff.mp moves with ⟨position, c, used, rfl⟩ | ⟨bucket, e, member, rfl⟩
  · have inside := (Array.getElem?_eq_some_iff.mp used).1
    have limit := sound.addressable
    obtain ⟨fitted, valued⟩ := sound.cells position c used
    refine ⟨nofun, rfl, valued, ?_, nofun⟩
    rintro n c' ⟨⟩
    exact ⟨by omega, by omega, fitted⟩
  · have admitted := sound.slots bucket _ member
    refine ⟨admitted.named, admitted.normal, ?_, nofun, ?_⟩
    · rw [Moving.value_entry]
      exact admitted.valued e rfl
    · rintro e' ⟨⟩
      exact admitted.fitted e rfl

/-- No two pieces are under the same key. -/
theorem moving_pairwise (sound : t.Sound) :
    t.moving.Pairwise fun a b => a.key.toKey? ≠ b.key.toKey? := by
  have keys := (outline_pairwise sound).sublist t.moving_sublist
  rwa [List.pairwise_map] at keys

end Sound

section
variable {live : Liveness} {rebuild : Bool} {policy : WeakPolicy} {items : List Moving}

/-- The pieces that arrive: those that can be read when their turn comes. -/
def placed (live : Liveness) (rebuild : Bool) : List Moving → Table → List Moving
  | [], _ => []
  | item :: rest, t =>
    if item.isAlive fun r => live (t.refs ++ (item :: rest).flatMap Moving.refs) r then
      item :: placed live rebuild rest (t.place rebuild item)
    else placed live rebuild rest t

theorem placeAll_eq_foldl (live : Liveness) (rebuild : Bool) (items : List Moving) (t : Table) :
    placeAll live rebuild items t = (placed live rebuild items t).foldl (place rebuild) t := by
  induction items generalizing t with
  | nil => rfl
  | cons item rest ih =>
    unfold placeAll placed
    split
    · exact ih _
    · exact ih t

theorem placed_sublist (live : Liveness) (rebuild : Bool) (items : List Moving) (t : Table) :
    (placed live rebuild items t).Sublist items := by
  induction items generalizing t with
  | nil => exact .slnil
  | cons item rest ih =>
    unfold placed
    split
    · exact .cons_cons item (ih _)
    · exact .cons item (ih t)

theorem refs_place {r : Ref} (member : r ∈ (t.place rebuild item).refs) :
    r ∈ t.refs ∨ r ∈ item.key.refs ++ item.value.refs := by
  cases found : item.arrayKey? t.array.size with
  | some n =>
    rw [place_of_some found] at member
    refine (refs_setCell member).imp_right fun ⟨c, same, own⟩ => List.mem_append_right _ ?_
    cases same
    simpa using (t.policy.valueCell item.value).refs_subset own
  | none =>
    rw [place_of_none found] at member
    rcases refs_rechain member with old | own
    · exact .inl old
    · rw [List.flatMap_cons] at own
      rcases List.mem_append.mp own with new | old
      · have part := (item.toEntry t.policy rebuild).refs_subset new
        rw [Moving.key_toEntry, Moving.value_toEntry] at part
        exact .inr part
      · obtain ⟨s, slot, own⟩ := List.mem_flatMap.mp old
        exact .inl (mem_refs.mpr (.inr (.inr ⟨_, s, slot, own⟩)))

/-- A piece that arrives was alive, so for its sake nothing is held that was not. -/
private theorem placed_held (lawful : live.Lawful) {rest : List Moving}
    (readable :
      item.isAlive (fun r => live (t.refs ++ (item :: rest).flatMap Moving.refs) r) = true) :
    ∀ r ∈ (t.place rebuild item).refs ++ rest.flatMap Moving.refs,
      live (t.refs ++ (item :: rest).flatMap Moving.refs) r = true := by
  intro r member
  rw [List.flatMap_cons] at readable ⊢
  rcases List.mem_append.mp member with new | later
  · rcases refs_place new with old | own
    · exact lawful.holds (List.mem_append_left _ old)
    · rcases Moving.held_or_alive readable own with held | alive
      · exact lawful.holds (List.mem_append_right _ (List.mem_append_left _ held))
      · exact alive
  · exact lawful.holds (List.mem_append_right _ (List.mem_append_right _ later))

omit [Hashing] in
private theorem rest_held (lawful : live.Lawful) {rest : List Moving} :
    ∀ r ∈ t.refs ++ rest.flatMap Moving.refs,
      live (t.refs ++ (item :: rest).flatMap Moving.refs) r = true := by
  intro r member
  rw [List.flatMap_cons]
  rcases List.mem_append.mp member with own | later
  · exact lawful.holds (List.mem_append_left _ own)
  · exact lawful.holds (List.mem_append_right _ (List.mem_append_right _ later))

/-- The new storage holds only what was alive at the start. -/
theorem placeAll_held (lawful : live.Lawful) : ∀ r ∈ (placeAll live rebuild items t).refs,
    live (t.refs ++ items.flatMap Moving.refs) r = true := by
  induction items generalizing t with
  | nil => exact fun r member => lawful.holds (List.mem_append_left _ member)
  | cons item rest ih =>
    intro r member
    unfold placeAll at member
    split at member
    · rename_i readable
      exact lawful.settled (placed_held lawful readable) (ih r member)
    · exact lawful.settled (rest_held lawful) (ih r member)

/-- What arrives could be read at the start, since nothing comes back to life. -/
theorem alive_of_placed (lawful : live.Lawful) (arrives : item ∈ placed live rebuild items t) :
    item.isAlive (fun r => live (t.refs ++ items.flatMap Moving.refs) r) = true := by
  induction items generalizing t with
  | nil => cases arrives
  | cons head rest ih =>
    unfold placed at arrives
    split at arrives
    · rename_i readable
      rcases List.mem_cons.mp arrives with rfl | later
      · exact readable
      · exact Moving.isAlive_mono (fun r => lawful.settled (placed_held lawful readable)) (ih later)
    · exact Moving.isAlive_mono (fun r => lawful.settled (rest_held lawful)) (ih arrives)

/-- What arrives was spared at the start. -/
theorem spared_of_placed (fair : live.Fair policy) (proper : ∀ item ∈ items, item.Proper policy)
    {k : Key} (arrives : item ∈ placed live rebuild items t) (named : item.key.toKey? = some k) :
    policy.Spares (live (t.refs ++ items.flatMap Moving.refs)) k item.value := by
  rcases fair with rfl | lawful
  · exact WeakPolicy.spares_allStrong ..
  · induction items generalizing t with
    | nil => cases arrives
    | cons head rest ih =>
      have restProper : ∀ item ∈ rest, item.Proper policy := fun item member =>
        proper item (List.mem_cons_of_mem head member)
      unfold placed at arrives
      split at arrives
      · rename_i readable
        rcases List.mem_cons.mp arrives with rfl | later
        · exact ((proper _ List.mem_cons_self).isAlive_iff named).mp readable
        · exact Liveness.Fair.spares_earlier (.inr lawful) (.inr (placed_held lawful readable))
            (ih restProper later)
      · exact Liveness.Fair.spares_earlier (.inr lawful) (.inr (rest_held lawful))
          (ih restProper arrives)

/-- What is spared at the end has arrived. -/
theorem placed_of_spared (fair : live.Fair policy) (proper : ∀ item ∈ items, item.Proper policy)
    {k : Key} (moves : item ∈ items) (named : item.key.toKey? = some k)
    (spared : policy.Spares (live (placeAll live rebuild items t).refs) k item.value) :
    item ∈ placed live rebuild items t := by
  induction items generalizing t with
  | nil => cases moves
  | cons head rest ih =>
    have restProper : ∀ item ∈ rest, item.Proper policy := fun item member =>
      proper item (List.mem_cons_of_mem head member)
    unfold placeAll at spared
    unfold placed
    split at spared
    · rename_i readable
      rw [if_pos readable]
      rcases List.mem_cons.mp moves with rfl | later
      · exact List.mem_cons_self
      · exact List.mem_cons_of_mem head (ih restProper later spared)
    · rename_i lost
      rw [if_neg lost]
      rcases List.mem_cons.mp moves with rfl | later
      · refine absurd (((proper _ List.mem_cons_self).isAlive_iff named).mpr ?_) lost
        refine fair.spares_earlier (fair.imp_right fun lawful r member => ?_) spared
        exact lawful.settled (rest_held lawful) (placeAll_held lawful r member)
      · exact ih restProper later spared

end

end Table

end HybridTable
