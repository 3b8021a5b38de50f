import HybridTable.Table.Shift
import HybridTable.Proofs.Overwriting
import HybridTable.Proofs.Parting

/-! Shifting values within a list. Every write of a shift but the last one upwards is under a key
that is stored already, so it finds the storage as large as it needs and nothing moves on the way.
-/
namespace HybridTable.Table

variable [Hashing] {t : Table} {live : Liveness} {key : Int64} {value v : Value}

/-- Overwriting or removing what is stored under an integer key needs no room. -/
theorem written_setInt_stored (sound : t.Sound) (fair : live.Fair t.policy)
    (stored : t.Stores (.int key) v) (value : Value) :
    Written (live.holding value.refs) t (.int key) value (t.setInt live key value) ∧
      (t.setInt live key value).array.size = t.array.size := by
  have same : (t.setInt live key value).frame = t.frame :=
    frame_setInt sound fair fun _ => ⟨v, stored⟩
  have size := size_array_of_frame same
  refine ⟨written_setInt_of_leavesOut sound fair fun outside _ => ?_, size⟩
  unfold position?
  rw [size]
  exact outside

/-- At an absent key a shift upwards ends with a write. -/
theorem shiftUp_of_absent (stored : value ≠ .nil)
    (absent : t.getInt (fun r => live (value.refs ++ t.refs) r) key = none) :
    t.shiftUp live key value = t.setInt (live.holding Value.nil.refs) key value := by
  have done (t' : Table) (key' : Int64) : t'.shiftUp live key' .nil = t' := by
    unfold Table.shiftUp
    exact if_pos rfl
  unfold Table.shiftUp
  rw [if_neg fun none => stored (Value.isNil_iff.mp none), absent, Option.getD_none]
  dsimp only
  split
  · rfl
  · exact done ..

/-- At a present key a shift upwards goes on with the value that it displaces. -/
theorem shiftUp_of_present (stored : value ≠ .nil)
    (found : t.getInt (fun r => live (value.refs ++ t.refs) r) key = some v) :
    t.shiftUp live key value =
      if key = Int64.maxValue then t.setInt (live.holding v.refs) key value
      else (t.setInt (live.holding v.refs) key value).shiftUp live (key + 1) v := by
  rw [Table.shiftUp.eq_1 live t key value,
    if_neg fun none => stored (Value.isNil_iff.mp none), found, Option.getD_some]
  rfl

/-- Shifting up keeps the layout. At the first absent key nothing is displaced, so the one write
that may need room is the last. -/
theorem Sound.shiftUp {t : Table} {key : Int64} {value : Value} (sound : t.Sound)
    (fair : live.Fair t.policy) (result : (t.shiftUp live key value).Parted) :
    (t.shiftUp live key value).Sound := by
  by_cases removed : value = .nil
  · subst removed
    unfold Table.shiftUp
    exact sound
  cases found : t.getInt (fun r => live (value.refs ++ t.refs) r) key with
  | none =>
    rw [shiftUp_of_absent removed found] at result ⊢
    exact (written_setInt_of_parted sound (fair.holding _) result).sound
  | some displaced =>
    have stored := (sound.getInt_eq_some_iff.mp found).1
    have written := (written_setInt_stored sound (fair.holding displaced.refs) stored value).1
    rw [shiftUp_of_present removed found] at result ⊢
    split
    · exact written.sound
    · rename_i below
      rw [if_neg below] at result
      exact written.sound.shiftUp (written.ruled.symm ▸ fair) result
termination_by keysLeft key
decreasing_by exact keysLeft_add_one ‹_›

/-- One step of a shift downwards. The value that comes next is held while it moves, so its old
place is still taken when its turn comes. -/
theorem step_shiftDown (sound : t.Sound) (fair : live.Fair t.policy)
    (below : key ≠ Int64.maxValue) (stored : t.Stores (.int key) v)
    (found : t.getInt (fun r => live t.refs r) (key + 1) = some value) :
    Written (live.holding value.refs) t (.int key) value (t.setInt live key value) ∧
      (t.setInt live key value).array.size = t.array.size ∧
      (t.setInt live key value).Stores (.int (key + 1)) value := by
  obtain ⟨written, size⟩ := written_setInt_stored sound fair stored value
  obtain ⟨following, spared⟩ := sound.getInt_eq_some_iff.mp found
  have apart : Key.int (key + 1) ≠ .int key := fun same => key_add_one_ne below (Key.int.inj same)
  refine ⟨written, size, written.others.spared _ value apart following ?_⟩
  rcases fair with strong | lawful
  · rw [strong]
    exact WeakPolicy.spares_allStrong ..
  · exact ⟨fun _ r member => (by cases member), fun _ _ r member => lawful.held_alive member⟩

/-- Shifting down keeps the layout and the size of the array region. -/
theorem Sound.shiftDown {t : Table} {key : Int64} {v : Value} (sound : t.Sound)
    (fair : live.Fair t.policy) (stored : t.Stores (.int key) v) :
    (t.shiftDown live key).Sound ∧ (t.shiftDown live key).array.size = t.array.size := by
  have removed := written_setInt_stored sound fair stored .nil
  unfold Table.shiftDown
  split
  · exact ⟨removed.1.sound, removed.2⟩
  · rename_i below
    split
    · rename_i value found
      obtain ⟨written, size, kept⟩ := step_shiftDown sound fair below stored found
      obtain ⟨rest, same⟩ := written.sound.shiftDown (written.ruled.symm ▸ fair) kept
      exact ⟨rest, same.trans size⟩
    · exact ⟨removed.1.sound, removed.2⟩
termination_by keysLeft key
decreasing_by exact keysLeft_add_one ‹_›

theorem Sound.insert_of_parted (sound : t.Sound) (fair : live.Fair t.policy)
    (result : (t.insert live key value).Parted) : (t.insert live key value).Sound := by
  unfold Table.insert at result ⊢
  dsimp only at result ⊢
  split
  · rename_i last
    rw [if_pos last] at result
    split
    · rename_i more
      rw [if_pos more] at result
      exact sound.shiftUp fair result
    · exact sound
  · rename_i inner
    rw [if_neg inner] at result
    exact sound.shiftUp fair result

theorem Sound.insert (sound : t.Sound) (fair : live.Fair t.policy)
    (result : (t.insert live key value).Bounded) : (t.insert live key value).Sound :=
  sound.insert_of_parted fair result.parted

theorem Sound.remove {removed : Value} {t' : Table} (sound : t.Sound) (fair : live.Fair t.policy)
    (result : t.remove live key = some (removed, t')) :
    t'.Sound ∧ t'.array.size = t.array.size := by
  unfold Table.remove at result
  dsimp only at result
  generalize (if key = 0 then _ else key : Int64) = key at result
  split at result
  · cases result
  · obtain ⟨value, found, same⟩ := Option.map_eq_some_iff.mp result
    cases same
    exact sound.shiftDown (fair.holding _) (sound.getInt_eq_some_iff.mp found).1

end HybridTable.Table
