import HybridTable.Table.Sorted
import HybridTable.Proofs.Storage

/-! Sorting exchanges values and does nothing else to them, whatever the comparisons answer, and
writing values back over the leading positions keeps the layout. The values are written to the table
as it is by then, so nothing is assumed about how it compares with the one they were read from. -/
namespace HybridTable.Sort

variable {α σ ε : Type} {n last : Nat}

theorem siftDown_perm (less : Comparison α σ ε) (inside : last < n) (root : Nat)
    (values : Vector α n) (s : σ) : (siftDown less inside root values s).values.Perm values := by
  unfold siftDown
  split
  · split
    · exact .refl _
    · split
      · exact .refl _
      · exact .refl _
      · exact (siftDown_perm ..).trans (Vector.swap_perm ..)
  · exact .refl _
termination_by last - root

theorem buildHeap_perm (less : Comparison α σ ε) (inside : last < n) (roots : Nat)
    (values : Vector α n) (s : σ) : (buildHeap less inside roots values s).values.Perm values := by
  induction roots generalizing values s with
  | zero => exact .refl _
  | succ root ih =>
    have sifted := siftDown_perm less inside root values s
    unfold buildHeap
    split
    · rename_i values' s' done
      rw [done] at sifted
      exact (ih values' s').trans sifted
    · exact sifted

theorem drainHeap_perm (less : Comparison α σ ε) (inside : last < n) (values : Vector α n) (s : σ) :
    (drainHeap less last inside values s).values.Perm values := by
  induction last generalizing values s with
  | zero => exact .refl _
  | succ last ih =>
    have sifted := siftDown_perm less (Nat.lt_of_succ_lt inside) 0 (values.swap (last + 1) 0) s
    have swapped := sifted.trans (Vector.swap_perm ..)
    unfold drainHeap
    split
    · rename_i values' s' done
      rw [done] at swapped
      exact (ih _ values' s').trans swapped
    · exact swapped

/-- A sort leaves the values that there were, in some order, also when it fails. -/
theorem heapSort_perm (less : Comparison α σ ε) (values : Vector α n) (s : σ) :
    (heapSort less values s).values.Perm values := by
  unfold heapSort
  split
  · rename_i several
    have built := buildHeap_perm less (show n - 1 < n by omega) (n / 2) values s
    dsimp only
    split
    · rename_i values' s' done
      rw [done] at built
      exact (drainHeap_perm less _ values' s').trans built
    · exact built
  · exact .refl _

end HybridTable.Sort

namespace HybridTable.Table

section
variable {t : Table} {alive : Ref → Bool} {v : Value}

/-- The leading values are in the array region. -/
theorem mem_sequence (member : v ∈ t.sequence alive) :
    ∃ (position : Nat) (c : Cell), t.array[position]? = some (some c) ∧ c.content = v := by
  unfold sequence at member
  obtain ⟨read, listed, same⟩ := List.mem_filterMap.mp member
  cases same
  obtain ⟨cell, inArray, made⟩ := List.mem_map.mp ((List.takeWhile_sublist _).mem listed)
  obtain ⟨c, rfl, value⟩ := Option.bind_eq_some_iff.mp made
  obtain ⟨position, found⟩ := List.mem_iff_getElem?.mp inArray
  rw [Cell.read_eq] at value
  split at value <;> cases value
  exact ⟨position, c, by simpa using found, rfl⟩

end

variable [Hashing] {t : Table} {alive : Ref → Bool}

theorem Sound.sequence_ne_nil (sound : t.Sound) {v : Value} (member : v ∈ t.sequence alive) :
    v ≠ .nil := by
  obtain ⟨position, c, used, rfl⟩ := mem_sequence member
  exact (sound.cells position c used).2

omit [Hashing] in
/-- Values are written back within the array region; those past it are dropped. -/
theorem size_array_storeSequence (t : Table) (values : List Value) :
    (t.storeSequence values).array.size = t.array.size := by
  have storing (items : List (Value × Nat)) (t : Table) : (items.foldl (fun t item =>
      t.setCell item.2 (some (t.policy.valueCell item.1))) t).array.size = t.array.size := by
    induction items generalizing t with
    | nil => rfl
    | cons item rest ih => exact (ih _).trans (size_array_setCell ..)
  exact storing _ t

/-- Values that are written back keep the layout. -/
theorem Sound.storeSequence (sound : t.Sound) {values : List Value}
    (valued : ∀ v ∈ values, v ≠ .nil) : (t.storeSequence values).Sound := by
  have storing (items : List (Value × Nat)) (t : Table) (sound : t.Sound)
      (valued : ∀ item ∈ items, item.1 ≠ .nil) : (items.foldl (fun t item =>
        t.setCell item.2 (some (t.policy.valueCell item.1))) t).Sound := by
    induction items generalizing t with
    | nil => exact sound
    | cons item rest ih =>
      refine ih _ ?_ fun other member => valued other (List.mem_cons_of_mem item member)
      show (t.setCell item.2 (some (t.policy.valueCell item.1))).Sound
      by_cases inside : item.2 < t.array.size
      · apply sound.setCell inside _
        intro c same
        cases same
        exact ⟨by rw [WeakPolicy.content_valueCell],
          by simpa using valued item List.mem_cons_self⟩
      · have untouched : t.setCell item.2 (some (t.policy.valueCell item.1)) = t := by
          cases t
          simp only [Table.setCell, Array.setIfInBounds_eq_of_size_le (Nat.le_of_not_lt inside)]
        exact untouched.symm ▸ sound
  apply storing _ t sound
  intro item member
  obtain ⟨value, position⟩ := item
  exact valued value (List.mem_iff_getElem?.mpr ⟨position, List.mem_zipIdx_iff_getElem?.mp member⟩)

variable {σ ε : Type} {less : Sort.Comparison Value σ ε} {s s' : σ}

/-- The leading values of one table, sorted, can be written to any other. -/
theorem Sound.storeSorted {source : Table} (sound : t.Sound) (from_sound : source.Sound)
    {values : Vector Value (source.sequence alive).toArray.size}
    (sorted :
      Sort.heapSort less (source.sequence alive).toArray.toVector s = ⟨.ok (), values, s'⟩) :
    (t.storeSequence values.toList).Sound := by
  have perm := Sort.heapSort_perm less (source.sequence alive).toArray.toVector s
  rw [sorted] at perm
  apply sound.storeSequence
  intro v member
  have stored : v ∈ source.sequence alive := by simpa using perm.toList.mem_iff.mp member
  exact from_sound.sequence_ne_nil stored

/-- A sort keeps the layout and the size of the array region. -/
theorem Sound.sortBy {t' : Table} (sound : t.Sound)
    (sorted : t.sortBy less alive s = (.ok t', s')) :
    t'.Sound ∧ t'.array.size = t.array.size := by
  unfold Table.sortBy at sorted
  dsimp only at sorted
  split at sorted
  · cases sorted
    exact ⟨sound, rfl⟩
  · split at sorted
    · rename_i values after done
      cases sorted
      exact ⟨sound.storeSorted sound done, size_array_storeSequence ..⟩
    · cases sorted

end HybridTable.Table
