import HybridTable.Proofs.Shifting
import HybridTable.Proofs.Sorting
import HybridTable.Proofs.Origins

/-! All tables that can come about. A table is made in some way and then goes through operations in
any order. The environment may reclaim what nothing holds at every moment, also in the middle of an
operation. That changes nothing in the storage, only what the operations find alive in it, so each
operation comes with its own environment. -/
namespace HybridTable

namespace Table

variable [Hashing] {t : Table}

/-- The tables that operations can leave behind. -/
inductive Reachable : Table → Prop
  /-- A new table. -/
  | made {origin : Origin} {t : Table} (inside : origin.Bounded) (built : origin.build = .ok t) :
    Reachable t
  /-- A write that may be refused, more room, or another metatable with any mode. -/
  | changed {t : Table} {live : Liveness} {c : Change} (earlier : Reachable t)
    (lawful : live.Lawful) (bounded : (c.perform live t).Bounded) : Reachable (c.perform live t)
  /-- An insertion into a list. -/
  | inserted {t : Table} {live : Liveness} {key : Int64} {value : Value} (earlier : Reachable t)
    (lawful : live.Lawful) (bounded : (t.insert live key value).Bounded) :
    Reachable (t.insert live key value)
  /-- A removal from a list that found something to remove. -/
  | removed {t t' : Table} {live : Liveness} {key : Int64} {value : Value} (earlier : Reachable t)
    (lawful : live.Lawful) (found : t.remove live key = some (value, t')) : Reachable t'
  /-- A sort during which the table could not be changed. -/
  | sortedBy {σ ε : Type} {less : Sort.Comparison Value σ ε} {alive : Ref → Bool} {t t' : Table}
    {s s' : σ} (earlier : Reachable t) (sorted : t.sortBy less alive s = (.ok t', s')) :
    Reachable t'
  /-- A sort of a copy of the leading values, which is written back to what has become of the table
  meanwhile. -/
  | sorted {σ ε : Type} {less : Sort.Comparison Value σ ε} {alive : Ref → Bool} {source t : Table}
    {s s' : σ} {values : Vector Value (source.sequence alive).toArray.size}
    (copied : Reachable source) (earlier : Reachable t)
    (sorted : Sort.heapSort less (source.sequence alive).toArray.toVector s =
      ⟨.ok (), values, s'⟩) : Reachable (t.storeSequence values.toList)

/-- Every operation keeps the layout, and only operations that may grow the array region have to be
kept from growing it beyond the documented range. -/
theorem Reachable.sound_bounded (reachable : t.Reachable) : t.Sound ∧ t.Bounded := by
  induction reachable with
  | made inside built =>
    obtain ⟨represents, bounded⟩ := represents_build inside built
    exact ⟨represents.sound, bounded⟩
  | changed _ lawful bounded ih => exact ⟨ih.1.perform (.inr lawful) bounded, bounded⟩
  | inserted _ lawful bounded ih => exact ⟨ih.1.insert (.inr lawful) bounded, bounded⟩
  | removed _ lawful found ih =>
    obtain ⟨sound, size⟩ := ih.1.remove (.inr lawful) found
    exact ⟨sound, ih.2.of_size size⟩
  | sortedBy _ sorted ih =>
    obtain ⟨sound, size⟩ := ih.1.sortBy sorted
    exact ⟨sound, ih.2.of_size size⟩
  | sorted _ _ sorted source ih =>
    exact ⟨ih.1.storeSorted source.1 sorted, ih.2.of_size (size_array_storeSequence ..)⟩

/-- A run of changes leads from one table that can come about to another. -/
theorem Reachable.after {steps : List (Liveness × Change)} (reachable : t.Reachable)
    (lawful : ∀ step ∈ steps, step.1.Lawful)
    (bounded : ∀ done, done <+: steps → (t.after done).Bounded) : (t.after steps).Reachable := by
  induction steps generalizing t with
  | nil => exact reachable
  | cons step rest ih =>
    obtain ⟨live, c⟩ := step
    obtain ⟨first, others⟩ := bounded_cons bounded
    apply ih (reachable.changed (lawful (live, c) List.mem_cons_self) first) _ others
    intro step member
    exact lawful step (List.mem_cons_of_mem _ member)

theorem reachable_empty : Reachable .empty :=
  .made (show Origin.empty.Bounded by decide) (show Origin.empty.build = .ok .empty from rfl)

/-- What changes make of the empty table while nothing is reclaimed can come about. -/
theorem reachable_after_empty {changes : List Change}
    (bounded : ∀ done ∈ (changes.map (nothingReclaimed, ·)).inits, (after .empty done).Bounded) :
    (after .empty (changes.map (nothingReclaimed, ·))).Reachable := by
  refine reachable_empty.after (fun step member => ?_) fun done begun =>
    bounded done ((List.mem_inits ..).mpr begun)
  obtain ⟨_, -, rfl⟩ := List.mem_map.mp member
  exact nothingReclaimed_lawful

/-- The layout of every table that can come about. Capacities are powers of two or zero, and a hash
region has more than one bucket. Integer keys of the array region are not entries. The count is that
of the slots that are no tombstones, and there are no more of them than buckets. Every slot is in
the bucket that its key selects, and no other slot of that chain is for the same key. Keys are valid
and in normal form, and values are not `nil`. -/
theorem layout_of_reachable (reachable : t.Reachable) :
    (t.arrayCapacity = 0 ∨ ∃ n, t.arrayCapacity = 2 ^ n) ∧
      ((t.hashCapacity = 0 ∨ ∃ n, t.hashCapacity = 2 ^ n) ∧ t.hashCapacity ≠ 1) ∧
      (∀ bucket e i, .live e ∈ t.chain bucket → e.key = .int i →
        ¬ (1 ≤ i.toInt ∧ i.toInt ≤ (t.arrayCapacity : Int))) ∧
      t.count = t.buckets.toList.flatten.countP (!·.isDead) ∧ t.count ≤ t.hashCapacity ∧
      (∀ bucket s, s ∈ t.chain bucket → s.key.keyHash.bucket (t.hashCapacity - 1) = bucket) ∧
      (∀ bucket alive key, (t.chain bucket).countP (·.hasKey alive key) ≤ 1) ∧
      (∀ bucket, (t.chain bucket).Pairwise fun a b => a.key.rawEqual b.key = false) ∧
      (∀ bucket s, s ∈ t.chain bucket →
        s.key.keyDefect? = none ∧ ∀ x, s.key = .float x → x.toInt64? = none) ∧
      (∀ (position : Nat) (c : Cell), t.array[position]? = some (some c) → c.content ≠ .nil) ∧
      ∀ bucket e, .live e ∈ t.chain bucket → e.value ≠ .nil := by
  have sound := reachable.sound_bounded.1
  refine ⟨sound.arraySize, ⟨?_, ?_⟩, ?_, sound.counted, sound.room, ?_, ?_, ?_, ?_, ?_, ?_⟩
  · exact sound.hashSize.imp_right fun ⟨n, power⟩ => ⟨n + 1, power⟩
  · intro one
    rcases sound.hashSize with zero | ⟨n, power⟩
    · exact absurd (zero.symm.trans one) (by decide)
    · have two := Nat.pow_le_pow_right (show 0 < 2 by decide) (Nat.le_add_left 1 n)
      rw [← power, show t.buckets.size = 1 from one] at two
      exact absurd two (by decide)
  · intro bucket e i member integer inside
    have outside := (sound.slots bucket _ member).outside i integer
    have position : t.position? i = some (i.toInt.toNat - 1) := if_pos inside
    rw [position] at outside
    cases outside
  · exact fun bucket s member => (sound.slots bucket s member).here.symm
  · intro bucket alive key
    exact (sound.distinct bucket).countP_hasKey (sound.named bucket) alive key
  · intro bucket
    exact (sound.distinct bucket).imp_of_mem fun {a b} first _ apart =>
      Value.rawEqual_eq_false (sound.named bucket a first) apart
  · intro bucket s member
    have admitted := sound.slots bucket s member
    refine ⟨?_, fun x float => Value.fractional_of_normal (float ▸ admitted.normal)⟩
    simpa using mt s.key.toKey?_eq_none_iff.mpr admitted.named
  · exact fun position c used => (sound.cells position c used).2
  · exact fun bucket e member => (sound.slots bucket _ member).valued e rfl

omit [Hashing] in
/-- Two values that nothing else holds are lost to a table that holds its values weakly, and another
write sweeps what they leave behind instead of growing the table. -/
theorem layout_of_swept_table :
    let live : Liveness := .sparing fun _ => false
    let steps : List (Liveness × Change) := [
      (live, .attach none (some (.text (.short "v")))),
      (live, .set (.text (.short "a")) (.table 5)),
      (live, .set (.text (.short "b")) (.table 6)),
      (live, .set .nil (.int 0)),
      (live, .setInt 1 (.int 10)),
      (live, .set (.text (.short "c")) (.int 11)),
      (live, .set (.text (.short "c")) .nil)]
    let now := @after .uniform .empty steps
    now.capacities = (0, 2) ∧ now.count = 1 ∧
      now.count = now.buckets.toList.flatten.countP (!·.isDead) := by
  intro live steps now
  have lawful : ∀ step ∈ steps, step.1.Lawful := by simp [steps, live, Liveness.sparing_lawful]
  have bounded : ∀ done ∈ steps.inits, (@after .uniform .empty done).Bounded := by
    decide +kernel
  have inside : Origin.empty.Bounded := by decide
  have made : @Reachable .uniform .empty := @Reachable.made .uniform .empty .empty inside rfl
  have reachable : @Reachable .uniform now := @Reachable.after .uniform .empty steps made lawful
    fun done begun => bounded done ((List.mem_inits done steps).mpr begun)
  have layout := @layout_of_reachable .uniform now reachable
  exact ⟨by decide +kernel, by decide +kernel, layout.2.2.2.1⟩

end Table

end HybridTable
