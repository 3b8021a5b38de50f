import HybridTable.Proofs.Origins

/-! A table in which nothing is weak is a finite map. Its changes are made one after another, each
in whatever environment; what can be read after them is what the same changes leave in a map that
knows nothing of the storage. -/
namespace HybridTable

/-- The map after a sequence of changes. -/
def Contents.after (m : Contents) (changes : List Change) : Contents :=
  changes.foldl Change.record m

namespace Table

variable [Hashing] {t : Table} {m : Contents}

/-- One change keeps a strong table the map that it was, with the change recorded. -/
theorem represents_perform {c : Change} {live : Liveness} (represents : t.Represents m)
    (strong : c.Strong) (bounded : (c.perform live t).Bounded) :
    (c.perform live t).Represents (c.record m) := by
  have fair : live.Fair t.policy := .inl represents.strong
  have tracks := (represents.tracks fun _ _ => True).perform represents.sound fair bounded
    fun k v _ => by
      rw [represents.strong]
      exact WeakPolicy.spares_allStrong ..
  refine .of_tracks (represents.sound.perform fair bounded) ?_ tracks
  rw [policy_perform represents.sound fair bounded]
  cases c with
  | attach metatable mode => exact strong
  | set | setInt | presize => exact represents.strong

/-- A run of changes keeps a strong table the map that the changes describe. -/
theorem represents_after {steps : List (Liveness × Change)} (represents : t.Represents m)
    (strong : ∀ step ∈ steps, step.2.Strong)
    (bounded : ∀ done, done <+: steps → (t.after done).Bounded) :
    (t.after steps).Represents (m.after (steps.map Prod.snd)) := by
  induction steps generalizing t m with
  | nil => exact represents
  | cons step rest ih =>
    obtain ⟨live, c⟩ := step
    obtain ⟨first, others⟩ := bounded_cons bounded
    apply ih (represents_perform represents (strong (live, c) List.mem_cons_self) first) _ others
    intro step member
    exact strong step (List.mem_cons_of_mem _ member)

/-- All reads of a strong table are reads of the map. -/
theorem Represents.get_eq (represents : t.Represents m) (alive : Ref → Bool) (key : Value) :
    t.get alive key = key.toKey?.bind m.lookup := by
  apply Option.ext
  intro v
  rw [represents.sound.get_eq_some_iff, Option.bind_eq_some_iff]
  simp only [represents.stores, represents.strong, WeakPolicy.spares_allStrong, and_true]

theorem Represents.ne_nil (represents : t.Represents m) (k : Key) : m.lookup k ≠ some .nil :=
  fun found => represents.sound.value_ne_nil ((represents.stores k .nil).mpr found) rfl

/-- A table that is made in any way and then changed in any way that leaves it strong is the finite
map of the last writes: raw reads under every spelling of a key give what was last written under it,
what cannot be a key is refused and changes nothing, and nothing but writes matters. -/
theorem strong_table_refines_map {origin : Origin} (inside : origin.Bounded)
    (made : origin.build = .ok t) {steps : List (Liveness × Change)}
    (strong : ∀ step ∈ steps, step.2.Strong)
    (bounded : ∀ done, done <+: steps → (t.after done).Bounded) :
    let now := t.after steps
    let contents := origin.contents.after (steps.map Prod.snd)
    (∀ k, contents.lookup k ≠ some .nil) ∧
      (∀ alive key, now.get alive key = key.toKey?.bind contents.lookup) ∧
      (∀ alive i, now.getInt alive i = contents.lookup (.int i)) ∧
      (∀ alive text, now.getText alive text = contents.lookup (.text text)) ∧
      (∀ live key value, key.toKey? = none → ∃ defect, key.keyDefect? = some defect ∧
        now.set live key value = .error (.invalidKey defect) ∧
        (Change.set key value).perform live now = now) ∧
      (∀ live key value, key.toKey? ≠ none → ∃ next, now.set live key value = .ok next) := by
  intro now contents
  have represents : now.Represents contents :=
    represents_after (represents_build inside made).1 strong bounded
  refine ⟨represents.ne_nil, represents.get_eq, fun alive i => ?_, fun alive text => ?_,
    fun live key value invalid => ?_, fun live key value named => ?_⟩
  · exact represents.get_eq alive (.int i)
  · exact represents.get_eq alive (.text (.short text))
  · obtain ⟨defect, found, refused⟩ := set_of_invalid live now value invalid
    exact ⟨defect, found, refused, perform_set_of_invalid invalid⟩
  · obtain ⟨k, spelled⟩ := Option.ne_none_iff_exists'.mp named
    exact ⟨_, set_of_named spelled⟩

omit [Hashing] in
/-- The float 1.0 and the integer 1 are one key, which a rehash moves to the array region and
another metatable leaves alone. -/
theorem strong_table_rewritten :
    let steps : List (Liveness × Change) := [
      (nothingReclaimed, .set (.float ⟨0x3ff0000000000000⟩) (.int 10)),
      (nothingReclaimed, .set (.text (.short "a")) (.table 5)),
      (nothingReclaimed, .setInt 2 (.int 20)),
      (nothingReclaimed, .attach (some 7) none),
      (nothingReclaimed, .set .nil (.int 0)),
      (nothingReclaimed, .setInt 1 (.int 11))]
    let now := @after .uniform .empty steps
    now.capacities = (2, 2) ∧ @get .uniform now (fun _ => true) (.int 1) = some (.int 11) := by
  intro steps now
  refine ⟨by decide +kernel, ?_⟩
  have inside : Origin.empty.Bounded := by decide
  have strong : ∀ step ∈ steps, step.2.Strong := by
    simp [steps, Change.Strong, WeakPolicy.ofMode]
  have bounded : ∀ done ∈ steps.inits, (@after .uniform .empty done).Bounded := by
    decide +kernel
  have reads := (@strong_table_refines_map .uniform .empty .empty inside rfl steps strong
    fun done begun => bounded done ((List.mem_inits done steps).mpr begun)).2.1
  exact (reads (fun _ => true) (.int 1)).trans (by decide +kernel)

end Table

end HybridTable
