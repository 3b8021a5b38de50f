import Mathlib.Data.Finmap
import HybridTable.Proofs.Writes

/-! Sequences of changes, and the finite map that they describe. `Contents` knows nothing of
regions, chains or what is alive: a write puts a value under a key or removes the key, and nothing
else changes anything. `Tracks` says that a table has not departed from such a map, except for pairs
about which nothing is claimed. -/
namespace HybridTable

/-- What was last written under each key. -/
abbrev Contents := Finmap fun _ : Key => Value

namespace Contents

/-- A value under a key; `nil` removes the key. -/
def write (m : Contents) (k : Key) (v : Value) : Contents :=
  if v = .nil then m.erase k else m.insert k v

theorem lookup_write_same (m : Contents) (k : Key) (v : Value) :
    (m.write k v).lookup k = if v = .nil then none else some v := by
  unfold write
  split
  · exact Finmap.lookup_erase k m
  · exact Finmap.lookup_insert m

theorem lookup_write_other (m : Contents) {k other : Key} (v : Value) (apart : other ≠ k) :
    (m.write k v).lookup other = m.lookup other := by
  unfold write
  split
  · exact Finmap.lookup_erase_ne apart
  · exact Finmap.lookup_insert_of_ne m apart

end Contents

/-- A change of a table that a caller can ask for. -/
inductive Change where
  /-- A raw write under any value. -/
  | set (key value : Value)
  /-- A raw write under an integer. -/
  | setInt (key : Int64) (value : Value)
  /-- Room for so many positions. -/
  | presize (positions : Nat)
  /-- Another metatable, with its mode. -/
  | attach (metatable : Option Ref) (mode : Option Value)

namespace Change

/-- What the caller holds while the change is made. -/
def refs : Change → List Ref
  | set key value => key.refs ++ value.refs
  | setInt _ value => value.refs
  | presize _ => []
  | attach metatable _ => metatable.toList

/-- What the change does to the pairs: only a write under what can be a key does anything. -/
def record (m : Contents) : Change → Contents
  | set key value => match key.toKey? with
    | some k => m.write k value
    | none => m
  | setInt key value => m.write (.int key) value
  | presize _ => m
  | attach _ _ => m

/-- Leaving the table strong. -/
def Strong : Change → Prop
  | attach _ mode => WeakPolicy.ofMode mode = .allStrong
  | _ => True

variable [Hashing]

/-- Makes the change. -/
def apply (live : Liveness) (t : Table) : Change → Except Error Table
  | set key value => t.set live key value
  | setInt key value => .ok (t.setInt live key value)
  | presize positions => .ok (t.presizeArray live positions)
  | attach metatable mode => .ok (t.attachMetatable live metatable (.ofMode mode))

/-- The table after the change was tried; a change that fails leaves it as it was. -/
def perform (live : Liveness) (t : Table) (c : Change) : Table := (c.apply live t).toOption.getD t

end Change

namespace Table

/-- The table after a sequence of changes, each in its own environment. -/
def after [Hashing] (t : Table) (steps : List (Liveness × Change)) : Table :=
  steps.foldl (fun t (live, c) => c.perform live t) t

/-- What stays bounded along a run is so after its first step and along the rest. -/
theorem bounded_cons [Hashing] {t : Table} {live : Liveness} {c : Change}
    {steps : List (Liveness × Change)}
    (bounded : ∀ done, done <+: (live, c) :: steps → (t.after done).Bounded) :
    (c.perform live t).Bounded ∧
      ∀ done, done <+: steps → ((c.perform live t).after done).Bounded := by
  constructor
  · exact bounded [(live, c)] (List.cons_prefix_cons.mpr ⟨rfl, List.nil_prefix⟩)
  · intro done begun
    exact bounded ((live, c) :: done) (List.cons_prefix_cons.mpr ⟨rfl, begun⟩)

/-- Only what was written last is stored, and of that, whatever is claimed to be there is stored. -/
structure Tracks (claimed : Key → Value → Prop) (t : Table) (m : Contents) : Prop where
  /-- Nothing stale is stored. -/
  recorded : ∀ k v, t.Stores k v → m.lookup k = some v
  /-- Nothing that is claimed was lost. -/
  kept : ∀ k v, m.lookup k = some v → claimed k v → t.Stores k v

theorem Tracks.weaken {claimed fewer : Key → Value → Prop} {t : Table} {m : Contents}
    (tracks : Tracks claimed t m) (part : ∀ k v, fewer k v → claimed k v) : Tracks fewer t m :=
  ⟨tracks.recorded, fun k v found claim => tracks.kept k v found (part k v claim)⟩

variable [Hashing] {t t' : Table} {live : Liveness} {claimed : Key → Value → Prop} {m : Contents}

theorem Written.tracks {k : Key} {value : Value} (written : Written live t k value t')
    (tracks : Tracks claimed t m)
    (spared : ∀ k v, claimed k v → t.policy.Spares (live t'.refs) k v) :
    Tracks claimed t' (m.write k value) := by
  constructor
  · intro k' v stored
    by_cases same : k' = k
    · subst same
      obtain ⟨rfl, some_value⟩ := (written.own v).mp stored
      rw [Contents.lookup_write_same, if_neg some_value]
    · rw [Contents.lookup_write_other m value same]
      exact tracks.recorded k' v (written.others.stale k' v same stored)
  · intro k' v found claim
    by_cases same : k' = k
    · subst same
      rw [Contents.lookup_write_same] at found
      split at found
      · cases found
      · rename_i some_value
        cases found
        exact (written.own _).mpr ⟨rfl, some_value⟩
    · rw [Contents.lookup_write_other m value same] at found
      exact written.others.spared k' v same (tracks.kept k' v found claim) (spared k' v claim)

theorem Migrated.tracks {metatable : Option Ref} {policy : WeakPolicy}
    (moved : Migrated live t metatable policy t') (tracks : Tracks claimed t m)
    (spared : ∀ k v, claimed k v → t.policy.Spares (live t'.refs) k v) : Tracks claimed t' m := by
  constructor
  · intro k v stored
    exact tracks.recorded k v (stores_governed.mp (moved.keeps.stale k v trivial stored))
  · intro k v found claim
    exact moved.keeps.spared k v trivial (stores_governed.mpr (tracks.kept k v found claim))
      (spared k v claim)

theorem set_of_named {key value : Value} {k : Key} (named : key.toKey? = some k) :
    t.set live key value = .ok (t.put live key value) := by
  have valid : key.keyDefect? = none := by
    apply Option.eq_none_iff_forall_ne_some.mpr
    intro defect found
    have := key.toKey?_eq_none_iff.mpr (by simp [found])
    rw [named] at this
    cases this
  simp only [set, valid]

theorem set_of_invalid (live : Liveness) (t : Table) {key : Value} (value : Value)
    (invalid : key.toKey? = none) :
    ∃ defect, key.keyDefect? = some defect ∧
      t.set live key value = .error (.invalidKey defect) := by
  obtain ⟨defect, found⟩ := Option.isSome_iff_exists.mp (key.toKey?_eq_none_iff.mp invalid)
  exact ⟨defect, found, by simp only [set, found]⟩

theorem perform_set_of_named {key value : Value} {k : Key} (named : key.toKey? = some k) :
    (Change.set key value).perform live t = t.put live key value := by
  simp [Change.perform, Change.apply, set_of_named named, Except.toOption]

theorem perform_set_of_invalid {key value : Value} (invalid : key.toKey? = none) :
    (Change.set key value).perform live t = t := by
  obtain ⟨defect, _, refused⟩ := set_of_invalid live t value invalid
  simp [Change.perform, Change.apply, refused, Except.toOption]

/-- What the new table holds may as well be held by the caller. -/
theorem Migrated.holding {metatable : Option Ref} {policy : WeakPolicy} {refs : List Ref}
    (fair : live.Fair t.policy) (moved : Migrated live t metatable policy t')
    (part : ∀ r ∈ refs, r ∈ t'.refs) : Migrated (live.holding refs) t metatable policy t' := by
  refine ⟨moved.sound, moved.ruled, moved.attached, moved.keeps.stale, ?_, ?_⟩
  · refine fun k v other stored spared => moved.keeps.spared k v other stored ?_
    refine fair.spares_earlier (fair.imp_right fun lawful r member => lawful.holds ?_) spared
    exact (List.mem_append.mp member).elim (part r) id
  · rcases fair with strong | lawful
    · exact .inl strong
    · exact moved.keeps.held.imp_right fun held r member => lawful.of_holding (held r member)

/-- What can come of a change: a write under one key, or a migration that writes nothing. Either is
seen by the caller, who holds the arguments. -/
inductive Effect (live : Liveness) (t : Table) (c : Change) (t' : Table) : Prop
  /-- A write. -/
  | written {k : Key} {value : Value} (recorded : ∀ m, c.record m = m.write k value)
    (written : Written (live.holding c.refs) t k value t')
  /-- No write. -/
  | migrated {metatable : Option Ref} {policy : WeakPolicy} (recorded : ∀ m, c.record m = m)
    (moved : Migrated (live.holding c.refs) t metatable policy t')

/-- Every change has one of the two effects, also one that is refused. -/
theorem effect_perform {c : Change} (sound : t.Sound) (fair : live.Fair t.policy)
    (bounded : (c.perform live t).Bounded) : Effect live t c (c.perform live t) := by
  cases c with
  | set key value =>
    cases named : key.toKey? with
    | none =>
      rw [perform_set_of_invalid named]
      have still : Migrated (live.holding (Change.set key value).refs) t t.metatable t.policy t :=
        ⟨sound, rfl, rfl, .refl (fair.holding _) _ t⟩
      refine .migrated (fun m => ?_) still
      simp only [Change.record, named]
    | some k =>
      rw [perform_set_of_named named] at bounded ⊢
      refine .written (fun m => ?_) (written_put sound fair named bounded)
      simp only [Change.record, named]
  | setInt key value => exact .written (fun m => rfl) (written_setInt sound fair bounded)
  | presize positions => exact .migrated (fun m => rfl) (migrated_presizeArray sound fair bounded)
  | attach metatable mode =>
    have moved := migrated_attachMetatable sound fair metatable (.ofMode mode)
    refine .migrated (fun m => rfl) (moved.holding fair fun r member => mem_refs.mpr (.inl ?_))
    exact moved.attached.symm ▸ member

/-- Every change keeps the layout. -/
theorem Sound.perform {c : Change} (sound : t.Sound) (fair : live.Fair t.policy)
    (bounded : (c.perform live t).Bounded) : (c.perform live t).Sound := by
  cases effect_perform sound fair bounded with
  | written _ written => exact written.sound
  | migrated _ moved => exact moved.sound

/-- What a change does to the pairs is what is recorded. Claims can be made about whatever is alive
at the end for the running operation. -/
theorem Tracks.perform {c : Change} (tracks : Tracks claimed t m) (sound : t.Sound)
    (fair : live.Fair t.policy) (bounded : (c.perform live t).Bounded)
    (spared : ∀ k v, claimed k v →
      t.policy.Spares (live.holding c.refs (c.perform live t).refs) k v) :
    Tracks claimed (c.perform live t) (c.record m) := by
  cases effect_perform sound fair bounded with
  | written recorded written =>
    rw [recorded]
    exact written.tracks tracks spared
  | migrated recorded moved =>
    rw [recorded]
    exact moved.tracks tracks spared

/-- Only another metatable can change the policy. -/
theorem policy_perform {c : Change} (sound : t.Sound) (fair : live.Fair t.policy)
    (bounded : (c.perform live t).Bounded) : (c.perform live t).policy = match c with
      | .attach _ mode => .ofMode mode
      | _ => t.policy := by
  cases c with
  | set key value =>
    cases named : key.toKey? with
    | none => rw [perform_set_of_invalid named]
    | some k =>
      rw [perform_set_of_named named] at bounded ⊢
      exact (written_put sound fair named bounded).ruled
  | setInt key value => exact (written_setInt sound fair bounded).ruled
  | presize positions => exact (migrated_presizeArray sound fair bounded).ruled
  | attach metatable mode =>
    exact (migrated_attachMetatable sound fair metatable (.ofMode mode)).ruled

end Table

end HybridTable
