import HybridTable.Proofs.FiniteMap
import HybridTable.Proofs.Places

/-! A table in an environment that reclaims. Whatever the policies have been and however writes,
growth and reclamation followed on each other, the pairs that can be read are the last writes of
which neither half was reclaimed since. Pairs that lost a half may linger in the storage or be swept
from it; nothing that is read depends on that. -/
namespace HybridTable

/-- Neither half of a pair was reclaimed. -/
structure Intact (alive : Ref → Bool) (k : Key) (v : Value) : Prop where
  /-- The key is alive. -/
  key : ∀ r ∈ k.ref?, alive r = true
  /-- The value is alive. -/
  value : ∀ r ∈ v.refs, alive r = true

namespace Intact

variable {alive alive' : Ref → Bool} {k : Key} {v : Value}

theorem mono (intact : Intact alive k v) (more : ∀ r, alive r = true → alive' r = true) :
    Intact alive' k v :=
  ⟨fun r member => more r (intact.key r member), fun r member => more r (intact.value r member)⟩

/-- What is intact is spared under every policy. -/
theorem spares (intact : Intact alive k v) (policy : WeakPolicy) : policy.Spares alive k v :=
  ⟨fun _ => intact.key, fun _ _ => intact.value⟩

end Intact

namespace Contents

/-- Nothing is recorded as `nil`. -/
def Valued (m : Contents) : Prop := ∀ k, m.lookup k ≠ some .nil

theorem Valued.write {m : Contents} (valued : m.Valued) (k : Key) (v : Value) :
    (m.write k v).Valued := by
  intro other
  by_cases same : other = k
  · subst same
    rw [lookup_write_same]
    split
    · nofun
    · rename_i some_value
      exact fun none => some_value (Option.some.inj none)
  · rw [lookup_write_other m v same]
    exact valued other

theorem Valued.record {m : Contents} (valued : m.Valued) (c : Change) : (c.record m).Valued := by
  cases c with
  | set key value =>
    cases named : key.toKey? with
    | some k => simpa only [Change.record, named] using valued.write k value
    | none => simpa only [Change.record, named] using valued
  | setInt key value => exact valued.write (.int key) value
  | presize | attach => exact valued

end Contents

namespace Table

variable [Hashing]

/-- A table at a moment, the last writes to it, and what has not been reclaimed. What the table
holds is not reclaimed, nor is what the caller of a change holds while it is made, and what was
reclaimed does not come back. How a change judges what is alive is up to the environment, which only
does not take for reclaimed what is alive even afterwards. -/
inductive Moment : Table → Contents → (Ref → Bool) → Prop
  /-- A new table. -/
  | made {origin : Origin} {t : Table} {alive : Ref → Bool} (inside : origin.Bounded)
    (built : origin.build = .ok t) (held : ∀ r ∈ t.refs, alive r = true) :
    Moment t origin.contents alive
  /-- Something is reclaimed. -/
  | reclaimed {t : Table} {m : Contents} {alive alive' : Ref → Bool} (earlier : Moment t m alive)
    (gone : ∀ r, alive' r = true → alive r = true) (held : ∀ r ∈ t.refs, alive' r = true) :
    Moment t m alive'
  /-- A change is made, in the course of which something may be reclaimed. -/
  | changed {t : Table} {m : Contents} {alive alive' : Ref → Bool} {live : Liveness} {c : Change}
    (earlier : Moment t m alive) (lawful : live.Lawful) (given : ∀ r ∈ c.refs, alive r = true)
    (bounded : (c.perform live t).Bounded) (gone : ∀ r, alive' r = true → alive r = true)
    (spared : ∀ r, alive' r = true → live (c.refs ++ (c.perform live t).refs) r = true)
    (held : ∀ r ∈ (c.perform live t).refs, alive' r = true) :
    Moment (c.perform live t) (c.record m) alive'

variable {t : Table} {m : Contents} {alive : Ref → Bool} {k : Key} {v : Value}

/-- A stored pair that can be read is intact: what is not weak in it is held by the table. -/
theorem Sound.intact (sound : t.Sound) (held : ∀ r ∈ t.refs, alive r = true)
    (stored : t.Stores k v) (spared : t.policy.Spares alive k v) : Intact alive k v := by
  cases stored with
  | @cell position c used =>
    have readable : c.isAlive alive = true := by
      rw [(sound.cells position c used).1, WeakPolicy.isAlive_valueCell_iff]
      exact spared.value
    refine ⟨nofun, fun r member => ?_⟩
    rcases Cell.held_or_alive readable member with own | alive
    · exact held r (mem_refs.mpr (.inr (.inl ⟨position, c, used, own⟩)))
    · exact alive
  | @entry bucket e k member named =>
    have readable := (((sound.slots bucket _ member).fitted e rfl).isAlive_iff named).mpr spared
    have intact : ∀ r ∈ e.key.refs ++ e.value.refs, alive r = true := by
      intro r part
      rcases Entry.held_or_alive readable part with own | alive
      · exact held r (mem_refs.mpr (.inr (.inr ⟨bucket, _, member, own⟩)))
      · exact alive
    refine ⟨fun r own => intact r (List.mem_append_left _ ?_),
      fun r own => intact r (List.mem_append_right _ own)⟩
    have object := Value.isObject_of_ref? named own
    have found : e.key.ref? = some r := (Value.ref?_of_isObject object named).trans own
    simp [Value.refs, found]

/-- At every moment the layout is sound, what the table holds is alive, and the pairs that are
stored are the last writes, except that some which lost a half are no longer there. -/
theorem Moment.invariant (moment : Moment t m alive) :
    t.Sound ∧ (∀ r ∈ t.refs, alive r = true) ∧ Tracks (Intact alive) t m ∧ m.Valued := by
  induction moment with
  | made inside built held =>
    have represents := (represents_build inside built).1
    exact ⟨represents.sound, held, represents.tracks _, represents.ne_nil⟩
  | reclaimed _ gone held ih =>
    exact ⟨ih.1, held, ih.2.2.1.weaken fun k v intact => intact.mono gone, ih.2.2.2⟩
  | @changed t m alive alive' live c _ lawful given bounded gone spared held ih =>
    obtain ⟨sound, _, tracks, valued⟩ := ih
    refine ⟨sound.perform (.inr lawful) bounded, held, ?_, valued.record c⟩
    refine (tracks.weaken fun k v intact => intact.mono gone).perform sound (.inr lawful) bounded ?_
    exact fun k v intact => (intact.mono spared).spares _

/-- In a weak table, a key is read as a value exactly if that was last written under it and neither
the key nor the value has been reclaimed since. A traversal gives such pairs only, whatever key it
goes on from. -/
theorem reads_last_intact_write (moment : Moment t m alive) :
    (∀ k, m.lookup k ≠ some .nil) ∧
      (∀ key v, t.get alive key = some v ↔
        ∃ k, key.toKey? = some k ∧ m.lookup k = some v ∧ Intact alive k v) ∧
      ∀ from_key key v, t.next alive from_key = .ok (some (key, v)) →
        ∃ k, key.toKey? = some k ∧ m.lookup k = some v ∧ Intact alive k v := by
  obtain ⟨sound, held, tracks, valued⟩ := moment.invariant
  have reads (key v : Value) : t.get alive key = some v ↔
      ∃ k, key.toKey? = some k ∧ m.lookup k = some v ∧ Intact alive k v := by
    rw [sound.get_eq_some_iff]
    constructor
    · rintro ⟨k, named, stored, spared⟩
      exact ⟨k, named, tracks.recorded k v stored, sound.intact held stored spared⟩
    · rintro ⟨k, named, written, intact⟩
      exact ⟨k, named, tracks.kept k v written intact, intact.spares t.policy⟩
  exact ⟨valued, reads, fun from_key key v found =>
    (reads key v).mp (get_of_mem_readings sound (mem_readings_of_next found))⟩

/-- As long as nothing is reclaimed, changes follow one another. -/
theorem Moment.after {changes : List Change} (moment : Moment t m fun _ => true)
    (bounded : ∀ done, done <+: changes.map (nothingReclaimed, ·) → (t.after done).Bounded) :
    Moment (t.after (changes.map (nothingReclaimed, ·))) (m.after changes) fun _ => true := by
  induction changes generalizing t m with
  | nil => exact moment
  | cons c rest ih =>
    obtain ⟨first, others⟩ := bounded_cons bounded
    refine ih (moment.changed nothingReclaimed_lawful ?_ first ?_ ?_ ?_) others <;>
      exact fun _ _ => rfl

omit [Hashing] in
/-- Of two values that are held weakly one is reclaimed. The write of another key sweeps that pair
and keeps the other. -/
theorem reads_after_reclamation :
    let a : Value := .text (.short "a")
    let b : Value := .text (.short "b")
    let changes : List Change := [.attach none (some (.text (.short "v"))), .set a (.table 5),
      .set b (.table 6)]
    let earlier := @after .uniform .empty (changes.map (nothingReclaimed, ·))
    let alive : Ref → Bool := fun r => r != 5
    let now := @Change.perform .uniform (.sparing alive) earlier (.setInt 1 (.int 10))
    let contents := (Contents.after ∅ changes).write (.int 1) (.int 10)
    @Moment .uniform now contents alive ∧ @get .uniform now alive b = some (.table 6) ∧
      contents.lookup (.text "a") = some (.table 5) ∧
      @get .uniform now alive a ≠ some (.table 5) := by
  intro a b changes earlier alive now contents
  have bounded : ∀ done ∈ (changes.map (nothingReclaimed, ·)).inits,
      (@after .uniform .empty done).Bounded := by
    decide +kernel
  have inside : now.Bounded := by decide +kernel
  have held : (∀ r ∈ earlier.refs, alive r = true) ∧ ∀ r ∈ now.refs, alive r = true := by
    decide +kernel
  have found : contents.lookup (.text "b") = some (.table 6) ∧
      contents.lookup (.text "a") = some (.table 5) := by decide +kernel
  let hashing : Hashing := .uniform
  have made : Moment .empty ∅ fun _ => true :=
    .made (show Origin.empty.Bounded by decide) rfl fun _ _ => rfl
  have before : Moment earlier (Contents.after ∅ changes) fun _ => true :=
    made.after fun done begun => bounded done ((List.mem_inits done _).mpr begun)
  have lost : Moment earlier (Contents.after ∅ changes) alive :=
    before.reclaimed (fun _ _ => rfl) held.1
  have moment : Moment now contents alive :=
    lost.changed (Liveness.sparing_lawful alive) nofun inside (fun _ spared => spared)
      (fun r spared => Bool.or_eq_true_iff.mpr (.inr spared)) held.2
  have reads := (reads_last_intact_write moment).2.1
  refine ⟨moment, (reads b _).mpr ⟨.text "b", rfl, found.1, nofun, ?_⟩, found.2, fun read => ?_⟩
  · intro r member
    cases List.mem_singleton.mp member
    rfl
  · obtain ⟨k, _, _, intact⟩ := (reads a _).mp read
    have := intact.value 5 List.mem_cons_self
    cases this

end Table

end HybridTable
