import HybridTable.Table.Construct
import HybridTable.Proofs.KeyIdentity

/-! What is stored and what can be read of it. A cell, an entry or a piece that moves has a key and
a value for good; only whether both can be read depends on what is alive. Reading is described here
by that one condition, so that later arguments about contents need not look into weak cells.

`Lawful` is what is assumed of an environment that reclaims: it spares what is held, and what it has
let go of does not come back when things that are alive anyway are held as well. -/
namespace HybridTable

/-- A judgement about what is alive that an environment can give which reclaims what nothing holds,
at whatever moment. -/
structure Liveness.Lawful (live : Liveness) : Prop where
  /-- What is held is not reclaimed. -/
  holds {held : List Ref} {r : Ref} : r ∈ held → live held r = true
  /-- To hold what is alive already brings nothing back. -/
  settled {held more : List Ref} {r : Ref} :
    (∀ m ∈ more, live held m = true) → live more r = true → live held r = true

namespace Liveness

variable {live : Liveness} {held more : List Ref}

/-- Whoever holds more keeps more alive. -/
theorem Lawful.mono (lawful : live.Lawful) (part : ∀ r ∈ held, r ∈ more) {r : Ref}
    (alive : live held r = true) : live more r = true :=
  lawful.settled (fun m member => lawful.holds (part m member)) alive

/-- A further holder does not change the kind of environment. -/
theorem Lawful.holding (lawful : live.Lawful) (refs : List Ref) : (live.holding refs).Lawful where
  holds member := lawful.holds (List.mem_append_right _ member)
  settled := by
    intro held more r settled alive
    refine lawful.settled (fun m member => ?_) alive
    rcases List.mem_append.mp member with own | other
    · exact lawful.holds (List.mem_append_left _ own)
    · exact settled m other

theorem Lawful.of_holding (lawful : live.Lawful) {refs : List Ref} {r : Ref}
    (alive : live held r = true) : live.holding refs held r = true :=
  lawful.mono (fun _ => List.mem_append_right _) alive

/-- What a holder holds is alive for it. -/
theorem Lawful.held_alive (lawful : live.Lawful) {refs : List Ref} {r : Ref} (member : r ∈ refs) :
    live.holding refs held r = true :=
  lawful.holds (List.mem_append_left _ member)

end Liveness

theorem Table.nothingReclaimed_lawful : Table.nothingReclaimed.Lawful :=
  ⟨fun _ => rfl, fun _ _ => rfl⟩

/-- The judgement when these referents are all that others hold. -/
def Liveness.sparing (others : Ref → Bool) : Liveness := fun held r => held.contains r || others r

theorem Liveness.sparing_lawful (others : Ref → Bool) : (sparing others).Lawful where
  holds member := by simp [sparing, member]
  settled := by
    intro held more r settled alive
    rcases Bool.or_eq_true_iff.mp alive with member | spared
    · exact settled r (List.contains_iff_mem.mp member)
    · exact Bool.or_eq_true_iff.mpr (.inr spared)

namespace Cell

variable {alive alive' : Ref → Bool}

theorem read_eq (c : Cell) : c.read alive = if c.isAlive alive then some c.content else none := by
  cases c <;> rfl

theorem isAlive_mono {c : Cell} (more : ∀ r, alive r = true → alive' r = true)
    (readable : c.isAlive alive = true) : c.isAlive alive' = true := by
  cases c with
  | strong value => rfl
  | weak value =>
    cases found : value.ref? with
    | none => simp [isAlive, found]
    | some r =>
      simp only [isAlive, found, Option.all_some] at readable ⊢
      exact more r readable

/-- What a readable cell refers to is held by it or is alive. -/
theorem held_or_alive {c : Cell} (readable : c.isAlive alive = true) {r : Ref}
    (member : r ∈ c.content.refs) : r ∈ c.refs ∨ alive r = true := by
  cases c with
  | strong value => exact .inl member
  | weak value =>
    right
    have found : value.ref? = some r := by simpa [content, Value.refs] using member
    simpa [isAlive, found] using readable

/-- A cell holds nothing but what its value refers to. -/
theorem refs_subset (c : Cell) {r : Ref} (member : r ∈ c.refs) : r ∈ c.content.refs := by
  cases c with
  | strong value => exact member
  | weak value => cases member

end Cell

namespace WeakPolicy

@[simp] theorem content_cell (weakly : Bool) (v : Value) : (cell weakly v).content = v := by
  unfold cell
  split <;> rfl

@[simp] theorem content_valueCell (policy : WeakPolicy) (v : Value) :
    (policy.valueCell v).content = v := content_cell ..

@[simp] theorem content_keyCell (policy : WeakPolicy) (v : Value) :
    (policy.keyCell v).content = v := content_cell ..

/-- A policy only ever weakens objects, so a cell of anything else can always be read. -/
theorem isAlive_cell {alive : Ref → Bool} {weakly : Bool} {v : Value}
    (intact : v.isObject = true → ∀ r ∈ v.refs, alive r = true) :
    (cell weakly v).isAlive alive = true := by
  unfold cell
  split
  · rename_i weak
    rw [Bool.and_eq_true] at weak
    have alive := intact weak.2
    cases found : v.ref? with
    | none => simp [Cell.isAlive, found]
    | some r => simpa [Cell.isAlive, found, Value.refs] using alive
  · rfl

end WeakPolicy

namespace Entry

variable {alive alive' : Ref → Bool}

/-- The key that the entry is for, whether or not it can still be read. -/
def key : Entry → Value
  | plain key _ => key
  | guarded key _ => key.content

/-- The value that the entry was given, whether or not it can still be read. -/
def value : Entry → Value
  | plain _ value => value
  | guarded _ value => value.content

@[simp] theorem keyHash_eq [Hashing] (e : Entry) : e.keyHash = e.key.keyHash := by cases e <;> rfl

@[simp] theorem key_make (policy : WeakPolicy) (key value : Value) :
    (make policy key value).key = key := by
  have content := policy.content_keyCell key
  unfold make
  split
  · rename_i found _
    rw [found] at content
    exact content
  · exact content

@[simp] theorem value_make (policy : WeakPolicy) (key value : Value) :
    (make policy key value).value = value := by
  have content := policy.content_valueCell value
  unfold make
  split
  · rename_i found
    rw [found] at content
    exact content
  · exact content

@[simp] theorem key_replace (policy : WeakPolicy) (value : Value) (e : Entry) :
    (e.replace policy value).key = e.key := by
  cases e with
  | plain key old => exact key_make policy key value
  | guarded key old => rfl

@[simp] theorem value_replace (policy : WeakPolicy) (value : Value) (e : Entry) :
    (e.replace policy value).value = value := by
  cases e with
  | plain key old => exact value_make policy key value
  | guarded key old => exact policy.content_valueCell value

/-- Once the key can be read, the value can be read exactly if the pair can. -/
theorem value?_eq {e : Entry} (readable : e.keyIsAlive alive = true) :
    e.value? alive = if e.isAlive alive then some e.value else none := by
  cases e with
  | plain key value => rfl
  | guarded key value =>
    simp only [keyIsAlive] at readable
    simp only [value?, isAlive, Entry.value, readable, Bool.true_and]
    exact value.read_eq

theorem keyIsAlive_of_isAlive {e : Entry} (readable : e.isAlive alive = true) :
    e.keyIsAlive alive = true := by
  cases e with
  | plain key value => rfl
  | guarded key value =>
    simp only [isAlive, Bool.and_eq_true] at readable
    exact readable.1

theorem pair?_eq (e : Entry) :
    e.pair? alive = if e.isAlive alive then some (e.key, e.value) else none := by
  cases e with
  | plain key value => rfl
  | guarded key value =>
    simp only [pair?, key?, value?, isAlive, Entry.key, Entry.value, Cell.read_eq]
    by_cases first : key.isAlive alive = true <;> by_cases second : value.isAlive alive = true <;>
      simp [first, second]

theorem isAlive_mono {e : Entry} (more : ∀ r, alive r = true → alive' r = true)
    (readable : e.isAlive alive = true) : e.isAlive alive' = true := by
  cases e with
  | plain key value => rfl
  | guarded key value =>
    simp only [isAlive, Bool.and_eq_true] at readable ⊢
    exact ⟨key.isAlive_mono more readable.1, value.isAlive_mono more readable.2⟩

/-- What a readable entry refers to is held by it or is alive. -/
theorem held_or_alive {e : Entry} (readable : e.isAlive alive = true) {r : Ref}
    (member : r ∈ e.key.refs ++ e.value.refs) : r ∈ e.refs ∨ alive r = true := by
  cases e with
  | plain key value => exact .inl member
  | guarded key value =>
    simp only [isAlive, Bool.and_eq_true] at readable
    rcases List.mem_append.mp member with own | other
    · exact (key.held_or_alive readable.1 own).imp_left (List.mem_append_left _)
    · exact (value.held_or_alive readable.2 other).imp_left (List.mem_append_right _)

theorem refs_subset (e : Entry) {r : Ref} (member : r ∈ e.refs) :
    r ∈ e.key.refs ++ e.value.refs := by
  cases e with
  | plain key value => exact member
  | guarded key value =>
    rcases List.mem_append.mp member with own | other
    · exact List.mem_append_left _ (key.refs_subset own)
    · exact List.mem_append_right _ (value.refs_subset other)

theorem keyIsAlive_of_hasKey {e : Entry} {key : Value} (found : e.hasKey alive key = true) :
    e.keyIsAlive alive = true := by
  cases e with
  | plain own value => rfl
  | guarded own value =>
    simp only [hasKey, Cell.holdsKey, Cell.read_eq] at found
    cases readable : own.isAlive alive with
    | true => exact readable
    | false => simp [readable] at found

/-- An entry is found only under its own key. -/
theorem toKey?_of_hasKey {e : Entry} {key : Value} (named : e.key.toKey? ≠ none)
    (found : e.hasKey alive key = true) : key.toKey? = e.key.toKey? := by
  obtain ⟨k, spelled⟩ := Option.ne_none_iff_exists'.mp named
  rw [spelled]
  cases e with
  | plain own value =>
    cases own with
    | int i =>
      have same : key = .int i := by simpa [hasKey] using found
      rw [same]
      exact spelled
    | _ => exact (Value.rawEqual_iff spelled).mp found
  | guarded own value =>
    simp only [hasKey, Cell.holdsKey, Cell.read_eq] at found
    split at found
    · exact (Value.rawEqual_iff spelled).mp found
    · simp at found

/-- As long as its key can be read, an entry is found under every spelling in normal form. -/
theorem hasKey_of_toKey? {e : Entry} {key : Value} (normal : key.IsNormal)
    (named : e.key.toKey? ≠ none) (same : key.toKey? = e.key.toKey?)
    (readable : e.keyIsAlive alive = true) : e.hasKey alive key = true := by
  obtain ⟨k, spelled⟩ := Option.ne_none_iff_exists'.mp named
  have compared : e.key.rawEqual key = true := (Value.rawEqual_iff spelled).mpr (same.trans spelled)
  cases e with
  | plain own value =>
    cases own with
    | int i =>
      have same := Value.eq_int_of_normal normal same
      simp [hasKey, same]
    | _ => exact compared
  | guarded own value =>
    simp only [keyIsAlive] at readable
    simp only [hasKey, Cell.holdsKey, Cell.read_eq, readable]
    exact compared

end Entry

namespace WeakPolicy

variable {policy : WeakPolicy} {alive : Ref → Bool}

/-- Whatever a table with this policy holds weakly of a pair is alive. -/
structure Spares (policy : WeakPolicy) (alive : Ref → Bool) (k : Key) (v : Value) : Prop where
  /-- A weak key is alive. -/
  key : policy.keys = true → ∀ r ∈ k.ref?, alive r = true
  /-- A weak value is alive. -/
  value : policy.values = true → v.isObject = true → ∀ r ∈ v.refs, alive r = true

/-- Without weak halves there is nothing to lose. -/
theorem spares_allStrong (alive : Ref → Bool) (k : Key) (v : Value) : allStrong.Spares alive k v :=
  ⟨nofun, nofun⟩

theorem isAlive_valueCell_iff {v : Value} : (policy.valueCell v).isAlive alive = true ↔
    (policy.values = true → v.isObject = true → ∀ r ∈ v.refs, alive r = true) := by
  constructor
  · intro readable weak object r member
    have found : v.ref? = some r := by simpa [Value.refs] using member
    simpa [valueCell, cell, weak, object, Cell.isAlive, found] using readable
  · intro intact
    by_cases weak : policy.values = true
    · exact isAlive_cell (intact weak)
    · simp [valueCell, cell, weak, Cell.isAlive]

theorem isAlive_keyCell_iff {v : Value} {k : Key} (named : v.toKey? = some k) :
    (policy.keyCell v).isAlive alive = true ↔
      (policy.keys = true → ∀ r ∈ k.ref?, alive r = true) := by
  constructor
  · intro readable weak r member
    have object := Value.isObject_of_ref? named member
    have found : v.ref? = some r := (Value.ref?_of_isObject object named).trans member
    simpa [keyCell, cell, weak, object, Cell.isAlive, found] using readable
  · intro intact
    by_cases weak : policy.keys = true
    · refine isAlive_cell fun object r member => intact weak r ?_
      rw [← Value.ref?_of_isObject object named]
      simpa [Value.refs] using member
    · simp [keyCell, cell, weak, Cell.isAlive]

end WeakPolicy

namespace Entry

variable {policy : WeakPolicy} {alive : Ref → Bool} {e : Entry} {k : Key}

/-- Being exactly as weak as a policy asks for. A guarded entry may well have no weak half, but what
is to be weak is never in a plain one. -/
def Fitted (policy : WeakPolicy) : Entry → Prop
  | plain key value => policy.keyCell key = .strong key ∧ policy.valueCell value = .strong value
  | guarded key value =>
    key = policy.keyCell key.content ∧ value = policy.valueCell value.content

theorem fitted_make (policy : WeakPolicy) (key value : Value) :
    (make policy key value).Fitted policy := by
  have keyContent := policy.content_keyCell key
  have valueContent := policy.content_valueCell value
  unfold make
  split
  · rename_i keyFound valueFound
    rw [keyFound] at keyContent
    rw [valueFound] at valueContent
    cases keyContent
    cases valueContent
    exact ⟨keyFound, valueFound⟩
  · exact ⟨by rw [keyContent], by rw [valueContent]⟩

theorem Fitted.replace (fitted : e.Fitted policy) (value : Value) :
    (e.replace policy value).Fitted policy := by
  cases e with
  | plain key old => exact fitted_make policy key value
  | guarded key old => exact ⟨fitted.1, by rw [policy.content_valueCell]⟩

theorem Fitted.keyIsAlive_iff (fitted : e.Fitted policy) (named : e.key.toKey? = some k) :
    e.keyIsAlive alive = true ↔ (policy.keys = true → ∀ r ∈ k.ref?, alive r = true) := by
  rw [← WeakPolicy.isAlive_keyCell_iff named]
  cases e with
  | plain key value => simp only [keyIsAlive, Entry.key, fitted.1, Cell.isAlive]
  | guarded key value => rw [keyIsAlive, Entry.key, ← fitted.1]

/-- An entry can be read as long as its key and its value are spared. -/
theorem Fitted.isAlive_iff (fitted : e.Fitted policy) (named : e.key.toKey? = some k) :
    e.isAlive alive = true ↔ policy.Spares alive k e.value := by
  have whole : policy.Spares alive k e.value ↔
      (policy.keyCell e.key).isAlive alive = true ∧
        (policy.valueCell e.value).isAlive alive = true := by
    rw [WeakPolicy.isAlive_keyCell_iff named, WeakPolicy.isAlive_valueCell_iff]
    exact ⟨fun spared => ⟨spared.key, spared.value⟩, fun parts => ⟨parts.1, parts.2⟩⟩
  rw [whole]
  cases e with
  | plain key value => simp only [isAlive, Entry.key, Entry.value, fitted.1, fitted.2, Cell.isAlive,
      and_self]
  | guarded key value => rw [isAlive, Bool.and_eq_true, Entry.key, Entry.value, ← fitted.1,
      ← fitted.2]

end Entry

namespace Liveness

variable {live : Liveness} {policy : WeakPolicy} {k : Key}

/-- The environment is lawful, or else the policy leaves it nothing to reclaim. -/
def Fair (live : Liveness) (policy : WeakPolicy) : Prop := policy = .allStrong ∨ live.Lawful

theorem Fair.holding (fair : live.Fair policy) (refs : List Ref) :
    (live.holding refs).Fair policy :=
  fair.imp_right (·.holding refs)

/-- Some referents are alive whatever else is held, if that matters. -/
def Holds (live : Liveness) (policy : WeakPolicy) (refs : List Ref) : Prop :=
  policy = .allStrong ∨ ∀ held, ∀ r ∈ refs, live held r = true

/-- An operation holds its arguments. -/
theorem Fair.holds (fair : live.Fair policy) (refs : List Ref) :
    (live.holding refs).Holds policy refs :=
  fair.imp_right fun lawful _ _ => lawful.held_alive

/-- A key that is held can be recognized. -/
theorem Holds.key {key : Value} {refs : List Ref} (holds : live.Holds policy refs)
    (named : key.toKey? = some k) (part : ∀ r ∈ key.refs, r ∈ refs) (held : List Ref) :
    policy.keys = true → ∀ r ∈ k.ref?, live held r = true := by
  intro weak r member
  rcases holds with rfl | holds
  · cases weak
  · have object := Value.isObject_of_ref? named member
    have found : key.ref? = some r := (Value.ref?_of_isObject object named).trans member
    exact holds held r (part r (by simp [Value.refs, found]))

/-- What was lost stays lost, when nothing is held that was not alive at the time. -/
theorem Fair.spares_earlier (fair : live.Fair policy) {held more : List Ref} {v : Value}
    (settled : policy = .allStrong ∨ ∀ r ∈ more, live held r = true)
    (spared : policy.Spares (live more) k v) : policy.Spares (live held) k v := by
  rcases fair with rfl | lawful
  · exact WeakPolicy.spares_allStrong ..
  · rcases settled with rfl | settled
    · exact WeakPolicy.spares_allStrong ..
    · exact ⟨fun weak r member => lawful.settled settled (spared.key weak r member),
        fun weak object r member => lawful.settled settled (spared.value weak object r member)⟩

end Liveness

end HybridTable
