import HybridTable.Proofs.Places
import HybridTable.Proofs.Placement

/-! Storage up to the spelling of keys. A string may have many referents and a function many names,
so one key has many spellings, and which of them is stored depends on who wrote it. `canonical`
gives a key one spelling, which needs no referent but that of the object which the key is. Searching
a chain commutes with it, except that a tombstone which lost its key is not found. -/
namespace HybridTable

/-- One value that spells a key. -/
def Key.spelling : Key → Value
  | .bool b => .bool b
  | .int i => .int i
  | .float x => .float x
  | .text content => .text (.short content)
  | .table ref => .table ref
  | .function ref => .function ⟨ref, ""⟩
  | .userdata ref => .userdata ref
  | .thread ref => .thread ref

namespace Value

/-- One spelling for all that is the same key; what cannot be a key stays as it is. -/
def canonical (v : Value) : Value :=
  match v.toKey? with
  | some k => k.spelling
  | none => v

variable {v : Value} {k : Key}

theorem canonical_of_named (named : v.toKey? = some k) : v.canonical = k.spelling := by
  simp only [canonical, named]

theorem canonical_of_invalid (invalid : v.toKey? = none) : v.canonical = v := by
  simp only [canonical, invalid]

/-- A float that spells no key is no integer. -/
theorem fractional_of_invalid {x : Binary64} (invalid : (float x).toKey? = none) :
    x.toInt64? = none := by
  cases integral : x.toInt64? with
  | none => rfl
  | some i => rw [toKey?_integral integral] at invalid; cases invalid

@[simp] theorem toKey?_canonical (v : Value) : v.canonical.toKey? = v.toKey? := by
  cases named : v.toKey? with
  | none => rw [canonical_of_invalid named, named]
  | some k =>
    rw [canonical_of_named named]
    cases v with
    | nil => cases named
    | float x =>
      rcases number_of_float named with rfl | ⟨i, rfl⟩
      · exact named
      · rfl
    | _ => cases named; rfl

theorem isNormal_canonical (v : Value) : v.canonical.IsNormal := by
  cases v with
  | float x =>
    cases named : (float x).toKey? with
    | none =>
      rw [canonical_of_invalid named]
      simp only [IsNormal, normalize, fractional_of_invalid named]
    | some k =>
      rw [canonical_of_named named]
      rcases number_of_float named with rfl | ⟨i, rfl⟩
      · simp only [Key.spelling, IsNormal, normalize, (float_float_iff.mp named).2.1]
      · rfl
  | _ => rfl

theorem canonical_normalize (v : Value) : v.normalize.canonical = v.canonical := by
  cases named : v.toKey? with
  | some k => rw [canonical_of_named named, canonical_of_named (v.toKey?_normalize.trans named)]
  | none =>
    cases v with
    | float x => simp only [normalize, fractional_of_invalid named]
    | _ => rfl

theorem keyHash_canonical [Hashing] (normal : v.IsNormal) (named : v.toKey? ≠ none) :
    v.canonical.keyHash = v.keyHash := by
  obtain ⟨k, spelled⟩ := Option.ne_none_iff_exists'.mp named
  rw [keyHash_eq normal spelled,
    keyHash_eq v.isNormal_canonical (v.toKey?_canonical.trans spelled)]

/-- In normal form only integers are spelled like integers. -/
theorem canonical_eq_int_iff (normal : v.IsNormal) {i : Int64} :
    v.canonical = .int i ↔ v = .int i := by
  constructor
  · intro same
    refine eq_int_of_normal normal ?_
    rw [← toKey?_canonical, same]
    rfl
  · rintro rfl
    rfl

end Value

/-- The entry with another spelling of its key, and with nothing weak. -/
def Entry.canonical (e : Entry) : Entry := .plain e.key.canonical e.value

namespace Slot

/-- The slot with another spelling of its key. -/
def canonical : Slot → Slot
  | live e => .live e.canonical
  | dead own => .dead (.forTombstone own.content.canonical)

/-- Whether the key can be told from others. -/
def isRecognizable (alive : Ref → Bool) : Slot → Bool
  | live e => e.keyIsAlive alive
  | dead own => own.isAlive alive

variable {alive : Ref → Bool} {s : Slot} {key : Value}

@[simp] theorem key_canonical (s : Slot) : s.canonical.key = s.key.canonical := by
  cases s with
  | live e => rfl
  | dead own => exact Cell.content_forTombstone _

@[simp] theorem isDead_canonical (s : Slot) : s.canonical.isDead = s.isDead := by cases s <;> rfl

/-- A slot is found under the spellings of its key, if that can be told from others. -/
theorem hasKey_iff (named : s.key.toKey? ≠ none) (normal : key.IsNormal) :
    s.hasKey alive key = true ↔
      s.isRecognizable alive = true ∧ key.toKey? = s.key.toKey? := by
  cases s with
  | live e =>
    exact ⟨fun found => ⟨Entry.keyIsAlive_of_hasKey found, Entry.toKey?_of_hasKey named found⟩,
      fun ⟨readable, same⟩ => Entry.hasKey_of_toKey? normal named same readable⟩
  | dead own =>
    obtain ⟨k, spelled⟩ := Option.ne_none_iff_exists'.mp named
    simp only [hasKey, Cell.holdsKey, Cell.read_eq, isRecognizable]
    cases own.isAlive alive with
    | true =>
      simp only [↓reduceIte, Option.any_some, true_and, spelled]
      exact Value.rawEqual_iff spelled
    | false => simp

/-- Under another spelling the same slots are found. -/
theorem hasKey_canonical (named : s.key.toKey? ≠ none) (normal : key.IsNormal)
    (recognizable : key.toKey? = s.key.toKey? → s.isRecognizable alive = true) :
    s.canonical.hasKey (fun _ => true) key.canonical = s.hasKey alive key := by
  have all : s.canonical.isRecognizable (fun _ => true) = true := by
    cases s with
    | live e => rfl
    | dead own =>
      show (Cell.forTombstone own.content.canonical).isAlive (fun _ => true) = true
      exact Cell.isAlive_of_refs fun _ _ => rfl
  have named' : s.canonical.key.toKey? ≠ none := by simpa using named
  rw [Bool.eq_iff_iff, hasKey_iff named' key.isNormal_canonical, hasKey_iff named normal,
    key_canonical, Value.toKey?_canonical, Value.toKey?_canonical]
  exact ⟨fun ⟨_, same⟩ => ⟨recognizable same, same⟩, fun ⟨_, same⟩ => ⟨all, same⟩⟩

end Slot

namespace Chain

/-- The chain with other spellings of its keys. -/
def canonical (chain : Chain) : Chain := chain.map Slot.canonical

/-- Being a chain in which no entry can lose anything. -/
def Firm (chain : Chain) : Prop := ∀ e, .live e ∈ chain → ∀ alive, e.isAlive alive = true

variable {alive : Ref → Bool} {chain : Chain} {key : Value}

@[simp] theorem canonical_append (a b : Chain) :
    canonical (a ++ b) = a.canonical ++ b.canonical := List.map_append

@[simp] theorem canonical_cons (s : Slot) (chain : Chain) :
    canonical (s :: chain) = s.canonical :: chain.canonical := rfl

@[simp] theorem entryCount_canonical (chain : Chain) :
    chain.canonical.entryCount = chain.entryCount := by
  unfold entryCount canonical
  rw [List.countP_map]
  exact List.countP_congr fun s _ => by simp

theorem Distinct.canonical (distinct : chain.Distinct) : chain.canonical.Distinct :=
  distinct.congr (by simp [Chain.canonical, Function.comp_def])

/-- Pruning a chain in which nothing can be lost takes the tombstones out. -/
theorem Firm.prune_eq (firm : chain.Firm) (live : Liveness) :
    chain.prune live = chain.filter (!·.isDead) := by
  induction chain generalizing live with
  | nil => rfl
  | cons s rest ih =>
    have restFirm : Firm rest := fun e member => firm e (List.mem_cons_of_mem s member)
    unfold prune
    cases s with
    | live e =>
      have readable (alive : Ref → Bool) : (Slot.live e).isAlive alive = true :=
        firm e List.mem_cons_self alive
      rw [if_pos (readable _), ih restFirm]
      rfl
    | dead own =>
      rw [if_neg (by simp [Slot.isAlive]), ih restFirm]
      rfl

theorem Firm.canonical (chain : Chain) : chain.canonical.Firm := by
  intro e member alive
  obtain ⟨s, _, same⟩ := List.mem_map.mp member
  cases s <;> cases same
  rfl

theorem Firm.canonical_prune (firm : chain.Firm) (live : Liveness) :
    (chain.prune live).canonical = chain.canonical.prune Table.nothingReclaimed := by
  rw [firm.prune_eq, Firm.prune_eq (.canonical chain), Chain.canonical, Chain.canonical,
    List.filter_map]
  congr 1
  exact List.filter_congr fun s _ => by simp

/-- The slots after that of a key. -/
theorem after?_canonical (named : chain.Named) (normal : key.IsNormal)
    (recognizable : ∀ s ∈ chain, key.toKey? = s.key.toKey? → s.isRecognizable alive = true) :
    chain.canonical.after? (fun _ => true) key.canonical =
      (chain.after? alive key).map canonical := by
  induction chain with
  | nil => rfl
  | cons s rest ih =>
    have ih := ih (fun other member => named other (List.mem_cons_of_mem s member))
      fun other member => recognizable other (List.mem_cons_of_mem s member)
    simp only [canonical_cons, after?, Slot.hasKey_canonical (named s List.mem_cons_self) normal
      (recognizable s List.mem_cons_self), ih]
    split <;> rfl

theorem amend?_of_absent {f : Entry → Slot} (named : chain.Named)
    (absent : ∀ s ∈ chain, s.key.toKey? ≠ key.toKey?) : chain.amend? alive key f = none := by
  refine Option.eq_none_iff_forall_ne_some.mpr fun amended found => ?_
  obtain ⟨before, e, after, rfl, _, spelled, _⟩ := amend?_eq_some named found
  exact absent (.live e) (by simp) spelled

/-- The entry of a key is amended, whether or not the keys of tombstones are lost: where one of them
was for the key, there is no entry for it. -/
theorem amend?_canonical {f g : Entry → Slot} (distinct : chain.Distinct) (named : chain.Named)
    (firm : chain.Firm) (normal : key.IsNormal) (alike : ∀ e, (f e).canonical = g e.canonical) :
    chain.canonical.amend? (fun _ => true) key.canonical g =
      (chain.amend? alive key f).map canonical := by
  induction chain with
  | nil => rfl
  | cons s rest ih =>
    obtain ⟨apart, restDistinct⟩ := List.pairwise_cons.mp distinct
    have restNamed : Named rest := fun other member => named other (List.mem_cons_of_mem s member)
    have ih := ih restDistinct restNamed fun e member => firm e (List.mem_cons_of_mem s member)
    have own := named s List.mem_cons_self
    by_cases recognizable : key.toKey? = s.key.toKey? → s.isRecognizable alive = true
    · simp only [canonical_cons, amend?, Slot.hasKey_canonical own normal recognizable, ih]
      cases s.hasKey alive key with
      | true =>
        cases s with
        | live e => exact congrArg some (congrArg (· :: canonical rest) (alike e).symm)
        | dead own => rfl
      | false => cases amend? alive key f rest <;> rfl
    · simp only [Classical.not_imp, Bool.not_eq_true] at recognizable
      obtain ⟨same, lost⟩ := recognizable
      have none : amend? alive key f rest = none :=
        amend?_of_absent restNamed fun other member again => apart other member
          (same.symm.trans again.symm)
      cases s with
      | live e =>
        have readable := Entry.keyIsAlive_of_isAlive (firm e List.mem_cons_self alive)
        rw [Slot.isRecognizable, readable] at lost
        cases lost
      | dead cell =>
        simp only [canonical_cons, Slot.canonical, amend?, none, ih]
        split <;> split <;> rfl

end Chain

namespace Moving

/-- The piece with another spelling of its key. -/
def canonical : Moving → Moving
  | cell n c => .cell n c
  | entry e => .entry e.canonical

variable {item : Moving} (proper : item.Proper .allStrong)
include proper

/-- Nothing strong is lost on the way. -/
theorem Proper.isAlive (alive : Ref → Bool) : item.isAlive alive = true := by
  obtain ⟨k, named⟩ := Option.ne_none_iff_exists'.mp proper.named
  exact (proper.isAlive_iff named).mpr (WeakPolicy.spares_allStrong ..)

omit proper in
@[simp] theorem key_canonical (item : Moving) : item.canonical.key = item.key.canonical := by
  cases item <;> rfl

omit proper in
@[simp] theorem value_canonical (item : Moving) : item.canonical.value = item.value := by
  cases item with
  | cell n c => rfl
  | entry e => exact (value_entry e).symm

theorem Proper.canonical : item.canonical.Proper .allStrong where
  named := by simpa using proper.named
  normal := by simpa using item.key.isNormal_canonical
  valued := by simpa using proper.valued
  inRange n c same := by
    cases item <;> cases same
    exact proper.inRange n c rfl
  fitted e same := by
    cases item <;> cases same
    exact ⟨rfl, rfl⟩

/-- Both spellings go to the array region or both do not. -/
theorem Proper.arrayKey?_canonical (limit : Nat) :
    item.canonical.arrayKey? limit = item.arrayKey? limit := by
  apply Option.ext
  intro n
  rw [proper.canonical.arrayKey?_eq_some_iff, proper.arrayKey?_eq_some_iff, key_canonical,
    Value.canonical_eq_int_iff proper.normal]

theorem Proper.countedKey?_canonical : item.canonical.countedKey? = item.countedKey? := by
  cases item with
  | cell n c => rfl
  | entry e => exact proper.arrayKey?_canonical maxArrayKey

omit proper in
theorem canonical_toEntry (item : Moving) (rebuild : Bool) :
    (item.toEntry .allStrong rebuild).canonical = item.canonical.toEntry .allStrong rebuild := by
  unfold Entry.canonical
  rw [key_toEntry, value_toEntry]
  cases item with
  | cell n c => rfl
  | entry e =>
    rw [value_entry]
    cases rebuild <;> rfl

end Moving

end HybridTable
