import HybridTable.Proofs.Reachable
import HybridTable.Proofs.SpelledTraversal

/-! Calls under other spellings of their keys. Primitively equal keys are interchangeable: two runs
of reads, writes and traversal steps on a strong table whose calls differ in the spelling of keys
give the same answers, up to the spelling of the keys that a traversal returns. There is one
exception. A tombstone takes the spelling of the key by which its pair was removed and does not keep
that alive, so once the string is reclaimed a traversal can no longer go on from its key, although
the caller may still hold an equal string. -/
namespace HybridTable

namespace Value

/-- Values that a caller may give for one another as keys. -/
def SameKey (a b : Value) : Prop := a = b ∨ a.rawEqual b = true

variable {a b : Value}

/-- Different values are the same key only if they can be one. -/
theorem SameKey.eq_or (same : a.SameKey b) :
    a = b ∨ ∃ k, a.toKey? = some k ∧ b.toKey? = some k := by
  rcases same with rfl | equal
  · exact .inl rfl
  · cases named : a.toKey? with
    | some k => exact .inr ⟨k, rfl, (rawEqual_iff named).mp equal⟩
    | none =>
      left
      cases a with
      | nil => cases b <;> first | rfl | cases equal
      | float x =>
        have fractional := fractional_of_invalid named
        have invalid : x.isNaN = true := by
          rw [toKey?_fractional fractional] at named
          split at named
          · assumption
          · cases named
        cases b with
        | float y => simp [rawEqual, Binary64.equal, invalid] at equal
        | int i => simp [rawEqual, fractional] at equal
        | _ => cases equal
      | _ => cases named

theorem SameKey.toKey? (same : a.SameKey b) : a.toKey? = b.toKey? := by
  rcases same.eq_or with rfl | ⟨k, first, second⟩
  · rfl
  · exact first.trans second.symm

theorem SameKey.eq_of_invalid (same : a.SameKey b) (invalid : a.toKey? = none) : a = b := by
  rcases same.eq_or with rfl | ⟨k, first, _⟩
  · rfl
  · rw [invalid] at first
    cases first

theorem SameKey.canonical (same : a.SameKey b) : a.canonical = b.canonical := by
  rcases same.eq_or with rfl | ⟨k, first, second⟩
  · rfl
  · rw [canonical_of_named first, canonical_of_named second]

theorem SameKey.normalize (same : a.SameKey b) : a.normalize.SameKey b.normalize := by
  rcases same.eq_or with rfl | ⟨k, first, second⟩
  · exact .inl rfl
  · exact .inr ((rawEqual_iff (a.toKey?_normalize.trans first)).mpr
      (b.toKey?_normalize.trans second))

end Value

/-! ## Calls and what they give back -/

/-- A call by which a caller reads or writes under a key. -/
inductive KeyCall where
  /-- A raw read. -/
  | get (key : Value)
  /-- A raw write; `nil` removes the key. -/
  | set (key value : Value)
  /-- A step of a traversal. -/
  | next (key : Value)

/-- What a call gives back. -/
inductive Reply where
  /-- The value that was read. -/
  | found (value : Option Value)
  /-- Whether the write was accepted. -/
  | stored (result : Except Error Unit)
  /-- The next pair. -/
  | pair (result : Except Error (Option (Value × Value)))
  deriving DecidableEq

/-- The same call under another spelling of its key. -/
inductive KeyCall.Alike : KeyCall → KeyCall → Prop
  /-- Reads. -/
  | get {key key' : Value} (same : key.SameKey key') : Alike (.get key) (.get key')
  /-- Writes of the same value. -/
  | set {key key' value : Value} (same : key.SameKey key') :
    Alike (.set key value) (.set key' value)
  /-- Steps of a traversal. -/
  | next {key key' : Value} (same : key.SameKey key') : Alike (.next key) (.next key')

/-- The same answer up to the spelling of keys that a traversal gives or refuses. -/
inductive Reply.Alike : Reply → Reply → Prop
  /-- The very value was read. -/
  | found {value : Option Value} : Alike (.found value) (.found value)
  /-- A write was accepted, or it was refused for one reason. -/
  | stored {result : Except Error Unit} : Alike (.stored result) (.stored result)
  /-- The traversal came to its end. -/
  | ended : Alike (.pair (.ok none)) (.pair (.ok none))
  /-- The traversal came to a key that has one value. -/
  | pair {k k' v : Value} (same : k.rawEqual k' = true) :
    Alike (.pair (.ok (some (k, v)))) (.pair (.ok (some (k', v))))
  /-- The traversal could not go on. -/
  | refused {key key' : Value} (same : key.SameKey key') :
    Alike (.pair (.error (.invalidIterationKey key))) (.pair (.error (.invalidIterationKey key')))

namespace KeyCall

variable [Hashing]

/-- The table after the call. -/
def perform (live : Liveness) (t : Table) : KeyCall → Table
  | set key value => (Change.set key value).perform live t
  | _ => t

/-- What the call gives back to a caller, who holds the key. -/
def reply (live : Liveness) (t : Table) : KeyCall → Reply
  | get key => .found (t.get (fun r => live (key.refs ++ t.refs) r) key)
  | set key value => .stored ((t.set live key value).map fun _ => ())
  | next key => .pair (t.next (fun r => live (key.refs ++ t.refs) r) key)

omit [Hashing] in
/-- If a traversal is to go on from a string, then what is left of a removed pair still has it. -/
def Recalls (live : Liveness) (t : Table) : KeyCall → Prop
  | next (.text s) => ∀ slot ∈ t.buckets.toList.flatten, slot.key.toKey? = some (.text s.content) →
    slot.isRecognizable (fun r => live ((Value.text s).refs ++ t.refs) r) = true
  | _ => True

end KeyCall

namespace Table

variable [Hashing]

/-- The answers to a sequence of calls, each made in its own environment. -/
def replies (t : Table) : List (Liveness × KeyCall) → List Reply
  | [] => []
  | (live, c) :: rest => c.reply live t :: (c.perform live t).replies rest

/-- A run in which the environments are lawful and the array region stays in its range, and in which
no traversal is to go on from a string whose place was forgotten. -/
inductive Runs : Table → List (Liveness × KeyCall) → Prop
  /-- No call is made. -/
  | nil {t : Table} : t.Runs []
  /-- A call is made before others. -/
  | cons {t : Table} {live : Liveness} {c : KeyCall} {rest : List (Liveness × KeyCall)}
    (lawful : live.Lawful) (bounded : (c.perform live t).Bounded) (recalls : c.Recalls live t)
    (others : (c.perform live t).Runs rest) : t.Runs ((live, c) :: rest)

end Table

/-! ## Tables that differ in the spelling of keys -/

namespace Table

variable [Hashing] {t t' : Table} {alive : Ref → Bool} {live : Liveness} {key value : Value}

omit [Hashing] in
theorem stores_canonical {k : Key} {v : Value} : t.canonical.Stores k v ↔ t.Stores k v := by
  rw [stores_iff_moving, stores_iff_moving, moving_canonical]
  simp [List.mem_map]

/-- Two strong tables that differ in the spelling of keys only. -/
structure Twins (t t' : Table) : Prop where
  /-- The layout is kept. -/
  sound : t.Sound
  /-- So it is in the other table. -/
  sound' : t'.Sound
  /-- Nothing is weak. -/
  strong : t.policy = .allStrong
  /-- Up to spelling there is no difference. -/
  spelled : t'.canonical = t.canonical

namespace Twins

variable {alive' : Ref → Bool} {live' : Liveness} {key' : Value} (twins : t.Twins t')
include twins

theorem strong' : t'.policy = .allStrong :=
  (congrArg Table.policy twins.spelled).trans twins.strong

theorem get (same : key.SameKey key') : t'.get alive' key' = t.get alive key := by
  apply Option.ext
  intro v
  have stores (k : Key) : t'.Stores k v ↔ t.Stores k v := by
    rw [← stores_canonical, twins.spelled, stores_canonical]
  simp only [twins.sound.get_eq_some_iff, twins.sound'.get_eq_some_iff, twins.strong,
    twins.strong', WeakPolicy.spares_allStrong, same.toKey?, stores]

theorem put (same : key.SameKey key') (some_key : key.toKey? ≠ none)
    (bounded : (t.put live key value).Bounded) :
    (t.put live key value).Twins (t'.put live' key' value) := by
  have some_key' : key'.toKey? ≠ none := same.toKey? ▸ some_key
  have spelled : (t'.put live' key' value).canonical = (t.put live key value).canonical := by
    rw [canonical_put twins.sound' twins.strong' some_key', twins.spelled, ← same.canonical,
      canonical_put twins.sound twins.strong some_key]
  have bounded' : (t'.put live' key' value).Bounded :=
    bounded.of_size (congrArg (·.array.size) spelled)
  obtain ⟨k, named⟩ := Option.ne_none_iff_exists'.mp some_key
  obtain ⟨k', named'⟩ := Option.ne_none_iff_exists'.mp some_key'
  have written : Written (live.holding (key.refs ++ value.refs)) t k value (t.put live key value) :=
    written_put twins.sound (.inl twins.strong) named bounded
  have written' : Written (live'.holding (key'.refs ++ value.refs)) t' k' value
      (t'.put live' key' value) :=
    written_put twins.sound' (.inl twins.strong') named' bounded'
  exact ⟨written.sound, written'.sound, written.ruled.trans twins.strong, spelled⟩

end Twins

/-- In a lawful environment a key that the caller holds can be told from others, unless it is a
string. -/
theorem recognizable_of_recalls (sound : t.Sound) (strong : t.policy = .allStrong)
    (lawful : live.Lawful) (recalls : (KeyCall.next key).Recalls live t) :
    ∀ s ∈ t.buckets.toList.flatten, key.toKey? = s.key.toKey? →
      s.isRecognizable (fun r => live (key.refs ++ t.refs) r) = true := by
  intro s listed same
  obtain ⟨bucket, member⟩ := mem_flatten_buckets.mp listed
  obtain ⟨k, named⟩ := Option.ne_none_iff_exists'.mp (sound.slots bucket s member).named
  cases s with
  | live e => exact Entry.keyIsAlive_of_isAlive (sound.firm strong bucket e member _)
  | dead own =>
    cases own with
    | strong value => rfl
    | weak value =>
      show value.ref?.all (fun r => live (key.refs ++ t.refs) r) = true
      have spelled : key.toKey? = some k := same.trans named
      have known : value.toKey? = some k := named
      by_cases object : value.isObject = true
      · -- the key is the same object, which the caller holds
        cases found : value.ref? with
        | none => rfl
        | some r =>
          have identity := (Value.ref?_of_isObject object known).symm.trans found
          have held : key.ref? = some r := (Value.ref?_of_isObject
            (Value.isObject_of_ref? spelled identity) spelled).trans identity
          exact lawful.holds (List.mem_append_left _ (by simp [Value.refs, held]))
      · cases value with
        | text s =>
          cases known
          cases key with
          | text s' => exact recalls _ listed same.symm
          | float x => rcases Value.number_of_float spelled with other | ⟨i, other⟩ <;> cases other
          | _ => cases spelled
        | table | function | userdata | thread => exact absurd rfl object
        | _ => rfl

/-- A traversal gives keys only. -/
theorem named_of_next (sound : t.Sound) {k v : Value}
    (found : t.next alive key = .ok (some (k, v))) : k.toKey? ≠ none := by
  have listed := List.mem_map_of_mem (f := Prod.fst) (mem_readings_of_next found)
  rw [map_fst_readings] at listed
  exact (named_of_mem_outline sound listed).1

/-- Steps of a traversal that give the same up to spelling are alike. -/
theorem alike_of_followed {alive' : Ref → Bool} {key' : Value} (sound : t.Sound)
    (same : key.SameKey key')
    (equal : followed (t'.next alive' key') = followed (t.next alive key)) :
    Reply.Alike (.pair (t.next alive key)) (.pair (t'.next alive' key')) := by
  cases found : t.next alive key with
  | error e =>
    cases found' : t'.next alive' key' with
    | error e' =>
      rw [error_of_next found, error_of_next found']
      exact .refused same.normalize
    | ok result' =>
      rw [found, found'] at equal
      cases equal
  | ok result =>
    cases found' : t'.next alive' key' with
    | error e' =>
      rw [found, found'] at equal
      cases equal
    | ok result' =>
      rw [found, found'] at equal
      have equal : result'.map canonicalPair = result.map canonicalPair := Option.some.inj equal
      cases result with
      | none =>
        cases Option.map_eq_none_iff.mp equal
        exact .ended
      | some pair =>
        obtain ⟨k, v⟩ := pair
        obtain ⟨⟨k', v'⟩, rfl, same⟩ := Option.map_eq_some_iff.mp equal
        obtain ⟨keys, rfl⟩ := Prod.mk.inj same
        obtain ⟨name, named⟩ := Option.ne_none_iff_exists'.mp (named_of_next sound found)
        have again : k'.toKey? = some name := by
          rw [← k'.toKey?_canonical, show k'.canonical = k.canonical from keys,
            k.toKey?_canonical, named]
        exact .pair ((Value.rawEqual_iff named).mpr again)

namespace Twins

variable {live' : Liveness} {c c' : KeyCall} (twins : t.Twins t')
include twins

/-- Calls that are alike get answers that are alike. -/
theorem reply (same : c.Alike c') (lawful : live.Lawful) (lawful' : live'.Lawful)
    (recalls : c.Recalls live t) (recalls' : c'.Recalls live' t') :
    (c.reply live t).Alike (c'.reply live' t') := by
  cases same with
  | get same =>
    rw [KeyCall.reply, KeyCall.reply, twins.get same]
    exact .found
  | @set key key' value same =>
    cases named : key.toKey? with
    | none =>
      cases same.eq_of_invalid named
      obtain ⟨defect, found, refused⟩ := set_of_invalid live t value named
      obtain ⟨defect', found', refused'⟩ := set_of_invalid live' t' value named
      cases found.symm.trans found'
      rw [KeyCall.reply, KeyCall.reply, refused, refused']
      exact .stored
    | some k =>
      rw [KeyCall.reply, KeyCall.reply, set_of_named named,
        set_of_named (same.toKey?.symm.trans named)]
      exact .stored
  | next same =>
    refine alike_of_followed twins.sound same ?_
    rw [← followed_next twins.sound' twins.strong'
        (recognizable_of_recalls twins.sound' twins.strong' lawful' recalls'),
      ← followed_next twins.sound twins.strong
        (recognizable_of_recalls twins.sound twins.strong lawful recalls),
      twins.spelled, same.canonical]

/-- Calls that are alike leave tables that differ in the spelling of keys only. -/
theorem perform (same : c.Alike c') (bounded : (c.perform live t).Bounded) :
    (c.perform live t).Twins (c'.perform live' t') := by
  cases same with
  | get | next => exact twins
  | @set key key' value same =>
    cases named : key.toKey? with
    | none =>
      have named' := same.toKey?.symm.trans named
      rw [KeyCall.perform, KeyCall.perform, perform_set_of_invalid named,
        perform_set_of_invalid named']
      exact twins
    | some k =>
      have named' := same.toKey?.symm.trans named
      rw [KeyCall.perform, perform_set_of_named named] at bounded ⊢
      rw [KeyCall.perform, perform_set_of_named named']
      exact twins.put same (by simp [named]) bounded

theorem replies {calls calls' : List (Liveness × KeyCall)}
    (alike : List.Forall₂ (fun a b => a.2.Alike b.2) calls calls') (run : t.Runs calls)
    (run' : t'.Runs calls') : List.Forall₂ Reply.Alike (t.replies calls) (t'.replies calls') := by
  induction alike generalizing t t' with
  | nil => exact .nil
  | cons same _ ih =>
    cases run with
    | cons lawful bounded recalls others =>
      cases run' with
      | cons lawful' bounded' recalls' others' =>
        exact .cons (twins.reply same lawful lawful' recalls recalls')
          (ih (twins.perform same bounded) others others')

end Twins

/-- A traversal goes on from a removed key to where it went on before, in whatever spelling the key
was removed. -/
theorem Sound.reply_after_removal (sound : t.Sound) (strong : t.policy = .allStrong)
    (bounded : t.Bounded) {before removal later : Liveness} {key' : Value}
    (same : key.SameKey key') (some_key : key'.toKey? ≠ none) (lawful : before.Lawful)
    (lawful' : later.Lawful) (recalls : (KeyCall.next key).Recalls before t)
    (recalls' : (KeyCall.next key).Recalls later (t.put removal key' .nil)) :
    ((KeyCall.next key).reply before t).Alike
      ((KeyCall.next key).reply later (t.put removal key' .nil)) := by
  obtain ⟨k, named⟩ := Option.ne_none_iff_exists'.mp some_key
  have smaller : (t.put removal key' .nil).Bounded :=
    bounded.of_size (unmoved_put_nil removal t key').arraySize
  have written : Written (removal.holding (key'.refs ++ Value.nil.refs)) t k .nil
      (t.put removal key' .nil) := written_put sound (.inl strong) named smaller
  have ruled := written.ruled.trans strong
  have spelled : (t.put removal key' .nil).canonical =
      t.canonical.put nothingReclaimed key.canonical .nil := by
    rw [canonical_put sound strong some_key, same.canonical]
  have distinct (bucket : Nat) : (t.canonical.chain bucket).Distinct := by
    rw [chain_canonical]
    exact (sound.distinct bucket).canonical
  refine alike_of_followed sound (.inl rfl) ?_
  rw [← followed_next written.sound ruled
      (recognizable_of_recalls written.sound ruled lawful' recalls'),
    ← followed_next sound strong (recognizable_of_recalls sound strong lawful recalls), spelled,
    next_put_nil sound.named_canonical distinct key.isNormal_canonical
      (by rwa [key.toKey?_canonical, same.toKey?])]

/-- Equal keys are interchangeable on a strong table. Two runs of calls that are alike get answers
that are alike, whatever is alive in their environments, as long as no traversal is to go on from a
string that was reclaimed with the place that it marked. In particular a traversal goes on from a
key to where it went on before the key was removed, in whatever spelling it was removed. -/
theorem replies_to_respelled_calls (reachable : t.Reachable) (strong : t.policy = .allStrong) :
    (∀ calls calls' : List (Liveness × KeyCall),
      List.Forall₂ (fun a b => a.2.Alike b.2) calls calls' → t.Runs calls → t.Runs calls' →
        List.Forall₂ Reply.Alike (t.replies calls) (t.replies calls')) ∧
    ∀ (before removal later : Liveness) (key key' : Value), key.SameKey key' →
      before.Lawful → later.Lawful →
      let removed := (KeyCall.set key' .nil).perform removal t
      (KeyCall.next key).Recalls before t → (KeyCall.next key).Recalls later removed →
        ((KeyCall.next key).reply before t).Alike ((KeyCall.next key).reply later removed) := by
  obtain ⟨sound, bounded⟩ := reachable.sound_bounded
  have self : t.Twins t := ⟨sound, sound, strong, rfl⟩
  refine ⟨fun calls calls' alike run run' => self.replies alike run run', ?_⟩
  intro before removal later key key' same lawful lawful' removed recalls recalls'
  cases named : key'.toKey? with
  | none =>
    -- nothing can be stored under such a key, so nothing is removed
    have still : removed = t := perform_set_of_invalid named
    rw [still] at recalls' ⊢
    exact self.reply (.next (.inl rfl)) lawful lawful' recalls recalls'
  | some k =>
    have made : removed = t.put removal key' .nil := perform_set_of_named named
    rw [made] at recalls' ⊢
    exact sound.reply_after_removal strong bounded same (by simp [named]) lawful lawful' recalls
      recalls'

omit [Hashing] in
/-- A pair is removed under another string than it was stored under, and the traversal goes on; and
2.0 is the key 2. -/
theorem replies_to_other_string :
    let name (r : Ref) : Value :=
      .text (.long "the long name of an entry, of which there are copies" r)
    let live : Liveness := .sparing (· == 2)
    let calls : List (Liveness × KeyCall) := [
      (nothingReclaimed, .set (name 1) (.bool true)), (nothingReclaimed, .set (.int 2) (.int 20)),
      (nothingReclaimed, .set (name 1) .nil), (nothingReclaimed, .next (name 1))]
    let calls' : List (Liveness × KeyCall) := [
      (live, .set (name 1) (.bool true)), (live, .set (.float ⟨0x4000000000000000⟩) (.int 20)),
      (live, .set (name 2) .nil), (live, .next (name 1))]
    List.Forall₂ Reply.Alike (@replies .uniform .empty calls) (@replies .uniform .empty calls') ∧
      @replies .uniform .empty calls' = [.stored (.ok ()), .stored (.ok ()), .stored (.ok ()),
        .pair (.ok (some (.int 2, .int 20)))] := by
  intro name live calls calls'
  let _ : Hashing := .uniform
  have inside : Origin.empty.Bounded := by decide
  have reachable : Reachable .empty := .made inside rfl
  have lawful := nothingReclaimed_lawful
  have lawful' : live.Lawful := Liveness.sparing_lawful _
  have alike : List.Forall₂ (fun a b => a.2.Alike b.2) calls calls' :=
    .cons (.set (.inl rfl)) <| .cons (.set (.inr (by decide +kernel))) <|
      .cons (.set (.inr (by decide +kernel))) <| .cons (.next (.inl rfl)) .nil
  have run : Runs .empty calls :=
    .cons lawful (by decide +kernel) trivial <| .cons lawful (by decide +kernel) trivial <|
      .cons lawful (by decide +kernel) trivial <| .cons lawful (by decide +kernel)
        (show ∀ slot ∈ _, _ → _ by decide +kernel) .nil
  have run' : Runs .empty calls' :=
    .cons lawful' (by decide +kernel) trivial <| .cons lawful' (by decide +kernel) trivial <|
      .cons lawful' (by decide +kernel) trivial <| .cons lawful' (by decide +kernel)
        (show ∀ slot ∈ _, _ → _ by decide +kernel) .nil
  have same := (replies_to_respelled_calls reachable rfl).1
  exact ⟨same calls calls' alike run run', by decide +kernel⟩

omit [Hashing] in
/-- If the string under which a pair was removed is reclaimed, then the traversal does not go on
from the string under which the pair was stored, although the caller holds that. -/
theorem replies_to_forgotten_string :
    let name (r : Ref) : Value :=
      .text (.long "the long name of an entry, of which there are copies" r)
    let live : Liveness := .sparing (· != 2)
    let calls (other : Ref) : List (Liveness × KeyCall) := [(live, .set (name 1) (.bool true)),
      (live, .set (name other) .nil), (live, .next (name 1))]
    live.Lawful ∧ List.Forall₂ (fun a b => a.2.Alike b.2) (calls 1) (calls 2) ∧
      @replies .uniform .empty (calls 1) =
        [.stored (.ok ()), .stored (.ok ()), .pair (.ok none)] ∧
      @replies .uniform .empty (calls 2) = [.stored (.ok ()), .stored (.ok ()),
        .pair (.error (.invalidIterationKey (name 1)))] ∧
      ¬ List.Forall₂ Reply.Alike (@replies .uniform .empty (calls 1))
        (@replies .uniform .empty (calls 2)) := by
  intro name live calls
  have first : @replies .uniform .empty (calls 1) =
      [.stored (.ok ()), .stored (.ok ()), .pair (.ok none)] := by decide +kernel
  have second : @replies .uniform .empty (calls 2) = [.stored (.ok ()), .stored (.ok ()),
      .pair (.error (.invalidIterationKey (name 1)))] := by decide +kernel
  refine ⟨Liveness.sparing_lawful _, ?_, first, second, fun alike => ?_⟩
  · exact .cons (.set (.inl rfl)) <| .cons (.set (.inr (by decide +kernel))) <|
      .cons (.next (.inl rfl)) .nil
  · rw [first, second] at alike
    cases alike with
    | cons _ rest => cases rest with
      | cons _ rest => cases rest with
        | cons wrong _ => cases wrong

end Table

end HybridTable
