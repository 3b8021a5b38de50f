import Mathlib.Order.Bounds.Basic
import HybridTable.Proofs.CheckedActions
import HybridTable.Proofs.Failures
import HybridTable.Proofs.StoredKeys

/-! Chains of handlers. A chain goes from a value to its handler, to the handler of that, and so on;
it has no need to end, since handlers may lead back. `link?` follows it without looking for an end,
and `EndsAt` says of a single value whether the chain for a key ends there, and how. Reading and
assigning act at the first such value, if it is within the greatest number of links. -/
namespace HybridTable

variable {ε : Type} [Hashing]

namespace World

section
variable (w : World ε) (event : Event)

/-- The value so many links up a chain of handlers, if the chain goes that far. -/
def link? : Nat → Value → Option Value
  | 0, v => some v
  | i + 1, v => (w.handler? v event).bind (link? i)

/-- How the chain of handlers for a key ends at a value. The key is looked for first. -/
inductive EndsAt (key : Value) : Value → Destination → Prop
  /-- At a table that has the key. -/
  | held {ref : Ref} (has : (w.rawGet ref key).isSome) : EndsAt key (.table ref) (.table ref)
  /-- At a table that has no handler. -/
  | bare {ref : Ref} (lacks : w.rawGet ref key = none)
    (unhandled : w.handler? (.table ref) event = none) : EndsAt key (.table ref) (.table ref)
  /-- At another value that has no handler. -/
  | refused {v : Value} (other : ∀ ref, v ≠ .table ref) (unhandled : w.handler? v event = none) :
    EndsAt key v (.refused v.kind)
  /-- At a value whose handler is a function. -/
  | called {v : Value} {f : Function} (lacks : w.holdsKey key v = false)
    (handled : w.handler? v event = some (.function f)) : EndsAt key v (.call f v)

/-- The positions in a chain of handlers for a key at which it can end. -/
def ends (key start : Value) : Set Nat :=
  {i | ∃ v d, w.link? event i start = some v ∧ w.EndsAt event key v d}

end

variable {w : World ε} {event : Event} {key start v next : Value} {d : Destination} {links i : Nat}

theorem destination_of_endsAt (ended : w.EndsAt event key v d) (links : Nat) :
    w.destination event key (links + 1) v = d := by
  unfold destination
  cases ended with
  | held has => simp only [holdsKey, has]
  | bare lacks unhandled => simp only [holdsKey, lacks, unhandled, Option.isSome_none]
  | refused other unhandled =>
    rw [unhandled]
    cases v with
    | table ref => exact absurd rfl (other ref)
    | _ => rfl
  | called lacks handled =>
    rw [lacks, handled]
    cases v <;> rfl

theorem not_endsAt_iff : (¬∃ d, w.EndsAt event key v d) ↔ w.holdsKey key v = false ∧
    ∃ next, w.handler? v event = some next ∧ ∀ f, next ≠ .function f := by
  constructor
  · intro open_ended
    have lacks : w.holdsKey key v = false := by
      cases v with
      | table ref => exact Bool.eq_false_iff.mpr fun has => open_ended ⟨_, .held has⟩
      | _ => rfl
    cases handled : w.handler? v event with
    | none =>
      cases v with
      | table ref =>
        have absent : w.rawGet ref key = none := by
          simpa only [holdsKey, Option.isSome_eq_false_iff, Option.isNone_iff_eq_none] using lacks
        exact absurd ⟨_, .bare absent handled⟩ open_ended
      | _ => exact absurd ⟨_, .refused (fun _ => nofun) handled⟩ open_ended
    | some next =>
      refine ⟨lacks, next, rfl, ?_⟩
      rintro f rfl
      exact open_ended ⟨_, .called lacks handled⟩
  · rintro ⟨lacks, next, handled, other⟩ ⟨d, ended⟩
    cases ended with
    | held has => exact Bool.false_ne_true (lacks.symm.trans has)
    | bare _ unhandled => cases handled.symm.trans unhandled
    | refused _ unhandled => cases handled.symm.trans unhandled
    | called _ called =>
      cases handled.symm.trans called
      exact other _ rfl

/-- Where a chain does not end, it goes on to the handler. -/
theorem exists_next (open_ended : ¬∃ d, w.EndsAt event key v d) : ∃ next,
    w.handler? v event = some next ∧
      ∀ links, w.destination event key (links + 1) v = w.destination event key links next := by
  obtain ⟨lacks, next, handled, other⟩ := not_endsAt_iff.mp open_ended
  refine ⟨next, handled, fun links => ?_⟩
  conv_lhs => unfold destination
  rw [lacks, handled]
  cases next with
  | function f => exact absurd rfl (other f)
  | _ => cases v <;> rfl

theorem zero_mem_ends : 0 ∈ w.ends event key v ↔ ∃ d, w.EndsAt event key v d := by
  constructor
  · rintro ⟨_, d, same, ended⟩
    cases same
    exact ⟨d, ended⟩
  · rintro ⟨d, ended⟩
    exact ⟨v, d, rfl, ended⟩

theorem succ_mem_ends (handled : w.handler? v event = some next) :
    i + 1 ∈ w.ends event key v ↔ i ∈ w.ends event key next := by
  simp only [ends, link?, handled, Option.bind_some, Set.mem_ofPred_eq]

/-- The first value at which a chain can end is its destination. -/
theorem destination_of_first (reached : w.link? event i start = some v)
    (ended : w.EndsAt event key v d) (first : ∀ j ∈ w.ends event key start, i ≤ j)
    (inside : i < links) : w.destination event key links start = d := by
  -- the chain from the handler on ends at the same values, one position earlier
  induction i generalizing start links with
  | zero =>
    cases reached
    obtain ⟨links, rfl⟩ := Nat.exists_eq_add_one.mpr inside
    exact destination_of_endsAt ended links
  | succ i ih =>
    obtain ⟨links, rfl⟩ := Nat.exists_eq_add_one.mpr (Nat.zero_lt_of_lt inside)
    obtain ⟨next, handled, goes_on⟩ : ∃ next, w.handler? start event = some next ∧ _ :=
      exists_next fun ended => Nat.not_succ_le_zero i (first 0 (zero_mem_ends.mpr ended))
    rw [link?, handled, Option.bind_some] at reached
    rw [goes_on]
    refine ih reached (fun j found => ?_) (Nat.lt_of_succ_lt_succ inside)
    exact Nat.le_of_succ_le_succ (first (j + 1) ((succ_mem_ends handled).mpr found))

theorem destination_unreached (beyond : ∀ i ∈ w.ends event key start, links ≤ i) :
    w.destination event key links start = .unreached := by
  induction links generalizing start with
  | zero => rfl
  | succ links ih =>
    obtain ⟨next, handled, goes_on⟩ : ∃ next, w.handler? start event = some next ∧ _ :=
      exists_next fun ended => Nat.not_succ_le_zero links (beyond 0 (zero_mem_ends.mpr ended))
    rw [goes_on]
    refine ih fun i found => ?_
    exact Nat.le_of_succ_le_succ (beyond (i + 1) ((succ_mem_ends handled).mpr found))

end World

namespace Action

variable {calls : Calls ε} {w : World ε}

/-- What one call comes to. The function runs in this very world, while it and its arguments are
held. -/
def calling (calls : Calls ε) (f : Function) (args : List Value) (w : World ε) :
    Except Error (List Value) × World ε :=
  let returned := (calls f args).run { w with held := (.function f :: args) :: w.held }
  (returned.1, { returned.2 with held := w.held })

omit [Hashing] in
theorem run_call (f : Function) (args : List Value) :
    (call calls f args).run w = calling calls f args w := rfl

/-- Reading acts where the chain of handlers ends. -/
theorem run_index (object key : Value) : (index calls object key).run w =
    match w.destination .index key maxChain object with
    | .table ref => (.ok ((w.rawGet ref key).getD .nil), w)
    | .call f self => ((calling calls f [self, key] w).1.map firstResult,
        (calling calls f [self, key] w).2)
    | .refused kind => (.error (.indexNonTable kind), w)
    | .unreached => (.error (.handlerLoop .index), w) := by
  unfold index
  rw [run_bind, show (get : Action ε (World ε)).run w = (.ok w, w) from rfl]
  dsimp only
  cases w.destination .index key maxChain object with
  | call f self => exact CheckedAction.run_map firstResult (call calls f [self, key]) w
  | _ => rfl

/-- Assigning acts where the chain of handlers ends. -/
theorem run_assign (object key value : Value) : (assign calls object key value).run w =
    match w.destination .newIndex key maxChain object with
    | .table ref => (rawSet ref key value).run w
    | .call f self => ((calling calls f [self, key, value] w).1.map fun _ => (),
        (calling calls f [self, key, value] w).2)
    | .refused kind => (.error (.indexNonTable kind), w)
    | .unreached => (.error (.handlerLoop .newIndex), w) := by
  unfold assign
  rw [run_bind, show (get : Action ε (World ε)).run w = (.ok w, w) from rfl]
  dsimp only
  cases w.destination .newIndex key maxChain object with
  | call f self => exact CheckedAction.run_map (fun _ => ()) (call calls f [self, key, value]) w
  | _ => rfl

/-- The value of a key is the one that the chain of handlers comes to. It is read at the first value
of the chain that has the key, or has no handler, or has a function for its handler; the chain may
go through values of every kind, and in circles. Nothing runs except that function, which is called
once, and nothing changes except in that call. A chain without such a value among the first ones is
an error. -/
theorem index_follows_chain (calls : Calls ε) (object key : Value) (w : World ε) :
    (∀ i x, IsLeast (w.ends .index key object) i → i < maxChain →
      w.link? .index i object = some x →
        (∀ ref value, x = .table ref → w.rawGet ref key = some value →
          (index calls object key).run w = (.ok value, w)) ∧
        (∀ ref, x = .table ref → w.rawGet ref key = none → w.handler? x .index = none →
          (index calls object key).run w = (.ok .nil, w)) ∧
        ((∀ ref, x ≠ .table ref) → w.handler? x .index = none →
          (index calls object key).run w = (.error (.indexNonTable x.kind), w)) ∧
        (∀ f, w.holdsKey key x = false → w.handler? x .index = some (.function f) →
          (index calls object key).run w = ((calling calls f [x, key] w).1.map firstResult,
            (calling calls f [x, key] w).2))) ∧
    ((∀ i ∈ w.ends .index key object, maxChain ≤ i) →
      (index calls object key).run w = (.error (.handlerLoop .index), w)) ∧
    ∀ ref k, (getInt calls ref k).run w = (index calls (.table ref) (.int k)).run w := by
  refine ⟨fun i x least inside reached => ?_, fun beyond => ?_, fun ref k => ?_⟩
  · have ends_there {d : Destination} (ended : w.EndsAt .index key x d) :
        w.destination .index key maxChain object = d :=
      World.destination_of_first reached ended least.2 inside
    rw [run_index]
    refine ⟨?_, ?_, ?_, ?_⟩
    · rintro ref value rfl has
      have ended := ends_there (.held (Option.isSome_of_eq_some has))
      simp only [ended, has, Option.getD_some]
    · rintro ref rfl lacks unhandled
      have ended := ends_there (.bare lacks unhandled)
      simp only [ended, lacks, Option.getD_none]
    · intro other unhandled
      simp only [ends_there (.refused other unhandled)]
    · intro f lacks handled
      simp only [ends_there (.called lacks handled)]
  · rw [run_index, World.destination_unreached beyond]
  · unfold getInt
    rw [run_bind, show (get : Action ε (World ε)).run w = (.ok w, w) from rfl]
    dsimp only
    cases has : (w.table ref).getInt w.survivors.contains k with
    | none => rfl
    | some value =>
      have found : w.rawGet ref (.int k) = some value := has
      have ended : w.EndsAt .index (.int k) (.table ref) (.table ref) :=
        .held (Option.isSome_of_eq_some found)
      rw [run_index, show maxChain = 1999 + 1 from rfl, World.destination_of_endsAt ended]
      simp only [found, Option.getD_some]
      rfl

omit [Hashing] in
/-- A key that neither of two tables has is asked of a function, with the second of them. A table
that is its own handler is left after the greatest number of links. -/
theorem index_calls_last_handler :
    let _ : Hashing := .uniform
    let handler (v : Value) : Table :=
      Table.put Table.nothingReclaimed .empty (.text (.short "__index")) v
    let w : World Unit := ((((World.initial ()).setTable 0 { Table.empty with metatable := some 1 }
      ).setTable 1 { handler (.table 1) with metatable := some 2 }).setTable 2
        (handler (.function ⟨9, "f"⟩))).setTable 3 { handler (.table 3) with metatable := some 3 }
    let calls : Calls Unit := fun _ args => pure args.reverse
    IsLeast (w.ends .index (.int 7) (.table 0)) 1 ∧ 1 < maxChain ∧
      w.link? .index 1 (.table 0) = some (.table 1) ∧
      (index calls (.table 0) (.int 7)).run w = (.ok (.int 7), w) ∧
      (∀ i ∈ w.ends .index (.int 7) (.table 3), maxChain ≤ i) ∧
      (index calls (.table 3) (.int 7)).run w = (.error (.handlerLoop .index), w) := by
  intro hashing handler w calls
  have holds (ref : Ref) : w.table ref =
      if 3 = ref then { handler (.table 3) with metatable := some 3 }
      else if 2 = ref then handler (.function ⟨9, "f"⟩)
      else if 1 = ref then { handler (.table 1) with metatable := some 2 }
      else if 0 = ref then { Table.empty with metatable := some 1 } else .empty := by
    simp only [w, World.table_setTable_eq_ite, World.table_initial]
  have handled (ref : Ref) : w.handler? (.table ref) .index =
      (w.table ref).metatable.bind (w.rawGetText · "__index") := rfl
  have first : w.handler? (.table 0) .index = some (.table 1) := by
    simp only [handled, World.rawGetText, holds]
    decide +kernel
  have second : w.handler? (.table 1) .index = some (.function ⟨9, "f"⟩) := by
    simp only [handled, World.rawGetText, holds]
    decide +kernel
  have itself : w.handler? (.table 3) .index = some (.table 3) := by
    simp only [handled, World.rawGetText, holds]
    decide +kernel
  have lacks (ref : Ref) (small : ref ∈ [0, 1, 3]) : w.holdsKey (.int 7) (.table ref) = false := by
    simp only [World.holdsKey, World.rawGet, holds]
    revert ref
    decide +kernel
  have reached : w.link? .index 1 (.table 0) = some (.table 1) := by
    rw [World.link?, first]
    rfl
  have open_ended {ref next : Ref} (lacking : w.holdsKey (.int 7) (.table ref) = false)
      (handled : w.handler? (.table ref) .index = some (.table next)) :
      ¬∃ d, w.EndsAt .index (.int 7) (.table ref) d :=
    World.not_endsAt_iff.mpr ⟨lacking, _, handled, fun f same => by cases same⟩
  have least : IsLeast (w.ends .index (.int 7) (.table 0)) 1 := by
    refine ⟨⟨_, _, reached, .called (lacks 1 (by decide)) second⟩, fun j found => ?_⟩
    apply Nat.one_le_iff_ne_zero.mpr
    rintro rfl
    exact open_ended (lacks 0 (by decide)) first (World.zero_mem_ends.mp found)
  have endless (i : Nat) : i ∉ w.ends .index (.int 7) (.table 3) := by
    induction i with
    | zero => exact mt World.zero_mem_ends.mp (open_ended (lacks 3 (by decide)) itself)
    | succ i ih => exact mt (World.succ_mem_ends itself).mp ih
  have beyond : ∀ i ∈ w.ends .index (.int 7) (.table 3), maxChain ≤ i :=
    fun i found => absurd found (endless i)
  have called := ((index_follows_chain calls (.table 0) (.int 7) w).1 1 (.table 1) least (by decide)
    reached).2.2.2 ⟨9, "f"⟩ (lacks 1 (by decide)) second
  have circular := (index_follows_chain calls (.table 3) (.int 7) w).2.1 beyond
  exact ⟨least, by decide, reached, called, beyond, circular⟩

end Action

end HybridTable
