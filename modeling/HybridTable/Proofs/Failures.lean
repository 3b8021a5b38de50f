import HybridTable.Proofs.Comparisons
import HybridTable.Proofs.WriteBack

/-! What a failed operation leaves behind. Operations call functions of the host, which may change
anything; everything that an operation writes itself, it writes after the last step that can fail.
So a failed operation has done nothing but call: from the world before it to the world after it,
objects change in its calls only. -/
namespace HybridTable

variable {ε α β : Type}

/-- A call of a function of the host, with the worlds before and after it. -/
structure Invocation (ε : Type) where
  /-- What was called. -/
  function : Function
  /-- What it was called with. -/
  args : List Value
  /-- The world in which it was run. -/
  before : World ε
  /-- What it returned. -/
  result : Except Error (List Value)
  /-- The world that it left. -/
  after : World ε

/-- Being what calls mean. -/
def Invocation.Genuine (calls : Calls ε) (i : Invocation ε) : Prop :=
  (calls i.function i.args).run i.before = (i.result, i.after)

namespace World

/-- Being one world, apart from what running operations hold. -/
structure Alike (w w' : World ε) : Prop where
  objects : w'.objects = w.objects
  kept : w'.kept = w.kept
  host : w'.host = w.host

namespace Alike

variable {w w' w'' : World ε}

theorem refl (w : World ε) : Alike w w := ⟨rfl, rfl, rfl⟩

theorem trans (first : Alike w w') (next : Alike w' w'') : Alike w w'' :=
  ⟨next.objects.trans first.objects, next.kept.trans first.kept, next.host.trans first.host⟩

theorem withHeld (alike : Alike w w') (held : List (List Value)) :
    Alike w { w' with held } :=
  ⟨alike.objects, alike.kept, alike.host⟩

theorem eq (alike : Alike w w') (held : w'.held = w.held) : w' = w := by
  obtain ⟨objects, kept, _, host⟩ := w
  obtain ⟨objects', kept', _, host'⟩ := w'
  obtain ⟨rfl, rfl, rfl⟩ := alike
  cases held
  rfl

end Alike

theorem table_modifyTable_other (w : World ε) {ref other : Ref} (f : Liveness → Table → Table)
    (apart : ref ≠ other) : (w.modifyTable ref f).table other = w.table other :=
  (Objects.table_setTable_other _ _ apart).trans (Objects.table_setTable_other _ _ apart)

/-- Coming from one world to another through calls alone: between them nothing is changed. -/
inductive Linked (calls : Calls ε) : World ε → List (Invocation ε) → World ε → Prop where
  | none {w w'} (alike : Alike w w') : Linked calls w [] w'
  | call {w w' i rest} (enters : Alike w i.before) (genuine : i.Genuine calls)
      (leaves : Linked calls i.after rest w') : Linked calls w (i :: rest) w'

namespace Linked

variable {calls : Calls ε} {w w' w'' : World ε} {first next : List (Invocation ε)}

theorem after (linked : Linked calls w' next w'') (alike : Alike w w') :
    Linked calls w next w'' := by
  cases linked with
  | none same => exact .none (alike.trans same)
  | call enters genuine leaves => exact .call (alike.trans enters) genuine leaves

theorem trans (before : Linked calls w first w') (linked : Linked calls w' next w'') :
    Linked calls w (first ++ next) w'' := by
  induction before with
  | none alike => exact linked.after alike
  | call enters genuine _ ih => exact .call enters genuine (ih linked)

/-- A table that no call has changed is what it was. -/
theorem table_eq {invocations : List (Invocation ε)} (linked : Linked calls w invocations w')
    {ref : Ref} (untouched : ∀ i ∈ invocations, i.after.table ref = i.before.table ref) :
    w'.table ref = w.table ref := by
  induction linked with
  | none alike => rw [table, alike.objects, table]
  | @call w _ i _ enters _ _ ih =>
    have entered : i.before.table ref = w.table ref := by rw [table, enters.objects, table]
    rw [ih fun i member => untouched i (List.mem_cons_of_mem _ member),
      untouched i List.mem_cons_self, entered]

end Linked

/-- Coming from one world to another through calls alone, with nothing held in between any more. -/
def Called (calls : Calls ε) (w w' : World ε) : Prop :=
  w'.held = w.held ∧ ∃ invocations, Linked calls w invocations w'

namespace Called

variable {calls : Calls ε} {w w' w'' : World ε}

theorem refl (w : World ε) : Called calls w w := ⟨rfl, [], .none (.refl w)⟩

theorem trans (first : Called calls w w') (next : Called calls w' w'') : Called calls w w'' := by
  obtain ⟨held, invocations, linked⟩ := first
  obtain ⟨held', invocations', linked'⟩ := next
  exact ⟨held'.trans held, invocations ++ invocations', linked.trans linked'⟩

/-- What is held meanwhile makes no difference. -/
theorem holding {held : List (List Value)}
    (called : Called calls ({ w with held } : World ε) w') :
    Called calls w { w' with held := w.held } := by
  obtain ⟨-, invocations, linked⟩ := called
  have ends : Linked calls w' [] { w' with held := w.held } := .none ((Alike.refl w').withHeld _)
  have whole := (linked.trans ends).after ((Alike.refl w).withHeld held)
  exact ⟨rfl, _, whole⟩

end Called

end World

namespace Action

open HybridTable.World

variable {calls : Calls ε} {act : Action ε α} {next : α → Action ε β}

/-- Doing nothing but calls, whether it fails or not. -/
def Passive (calls : Calls ε) (act : Action ε α) : Prop := ∀ w, Called calls w (act.run w).2

/-- Having done nothing but calls when it fails. -/
def FailsCleanly (calls : Calls ε) (act : Action ε α) : Prop :=
  ∀ w e w', act.run w = (.error e, w') → Called calls w w'

theorem Passive.failsCleanly (passive : Passive calls act) : FailsCleanly calls act := by
  intro w e w' failed
  have called := passive w
  rwa [failed] at called

theorem passive_pure (a : α) : Passive calls (pure a : Action ε α) := fun w => .refl w

theorem passive_throw (e : Error) : Passive calls (throw e : Action ε α) := fun w => .refl w

theorem passive_get : Passive calls (get : Action ε (World ε)) := fun w => .refl w

theorem Passive.bind (passive : Passive calls act) (rest : ∀ a, Passive calls (next a)) :
    Passive calls (act >>= next) := by
  intro w
  have first := passive w
  rw [run_bind]
  rcases done : act.run w with ⟨failed | a, w₁⟩ <;> rw [done] at first
  · exact first
  · exact first.trans (rest a w₁)

/-- A failure comes from the second part, after the calls of the first, or from the first. -/
theorem Passive.bind_failsCleanly (passive : Passive calls act)
    (rest : ∀ a, FailsCleanly calls (next a)) : FailsCleanly calls (act >>= next) := by
  intro w e w' failed
  have first := passive w
  rw [run_bind] at failed
  rcases done : act.run w with ⟨failed' | a, w₁⟩ <;> rw [done] at first failed
  · cases failed
    exact first
  · exact first.trans (rest a _ _ _ failed)

theorem Passive.map (passive : Passive calls act) (f : α → β) :
    Passive calls (f <$> act) := by
  rw [← bind_pure_comp]
  exact passive.bind fun a => passive_pure (f a)

theorem Passive.holding (passive : Passive calls act) (values : List Value) :
    Passive calls (holding values act) := fun _ => (passive _).holding

theorem FailsCleanly.holding (clean : FailsCleanly calls act) (values : List Value) :
    FailsCleanly calls (holding values act) := by
  intro w e w' failed
  change (let done := act.run { w with held := values :: w.held }
    (done.1, { done.2 with held := w.held })) = (.error e, w') at failed
  rcases done : act.run { w with held := values :: w.held } with ⟨result, w₁⟩
  rw [done] at failed
  cases failed
  exact (clean _ _ _ done).holding

/-- A function is called with its arguments held, which is all that the caller does. -/
theorem passive_call (f : Function) (args : List Value) :
    Passive calls (call calls f args) := by
  intro w
  let w₁ : World ε := { w with held := (.function f :: args) :: w.held }
  let done := (calls f args).run w₁
  have genuine : Invocation.Genuine calls ⟨f, args, w₁, done.1, done.2⟩ := rfl
  exact ⟨rfl, _, .call ((Alike.refl w).withHeld _) genuine
    (.none ((Alike.refl done.2).withHeld w.held))⟩

section
variable [Hashing]

theorem passive_callHandler (handler : Value) (args : List Value) :
    Passive calls (callHandler calls handler args) := by
  unfold callHandler
  split
  · exact passive_call _ _
  · refine passive_get.bind fun w => ?_
    split
    · exact passive_call _ _
    · exact passive_throw _

theorem passive_index (object key : Value) : Passive calls (index calls object key) := by
  unfold index
  refine passive_get.bind fun w => ?_
  split
  · exact passive_pure _
  · exact (passive_call _ _).bind fun results => passive_pure _
  · exact passive_throw _
  · exact passive_throw _

theorem passive_lessThan (left right : Value) : Passive calls (lessThan calls left right) := by
  unfold lessThan
  split
  iterate 5 exact passive_pure _
  refine passive_get.bind fun w => ?_
  split
  · exact (passive_callHandler _ _).bind fun results => passive_pure _
  · exact passive_throw _

theorem passive_orderOf (comparator : Option Function) (left right : Value) :
    Passive calls (orderOf calls comparator left right) := by
  cases comparator with
  | none => exact passive_lessThan left right
  | some f => exact (passive_call f _).bind fun results => passive_pure _

theorem passive_length (ref : Ref) : Passive calls (length calls ref) := by
  unfold length
  refine passive_get.bind fun w => ?_
  split
  · exact passive_pure _
  · refine (passive_callHandler _ _).bind fun results => ?_
    dsimp only
    split
    · exact passive_pure _
    · exact passive_throw _

theorem passive_concatFrom (ref : Ref) (separator : String) (last key : Int64) (before : String) :
    Passive calls (concatFrom calls ref separator last key before) := by
  unfold concatFrom
  refine (passive_index _ _).bind fun value => ?_
  split
  · exact passive_throw _
  · split
    · split
      · exact passive_pure _
      · exact passive_concatFrom ref separator last (key + 1) _
    · exact passive_pure _
termination_by keysLeft key
decreasing_by exact keysLeft_add_one ‹_›

theorem passive_concat (ref : Ref) (separator : String) (first last : Int64) :
    Passive calls (concat calls ref separator first last) := by
  unfold concat
  split
  · exact passive_concatFrom ref separator last first _
  · exact passive_pure _

theorem passive_valuesFrom (ref : Ref) (count : Nat) (key : Int64) (found : List Value) :
    Passive calls (valuesFrom calls ref count key found) := by
  induction count generalizing key found with
  | zero => exact passive_pure _
  | succ count ih => exact ((passive_index _ _).holding found).bind fun value => ih _ _

theorem passive_unpack (ref : Ref) (first last : Int64) :
    Passive calls (unpack calls ref first last) := by
  unfold unpack
  split
  · dsimp only
    split
    · exact passive_throw _
    · exact passive_valuesFrom ref _ first []
  · exact passive_pure _

theorem passive_unpackAll (ref : Ref) : Passive calls (unpackAll calls ref) :=
  passive_get.bind fun _ => passive_unpack ref 1 _

/-- A pair is refused for its key, before anything is written. -/
theorem failsCleanly_rawSet (ref : Ref) (key value : Value) :
    FailsCleanly calls (rawSet ref key value : Action ε Unit) := by
  intro w e w' failed
  change rawSet ref key value w = _ at failed
  unfold rawSet at failed
  split at failed
  · cases failed
    exact .refl w
  · cases failed

theorem failsCleanly_assign (object key value : Value) :
    FailsCleanly calls (assign calls object key value) := by
  unfold assign
  refine passive_get.bind_failsCleanly fun w => ?_
  split
  · exact failsCleanly_rawSet _ _ _
  · exact ((passive_call _ _).map _).failsCleanly
  · exact (passive_throw _).failsCleanly
  · exact (passive_throw _).failsCleanly

theorem failsCleanly_set (ref : Ref) (key value : Value) :
    FailsCleanly calls (set calls ref key value) := by
  unfold set
  refine passive_get.bind_failsCleanly fun w => ?_
  split
  · exact failsCleanly_assign _ _ _
  · exact (passive_throw _).failsCleanly
  · exact failsCleanly_assign _ _ _

/-- A metatable is refused before it is attached. -/
theorem failsCleanly_setMetatable (ref : Ref) (metatable : Option Ref) :
    FailsCleanly calls (setMetatable ref metatable : Action ε Unit) := by
  intro w e w' failed
  change setMetatable ref metatable w = _ at failed
  unfold setMetatable at failed
  dsimp only at failed
  split at failed
  · cases failed
    exact .refl w
  · cases failed

/-- Comparing does not change the world except by calls, however often it is done. -/
theorem called_heapSort (calls : Calls ε) (comparator : Option Function) {n : Nat}
    (values : Vector Value n) (w : World ε) : Called calls w (Sort.heapSort
      (fun left right => (orderOf calls comparator left right).run) values w).state := by
  have keeps (left right : Value) (s : World ε) (_ : True) (_ : True) (called : Called calls w s) :
      Called calls w ((orderOf calls comparator left right).run s).2 :=
    called.trans (passive_orderOf comparator left right s)
  exact Sort.heapSort_keeps keeps values w (fun _ _ => trivial) (.refl w)

/-- The sorted copy is written after the last comparison. -/
theorem failsCleanly_sort (ref : Ref) (comparator : Option Function) :
    FailsCleanly calls (sort calls ref comparator) := by
  intro w e w' failed
  have measured : Called calls w ((length calls ref).run w).2 := passive_length ref w
  rw [run_sort] at failed
  rcases done : (length calls ref).run w with ⟨failed' | length, w₁⟩ <;>
    rw [done] at measured failed
  · cases failed
    exact measured
  refine measured.trans ?_
  dsimp only at failed
  split at failed
  · cases failed
    exact .refl _
  · split at failed
    · have compared := called_heapSort calls comparator
        ((w₁.table ref).sequence w₁.survivors.contains).toArray.toVector
        { w₁ with held := ((w₁.table ref).sequence w₁.survivors.contains) :: w₁.held }
      unfold storeSorted at failed
      split at failed
      · cases failed
      · cases failed
        exact compared.holding
    · cases failed

/-- Sorting the values that a table had, and what follows the last comparison. -/
def sortAs (less : Order ε) (ref : Ref) (t : Table) (alive : Ref → Bool) : Action ε Unit := fun w =>
  match t.sortBy (fun left right => (less left right).run) alive w with
  | (.ok t, w) => (.ok (), w.setTable ref t)
  | (.error e, w) => (.error e, w)

theorem failsCleanly_sortAs (ref : Ref) (comparator : Option Function) (t : Table)
    (alive : Ref → Bool) :
    FailsCleanly calls (sortAs (orderOf calls comparator) ref t alive) := by
  intro w e w' failed
  change sortAs (orderOf calls comparator) ref t alive w = _ at failed
  have compared := called_heapSort calls comparator
    (t.sequence alive).toArray.toVector w
  unfold sortAs Table.sortBy at failed
  dsimp only at failed
  by_cases few : (t.sequence alive).length < 2
  · rw [if_pos few] at failed
    cases failed
  · rw [if_neg few] at failed
    rcases done : Sort.heapSort (fun left right => (orderOf calls comparator left right).run)
      (t.sequence alive).toArray.toVector w with ⟨failed' | _, values, w₁⟩ <;>
      rw [done] at failed compared <;> cases failed
    exact compared

omit [Hashing] in
theorem run_sortBy (less : Order ε) (ref : Ref) (w : World ε) :
    (sortBy less ref).run w = (holding ((w.table ref).sequence w.survivors.contains)
      (sortAs less ref (w.table ref) w.survivors.contains)).run w := by
  change sortBy less ref w = holding _ _ w
  unfold sortBy sortAs
  rfl

/-- A table that comparisons cannot change is written after the last of them. -/
theorem failsCleanly_sortBy (ref : Ref) (comparator : Option Function) :
    FailsCleanly calls (sortBy (orderOf calls comparator) ref) := by
  intro w e w' failed
  rw [run_sortBy] at failed
  exact (failsCleanly_sortAs ref comparator _ _).holding _ _ _ _ failed

/-- A sort of two values whose comparison fails. -/
theorem run_sort_pair_failed {ref : Ref} {f : Function} {a b : Value} {e : Error} {w w₁ : World ε}
    (bare : (w.table ref).metatable = none) (small : w.rawLength ref = 2)
    (listed : (w.table ref).sequence w.survivors.contains = [a, b])
    (said : (orderBy calls f a b).run { w with held := [a, b] :: w.held } = (.error e, w₁)) :
    (sort calls ref (some f)).run w = (.error e, { w₁ with held := w.held }) := by
  have compared := sortCopy_pair calls f a b w
  rw [said] at compared
  rw [run_sort_two bare small listed, compared]
  rfl

end

end Action

/-- The operations on a table that can fail. -/
inductive Operation where
  | rawSet (ref : Ref) (key value : Value)
  | set (ref : Ref) (key value : Value)
  | setInt (ref : Ref) (key : Int64) (value : Value)
  | get (ref : Ref) (key : Value)
  | getInt (ref : Ref) (key : Int64)
  | length (ref : Ref)
  | next (ref : Ref) (key : Value)
  | concat (ref : Ref) (separator : String) (first last : Int64)
  | sort (ref : Ref) (comparator : Option Function)
  | sortBy (ref : Ref) (comparator : Option Function)
  | unpack (ref : Ref) (first last : Int64)
  | unpackAll (ref : Ref)
  | setMetatable (ref : Ref) (metatable : Option Ref)

namespace Operation

open HybridTable.Action HybridTable.World

variable [Hashing] {calls : Calls ε}

/-- Runs an operation, for what it changes and whether it fails. -/
def run (calls : Calls ε) : Operation → Action ε Unit
  | rawSet ref key value => Action.rawSet ref key value
  | set ref key value => Action.set calls ref key value
  | setInt ref key value => Action.set calls ref (.int key) value
  | get ref key => discard <| index calls (.table ref) key
  | getInt ref key => discard <| index calls (.table ref) (.int key)
  | length ref => discard <| Action.length calls ref
  | next ref key => do
    let w ← MonadState.get
    discard <| liftM ((w.table ref).next w.survivors.contains key)
  | concat ref separator first last => discard <| Action.concat calls ref separator first last
  | sort ref comparator => Action.sort calls ref comparator
  | sortBy ref comparator => Action.sortBy (orderOf calls comparator) ref
  | unpack ref first last => discard <| Action.unpack calls ref first last
  | unpackAll ref => discard <| Action.unpackAll calls ref
  | setMetatable ref metatable => Action.setMetatable ref metatable

theorem failsCleanly_run (op : Operation) : FailsCleanly calls (op.run calls) := by
  cases op with
  | rawSet ref key value => exact failsCleanly_rawSet ref key value
  | set ref key value => exact failsCleanly_set ref key value
  | setInt ref key value => exact failsCleanly_set ref (.int key) value
  | get ref key => exact ((passive_index _ key).map _).failsCleanly
  | getInt ref key => exact ((passive_index _ (.int key)).map _).failsCleanly
  | length ref => exact ((passive_length ref).map _).failsCleanly
  | next ref key =>
    exact (passive_get.bind fun w => Passive.map (fun w' => .refl w') _).failsCleanly
  | concat ref separator first last =>
    exact ((passive_concat ref separator first last).map _).failsCleanly
  | sort ref comparator => exact failsCleanly_sort ref comparator
  | sortBy ref comparator => exact failsCleanly_sortBy ref comparator
  | unpack ref first last => exact ((passive_unpack ref first last).map _).failsCleanly
  | unpackAll ref => exact ((passive_unpackAll ref).map _).failsCleanly
  | setMetatable ref metatable => exact failsCleanly_setMetatable ref metatable

/-- A failed operation leads from the world before it to the world after it through calls of
functions of the host, between which nothing changes, and holds nothing any more. Without a call
the world is what it was; and a table that no call has changed is what it was, with all its pairs,
capacities and count, in its order, with its metatable and its policy. -/
theorem failure_changes_nothing (op : Operation) {w w' : World ε} {e : Error}
    (failed : (op.run calls).run w = (.error e, w')) :
    w'.held = w.held ∧ ∃ invocations : List (Invocation ε), Linked calls w invocations w' ∧
      (invocations = [] → w' = w) ∧
      ∀ ref, (∀ i ∈ invocations, i.after.table ref = i.before.table ref) →
        w'.table ref = w.table ref := by
  obtain ⟨held, invocations, linked⟩ := op.failsCleanly_run w e w' failed
  refine ⟨held, invocations, linked, ?_, fun ref => linked.table_eq⟩
  rintro rfl
  cases linked with
  | none alike => exact alike.eq held

omit [Hashing] in
/-- A comparator that writes to another table and then fails: the write stays, and the table that
was to be sorted is what it was. -/
theorem failure_keeps_unsorted :
    let _ : Hashing := .uniform
    let calls : Calls Unit := fun _ _ => do
      Action.rawSet 1 (.int 7) (.bool true)
      throw (.raised "stop")
    let w : World Unit := (World.initial ()).setTable 0 (.ofSequence [.int 2, .int 1] 0)
    ∃ w', ((Operation.sort 0 (some ⟨2, "f"⟩)).run calls).run w = (.error (.raised "stop"), w') ∧
      w'.table 0 = w.table 0 ∧ w'.rawGet 1 (.int 7) = some (.bool true) ∧
      w'.held = w.held ∧ ∃ invocations : List (Invocation Unit), Linked calls w invocations w' ∧
        (invocations = [] → w' = w) ∧
        ∀ ref, (∀ i ∈ invocations, i.after.table ref = i.before.table ref) →
          w'.table ref = w.table ref := by
  intro hashing calls w
  have holds : w.table 0 = .ofSequence [.int 2, .int 1] 0 := World.table_setTable ..
  have bare : (w.table 0).metatable = none := by rw [holds]; decide +kernel
  have listed : (w.table 0).sequence w.survivors.contains = [.int 2, .int 1] := by
    rw [holds]; decide +kernel
  have small : w.rawLength 0 = 2 := by rw [World.rawLength, holds]; decide +kernel
  obtain ⟨w', failed, unsorted, written⟩ : ∃ w',
      (Action.sort calls 0 (some ⟨2, "f"⟩)).run w = (.error (.raised "stop"), w') ∧
        w'.table 0 = w.table 0 ∧ w'.rawGet 1 (.int 7) = some (.bool true) := by
    refine ⟨_, run_sort_pair_failed bare small listed rfl, ?_, ?_⟩
    · simp only [table_held]
      exact table_modifyTable_other _ _ (by decide)
    · have empty : w.table 1 = .empty := by
        unfold w World.table World.setTable
        rw [Objects.table_setTable_other _ _ (by decide)]
        simp [World.initial, Objects.none, Objects.table]
      simp only [World.rawGet, World.table_held, World.table_modifyTable, empty]
      decide +kernel
  exact ⟨w', failed, unsorted, written,
    failure_changes_nothing (.sort 0 (some ⟨2, "f"⟩)) failed⟩

end Operation

end HybridTable
