import HybridTable.Proofs.CheckedResizing
import HybridTable.Proofs.Reachable
import HybridTable.Proofs.Reclamation
import HybridTable.Proofs.WriteBack

/-! Operations on a world, in checked steps. Handlers are looked up in tables, and any table of the
world may be asked on the way, so that all of them have to be in order, also after a call of the
host. What calls do is not known; they are taken to change tables through operations only. -/
namespace HybridTable

/-- An action in checked steps. -/
abbrev CheckedAction (ε α : Type) := ExceptT Error (StateT (World ε) Checked) α

variable {ε α β : Type}

namespace World

/-- Every table has come about through operations. -/
def Orderly [Hashing] (w : World ε) : Prop := ∀ ref, (w.table ref).Reachable

theorem orderly_initial [Hashing] (host : ε) : (initial host).Orderly := fun ref =>
  table_initial host ref ▸ Table.reachable_empty

theorem Orderly.setTable [Hashing] {w : World ε} (orderly : w.Orderly) {t : Table}
    (reachable : t.Reachable) (ref : Ref) : (w.setTable ref t).Orderly := by
  intro other
  rw [table_setTable_eq_ite]
  split
  · exact reachable
  · exact orderly other

theorem Orderly.addTable [Hashing] {w : World ε} (orderly : w.Orderly) {t : Table}
    (reachable : t.Reachable) : (w.addTable t).2.Orderly :=
  Orderly.setTable (w := { w with objects := w.objects.fresh.2 }) orderly reachable _

/-- Calls change tables through operations only. -/
def KeepOrder [Hashing] (calls : Calls ε) : Prop :=
  ∀ f args w, Orderly w → Orderly ((calls f args).run w).2

section
variable [Hashing] (w : World ε)

/-- `World.rawGet` in checked steps. -/
def checkedRawGet (ref : Ref) (key : Value) : Checked (Option Value) :=
  (w.table ref).checkedGet w.survivors.contains key

/-- `World.rawGetText` in checked steps. -/
def checkedRawGetText (ref : Ref) (key : String) : Checked (Option Value) :=
  (w.table ref).checkedGetHashed w.survivors.contains (.text (.short key))

/-- The field of a metatable, if there is one. -/
def checkedField? (metatable : Option Ref) (event : Event) : Checked (Option Value) :=
  match metatable with
  | some ref => w.checkedRawGetText ref event.field
  | none => return none

/-- `World.holdsKey` in checked steps. -/
def checkedHoldsKey (key : Value) : Value → Checked Bool
  | .table ref => do return (← w.checkedRawGet ref key).isSome
  | _ => return false

/-- `World.handler?` in checked steps. -/
def checkedHandler? (v : Value) (event : Event) : Checked (Option Value) :=
  w.checkedField? (w.objects.metatable? v) event

/-- `World.destination` in checked steps. -/
def checkedDestination (event : Event) (key : Value) : Nat → Value → Checked Destination
  | 0, _ => return .unreached
  | links + 1, current => do
    match current, ← w.checkedHoldsKey key current, ← w.checkedHandler? current event with
    | .table ref, true, _ => return .table ref
    | .table ref, false, none => return .table ref
    | other, _, none => return .refused other.kind
    | self, _, some (.function f) => return .call f self
    | _, _, some next => checkedDestination event key links next

end

end World

namespace CheckedAction

/-- Meets a fault. -/
def fault (f : Fault) : CheckedAction ε α := fun _ => .error f

/-- `Action.holding` in checked steps. -/
def holding (values : List Value) (act : CheckedAction ε α) : CheckedAction ε α := fun w => do
  let (result, after) ← act { w with held := values :: w.held }
  return (result, { after with held := w.held })

variable [Hashing]

/-- `Action.index` in checked steps. -/
def index (calls : Calls ε) (object key : Value) : CheckedAction ε Value := fun w => do
  match ← w.checkedDestination .index key maxChain object with
  | .table ref => return (.ok ((← w.checkedRawGet ref key).getD .nil), w)
  | .call f self => return (firstResult <$> Action.call calls f [self, key]).run w
  | .refused kind => return (.error (.indexNonTable kind), w)
  | .unreached => return (.error (.handlerLoop .index), w)

/-- `Action.concatFrom` in checked steps. -/
def concatFrom (calls : Calls ε) (ref : Ref) (separator : String) (last key : Int64)
    (before : String) : CheckedAction ε String := do
  let value ← index calls (.table ref) (.int key)
  match value.concatText? with
  | none => throw (.invalidConcatValue key value.kind)
  | some text =>
    if key < last then
      if _ : key = Int64.maxValue then fault .overflow
      else concatFrom calls ref separator last (key + 1) (before ++ text ++ separator)
    else return before ++ text
termination_by keysLeft key
decreasing_by exact keysLeft_add_one ‹_›

/-- `Action.concat` in checked steps. -/
def concat (calls : Calls ε) (ref : Ref) (separator : String) (first last : Int64) :
    CheckedAction ε String :=
  if first ≤ last then concatFrom calls ref separator last first "" else pure ""

/-- `Action.valuesFrom` in checked steps: there has to be another key as long as there is another
value to come. -/
def valuesFrom (calls : Calls ε) (ref : Ref) :
    Nat → Int64 → List Value → CheckedAction ε (List Value)
  | 0, _, found => pure found.reverse
  | count + 1, key, found => do
    let value ← holding found (index calls (.table ref) (.int key))
    if count = 0 then return (value :: found).reverse
    else if key = Int64.maxValue then fault .overflow
    else valuesFrom calls ref count (key + 1) (value :: found)

/-- `Action.unpack` in checked steps. -/
def unpack (calls : Calls ε) (ref : Ref) (first last : Int64) : CheckedAction ε (List Value) :=
  if first ≤ last then
    let count := (last.toInt - first.toInt).toNat + 1
    if maxUnpack ≤ count then throw (.unpackTooLarge (min count 0xffffffffffffffff))
    else valuesFrom calls ref count first []
  else pure []

/-- `Action.setMetatable` in checked steps. -/
def setMetatable (ref : Ref) (metatable : Option Ref) : CheckedAction ε Unit := fun w => do
  let t := w.table ref
  if (← w.checkedField? t.metatable .metatable).isSome then
    return (.error .protectedMetatable, w)
  else
    let policy := WeakPolicy.ofMode (← w.checkedField? metatable .mode)
    let w := w.setTable ref .empty
    return (.ok (), w.setTable ref (← t.checkedAttachMetatable (w.liveWith ref) metatable policy))

end CheckedAction

/-! ## Nothing goes wrong -/

variable [Hashing]

namespace World

variable {w : World ε} (orderly : w.Orderly)
include orderly

theorem checkedRawGet_eq (ref : Ref) (key : Value) :
    w.checkedRawGet ref key = .ok (w.rawGet ref key) :=
  Table.checkedGet_eq (orderly ref).sound_bounded.1.room _ key

theorem checkedHoldsKey_eq (key v : Value) : w.checkedHoldsKey key v = .ok (w.holdsKey key v) := by
  cases v with
  | table ref =>
    rw [checkedHoldsKey, checkedRawGet_eq orderly]
    rfl
  | _ => rfl

theorem checkedField?_eq (metatable : Option Ref) (event : Event) :
    w.checkedField? metatable event = .ok (metatable.bind (w.rawGetText · event.field)) := by
  cases metatable with
  | none => rfl
  | some ref => exact Table.checkedGetHashed_eq (orderly ref).sound_bounded.1.room _ _

theorem checkedHandler?_eq (v : Value) (event : Event) :
    w.checkedHandler? v event = .ok (w.handler? v event) :=
  checkedField?_eq orderly (w.objects.metatable? v) event

theorem checkedDestination_eq (event : Event) (key : Value) (links : Nat) (current : Value) :
    w.checkedDestination event key links current = .ok (w.destination event key links current) := by
  induction links generalizing current with
  | zero => rfl
  | succ links ih =>
    unfold checkedDestination destination
    rw [checkedHoldsKey_eq orderly, Checked.ok_bind, checkedHandler?_eq orderly, Checked.ok_bind]
    generalize w.holdsKey key current = held
    cases w.handler? current event with
    | none => cases current <;> cases held <;> rfl
    | some handler =>
      cases handler with
      | function f => cases current <;> cases held <;> rfl
      | _ => cases current <;> cases held <;> first | rfl | exact ih _

end World

namespace CheckedAction

/-- Doing in checked steps what an action does, in every world that is in order, and leaving the
world in order. -/
def Follows (checked : CheckedAction ε α) (act : Action ε α) : Prop :=
  ∀ w, w.Orderly → checked w = .ok (act.run w) ∧ (act.run w).2.Orderly

variable {checked : CheckedAction ε α} {act : Action ε α} {calls : Calls ε}

theorem Follows.pure (a : α) : Follows (ε := ε) (Pure.pure a) (Pure.pure a) :=
  fun _ orderly => ⟨rfl, orderly⟩

theorem Follows.throw (e : Error) :
    Follows (throw e : CheckedAction ε α) (MonadExcept.throw e) :=
  fun _ orderly => ⟨rfl, orderly⟩

theorem Follows.bind {checkedNext : α → CheckedAction ε β} {next : α → Action ε β}
    (first : Follows checked act) (rest : ∀ a, Follows (checkedNext a) (next a)) :
    Follows (checked >>= checkedNext) (act >>= next) := by
  intro w orderly
  obtain ⟨same, orderly⟩ := first w orderly
  have continued : (checked >>= checkedNext) w =
      checked w >>= fun done => ExceptT.bindCont checkedNext done.1 done.2 := rfl
  rw [continued, same, Checked.ok_bind, Action.run_bind]
  rcases done : act.run w with ⟨failed | a, w'⟩ <;> rw [done] at orderly
  · exact ⟨rfl, orderly⟩
  · exact rest a w' orderly

omit [Hashing] in
theorem run_map (f : α → β) (act : Action ε α) (w : World ε) :
    (f <$> act).run w = ((act.run w).1.map f, (act.run w).2) := by
  rw [← bind_pure_comp, Action.run_bind]
  rcases act.run w with ⟨_ | _, _⟩ <;> rfl

/-- What is held meanwhile changes no table. -/
theorem Follows.holding (follows : Follows checked act) (values : List Value) :
    Follows (holding values checked) (Action.holding values act) := by
  intro w orderly
  obtain ⟨same, orderly⟩ := follows { w with held := values :: w.held } orderly
  unfold CheckedAction.holding
  rw [same]
  exact ⟨rfl, orderly⟩

/-- A change of the mode is that of a table in order, whoever holds what meanwhile. -/
theorem setMetatable_eq {w : World ε} (orderly : w.Orderly) (ref : Ref) (metatable : Option Ref) :
    setMetatable ref metatable w = .ok ((Action.setMetatable ref metatable).run w) := by
  have sound := (orderly ref).sound_bounded.1
  have started : (Action.setMetatable ref metatable).run w =
      if ((w.table ref).metatable.bind (w.rawGetText · Event.metatable.field)).isSome then
        (.error .protectedMetatable, w)
      else (.ok (), w.modifyTable ref fun live t => t.attachMetatable live metatable
        (.ofMode (metatable.bind (w.rawGetText · Event.mode.field)))) := by
    unfold Action.setMetatable
    dsimp only [ExceptT.run]
  unfold setMetatable
  dsimp only
  rw [World.checkedField?_eq orderly, Checked.ok_bind, started]
  split
  · rfl
  · rw [World.checkedField?_eq orderly, Checked.ok_bind,
      Table.checkedAttachMetatable_eq sound (.inr (World.liveWith_lawful _ ref))]
    rfl

variable (host : World.KeepOrder calls)
include host

theorem follows_index (object key : Value) :
    Follows (index calls object key) (Action.index calls object key) := by
  intro w orderly
  have started : (Action.index calls object key).run w =
      match w.destination .index key maxChain object with
      | .table ref => (.ok ((w.rawGet ref key).getD .nil), w)
      | .call f self => (firstResult <$> Action.call calls f [self, key]).run w
      | .refused kind => (.error (.indexNonTable kind), w)
      | .unreached => (.error (.handlerLoop .index), w) := by
    unfold Action.index
    rw [Action.run_bind]
    show (match w.destination .index key maxChain object with
      | .table ref => _
      | .call f self => _
      | .refused kind => _
      | .unreached => _ : Action ε Value).run w = _
    cases w.destination .index key maxChain object <;> rfl
  unfold index
  rw [World.checkedDestination_eq orderly, Checked.ok_bind, started]
  cases w.destination .index key maxChain object with
  | table ref =>
    dsimp only
    rw [World.checkedRawGet_eq orderly]
    exact ⟨rfl, orderly⟩
  | call f self =>
    refine ⟨rfl, ?_⟩
    dsimp only
    rw [run_map]
    exact host f [self, key] { w with held := [.function f, self, key] :: w.held } orderly
  | _ => exact ⟨rfl, orderly⟩

theorem follows_concatFrom (ref : Ref) (separator : String) (last key : Int64) (before : String) :
    Follows (concatFrom calls ref separator last key before)
      (Action.concatFrom calls ref separator last key before) := by
  unfold concatFrom Action.concatFrom
  refine (follows_index host _ _).bind fun value => ?_
  cases value.concatText? with
  | none => exact .throw _
  | some text =>
    dsimp only
    split
    · rename_i below
      have more := ne_greatest_of_lt below
      rw [dif_neg more, dif_neg more]
      exact follows_concatFrom ref separator last (key + 1) _
    · exact .pure _
termination_by keysLeft key
decreasing_by exact keysLeft_add_one ‹_›

theorem follows_concat (ref : Ref) (separator : String) (first last : Int64) :
    Follows (concat calls ref separator first last)
      (Action.concat calls ref separator first last) := by
  unfold concat Action.concat
  split
  · exact follows_concatFrom host ref separator last first _
  · exact .pure _

theorem follows_valuesFrom (ref : Ref) {count : Nat} {key : Int64} (found : List Value)
    (inside : key.toInt + count ≤ maxInt + 1) :
    Follows (valuesFrom calls ref count key found)
      (Action.valuesFrom calls ref count key found) := by
  induction count generalizing key found with
  | zero => exact .pure _
  | succ count ih =>
    refine ((follows_index host _ _).holding found).bind fun value => ?_
    cases count with
    | zero => exact .pure _
    | succ count =>
      have top : Int64.maxValue.toInt = maxInt := rfl
      have more : key ≠ Int64.maxValue := by
        rintro rfl
        omega
      rw [if_neg (Nat.succ_ne_zero count), if_neg more]
      exact ih (value :: found) (by rw [toInt_add_one more]; omega)

theorem follows_unpack (ref : Ref) (first last : Int64) :
    Follows (unpack calls ref first last) (Action.unpack calls ref first last) := by
  unfold unpack Action.unpack
  split
  · dsimp only
    split
    · exact .throw _
    · have range := Int64.le_iff_toInt_le.mp ‹first ≤ last›
      have bound := last.toInt_lt
      have top : (maxInt : Int) = 2 ^ 63 - 1 := rfl
      exact follows_valuesFrom host ref [] (by omega)
  · exact .pure _

end CheckedAction

end HybridTable
