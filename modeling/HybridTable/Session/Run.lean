import HybridTable.Json.Bridge
import HybridTable.Json.Parser
import HybridTable.Session.Listing
import HybridTable.Session.Storage
import HybridTable.World.Library

/-!
Running commands.

A command is run with the meaning of a call as a parameter. `callsWithin` ties the knot: it gives
calls a meaning for a limited nesting, of which each level runs the bodies of functions with the
meaning that calls have on the level below.
-/

namespace HybridTable.Session

/-- The greatest number of calls of functions that run at a time. -/
def maxCallDepth : Nat := 30

/-- The greatest number of pairs of a walk. A body that keeps adding pairs would never come to an
end otherwise. -/
def maxWalk : Nat := 0x100000000

/-- What a command leaves: its answer, and the value that can be kept under a name. -/
structure Yield where
  /-- The answer. -/
  answer : Answer
  /-- The value to keep; `nil` if the answer is not a value. -/
  value : Value

namespace Yield

/-- An answer that is not a value. -/
def plain (answer : Answer) : Yield := ⟨answer, .nil⟩

/-- A value as the answer. -/
def ofValue (v : Value) : Yield := ⟨.value v, v⟩

/-- The results of a call. -/
def ofResults (vs : List Value) : Yield := ⟨.results vs, firstResult vs⟩

/-- A pair, of which the key can be kept. -/
def ofPair (p : Option (Value × Value)) : Yield := ⟨.pair p, (p.map Prod.fst).getD .nil⟩

end Yield

/-- The order that a comparator defines, or the usual one. -/
def orderOf (calls : Calls Session) : Option Function → Order Session
  | some f => Action.orderBy calls f
  | none => Action.lessThan calls

/-- Shows a pair. -/
def showPair (session : Session) (pair : Value × Value) : Shown × Shown :=
  (session.shown pair.1, session.shown pair.2)

/-- Traverses a table from a key on, running a step for each pair while its halves are held. A pair
is shown with the labels that its halves have after that step. -/
def walkFrom (t : Ref) (each : Value → Value → Step Unit) :
    Nat → Value → List (Shown × Shown) → Step (List (Shown × Shown))
  | 0, _, met => pure met.reverse
  | limit + 1, key, met => do
    let w ← get
    match (w.table t).next (survivorsBeside w key.refs).contains key with
    | .error e => throw (.table e)
    | .ok none => return met.reverse
    | .ok (some (key, value)) =>
      Step.holding [key, value] (each key value)
      walkFrom t each limit key (showPair (← get).host (key, value) :: met)

/-- How many numbers there are from `first` on, in steps of `step`, that are not beyond `last`. -/
def stepCount (first last step : Int64) : Nat :=
  if 0 < step then (Int.fdiv (last.toInt - first.toInt) step.toInt + 1).toNat
  else if step < 0 then (Int.fdiv (first.toInt - last.toInt) (-step.toInt) + 1).toNat
  else 0

/-- The key that a pattern makes of a number. -/
def keyOf (pattern : KeyPattern) (i : Int64) : Step Value :=
  match pattern with
  | .int => pure (.int i)
  | .half => pure (.float (.add (.ofInt i.toInt) ⟨0x3fe0000000000000⟩))
  | .bit => pure (.int (1 <<< (i &&& 63)))
  | .short => Step.evalOnly [] (.text ("k" ++ toString i.toInt))
  | .long =>
    let filler := String.ofList (List.replicate 50 'x')
    Step.evalOnly [] (.text ("k" ++ toString i.toInt ++ "-" ++ filler))

/-- Stores so many pairs of a run in a table of the given capacities, and notes each number at which
these changed. The value of each pair is made anew, and is the number itself if none is made. -/
def fillFrom (t : Ref) (step : Int64) (pattern : KeyPattern) (make : Option (Step Value)) :
    Nat → Int64 → Nat × Nat → List (Int64 × Nat × Nat) → Step (List (Int64 × Nat × Nat))
  | 0, _, _, changes => pure changes.reverse
  | count + 1, i, before, changes => do
    let key ← keyOf pattern i
    let v ← make.getD (pure (.int i))
    Step.ofAction (Action.rawSet t key v)
    let after := ((← get).table t).capacities
    fillFrom t step pattern make count (i + step) after
      (if before = after then changes else (i, after) :: changes)

/-- Makes a chain of tables whose last one is `last`, from its end on; the first one comes first. -/
def chainOnto (event : Event) : Nat → List Value → Step (List Value)
  | 0, tables => pure tables
  | links + 1, tables => do
    let t ← modifyGet (·.addTable .empty)
    let metatable ← modifyGet (·.addTable .empty)
    match t, metatable, tables with
    | .table ref, .table metatable, next :: _ => Step.ofAction do
      Action.rawSet metatable (.text (.short event.field)) next
      Action.setMetatable ref (some metatable)
    | _, _, _ => pure ()
    chainOnto event links (t :: tables)

/-- The names under which the first three tables of a chain and its last one are kept. -/
def chainNames (links : Nat) : List Nat := [0, 1, 2].filter (· ≤ links) ++ [links]

/-- Makes a chain of tables and keeps some of them under names. -/
def makeChain (links : Nat) (event : Event) : Step Unit := do
  let last ← modifyGet (·.addTable .empty)
  let tables ← chainOnto event links [last]
  (chainNames links).forM fun i => Step.save ("c" ++ toString i) (tables[i]?.getD .nil)

/-- What can be answered of userdata. -/
def userdataAnswer (w : World Session) (ref : Ref) : Answer :=
  .userdata ((w.objects.userdata[ref]?.map Userdata.data).getD 0)
    ((w.objects.metatable? (.userdata ref)).map Value.table)

/-- The constants that bound tables and operations on them. -/
def limits : List Nat :=
  [minHashCapacity, maxArrayBits, maxArrayKey, maxShortText, maxChain, maxUnpack,
    maxSort.toInt.toNat]

/-- Lists the keys of pairs that were met by a traversal. -/
def listPairs (arrayCapacity : Nat) (pairs : List (Shown × Shown)) : List (Shown × Shown) :=
  listed Prod.fst arrayCapacity pairs

mutual

/-- Runs a command with arguments for its operands. -/
def run (calls : Calls Session) (args : List Value) : Command → Step Yield
  | .save name command => do
    let yield ← run calls args command
    Step.save name yield.value
    return yield
  | .misuse reason => throw (.misuse reason)
  | .value v => return .ofValue (← Step.eval args v)
  | .drop names => do
    Step.drop names
    return .plain .nothing
  | .isAlive label => do
    let w ← get
    return .plain (.flag (w.host.labelled[label]?.map w.survivors.contains))
  | .newTable positions entries =>
    return .ofValue (← modifyGet (·.addTable (.withCapacity positions entries)))
  | .newTableOfParts named positional => do
    let named ← named.mapM fun (k, v) => return (← Step.eval args k, ← Step.eval args v)
    let positional ← Step.evalAll args positional
    match Table.ofParts named positional with
    | .ok t => return .ofValue (← modifyGet (·.addTable t))
    | .error e => throw (.table e)
  | .newTableOfArguments values => do
    let values ← Step.evalAll args values
    return .ofValue (← modifyGet (·.addTable (.ofArguments values)))
  | .newFunction name body returned logged => do
    let ref ← modifyGet fun w =>
      let (ref, objects) := w.objects.fresh
      (ref, { w with objects })
    modify fun w => { w with host := { w.host with
      scripts := w.host.scripts.insert ref ⟨body, returned, logged⟩ } }
    return .ofValue (.function ⟨ref, name⟩)
  | .newUserdata data => do
    let ref ← modifyGet fun w =>
      let (ref, objects) := w.objects.fresh
      (ref, { w with objects := { objects with
        userdata := objects.userdata.insert ref ⟨data, none⟩ } })
    return .ofValue (.userdata ref)
  | .readUserdata u => do
    let ref ← Step.evalUserdata args u
    return .plain (userdataAnswer (← get) ref)
  | .setUserdataMetatable u metatable => do
    let ref ← Step.evalUserdata args u
    let metatable ← Step.evalMetatable args metatable
    modify fun w => { w with objects := { w.objects with
      userdata := w.objects.userdata.modify ref ({ · with metatable }) } }
    return .plain (userdataAnswer (← get) ref)
  | .newThread => do
    let ref ← modifyGet fun w =>
      let (ref, objects) := w.objects.fresh
      (ref, { w with objects := { objects with
        threads := objects.threads.insert ref .suspended } })
    return .ofValue (.thread ref)
  | .threadStatus thread next => do
    let ref ← Step.evalThread args thread
    let before := (← get).objects.threads[ref]?.getD .dead
    let after := next.getD before
    modify fun w => { w with objects := { w.objects with
      threads := w.objects.threads.insert ref after } }
    return .plain (.threadStatus before after)
  | .get t k => do
    let t ← Step.evalTable args t
    let k ← Step.eval args k
    return .ofValue (← Step.ofAction (Action.index calls (.table t) k))
  | .getInt t k => do
    let t ← Step.evalTable args t
    let k ← Step.evalInt args k
    return .ofValue (← Step.ofAction (Action.getInt calls t k))
  | .set t k v => do
    let t ← Step.evalTable args t
    let k ← Step.eval args k
    let v ← Step.eval args v
    Step.ofAction (Action.set calls t k v)
    return .plain .nothing
  | .setInt t k v => do
    let t ← Step.evalTable args t
    let k ← Step.evalInt args k
    let v ← Step.eval args v
    Step.ofAction (Action.setInt calls t k v)
    return .plain .nothing
  | .rawGet t k => do
    let t ← Step.evalTable args t
    let k ← Step.eval args k
    return .ofValue (((← get).rawGet t k).getD .nil)
  | .rawGetText t k => do
    let t ← Step.evalTable args t
    return .ofValue (((← get).rawGetText t k).getD .nil)
  | .rawSet t k v => do
    let t ← Step.evalTable args t
    let k ← Step.eval args k
    let v ← Step.eval args v
    Step.ofAction (Action.rawSet t k v)
    return .plain .nothing
  | .length t => do
    let t ← Step.evalTable args t
    return .ofValue (.int (← Step.ofAction (Action.length calls t)))
  | .rawLength t => do
    let t ← Step.evalTable args t
    return .ofValue (.int (Int64.ofNat ((← get).rawLength t)))
  | .next t k => do
    let t ← Step.evalTable args t
    let k ← Step.eval args k
    let w ← get
    match (w.table t).next w.survivors.contains k with
    | .ok pair => return .ofPair pair
    | .error e => throw (.table e)
  | .nextInt t k => do
    let t ← Step.evalTable args t
    let k ← Step.evalInt args k
    let w ← get
    return .ofPair (((w.table t).nextInt w.survivors.contains k).map fun (k, v) => (.int k, v))
  | .valuesAfter t k => do
    let t ← Step.evalTable args t
    let k ← Step.evalInt args k
    let w ← get
    return .plain (.values ((w.table t).valuesAfter w.survivors.contains k))
  | .keyCount t => do
    let t ← Step.evalTable args t
    let w ← get
    return .plain (.number ((w.table t).keys w.survivors.contains).length)
  | .keys t => do
    let t ← Step.evalTable args t
    let w ← get
    let keys := ((w.table t).keys w.survivors.contains).map w.host.shown
    return .plain (.keys (listed id (w.table t).arrayCapacity keys))
  | .walk t each => do
    let t ← Step.evalTable args t
    let capacity := ((← get).table t).arrayCapacity
    let met ← walkFrom t (fun k v => runAll calls [k, v] each) maxWalk .nil []
    return .plain (.pairs (listPairs capacity met))
  | .fill t first last step pattern v => do
    let t ← Step.evalTable args t
    let make := v.map (Step.evalOnly args)
    let count := stepCount first last step
    let before := ((← get).table t).capacities
    return .plain (.growth (← fillFrom t step pattern make count first before []))
  | .insert t position v => do
    let t ← Step.evalTable args t
    let position ← Step.evalInt args position
    let v ← Step.eval args v
    modify (·.modifyTable t fun live table => table.insert live position v)
    return .plain .nothing
  | .remove t position => do
    let t ← Step.evalTable args t
    let position ← Step.evalInt args position
    let removed ← modifyGet fun w => w.removeAt t position
    return .ofValue (removed.getD .nil)
  | .concat t separator first last => do
    let t ← Step.evalTable args t
    let first ← Step.evalInt args first
    let last ← Step.evalInt args last
    let joined ← Step.ofAction (Action.concat calls t separator first last)
    return .ofValue (← modifyGet (·.addText joined))
  | .unpack t first last => do
    let t ← Step.evalTable args t
    let first ← Step.evalInt args first
    let last ← Step.evalInt args last
    return .ofResults (← Step.ofAction (Action.unpack calls t first last))
  | .unpackAll t => do
    let t ← Step.evalTable args t
    return .ofResults (← Step.ofAction (Action.unpackAll calls t))
  | .sort t comparator => do
    let t ← Step.evalTable args t
    let comparator ← comparator.mapM (Step.evalFunction args)
    Step.ofAction (Action.sort calls t comparator)
    return .plain .nothing
  | .sortBy t comparator => do
    let t ← Step.evalTable args t
    let comparator ← comparator.mapM (Step.evalFunction args)
    Step.ofAction (Action.sortBy (orderOf calls comparator) t)
    return .plain .nothing
  | .heapSort values comparator => do
    let values ← Step.evalAll args values
    let comparator ← comparator.mapM (Step.evalFunction args)
    let (verdict, sorted) ← (Action.sortValues (orderOf calls comparator) values : StateM _ _)
    return .plain (.sorted sorted (match verdict with
      | .ok () => none
      | .error e => some (.table e)))
  | .sequence t => do
    let t ← Step.evalTable args t
    let w ← get
    return .plain (.values ((w.table t).sequence w.survivors.contains))
  | .setMetatable t metatable => do
    let t ← Step.evalTable args t
    let metatable ← Step.evalMetatable args metatable
    Step.ofAction (Action.setMetatable t metatable)
    return .plain .nothing
  | .getMetatable t => do
    let t ← Step.evalTable args t
    return .ofValue ((((← get).table t).metatable.map Value.table).getD .nil)
  | .presize t positions => do
    let t ← Step.evalTable args t
    modify (·.modifyTable t fun live table => table.presizeArray live positions)
    return .plain .nothing
  | .layout t => do
    let t ← Step.evalTable args t
    let table := (← get).table t
    return .plain (.layout ⟨table.arrayCapacity, table.hashCapacity, table.count,
      table.metatable.isSome, table.policy⟩)
  | .policy t => do
    let t ← Step.evalTable args t
    return .plain (.policy ((← get).table t).policy)
  | .chain links event => do
    makeChain links event
    return .plain .nothing
  | .rawEqual left right => do
    let left ← Step.eval args left
    let right ← Step.eval args right
    return .plain (.flag (left.rawEqual right))
  | .equals left right => do
    let left ← Step.eval args left
    let right ← Step.eval args right
    return .plain (.flag (← Step.ofAction (Action.equals calls left right)))
  | .lessThan left right => do
    let left ← Step.eval args left
    let right ← Step.eval args right
    return .ofValue (.bool (← Step.ofAction (Action.lessThan calls left right)))
  | .index object k => do
    let object ← Step.eval args object
    let k ← Step.eval args k
    return .ofValue (← Step.ofAction (Action.index calls object k))
  | .assign object k v => do
    let object ← Step.eval args object
    let k ← Step.eval args k
    let v ← Step.eval args v
    Step.ofAction (Action.assign calls object k v)
    return .plain .nothing
  | .handler v event => do
    let v ← Step.eval args v
    return .ofValue (((← get).handler? v event).getD .nil)
  | .callHandler handler arguments => do
    let handler ← Step.eval args handler
    let arguments ← Step.evalAll args arguments
    return .ofResults (← Step.ofAction (Action.callHandler calls handler arguments))
  | .call f arguments => do
    let f ← Step.evalFunction args f
    let arguments ← Step.evalAll args arguments
    return .ofResults (← Step.ofAction (Action.call calls f arguments))
  | .results values => return .plain (.resultView (← Step.evalAll args values))
  | .compareTexts left right => do
    match ← Step.eval args left, ← Step.eval args right with
    | .text a, .text b =>
      return .plain (.comparison (compare a.content b.content) (a.content == b.content)
        (Hashing.ofText a.content == Hashing.ofText b.content))
    | _, _ => throw (.misuse "not a string")
  | .mode v => return .plain (.policy (.ofMode (← v.mapM (Step.eval args))))
  | .limits => return .plain (.numbers limits)
  | .inspect v => do
    let v ← Step.eval args v
    return .plain (.inspection (inspect (← get) v))
  | .entry policy k v probes mask limit drops replacement => do
    let k ← Step.evalOnly args k
    let v ← Step.evalOnly args v
    let made := Entry.make policy k v
    Step.drop drops
    let view (e : Entry) : Step EntryView := do
      let probes ← probes.mapM (Step.evalOnly args)
      return viewEntry (← get) e probes mask limit
    let first ← view made
    match replacement with
    | none => return .plain (.entry [first])
    | some (v, policy) =>
      let v ← Step.evalOnly args v
      return .plain (.entry [first, ← view (made.replace policy v)])
  | .tombstone k probes mask drops => do
    let key := Cell.forTombstone (← Step.evalOnly args k)
    Step.drop drops
    let probes ← probes.mapM (Step.evalOnly args)
    return .plain (.tombstone (viewTombstone (← get) key probes mask))
  | .cell policy v probes drops => do
    let c := policy.valueCell (← Step.evalOnly args v)
    Step.drop drops
    let probes ← probes.mapM (Step.evalOnly args)
    return .plain (.cell (viewCell (← get) c probes))
  | .toJson v pretty => do
    let v ← Step.eval args v
    match (← get).toJson v with
    | .ok json => return .plain (.text (json.print (if pretty then some 0 else none)))
    | .error e => throw (.json e.message)
  | .ofJson text => do
    match Json.parse? text with
    | some json => return .ofValue (← Step.ofAction (Action.ofJson json))
    | none => throw .jsonSyntax
  | .reprintJson text => do
    match Json.parse? text with
    | some json =>
      let v ← Step.ofAction (Action.ofJson json)
      match (← get).toJson v with
      | .ok json => return .plain (.text (json.print none))
      | .error e => throw (.json e.message)
    | none => throw .jsonSyntax
  | .add left right => do
    return .ofValue (.int ((← Step.evalInt args left) + (← Step.evalInt args right)))
  | .branch condition yes no => do
    -- the body may let go of what the condition was read from
    if (← Step.evalOnly args condition).isTruthy then runAll calls args yes
    else runAll calls args no
    return .plain .nothing
  | .raise message => throw (.table (.raised message))

/-- Runs commands one after the other, up to the first that fails. -/
def runAll (calls : Calls Session) (args : List Value) : List Command → Step Unit
  | [] => pure ()
  | command :: rest => do
    discard <| Step.holding [] (run calls args command)
    runAll calls args rest

end

/-- Calls a function, whose body is run with the meaning that calls have on the level below. -/
def callScript (below : Calls Session) : Calls Session := fun f args => Step.toAction do
  match (← get).host.scripts[f.ref]? with
  | none => return []
  | some script =>
    if script.logged then
      modify fun w => { w with host := { w.host with
        log := ⟨f.name, args.map w.host.shown⟩ :: w.host.log } }
    runAll below args script.body
    match script.returned with
    | .arguments => return args
    | .values operands => operands.mapM (Step.evalOnly args)

/-- Calls of functions in so many levels; a call on a deeper one is refused. -/
def callsWithin : Nat → Calls Session
  | 0 => fun _ _ => throw (.raised "call depth")
  | levels + 1 => callScript (callsWithin levels)

/-- The table that a command may change and whose sizes are reported. -/
def Command.watched? : Command → Option Operand
  | .save _ command => command.watched?
  | .set t _ _ | .setInt t _ _ | .rawSet t _ _ | .insert t _ _ | .remove t _ | .sort t _
  | .sortBy t _ | .presize t _ | .fill t .. | .setMetatable t _ | .walk t _ => some t
  | _ => none

/-- The sizes of the table that an operand refers to by name. -/
def sizesOf (w : World Session) : Operand → Option Sizes
  | .kept name =>
    match w.kept[name]? with
    | some (.table ref) =>
      let t := w.table ref
      some ⟨t.length w.survivors.contains, t.arrayCapacity, t.hashCapacity, t.count⟩
    | _ => none
  | _ => none

/-- Runs a command of a session and reports on it. -/
def execute (command : Command) : StateM (World Session) Report := fun w =>
  let step := Step.holding [] (run (callsWithin maxCallDepth) [] command)
  let (result, w) := step.run { w with host := { w.host with log := [] } }
  (⟨result.map Yield.answer, w.host.log.reverse, command.watched?.bind (sizesOf w)⟩, w)

end HybridTable.Session
