import HybridTable.Proofs.Reachable

/-! What all operations keep. Every operation on tables is put together from a few writes: of a
position, of a chain, and of all storage at once when it moves. A property that these keep holds of
every table that can come about, of whatever size. What the operations take to be alive may be
restricted to environments of some kind, such as those that spare what is held; an operation holds
more while it runs, and a new table is filled while nothing is reclaimed. -/
namespace HybridTable

/-- A kind of environment that does not change when more is held, and of which that is in which
nothing is ever reclaimed. -/
structure Liveness.Closed (kind : Liveness → Prop) : Prop where
  /-- Nothing is reclaimed. -/
  nothing : kind Table.nothingReclaimed
  /-- A further holder does not change the kind. -/
  holding : ∀ {live : Liveness} (refs : List Ref), kind live → kind (live.holding refs)

theorem Liveness.closed_any : Closed fun _ => True := ⟨trivial, fun _ _ => trivial⟩

theorem Liveness.closed_lawful : Closed Lawful :=
  ⟨Table.nothingReclaimed_lawful, fun refs lawful => lawful.holding refs⟩

/-- What is written at a position is what the policy makes of a value. -/
theorem WeakPolicy.eq_valueCell {policy : WeakPolicy} {value : Value} {c : Cell}
    (made : (if value.isNil then none else some (policy.valueCell value)) = some c) :
    c = policy.valueCell c.content := by
  split at made
  · cases made
  · cases made
    rw [content_valueCell]

namespace Table

variable [Hashing] {t : Table} {kind : Liveness → Prop}

/-- The tables that operations can leave behind which run in environments of some kind, of whatever
size the tables are. -/
inductive ArisesIn (kind : Liveness → Prop) : Table → Prop
  /-- A new table. -/
  | made {origin : Origin} {t : Table} (built : origin.build = .ok t) : ArisesIn kind t
  /-- A write that may be refused, more room, or another metatable with any mode. -/
  | changed {t : Table} {live : Liveness} (c : Change) (earlier : ArisesIn kind t)
    (runs : kind live) : ArisesIn kind (c.perform live t)
  /-- An insertion into a list. -/
  | inserted {t : Table} {live : Liveness} (key : Int64) (value : Value)
    (earlier : ArisesIn kind t) (runs : kind live) : ArisesIn kind (t.insert live key value)
  /-- A removal from a list that found something to remove. -/
  | removed {t t' : Table} {live : Liveness} {key : Int64} {value : Value}
    (earlier : ArisesIn kind t) (runs : kind live)
    (found : t.remove live key = some (value, t')) : ArisesIn kind t'
  /-- A sort during which the table could not be changed. -/
  | sortedBy {σ ε : Type} {less : Sort.Comparison Value σ ε} {alive : Ref → Bool} {t t' : Table}
    {s s' : σ} (earlier : ArisesIn kind t) (sorted : t.sortBy less alive s = (.ok t', s')) :
    ArisesIn kind t'
  /-- Values, however sorted, that are written back to what has become of the table meanwhile. -/
  | sorted {t : Table} (values : List Value) (earlier : ArisesIn kind t) :
    ArisesIn kind (t.storeSequence values)

/-- A run of changes leads from one table that can come about to another. -/
theorem ArisesIn.after (arises : t.ArisesIn kind) {steps : List (Liveness × Change)}
    (runs : ∀ step ∈ steps, kind step.1) : (t.after steps).ArisesIn kind := by
  induction steps generalizing t with
  | nil => exact arises
  | cons step rest ih =>
    obtain ⟨first, later⟩ := List.forall_mem_cons.mp runs
    exact ih (.changed step.2 arises first) later

/-- Being kept by the writes of which all operations are made. -/
structure Kept (kind : Liveness → Prop) (P : Table → Prop) : Prop where
  /-- It holds of tables without pairs. -/
  sized : ∀ arrayCapacity hashCapacity metatable policy,
    P (Table.sized arrayCapacity hashCapacity metatable policy)
  /-- A position is written with what the policy makes of a value, or cleared. -/
  setCell : ∀ {t : Table} (position : Nat) {cell : Option Cell},
    (∀ c, cell = some c → c = t.policy.valueCell c.content) → P t → P (t.setCell position cell)
  /-- A pair is stored in the hash region, or removed from it. -/
  setHashed : ∀ {t : Table} {live : Liveness} {key : Value} (value : Value), kind live →
    key.keyDefect? = none → P t → P (t.setHashed live key value)
  /-- The array region is enlarged. -/
  presizeArray : ∀ {t : Table} {live : Liveness} (positions : Nat), kind live →
    P t → P (t.presizeArray live positions)
  /-- Another metatable is attached, and the policy that comes with it. -/
  attachMetatable : ∀ {t : Table} {live : Liveness} (metatable : Option Ref) (policy : WeakPolicy),
    kind live → P t → P (t.attachMetatable live metatable policy)

namespace Kept

variable {P : Table → Prop} (kept : Kept kind P) {live : Liveness} {value : Value}
include kept

theorem setPosition (holds : P t) (position : Nat) (value : Value) :
    P (t.setPosition position value) :=
  kept.setCell position (fun _ => WeakPolicy.eq_valueCell) holds

theorem storeSequence (holds : P t) (values : List Value) : P (t.storeSequence values) := by
  unfold Table.storeSequence
  generalize values.zipIdx = items
  induction items generalizing t with
  | nil => exact holds
  | cons item rest ih =>
    refine ih (kept.setCell item.2 (fun c same => ?_) holds)
    cases same
    rw [WeakPolicy.content_valueCell]

theorem setInt {i : Int64} (runs : kind live) (holds : P t) : P (t.setInt live i value) := by
  unfold Table.setInt
  split
  · exact kept.setPosition holds ..
  · exact kept.setHashed value runs rfl holds

theorem put {key : Value} (runs : kind live) (valid : key.keyDefect? = none) (holds : P t) :
    P (t.put live key value) := by
  unfold Table.put
  split
  · exact kept.setInt runs holds
  · exact kept.setHashed value runs (key.keyDefect?_normalize.trans valid) holds

theorem set {key : Value} {t' : Table} (runs : kind live) (holds : P t)
    (done : t.set live key value = .ok t') : P t' := by
  unfold Table.set at done
  split at done <;> cases done
  rename_i valid
  exact kept.put runs valid holds

theorem perform (runs : kind live) (holds : P t) (c : Change) : P (c.perform live t) := by
  cases c with
  | set key value =>
    show P ((t.set live key value).toOption.getD t)
    cases done : t.set live key value with
    | error e => exact holds
    | ok t' => exact kept.set runs holds done
  | setInt i value => exact kept.setInt runs holds
  | presize positions => exact kept.presizeArray positions runs holds
  | attach metatable mode => exact kept.attachMetatable metatable (.ofMode mode) runs holds

/-! ## Lists -/

section
variable (closed : Liveness.Closed kind)
include closed

theorem shiftUp {t : Table} {i : Int64} {value : Value} (runs : kind live) (holds : P t) :
    P (t.shiftUp live i value) := by
  fun_induction Table.shiftUp live t i value with
  | case1 => exact holds
  | case2 => exact kept.setInt (closed.holding _ runs) holds
  | case3 t i value _ displaced t' _ ih => exact ih (kept.setInt (closed.holding _ runs) holds)

omit closed in
theorem shiftDown {t : Table} {i : Int64} (runs : kind live) (holds : P t) :
    P (t.shiftDown live i) := by
  fun_induction Table.shiftDown live t i with
  | case1 => exact kept.setInt runs holds
  | case2 t i _ value _ ih => exact ih (kept.setInt runs holds)
  | case3 => exact kept.setInt runs holds

theorem insert {i : Int64} (runs : kind live) (holds : P t) : P (t.insert live i value) := by
  unfold Table.insert
  dsimp only
  split
  · split
    · exact kept.shiftUp closed runs holds
    · exact holds
  · exact kept.shiftUp closed runs holds

theorem remove {i : Int64} {t' : Table} (runs : kind live) (holds : P t)
    (done : t.remove live i = some (value, t')) : P t' := by
  unfold Table.remove at done
  dsimp only at done
  generalize (if i = 0 then _ else i : Int64) = i at done
  split at done
  · cases done
  · obtain ⟨removed, _, same⟩ := Option.map_eq_some_iff.mp done
    cases same
    exact kept.shiftDown (closed.holding _ runs) holds

/-! ## New tables -/

theorem ofSequence (values : List Value) (entries : Nat) : P (ofSequence values entries) := by
  have filling (items : List (Value × Nat)) (t : Table) (holds : P t) :
      P (items.foldl (fun t item => if item.1.isNil then t
        else t.setInt nothingReclaimed (Int64.ofNat (item.2 + 1)) item.1) t) := by
    induction items generalizing t with
    | nil => exact holds
    | cons item rest ih =>
      refine ih _ ?_
      dsimp only
      split
      · exact holds
      · exact kept.setInt closed.nothing holds
  exact filling _ _ (kept.sized ..)

theorem build {origin : Origin} (built : origin.build = .ok t) : P t := by
  cases origin with
  | empty =>
    cases built
    exact kept.sized ..
  | capacity positions entries =>
    cases built
    exact kept.sized ..
  | parts named positional =>
    have storing (pairs : List (Value × Value)) (start : Table) (holds : P start)
        (stored : pairs.foldlM (fun t pair => t.set nothingReclaimed pair.1 pair.2) start = .ok t) :
        P t := by
      induction pairs generalizing start with
      | nil =>
        cases stored
        exact holds
      | cons pair rest ih =>
        rw [List.foldlM_cons] at stored
        cases done : start.set nothingReclaimed pair.1 pair.2 with
        | error e =>
          rw [done] at stored
          cases stored
        | ok next =>
          rw [done] at stored
          exact ih next (kept.set closed.nothing holds done) stored
    exact storing _ _ (kept.ofSequence closed ..) built
  | arguments values =>
    cases built
    exact kept.setHashed _ closed.nothing rfl (kept.ofSequence closed ..)

/-- What single writes keep holds of every table that operations can leave behind. -/
theorem arisesIn (arises : t.ArisesIn kind) : P t := by
  induction arises with
  | made built => exact kept.build closed built
  | changed c _ runs ih => exact kept.perform runs ih c
  | inserted key value _ runs ih => exact kept.insert closed runs ih
  | removed _ runs found ih => exact kept.remove closed runs ih found
  | sortedBy _ sorted ih =>
    unfold Table.sortBy at sorted
    dsimp only at sorted
    split at sorted
    · cases sorted
      exact ih
    · split at sorted <;> cases sorted
      exact kept.storeSequence ih _
  | sorted values _ ih => exact kept.storeSequence ih values

end

end Kept

end Table

end HybridTable
