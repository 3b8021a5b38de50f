import HybridTable.Proofs.Construction
import HybridTable.Proofs.HandlerChains

/-! Assigning to a key of a table. What cannot be a key is turned away first, unless a function is
there to deal with it; everything else follows the chain of handlers, at whose end one table is
written, or one function is called, or nothing is done. Other tables are left alone, and no table
gets a slot for what cannot be a key. -/
namespace HybridTable

variable {ε : Type}

namespace World

/-- Every table has come about through operations, of whatever size. -/
def Arising [Hashing] (w : World ε) : Prop := ∀ ref, (w.table ref).Arises

theorem arising_modifyTable [Hashing] {w : World ε} (arising : w.Arising) (ref : Ref)
    {f : Liveness → Table → Table} (changes : ∀ live t, t.Arises → (f live t).Arises) :
    (w.modifyTable ref f).Arising := by
  intro other
  by_cases same : ref = other
  · rw [← same, table_modifyTable]
    exact changes _ _ (arising ref)
  · rw [table_modifyTable_other w f same]
    exact arising other

variable [Hashing] {w : World ε} {event : Event} {key : Value}

theorem rawGet_normalize (ref : Ref) : w.rawGet ref key.normalize = w.rawGet ref key :=
  (w.table ref).get_normalize _ key

/-- Where a chain ends is a matter of the key, not of its spelling. -/
theorem destination_normalize (links : Nat) (v : Value) :
    w.destination event key.normalize links v = w.destination event key links v := by
  have same : w.holdsKey key.normalize = w.holdsKey key := by
    funext v
    cases v with
    | table ref => exact congrArg Option.isSome (rawGet_normalize ref)
    | _ => rfl
  induction links generalizing v with
  | zero => rfl
  | succ links ih =>
    unfold destination
    simp only [same, ih]

end World

namespace Action

variable [Hashing] {calls : Calls ε} {w : World ε} {ref : Ref} {key value : Value}

theorem run_rawSet (valid : key.keyDefect? = none) : (rawSet ref key value : Action ε Unit).run w =
    (.ok (), w.modifyTable ref fun live t => t.put live key value) := by
  show rawSet ref key value w = _
  unfold rawSet
  rw [valid]

theorem put_normalize (live : Liveness) (t : Table) :
    t.put live key.normalize value = t.put live key value := by
  unfold Table.put
  rw [key.normalize_normalize]

/-- A valid key is assigned at once, in its normal form. -/
theorem run_set_of_valid (valid : key.keyDefect? = none) : (set calls ref key value).run w =
    (assign calls (.table ref) key.normalize value).run w := by
  have normal : key.normalize.keyDefect? = none := key.keyDefect?_normalize.trans valid
  unfold set
  dsimp only
  rw [normal, run_bind, show (get : Action ε (World ε)).run w = (.ok w, w) from rfl]

/-- An integer is always a key. -/
theorem run_setInt (k : Int64) :
    (setInt calls ref k value).run w = (set calls ref (.int k) value).run w := by
  rw [run_set_of_valid (show (Value.int k).keyDefect? = none from rfl)]
  rfl

/-- What is assigned under a valid key goes where the chain of handlers ends. -/
theorem run_set (valid : key.keyDefect? = none) : (set calls ref key value).run w =
    match w.destination .newIndex key maxChain (.table ref) with
    | .table target => (rawSet target key value).run w
    | .call f self => ((calling calls f [self, key.normalize, value] w).1.map fun _ => (),
        (calling calls f [self, key.normalize, value] w).2)
    | .refused kind => (.error (.indexNonTable kind), w)
    | .unreached => (.error (.handlerLoop .newIndex), w) := by
  have normal : key.normalize.keyDefect? = none := key.keyDefect?_normalize.trans valid
  rw [run_set_of_valid valid, run_assign, World.destination_normalize]
  cases w.destination .newIndex key maxChain (.table ref) with
  | table target =>
    dsimp only
    rw [run_rawSet normal, run_rawSet valid]
    simp only [put_normalize]
  | _ => rfl

/-- What cannot be a key is for a function, if the table has one, or else for nobody. -/
theorem run_set_of_defect {defect : KeyDefect} (invalid : key.keyDefect? = some defect) :
    (set calls ref key value).run w = match w.handler? (.table ref) .newIndex with
      | some (.function f) =>
        ((calling calls f [.table ref, key.normalize, value] w).1.map fun _ => (),
          (calling calls f [.table ref, key.normalize, value] w).2)
      | _ => (.error (.invalidKey defect), w) := by
  have normal : key.normalize.keyDefect? = some defect := key.keyDefect?_normalize.trans invalid
  unfold set
  dsimp only
  rw [normal, run_bind, show (get : Action ε (World ε)).run w = (.ok w, w) from rfl]
  dsimp only
  cases handled : w.handler? (.table ref) .newIndex with
  | none => rfl
  | some handler =>
    cases handler with
    | function f =>
      have lacks : w.holdsKey key.normalize (.table ref) = false :=
        congrArg Option.isSome ((w.table ref).get_of_defect _ normal)
      show (assign calls (.table ref) key.normalize value).run w = _
      rw [run_assign, show maxChain = 1999 + 1 from rfl,
        World.destination_of_endsAt (.called lacks handled)]
    | _ => rfl

/-- No operation on the way to a world has stored what cannot be a key, and assigning does not
either. -/
theorem arising_set (host : ∀ f args w, w.Arising → ((calls f args).run w).2.Arising)
    (arising : w.Arising) : ((set calls ref key value).run w).2.Arising := by
  have called (f : Function) (args : List Value) : (calling calls f args w).2.Arising :=
    host f args { w with held := (.function f :: args) :: w.held } arising
  cases found : key.keyDefect? with
  | some defect =>
    rw [run_set_of_defect found]
    split
    · exact called _ _
    · exact arising
  | none =>
    rw [run_set found]
    cases w.destination .newIndex key maxChain (.table ref) with
    | table target =>
      dsimp only
      rw [run_rawSet found]
      refine World.arising_modifyTable arising target fun live t earlier => ?_
      have stored : (Change.set key value).perform live t = t.put live key value := by
        show (t.set live key value).toOption.getD t = _
        unfold Table.set
        rw [found]
        rfl
      exact stored ▸ .changed live (.set key value) earlier
    | call f self => exact called _ _
    | _ => exact arising

/-- Assigning to a key of a table follows the chain of handlers to the first value that has the key,
or has no handler, or has a function for its handler. If that is a table, the pair is stored there
as it is without handlers, and every other table is left alone; a function is called once, and
nothing is stored but by it. If it is no table, or if it is not among the first ones, assigning
fails and nothing has changed. What cannot be a key is refused before all this, unless the table's
own handler is a function, which then gets it. No table ever has a slot for it: if all tables have
come about through operations, and calls do not change them in other ways, then this is so
afterwards. -/
theorem set_follows_chain (calls : Calls ε) (ref : Ref) (key value : Value) (w : World ε) :
    (key.keyDefect? = none →
      (∀ i x, IsLeast (w.ends .newIndex key (.table ref)) i → i < maxChain →
        w.link? .newIndex i (.table ref) = some x →
          (∀ target, x = .table target →
            (w.rawGet target key).isSome ∨ w.handler? x .newIndex = none →
              ∃ w', (set calls ref key value).run w = (.ok (), w') ∧
                (rawSet target key value).run w = (.ok (), w') ∧
                ∀ other, target ≠ other → w'.table other = w.table other) ∧
          (∀ f, w.holdsKey key x = false → w.handler? x .newIndex = some (.function f) →
            (set calls ref key value).run w =
              ((calling calls f [x, key.normalize, value] w).1.map fun _ => (),
                (calling calls f [x, key.normalize, value] w).2)) ∧
          ((∀ target, x ≠ .table target) → w.handler? x .newIndex = none →
            (set calls ref key value).run w = (.error (.indexNonTable x.kind), w))) ∧
      ((∀ i ∈ w.ends .newIndex key (.table ref), maxChain ≤ i) →
        (set calls ref key value).run w = (.error (.handlerLoop .newIndex), w))) ∧
    (∀ defect, key.keyDefect? = some defect →
      (∀ f, w.handler? (.table ref) .newIndex = some (.function f) →
        (set calls ref key value).run w =
          ((calling calls f [.table ref, key.normalize, value] w).1.map fun _ => (),
            (calling calls f [.table ref, key.normalize, value] w).2)) ∧
      ((∀ f, w.handler? (.table ref) .newIndex ≠ some (.function f)) →
        (set calls ref key value).run w = (.error (.invalidKey defect), w))) ∧
    ((∀ f args w, w.Arising → ((calls f args).run w).2.Arising) → w.Arising →
      ((set calls ref key value).run w).2.Arising ∧
        ∀ other bucket s,
          s ∈ (((set calls ref key value).run w).2.table other).chain bucket →
            s.key.keyDefect? = none) := by
  refine ⟨fun valid => ⟨fun i x least inside reached => ?_, fun beyond => ?_⟩,
    fun defect invalid => ?_, fun host arising => ?_⟩
  · have ends_there {d : Destination} (ended : w.EndsAt .newIndex key x d) :
        w.destination .newIndex key maxChain (.table ref) = d :=
      World.destination_of_first reached ended least.2 inside
    rw [run_set valid]
    refine ⟨?_, ?_, ?_⟩
    · rintro target rfl ended
      have written : w.destination .newIndex key maxChain (.table ref) = .table target := by
        apply ends_there
        cases has : w.rawGet target key with
        | some value => exact .held (Option.isSome_of_eq_some has)
        | none => exact .bare has (ended.resolve_left (by simp [has]))
      rw [written]
      dsimp only
      rw [run_rawSet valid]
      exact ⟨_, rfl, rfl, fun other apart => World.table_modifyTable_other w _ apart⟩
    · intro f lacks handled
      rw [ends_there (.called lacks handled)]
    · intro other unhandled
      rw [ends_there (.refused other unhandled)]
  · rw [run_set valid, World.destination_unreached beyond]
  · rw [run_set_of_defect invalid]
    constructor
    · intro f handled
      rw [handled]
    · intro other
      split
      · rename_i f handled
        exact absurd handled (other f)
      · rfl
  · have after : ((set calls ref key value).run w).2.Arising := arising_set host arising
    exact ⟨after, fun other => (after other).keyed⟩

omit [Hashing] in
/-- A float spells an integer that another table has, which is written there; its own handler, which
leads back, is not asked. -/
theorem set_writes_linked_table :
    let _ : Hashing := .uniform
    let made (changes : List Change) : Table :=
      Table.after .empty (changes.map (Table.nothingReclaimed, ·))
    let w : World Unit := (((World.initial ()).setTable 0 (made [.attach (some 1) none])).setTable 1
      (made [.set (.text (.short "__newindex")) (.table 2)])).setTable 2
        (made [.set (.int 2) (.bool false), .attach (some 1) none])
    let calls : Calls Unit := fun _ _ => pure []
    let two : Value := .float ⟨0x4000000000000000⟩
    IsLeast (w.ends .newIndex two (.table 0)) 1 ∧ 1 < maxChain ∧
      w.link? .newIndex 1 (.table 0) = some (.table 2) ∧
      (∃ w', (set calls 0 two (.bool true)).run w = (.ok (), w') ∧
        w'.rawGet 2 (.int 2) = some (.bool true) ∧
        ∀ other, 2 ≠ other → w'.table other = w.table other) ∧
      (set calls 0 .nil (.bool true)).run w = (.error (.invalidKey .nil), w) ∧
      w.Arising ∧ ((set calls 0 two (.bool true)).run w).2.Arising := by
  intro hashing made w calls two
  have holds (ref : Ref) : w.table ref =
      if 2 = ref then made [.set (.int 2) (.bool false), .attach (some 1) none]
      else if 1 = ref then made [.set (.text (.short "__newindex")) (.table 2)]
      else if 0 = ref then made [.attach (some 1) none] else .empty := by
    simp only [w, World.table_setTable_eq_ite, World.table_initial]
  have handled : w.handler? (.table 0) .newIndex = some (.table 2) := by
    show (w.table 0).metatable.bind (w.rawGetText · "__newindex") = _
    simp only [World.rawGetText, holds]
    decide +kernel
  have lacks : w.holdsKey two (.table 0) = false := by
    simp only [World.holdsKey, World.rawGet, holds]
    decide +kernel
  have has : (w.rawGet 2 two).isSome := by
    simp only [World.rawGet, holds]
    decide +kernel
  have reached : w.link? .newIndex 1 (.table 0) = some (.table 2) := by
    rw [World.link?, handled]
    rfl
  have least : IsLeast (w.ends .newIndex two (.table 0)) 1 := by
    refine ⟨⟨_, _, reached, .held has⟩, fun j found => ?_⟩
    apply Nat.one_le_iff_ne_zero.mpr
    rintro rfl
    have open_ended := World.not_endsAt_iff.mpr
      ⟨lacks, _, handled, fun f same => by cases same⟩
    exact open_ended (World.zero_mem_ends.mp found)
  have arising : w.Arising := by
    have arises (changes : List Change) : (made changes).Arises :=
      (Table.Arises.made (show Origin.empty.build = .ok .empty from rfl)).after _
    intro ref
    rw [holds]
    split_ifs
    iterate 3 exact arises _
    exact arises []
  obtain ⟨valid, -, stored⟩ := set_follows_chain calls 0 two (.bool true) w
  obtain ⟨w', completed, written, others⟩ :=
    ((valid (by decide +kernel)).1 1 (.table 2) least (by decide) reached).1 2 rfl (.inl has)
  have refused := ((set_follows_chain calls 0 .nil (.bool true) w).2.1 .nil rfl).2 fun f same => by
    cases handled.symm.trans same
  refine ⟨least, by decide, reached, ⟨w', completed, ?_, others⟩, refused, arising,
    (stored (fun _ _ _ arising => arising) arising).1⟩
  rw [run_rawSet (by decide +kernel)] at written
  cases written
  simp only [World.rawGet, World.table_modifyTable, holds]
  decide +kernel

end Action

end HybridTable
