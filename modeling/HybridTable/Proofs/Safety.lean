import HybridTable.Proofs.CheckedActions
import HybridTable.Proofs.CheckedSort
import HybridTable.Proofs.CheckedWrites

/-! No operation meets a fault. In every table that can come about, whatever it holds weakly and
whatever was reclaimed, no index is beyond a region, a chain or the histogram, no remainder is by
zero, neither the count nor a size becomes negative, and no key overflows. The checked steps of an
operation come to what the operation comes to. -/
namespace HybridTable

/-- Every operation on a table comes to its result in checked steps. -/
structure Table.FaultFree [Hashing] (t : Table) (live : Liveness) : Prop where
  /-- Any value may be read as a key. -/
  get : ∀ alive key, t.checkedGet alive key = .ok (t.get alive key)
  /-- Any integer may be read as a key. -/
  getInt : ∀ alive key, t.checkedGetInt alive key = .ok (t.getInt alive key)
  /-- Any value may be written under any other, or refused. -/
  set : ∀ key value, t.checkedSet live key value = .ok (t.set live key value)
  /-- Any value may be written under any integer. -/
  setInt : ∀ key value, t.checkedSetInt live key value = .ok (t.setInt live key value)
  /-- Values may be shifted up from any key. -/
  insert : ∀ key value, (t.livePairs fun r => live (value.refs ++ t.refs) r).length < 2 ^ 62 →
    t.checkedInsert live key value = .ok (t.insert live key value)
  /-- Values may be shifted down to any key. -/
  remove : ∀ key, (t.livePairs fun r => live t.refs r).length < 2 ^ 62 →
    t.checkedRemove live key = .ok (t.remove live key)
  /-- There may be as many positions as the array region is meant to have. -/
  presizeArray : ∀ positions ≤ maxArrayCapacity,
    t.checkedPresizeArray live positions = .ok (t.presizeArray live positions)
  /-- Any policy may follow any other. -/
  attachMetatable : ∀ metatable policy, t.checkedAttachMetatable live metatable policy =
    .ok (t.attachMetatable live metatable policy)
  /-- A length is found unless there are too many pairs. -/
  length : ∀ alive, (t.livePairs alive).length < 2 ^ 62 →
    t.checkedBorder alive = .ok (t.length alive)
  /-- A traversal may go on from any value, or is refused. -/
  next : ∀ alive key, t.checkedNext alive key = .ok (t.next alive key)
  /-- A traversal of a list may go on from any integer. -/
  nextInt : ∀ alive key, t.checkedNextInt alive key = .ok (t.nextInt alive key)
  /-- The traversal of all keys comes to its end. -/
  keys : ∀ alive, t.checkedKeys alive = .ok (t.keys alive)
  /-- Comparisons may answer anything or fail. -/
  sortBy : ∀ {σ ε : Type} (less : Sort.Comparison Value σ ε) alive s,
    t.checkedSortBy less alive s = .ok (t.sortBy less alive s)

/-- Every operation on a world comes to its result in checked steps. -/
structure World.FaultFree [Hashing] {ε : Type} (w : World ε) (calls : Calls ε) : Prop where
  /-- Texts may be joined from any key to any other. -/
  concat : ∀ ref separator first last, CheckedAction.concat calls ref separator first last w =
    .ok ((Action.concat calls ref separator first last).run w)
  /-- Values may be taken from any key to any other, or are refused. -/
  unpack : ∀ ref first last,
    CheckedAction.unpack calls ref first last w = .ok ((Action.unpack calls ref first last).run w)
  /-- Any table may become the metatable of any other, or is refused. -/
  setMetatable : ∀ ref metatable,
    CheckedAction.setMetatable ref metatable w = .ok ((Action.setMetatable ref metatable).run w)

namespace Table

variable [Hashing] {t : Table} {live : Liveness}

/-- The layout is all that operations on one table rely on. -/
theorem Sound.faultFree (sound : t.Sound) (bounded : t.Bounded) (lawful : live.Lawful) :
    t.FaultFree live where
  get := checkedGet_eq sound.room
  getInt := checkedGetInt_eq sound.room
  set := checkedSet_eq sound (.inr lawful)
  setInt := checkedSetInt_eq sound (.inr lawful)
  insert key _ few := checkedInsert_eq sound (.inr lawful) bounded key few
  remove key few := checkedRemove_eq sound (.inr lawful) bounded key few
  presizeArray _ range :=
    checkedPresizeArray_eq sound (.inr lawful) (Nat.le_trans range (by decide))
  attachMetatable := checkedAttachMetatable_eq sound (.inr lawful)
  length _ few := checkedBorder_eq sound.room bounded.size_lt few
  next := checkedNext_eq (Nat.le_of_lt bounded.size_lt)
  nextInt := checkedNextInt_eq sound.room
  keys := checkedKeys_eq sound (Nat.le_of_lt bounded.size_lt)
  sortBy less alive s := checkedSortBy_eq less alive t s

end Table

section
variable [Hashing] {ε : Type} {calls : Calls ε} {w : World ε}

theorem World.Orderly.faultFree (orderly : w.Orderly) (host : World.KeepOrder calls) :
    w.FaultFree calls where
  concat ref separator first last :=
    (CheckedAction.follows_concat host ref separator first last w orderly).1
  unpack ref first last := (CheckedAction.follows_unpack host ref first last w orderly).1
  setMetatable := CheckedAction.setMetatable_eq orderly

/-- No operation on a table that can come about meets a fault, nor does one on a world of such
tables, whatever is weak, reclaimed or asked for. Only a length has to be looked for among fewer
than 2 ^ 62 pairs, and more positions have to be asked for within reason. -/
theorem operations_meet_no_fault {t : Table} {live : Liveness} (reachable : t.Reachable)
    (lawful : live.Lawful) (orderly : w.Orderly) (host : World.KeepOrder calls) :
    t.FaultFree live ∧ w.FaultFree calls :=
  have ⟨sound, bounded⟩ := reachable.sound_bounded
  ⟨sound.faultFree bounded lawful, orderly.faultFree host⟩

end

/-- A table with weak values, one of them lost, and with the greatest key: an insertion there drops
what it displaces, and a range that ends there is taken to its end. -/
theorem operations_at_greatest_key :
    let live : Liveness := .sparing fun _ => false
    let steps : List (Liveness × Change) := [
      (live, .attach none (some (.text (.short "v")))),
      (live, .set (.text (.short "a")) (.table 5)),
      (live, .setInt (Int64.maxValue - 1) (.text (.short "x"))),
      (live, .setInt Int64.maxValue (.text (.short "y")))]
    let t := @Table.after .uniform .empty steps
    let w : World Unit := (World.initial ()).setTable 0 t
    let calls : Calls Unit := fun _ _ => pure []
    let first := Int64.maxValue - 1
    @Table.checkedInsert .uniform live t first (.int 1) = .ok (@Table.insert .uniform live t first
        (.int 1)) ∧
      @Table.getInt .uniform (@Table.insert .uniform live t first (.int 1)) (fun _ => true)
        Int64.maxValue = some (.text (.short "x")) ∧
      @CheckedAction.concat Unit .uniform calls 0 "-" first Int64.maxValue w =
        .ok ((@Action.concat Unit .uniform calls 0 "-" first Int64.maxValue).run w) ∧
      ((@Action.concat Unit .uniform calls 0 "-" first Int64.maxValue).run w).1 = .ok "x-y" := by
  intro live steps t w calls first
  have lawful : ∀ step ∈ steps, step.1.Lawful := by simp [steps, live, Liveness.sparing_lawful]
  have bounded : ∀ done ∈ steps.inits, (@Table.after .uniform .empty done).Bounded := by
    decide +kernel
  have inside : Origin.empty.Bounded := by decide
  have made : @Table.Reachable .uniform .empty :=
    @Table.Reachable.made .uniform .empty .empty inside rfl
  have reachable : @Table.Reachable .uniform t := @Table.Reachable.after .uniform .empty steps made
    lawful fun done begun => bounded done ((List.mem_inits done steps).mpr begun)
  have orderly : @World.Orderly Unit .uniform w := by
    intro ref
    by_cases own : 0 = ref
    · subst own
      rw [World.table_setTable]
      exact reachable
    · have other : w.table ref = .empty :=
        (Objects.table_setTable_other _ _ own).trans (by simp [Objects.table, Objects.none])
      exact other ▸ made
  have host : @World.KeepOrder Unit .uniform calls := fun _ _ _ orderly => orderly
  obtain ⟨table, world⟩ := @operations_meet_no_fault .uniform Unit calls w t live reachable
    (Liveness.sparing_lawful _) orderly host
  exact ⟨@Table.FaultFree.insert .uniform _ _ table first (.int 1) (by decide +kernel),
    by decide +kernel, @World.FaultFree.concat .uniform _ _ _ world 0 "-" first Int64.maxValue,
    by decide +kernel⟩

end HybridTable
