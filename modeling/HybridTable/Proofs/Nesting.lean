import Mathlib.Data.List.Perm.Subperm
import Mathlib.Logic.Relation
import HybridTable.World.Basic

/-! Tables inside of tables. Going down from a value, one table after another is entered. Where no
table contains itself, all of them are different, so there cannot be more than there are tables. -/
namespace HybridTable.World

variable {ε : Type} [Hashing] {w : World ε}

/-- Being a value of a table. -/
def Inside (w : World ε) (inner outer : Value) : Prop :=
  ∃ ref key, outer = .table ref ∧ w.rawGet ref key = some inner

/-- Where going down comes to an end, nothing is inside of itself. -/
theorem not_inside_itself {v : Value} (acyclic : Acc w.Inside v) :
    ¬Relation.TransGen w.Inside v v := by
  have irreflexive {v : Value} (accessible : Acc (Relation.TransGen w.Inside) v) :
      ¬Relation.TransGen w.Inside v v := by
    induction accessible with
    | intro v _ ih => exact fun cycle => ih v cycle cycle
  exact irreflexive acyclic.transGen

/-- The tables that have been entered on the way to a value, and so many that may still be. -/
structure Around (w : World ε) (depth : Nat) (around : List Ref) (v : Value) : Prop where
  /-- No table was entered twice. -/
  distinct : around.Nodup
  /-- They are tables that were made. -/
  given : ∀ ref ∈ around, ref < w.objects.next
  /-- The value is inside of all of them. -/
  outer : ∀ ref ∈ around, Relation.TransGen w.Inside v (.table ref)
  /-- As many may still be entered as there are other tables, and one more. -/
  room : w.objects.next < depth + around.length

theorem Around.start (w : World ε) (v : Value) : w.Around (w.objects.next + 1) [] v :=
  ⟨.nil, nofun, nofun, Nat.lt_succ_self _⟩

/-- No more tables have been entered than were made. -/
theorem Around.few {depth : Nat} {around : List Ref} {v : Value} (a : w.Around depth around v) :
    around.length ≤ w.objects.next := by
  have part : around ⊆ List.range w.objects.next :=
    fun other member => List.mem_range.mpr (a.given other member)
  simpa using (List.subperm_of_subset a.distinct part).length_le

/-- There is always room for one more table. -/
theorem Around.exists_left {depth : Nat} {around : List Ref} {v : Value}
    (a : w.Around depth around v) : ∃ left, depth = left + 1 := by
  have few := a.few
  have room := Nat.succ_le_of_lt a.room
  exact ⟨depth - 1, by omega⟩

/-- A table that has not been entered may be. -/
theorem Around.further {left : Nat} {around : List Ref} {ref : Ref}
    (a : w.Around (left + 1) around (.table ref)) (new : ref ∉ around)
    (given : ref < w.objects.next) {v : Value} (inside : w.Inside v (.table ref)) :
    w.Around left (ref :: around) v where
  distinct := List.nodup_cons.mpr ⟨new, a.distinct⟩
  given := List.forall_mem_cons.mpr ⟨given, a.given⟩
  outer := List.forall_mem_cons.mpr
    ⟨.single inside, fun other before => .head inside (a.outer other before)⟩
  room := by
    have room := Nat.succ_le_of_lt a.room
    apply Nat.lt_of_succ_le
    rw [List.length_cons]
    omega

/-- A table that does not contain itself has not been entered, and may be. -/
theorem Around.enter {depth : Nat} {around : List Ref} {ref : Ref}
    (a : w.Around depth around (.table ref)) (acyclic : Acc w.Inside (.table ref))
    (given : ref < w.objects.next) : ref ∉ around ∧ ∃ left, depth = left + 1 ∧
      ∀ v, w.Inside v (.table ref) → w.Around left (ref :: around) v := by
  have new : ref ∉ around := fun entered => not_inside_itself acyclic (a.outer ref entered)
  obtain ⟨left, rfl⟩ := a.exists_left
  exact ⟨new, left, rfl, fun v => a.further new given⟩

end HybridTable.World
