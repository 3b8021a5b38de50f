import HybridTable.Table.Traverse
import Std.Data.HashMap

/-!
What objects contain.

An identity is a number that is given out once. Tables, userdata and threads are looked up by it;
functions and long strings contain nothing that could change and have no record here.
-/

namespace HybridTable

/-- An opaque object of the host. -/
structure Userdata where
  /-- The number that the host keeps in it. -/
  data : Int64
  /-- Where its handlers are looked up. -/
  metatable : Option Ref

/-- How far a thread has come. -/
inductive ThreadStatus where
  | suspended | running | normal | dead
  deriving DecidableEq

/-- The contents of all objects. -/
structure Objects where
  /-- The identity that is given out next; all those below it have been given out. -/
  next : Ref
  /-- The tables. -/
  tables : Std.HashMap Ref Table
  /-- The userdata. -/
  userdata : Std.HashMap Ref Userdata
  /-- The threads. -/
  threads : Std.HashMap Ref ThreadStatus

namespace Objects

/-- No objects. -/
def none : Objects := ⟨0, ∅, ∅, ∅⟩

/-- A new identity. -/
def fresh (o : Objects) : Ref × Objects := (o.next, { o with next := o.next + 1 })

/-- The table with an identity; one that was never written is empty. -/
def table (o : Objects) (ref : Ref) : Table := o.tables[ref]?.getD .empty

/-- Writes a table. -/
def setTable : Objects → Ref → Table → Objects
  | { next, tables, userdata, threads }, ref, t =>
    { next, tables := tables.insert ref t, userdata, threads }

/-- The metatable of a value; only tables and userdata have one of their own. -/
def metatable? (o : Objects) : Value → Option Ref
  | .table ref => (o.table ref).metatable
  | .userdata ref => o.userdata[ref]?.bind Userdata.metatable
  | _ => .none

/-- What an object keeps alive. -/
def holds (o : Objects) (ref : Ref) : List Ref :=
  match o.tables[ref]? with
  | some t => t.refs
  | .none => (o.metatable? (.userdata ref)).toList

@[simp] theorem table_setTable_same (o : Objects) (ref : Ref) (t : Table) :
    (o.setTable ref t).table ref = t := by
  simp [table, setTable]

theorem table_setTable_other (o : Objects) {ref other : Ref} (t : Table) (apart : ref ≠ other) :
    (o.setTable ref t).table other = o.table other := by
  simp [table, setTable, Std.HashMap.getElem?_insert, apart]

end Objects

end HybridTable
