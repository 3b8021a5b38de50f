import HybridTable.Table.Border

/-! Computations in which every step is checked. An index has to be inside, a divisor must not be
zero, a difference must not be negative and a key must not leave the range of keys; a loop has to
get on. An operation of the table that is written with these steps either gives a result or the
fault that would have ended it, so that nothing can go wrong in it unnoticed. -/
namespace HybridTable

/-- What would end an operation in the middle. -/
inductive Fault where
  /-- An index beyond the end. -/
  | index
  /-- A remainder by zero. -/
  | remainder
  /-- A negative difference. -/
  | underflow
  /-- A result too large for its type. -/
  | overflow
  /-- A loop that does not get on. -/
  | endless
  deriving DecidableEq

/-- A computation that may meet a fault. -/
abbrev Checked := Except Fault

namespace Checked

variable {α β : Type}

@[simp] theorem ok_bind (a : α) (f : α → Checked β) : (Except.ok a : Checked α) >>= f = f a := rfl

@[simp] theorem pure_eq (a : α) : (pure a : Checked α) = .ok a := rfl

/-- Reads an element. -/
def read (xs : Array α) (i : Nat) : Checked α :=
  match xs[i]? with
  | some x => .ok x
  | none => .error .index

/-- Writes an element. -/
def write (xs : Array α) (i : Nat) (x : α) : Checked (Array α) :=
  if i < xs.size then .ok (xs.setIfInBounds i x) else .error .index

/-- A difference. -/
def sub (a b : Nat) : Checked Nat := if b ≤ a then .ok (a - b) else .error .underflow

/-- A remainder. -/
def rem (a b : Nat) : Checked Nat := if b = 0 then .error .remainder else .ok (a % b)

/-- A key that was computed. -/
def key (n : Nat) : Checked Nat := if n ≤ maxInt then .ok n else .error .overflow

theorem read_eq {xs : Array α} {i : Nat} {x : α} (found : xs[i]? = some x) :
    read xs i = .ok x := by
  simp only [read, found]

theorem write_eq {xs : Array α} {i : Nat} (inside : i < xs.size) (x : α) :
    write xs i x = .ok (xs.setIfInBounds i x) := if_pos inside

theorem sub_eq {a b : Nat} (below : b ≤ a) : sub a b = .ok (a - b) := if_pos below

theorem rem_eq {a b : Nat} (some_divisor : b ≠ 0) : rem a b = .ok (a % b) := if_neg some_divisor

theorem key_eq {n : Nat} (inside : n ≤ maxInt) : key n = .ok n := if_pos inside

end Checked

end HybridTable
