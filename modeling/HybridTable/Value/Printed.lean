import HybridTable.Number.Decimal
import HybridTable.Value.Basic
import HybridTable.Value.Invisible

/-!
The text of values: plain, as messages and concatenation show it, and quoted, as a value is shown
when its type must be told from its text. Identities are not shown; a marker stands for them.
-/

namespace HybridTable

/-- Fourteen significant digits, without an exponent for leading digits from `10 ^ -4` to
`10 ^ 13`, and exponents of at least two digits. -/
def textLayout : NumberLayout := ⟨-4, 13, 2⟩

namespace Binary64

/-- The first fourteen significant digits of a magnitude. -/
def fourteenDigits (magnitude : Nat) : Decimal :=
  (Decimal.significant 14 (unitsOfBits magnitude) unitsPerOne).trim

/-- The text of a number. It never reads as an integer. -/
def print (x : Binary64) : String :=
  if x.isNaN then if x.isNegative then "-nan" else "nan"
  else if x.isInfinite then if x.isNegative then "-inf" else "inf"
  else textLayout.writeFinite fourteenDigits x

end Binary64

namespace Text

/-- A character inside quotes: quote, backslash and the usual controls have a letter of their own,
other characters without a visible form are written by number. -/
def quoteChar (c : Char) : List Char :=
  match c with
  | '"' => ['\\', '"']
  | '\\' => ['\\', '\\']
  | '\n' => ['\\', 'n']
  | '\r' => ['\\', 'r']
  | '\t' => ['\\', 't']
  | '\x00' => ['\\', '0']
  | c =>
    if isInvisible c then
      ['\\', 'u', '\x7b'] ++ Nat.toDigits 16 c.toNat ++ ['\x7d']
    else [c]

/-- A string in double quotes. -/
def quote (s : String) : String :=
  String.ofList ('"' :: s.toList.flatMap quoteChar ++ ['"'])

end Text

namespace Value

/-- The text of an object: its type and, for what has no name, a marker for its identity. -/
def printObject (kind : Kind) (which : String) : String := kind.name ++ ": " ++ which

/-- The text of a value in which a string is quoted. -/
def printQuoted : Value → String
  | nil => "nil"
  | bool b => if b then "true" else "false"
  | int i => toString i.toInt
  | float x => x.print
  | text s => Text.quote s.content
  | table _ => printObject .table "ADDR"
  | function f => printObject .function f.name
  | userdata _ => printObject .userdata "ADDR"
  | thread _ => printObject .thread "ADDR"

/-- The text of a value. -/
def print : Value → String
  | text s => s.content
  | v => v.printQuoted

/-- The text that a value adds to a concatenation: strings and numbers only. -/
def concatText? : Value → Option String
  | text s => some s.content
  | int i => some (toString i.toInt)
  | float x => some x.print
  | _ => none

end Value

end HybridTable
