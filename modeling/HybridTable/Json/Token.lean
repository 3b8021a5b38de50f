import HybridTable.Json.Number

/-!
The tokens of JSON text. Blanks separate tokens and are dropped.
-/

namespace HybridTable.Json

/-- A token. -/
inductive Token where
  | openArray | closeArray | openObject | closeObject | comma | colon
  /-- A value that is no container. -/
  | scalar (value : Json)

/-- Whether a character may stand between tokens. -/
def isBlank (c : Char) : Bool := c == ' ' || c == '\n' || c == '\t' || c == '\r'

/-- The value of a digit. -/
def digit? (c : Char) : Option Nat := if c.isDigit then some (c.toNat - '0'.toNat) else none

/-- The value of a digit to the base sixteen, in either case. -/
def hexDigit? (c : Char) : Option Nat :=
  if 'a' ≤ c ∧ c ≤ 'f' then some (c.toNat - 'a'.toNat + 10)
  else if 'A' ≤ c ∧ c ≤ 'F' then some (c.toNat - 'A'.toNat + 10)
  else digit? c

/-- The number that four digits to the base sixteen write. -/
def hexUnit? (a b c d : Char) : Option Nat := do
  return (((← hexDigit? a) * 16 + (← hexDigit? b)) * 16 + (← hexDigit? c)) * 16 + (← hexDigit? d)

/-- The character that an escape letter stands for. -/
def escaped? : Char → Option Char
  | '"' => some '"'
  | '\\' => some '\\'
  | '/' => some '/'
  | 'b' => some '\x08'
  | 'f' => some '\x0c'
  | 'n' => some '\n'
  | 'r' => some '\r'
  | 't' => some '\t'
  | _ => none

/-- Reads the rest of a string up to its closing quote. Characters above the basic plane are escaped
as two units, and neither of these may stand alone. -/
def readText (before : List Char) : List Char → Option (String × List Char)
  | '"' :: rest => some (String.ofList before.reverse, rest)
  | '\\' :: 'u' :: a :: b :: c :: d :: rest =>
    match hexUnit? a b c d with
    | none => none
    | some unit =>
      if 0xd800 ≤ unit ∧ unit < 0xdc00 then
        match rest with
        | '\\' :: 'u' :: a :: b :: c :: d :: rest =>
          match hexUnit? a b c d with
          | none => none
          | some low =>
            if 0xdc00 ≤ low ∧ low < 0xe000 then
              readText (Char.ofNat (0x10000 + (unit - 0xd800) * 0x400 + (low - 0xdc00)) :: before)
                rest
            else none
        | _ => none
      else if 0xdc00 ≤ unit ∧ unit < 0xe000 then none
      else readText (Char.ofNat unit :: before) rest
  | '\\' :: c :: rest =>
    match escaped? c with
    | some c => readText (c :: before) rest
    | none => none
  | c :: rest => if c.val < 0x20 then none else readText (c :: before) rest
  | [] => none

/-- The leading digits, and what follows them. -/
def takeDigits : List Char → List Nat × List Char
  | [] => ([], [])
  | c :: rest =>
    match digit? c with
    | some digit => let (digits, rest) := takeDigits rest; (digit :: digits, rest)
    | none => ([], c :: rest)

/-- Reads the fraction of a number, if it has one; a point needs a digit after it. -/
def readFraction : List Char → Option (List Nat × List Char)
  | '.' :: rest =>
    match takeDigits rest with
    | ([], _) => none
    | (digits, rest) => some (digits, rest)
  | rest => some ([], rest)

/-- Reads the sign of an exponent. -/
def readSign : List Char → Bool × List Char
  | '-' :: rest => (true, rest)
  | '+' :: rest => (false, rest)
  | rest => (false, rest)

/-- Reads the exponent of a number, if it has one. -/
def readExponent (cs : List Char) : Option (Option (Bool × List Nat) × List Char) :=
  match cs with
  | 'e' :: rest | 'E' :: rest =>
    let (negative, rest) := readSign rest
    match takeDigits rest with
    | ([], _) => none
    | (digits, rest) => some (some (negative, digits), rest)
  | rest => some (none, rest)

/-- Reads a number after its sign. No digit may follow a leading zero. -/
def readNumber (negative : Bool) (cs : List Char) : Option (Token × List Char) := do
  let (whole, rest) := takeDigits cs
  match whole with
  | [] => none
  | 0 :: _ :: _ => none
  | _ =>
    let (fraction, rest) ← readFraction rest
    let (exponent, rest) ← readExponent rest
    return (.scalar (← NumberText.read ⟨negative, whole, fraction, exponent⟩), rest)

/-- Reads the token at the start of a text that does not start with a blank. -/
def readToken : List Char → Option (Token × List Char)
  | '[' :: rest => some (.openArray, rest)
  | ']' :: rest => some (.closeArray, rest)
  | '\x7b' :: rest => some (.openObject, rest)
  | '\x7d' :: rest => some (.closeObject, rest)
  | ',' :: rest => some (.comma, rest)
  | ':' :: rest => some (.colon, rest)
  | '"' :: rest => (readText [] rest).map fun (s, rest) => (.scalar (.text s), rest)
  | 'n' :: 'u' :: 'l' :: 'l' :: rest => some (.scalar .null, rest)
  | 't' :: 'r' :: 'u' :: 'e' :: rest => some (.scalar (.bool true), rest)
  | 'f' :: 'a' :: 'l' :: 's' :: 'e' :: rest => some (.scalar (.bool false), rest)
  | '-' :: rest => readNumber true rest
  | rest => readNumber false rest

/-- The tokens of a text. -/
def tokens? (cs : List Char) : Option (List Token) :=
  match cs with
  | [] => some []
  | c :: rest =>
    if isBlank c then tokens? rest
    else match readToken (c :: rest) with
      | none => none
      | some (token, remaining) =>
        if remaining.length < (c :: rest).length then (tokens? remaining).map (token :: ·) else none
termination_by cs.length
decreasing_by
  · exact Nat.lt_succ_self rest.length
  · assumption

end HybridTable.Json
