import HybridTable.Json.Basic

/-!
JSON text, on one line or with one item to a line.
-/

namespace HybridTable.Json

/-- Without an exponent for leading digits from `10 ^ -5` to `10 ^ 15`; exponents are not padded. -/
def numberLayout : NumberLayout := ⟨-5, 15, 1⟩

/-- A digit to the base sixteen. -/
def hexDigit (n : Nat) : Char := Nat.digitChar n

/-- A character of a string. Only the quote, the backslash and controls are escaped. -/
def escape (c : Char) : List Char :=
  match c with
  | '"' => ['\\', '"']
  | '\\' => ['\\', '\\']
  | '\x08' => ['\\', 'b']
  | '\x0c' => ['\\', 'f']
  | '\n' => ['\\', 'n']
  | '\r' => ['\\', 'r']
  | '\t' => ['\\', 't']
  | c =>
    if c.val < 0x20 then
      ['\\', 'u', '0', '0', hexDigit (c.toNat / 16), hexDigit (c.toNat % 16)]
    else [c]

/-- A string in quotes. -/
def printText (s : String) : String := String.ofList ('"' :: s.toList.flatMap escape ++ ['"'])

/-- A container: its parts between brackets, with commas between them. When lines are used, each
part is on a line of its own, indented by two spaces for each container around it; a container
without parts stays on one line. -/
def printContainer (open_ close : String) (indent : Option Nat) (parts : List String) : String :=
  match parts, indent with
  | [], _ => open_ ++ close
  | parts, none => open_ ++ ",".intercalate parts ++ close
  | parts, some depth =>
    let line (depth : Nat) := String.ofList ('\n' :: List.replicate (2 * depth) ' ')
    open_ ++ line (depth + 1) ++ ("," ++ line (depth + 1)).intercalate parts ++ line depth ++ close

/-- A name and the text of its value. -/
def printMember (indent : Option Nat) (name value : String) : String :=
  printText name ++ (if indent.isSome then ": " else ":") ++ value

mutual

/-- The text of a value. With `indent` it is written over several lines, inside so many
containers. -/
def print (indent : Option Nat) : Json → String
  | null => "null"
  | bool b => if b then "true" else "false"
  | int i => toString i.toInt
  | float x => numberLayout.writeFinite (fun bits => .shortest bits) x
  | text s => printText s
  | array items => printContainer "[" "]" indent (printItems (indent.map (· + 1)) items)
  | object members =>
    printContainer "\x7b" "\x7d" indent (printMembers (indent.map (· + 1)) members)

/-- The texts of the items of an array. -/
def printItems (indent : Option Nat) : List Json → List String
  | [] => []
  | item :: rest => print indent item :: printItems indent rest

/-- The texts of the members of an object. -/
def printMembers (indent : Option Nat) : List (String × Json) → List String
  | [] => []
  | (name, value) :: rest =>
    printMember indent name (print indent value) :: printMembers indent rest

end

end HybridTable.Json
