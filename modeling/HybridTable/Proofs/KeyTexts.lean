import Mathlib
import HybridTable.Json.Bridge
import HybridTable.Proofs.KeyIdentity

/-! The texts of keys. An integer is written in digits. What a float is written in has something
else in it, a point, an exponent or a word, and neither has the letters of a truth value. So of
different keys only a string can have the text of another key, and floats that are no integers can
have a text in common, since not all of their digits are written. -/
namespace HybridTable

/-- A character that numbers are written with. -/
def isNumberChar (c : Char) : Bool :=
  c.isDigit || ['-', '+', '.', 'e', 'n', 'a', 'i', 'f'].contains c

/-- A character that only numbers which are no integers are written with. -/
def isMark (c : Char) : Bool := ['.', 'e', 'n'].contains c

theorem isNumberChar_of_isDigit {c : Char} (digit : c.isDigit = true) : isNumberChar c = true :=
  Bool.or_eq_true_iff.mpr (.inl digit)

theorem isDigit_of_mem_repr {n : Nat} {c : Char} (member : c ∈ n.repr.toList) :
    c.isDigit = true := by
  rw [Nat.repr, String.toList_ofList] at member
  exact Nat.isDigit_of_mem_toDigits (by decide) (by decide) member

/-- An integer is written in digits, after a sign. -/
theorem isDigit_of_mem_toString {i : Int} {c : Char} (member : c ∈ (toString i).toList) :
    c.isDigit = true ∨ c = '-' := by
  cases i with
  | ofNat n => exact .inl (isDigit_of_mem_repr member)
  | negSucc n =>
    have spelled : (toString (Int.negSucc n)).toList = '-' :: (n + 1).repr.toList := by
      show ("-" ++ (n + 1).repr).toList = _
      rw [String.toList_append]
      rfl
    rw [spelled] at member
    rcases List.mem_cons.mp member with rfl | digit
    · exact .inr rfl
    · exact .inl (isDigit_of_mem_repr digit)

theorem isNumberChar_of_mem_toString {i : Int} {c : Char} (member : c ∈ (toString i).toList) :
    isNumberChar c = true := by
  rcases isDigit_of_mem_toString member with digit | rfl
  · exact isNumberChar_of_isDigit digit
  · decide

theorem not_isMark_of_mem_toString {i : Int} {c : Char} (member : c ∈ (toString i).toList) :
    isMark c = false := by
  rcases isDigit_of_mem_toString member with digit | rfl
  · refine Bool.eq_false_iff.mpr fun mark => ?_
    simp only [isMark, List.contains_cons, List.contains_nil, Bool.or_false, Bool.or_eq_true,
      beq_iff_eq] at mark
    rcases mark with rfl | rfl | rfl <;> exact absurd digit (by decide)
  · decide

namespace NumberLayout

variable (d : Decimal)

theorem digits_numberChars (n : Nat) : ∀ c ∈ digits n, isNumberChar c = true :=
  fun _ member => isNumberChar_of_isDigit
    (Nat.isDigit_of_mem_toDigits (by decide) (by decide) member)

theorem zeros_numberChars (n : Nat) : ∀ c ∈ List.replicate n '0', isNumberChar c = true := by
  intro c member
  rw [(List.mem_replicate.mp member).2]
  decide

theorem plain_numberChars : ∀ c ∈ plain d, isNumberChar c = true := by
  have digits := digits_numberChars d.significand
  unfold plain
  dsimp only
  split
  · exact List.forall_mem_append.mpr
      ⟨List.forall_mem_append.mpr ⟨digits, zeros_numberChars _⟩, List.all_eq_true.mp (by decide)⟩
  · split
    · refine List.forall_mem_append.mpr ⟨fun c member => digits c (List.mem_of_mem_take member),
        List.forall_mem_cons.mpr ⟨by decide, fun c member => ?_⟩⟩
      exact digits c (List.mem_of_mem_drop member)
    · exact List.forall_mem_cons.mpr ⟨by decide, List.forall_mem_cons.mpr
        ⟨by decide, List.forall_mem_append.mpr ⟨zeros_numberChars _, digits⟩⟩⟩

theorem scientific_numberChars (width : Nat) : ∀ c ∈ scientific width d, isNumberChar c = true := by
  have digits := digits_numberChars d.significand
  unfold scientific
  dsimp only
  refine List.forall_mem_append.mpr
    ⟨List.forall_mem_append.mpr ⟨?_, ?_⟩, digits_numberChars _⟩
  · split
    · rename_i first written
      exact written ▸ digits
    · rename_i first rest _ written
      rw [written] at digits
      obtain ⟨own, others⟩ := List.forall_mem_cons.mp digits
      exact List.forall_mem_cons.mpr ⟨own, List.forall_mem_cons.mpr ⟨by decide, others⟩⟩
    · exact List.forall_mem_nil _
  · refine List.forall_mem_cons.mpr ⟨by decide, List.forall_mem_cons.mpr ⟨?_, ?_⟩⟩
    · split <;> decide
    · exact zeros_numberChars _

theorem exists_mark_plain : ∃ c ∈ plain d, isMark c = true := by
  refine ⟨'.', ?_, by decide⟩
  unfold plain
  dsimp only
  split
  · simp
  · split <;> simp

theorem exists_mark_scientific (width : Nat) : ∃ c ∈ scientific width d, isMark c = true := by
  refine ⟨'e', ?_, by decide⟩
  unfold scientific
  simp

end NumberLayout

namespace Binary64

variable (x : Binary64)

/-- A float is written with characters of numbers, some of them in no integer. -/
theorem print_chars : (∀ c ∈ x.print.toList, isNumberChar c = true) ∧
    ∃ c ∈ x.print.toList, isMark c = true := by
  have magnitude (chosen : Nat → Decimal) : ∀ digits,
      digits = (if x.magnitudeBits = 0 then ['0', '.', '0']
        else textLayout.write (chosen x.magnitudeBits)) →
      (∀ c ∈ digits, isNumberChar c = true) ∧ ∃ c ∈ digits, isMark c = true := by
    rintro digits rfl
    split
    · exact ⟨List.all_eq_true.mp (by decide), List.any_eq_true.mp (by decide)⟩
    · unfold NumberLayout.write
      split
      · exact ⟨NumberLayout.plain_numberChars _, NumberLayout.exists_mark_plain _⟩
      · exact ⟨NumberLayout.scientific_numberChars _ _, NumberLayout.exists_mark_scientific _ _⟩
  unfold print
  split
  · split <;> exact ⟨List.all_eq_true.mp (by decide), List.any_eq_true.mp (by decide)⟩
  · split
    · split <;> exact ⟨List.all_eq_true.mp (by decide), List.any_eq_true.mp (by decide)⟩
    · obtain ⟨chars, c, member, mark⟩ := magnitude fourteenDigits _ rfl
      unfold NumberLayout.writeFinite
      rw [String.toList_ofList]
      split
      · exact ⟨List.forall_mem_cons.mpr ⟨by decide, chars⟩, c, List.mem_cons_of_mem _ member, mark⟩
      · exact ⟨chars, c, member, mark⟩

theorem print_ne_toString (i : Int) : x.print ≠ toString i := by
  intro same
  obtain ⟨-, c, member, mark⟩ := x.print_chars
  rw [same] at member
  exact Bool.false_ne_true ((not_isMark_of_mem_toString member).symm.trans mark)

end Binary64

/-- A truth value has a letter that no number is written with. -/
theorem exists_letter (b : Bool) : ∃ c ∈ (Value.bool b).print.toList, isNumberChar c = false := by
  cases b with
  | false => exact ⟨'l', by decide, by decide⟩
  | true => exact ⟨'t', by decide, by decide⟩

theorem bool_print_ne {b : Bool} {text : String}
    (number : ∀ c ∈ text.toList, isNumberChar c = true) : (Value.bool b).print ≠ text := by
  rintro rfl
  obtain ⟨c, member, letter⟩ := exists_letter b
  exact Bool.false_ne_true (letter.symm.trans (number c member))

/-- Of two keys, both numbers or truth values, only floats can have one text. -/
theorem eq_or_float_of_print {a b : Value} (plain : a.kind = .number ∨ a.kind = .boolean)
    (plain' : b.kind = .number ∨ b.kind = .boolean) (same : a.print = b.print) :
    a = b ∨ ∃ x y, a = .float x ∧ b = .float y := by
  have integer (i : Int64) : ∀ c ∈ (Value.int i).print.toList, isNumberChar c = true :=
    fun _ member => isNumberChar_of_mem_toString member
  have float (x : Binary64) : ∀ c ∈ (Value.float x).print.toList, isNumberChar c = true :=
    x.print_chars.1
  cases a with
  | bool b₁ =>
    cases b with
    | bool b₂ =>
      refine .inl (congrArg Value.bool ?_)
      revert same
      revert b₁ b₂
      decide
    | int i => exact absurd same (bool_print_ne (integer i))
    | float x => exact absurd same (bool_print_ne (float x))
    | _ => simp [Value.kind] at plain'
  | int i =>
    cases b with
    | bool b => exact absurd same.symm (bool_print_ne (integer i))
    | int j => exact .inl (congrArg Value.int (Int64.toInt_inj.mp (Int.repr_inj.mp same)))
    | float x => exact absurd same.symm (x.print_ne_toString i.toInt)
    | _ => simp [Value.kind] at plain'
  | float x =>
    cases b with
    | bool b => exact absurd same.symm (bool_print_ne (float x))
    | int i => exact absurd same (x.print_ne_toString i.toInt)
    | float y => exact .inr ⟨x, y, rfl, rfl⟩
    | _ => simp [Value.kind] at plain'
  | _ => simp [Value.kind] at plain

theorem exists_text {v : Value} (string : v.kind = .string) : ∃ s, v = .text s := by
  cases v <;> first | exact ⟨_, rfl⟩ | cases string

/-- What has a name as a key is a string, a number or a truth value, and the name is its text. -/
theorem print_of_memberName {key : Value} {name : String} (named : memberName key = .ok name) :
    (key.kind = .string ∨ key.kind = .number ∨ key.kind = .boolean) ∧ key.print = name := by
  cases key <;> cases named <;> simp [Value.kind, Value.print, Value.printQuoted, Binary64.print]

/-- Different keys of one name are a string and something else, or two floats. -/
theorem string_or_floats_of_memberName {a b : Value} {name : String}
    (first : memberName a = .ok name) (second : memberName b = .ok name)
    (apart : a.toKey? ≠ b.toKey?) :
    (a.kind = .string ↔ b.kind ≠ .string) ∨ ∃ x y, a = .float x ∧ b = .float y := by
  obtain ⟨kind, text⟩ := print_of_memberName first
  obtain ⟨kind', text'⟩ := print_of_memberName second
  have same : a.print = b.print := text.trans text'.symm
  rcases kind with string | plain
  · by_cases string' : b.kind = .string
    · obtain ⟨s, rfl⟩ := exists_text string
      obtain ⟨s', rfl⟩ := exists_text string'
      have contents : s.content = s'.content := same
      exact absurd (by simp only [Value.toKey?, contents]) apart
    · exact .inl ⟨fun _ => string', fun _ => string⟩
  · by_cases string' : b.kind = .string
    · refine .inl ⟨fun string => ?_, fun other => absurd string' other⟩
      rw [string] at plain
      simp at plain
    · rcases eq_or_float_of_print plain (kind'.resolve_left string') same with rfl | floats
      · exact absurd rfl apart
      · exact .inr floats

end HybridTable
