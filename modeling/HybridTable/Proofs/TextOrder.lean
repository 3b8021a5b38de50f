import Mathlib.Data.String.Basic

/-! The order of strings, byte by byte. Strings are compared character by character; a lesser
character has the lesser encoding, at the first byte in which the two differ, and no encoding is a
part of another, so this is the order of the encoded bytes. -/
namespace HybridTable

/-- The bytes of a string in memory. -/
def bytesOf (s : String) : List UInt8 := s.toUTF8.data.toList

theorem bytesOf_eq (s : String) : bytesOf s = s.toList.flatMap String.utf8EncodeChar := by
  have whole : s.toUTF8 = s.toList.utf8Encode := by
    rw [String.toUTF8_eq_toByteArray]
    conv_lhs => rw [← String.ofList_toList (s := s)]
    rfl
  rw [bytesOf, whole, List.utf8Encode, List.toList_data_toByteArray]

theorem toNat_val_lt (c : Char) : c.val.toNat < 0x110000 := by
  rcases c.valid with low | high
  · exact Nat.lt_trans low (by decide)
  · exact high.2

/-- The encodings of two characters differ in some byte, and there the lesser character has the
lesser one. -/
theorem utf8EncodeChar_append_lt {c d : Char} (below : c < d) (rest rest' : List UInt8) :
    String.utf8EncodeChar c ++ rest < String.utf8EncodeChar d ++ rest' := by
  have order : c.val.toNat < d.val.toNat := UInt32.lt_iff_toNat_lt.mp (Char.lt_def.mp below)
  have limit := toNat_val_lt d
  simp only [String.utf8EncodeChar]
  generalize c.val.toNat = v at order ⊢
  generalize d.val.toNat = w at order limit ⊢
  -- one digit of six bits after the other, so that the digits of `v` and `w` can be compared
  have third (n : Nat) : n / 4096 = n / 64 / 64 := by rw [Nat.div_div_eq_div_mul]
  have fourth (n : Nat) : n / 262144 = n / 64 / 64 / 64 := by simp only [Nat.div_div_eq_div_mul]
  simp only [third, fourth]
  split_ifs <;> simp only [List.cons_append, List.nil_append, List.cons_lt_cons_iff,
    UInt8.lt_iff_toNat_lt, ← UInt8.toNat_inj, UInt8.toNat_ofNat'] <;> omega

/-- The lesser list of characters has the lesser bytes. -/
theorem flatMap_utf8EncodeChar_lt {cs ds : List Char} (below : cs < ds) :
    cs.flatMap String.utf8EncodeChar < ds.flatMap String.utf8EncodeChar := by
  induction cs generalizing ds with
  | nil =>
    cases ds with
    | nil => exact absurd below (List.lt_irrefl [])
    | cons d ds =>
      obtain ⟨byte, more, encoded⟩ :=
        List.exists_cons_of_ne_nil (@String.utf8EncodeChar_ne_nil d)
      rw [List.flatMap_cons, encoded]
      exact List.nil_lt_cons ..
  | cons c cs ih =>
    cases ds with
    | nil => exact absurd below (List.not_lt_nil _)
    | cons d ds =>
      rw [List.flatMap_cons, List.flatMap_cons]
      rcases List.cons_lt_cons_iff.mp below with first | ⟨rfl, rest⟩
      · exact utf8EncodeChar_append_lt first _ _
      · exact List.append_left_lt (ih rest)

/-- Strings are in the order of their bytes. -/
theorem lt_iff_bytesOf_lt {s t : String} : s < t ↔ bytesOf s < bytesOf t := by
  rw [bytesOf_eq, bytesOf_eq, String.lt_iff_toList_lt]
  refine ⟨flatMap_utf8EncodeChar_lt, fun below => ?_⟩
  rcases lt_trichotomy s t with before | rfl | after
  · exact String.lt_iff_toList_lt.mp before
  · exact absurd below (List.lt_irrefl _)
  · have above := flatMap_utf8EncodeChar_lt (String.lt_iff_toList_lt.mp after)
    exact absurd below (List.lt_asymm above)

end HybridTable
