/-!
Counting upwards through the 64-bit integers. A loop over integer keys ends because each step leaves
fewer keys up to the greatest one.
-/

namespace HybridTable

/-- The number of steps from a key up to the greatest one. -/
def keysLeft (key : Int64) : Nat := (Int64.maxValue.toInt - key.toInt).toNat

private theorem toInt_lt_greatest {key : Int64} (h : key ≠ Int64.maxValue) :
    key.toInt < Int64.maxValue.toInt := by
  have bound := key.toInt_lt
  have apart : key.toInt ≠ Int64.maxValue.toInt := fun same => h (Int64.toInt.inj same)
  have top : Int64.maxValue.toInt = 0x7fffffffffffffff := rfl
  omega

/-- Below the greatest key the next key is one more. -/
theorem toInt_add_one {key : Int64} (h : key ≠ Int64.maxValue) :
    (key + 1).toInt = key.toInt + 1 := by
  have below := toInt_lt_greatest h
  have low := key.le_toInt
  have top : Int64.maxValue.toInt = 0x7fffffffffffffff := rfl
  have one : (1 : Int64).toInt = 1 := rfl
  rw [Int64.toInt_add, one]
  exact Int.bmod_eq_of_le (by omega) (by omega)

/-! The order of a key and the next one. -/

section
variable {key k : Int64}

/-- A key before another one is not the greatest. -/
theorem ne_greatest_of_lt (before : key < k) : key ≠ Int64.maxValue := by
  rintro rfl
  have less := Int64.lt_iff_toInt_lt.mp before
  have bound := k.toInt_lt
  have top : Int64.maxValue.toInt = 2 ^ 63 - 1 := rfl
  omega

theorem add_one_le_iff_lt (below : key ≠ Int64.maxValue) : key + 1 ≤ k ↔ key < k := by
  rw [Int64.le_iff_toInt_le, Int64.lt_iff_toInt_lt, toInt_add_one below]
  omega

theorem key_lt_add_one (below : key ≠ Int64.maxValue) : key < key + 1 :=
  (add_one_le_iff_lt below).mp (Int64.le_refl _)

theorem key_add_one_ne (below : key ≠ Int64.maxValue) : key + 1 ≠ key :=
  Ne.symm (Int64.ne_of_lt (key_lt_add_one below))

theorem add_one_lt_add_one_iff (below : key ≠ Int64.maxValue) (below' : k ≠ Int64.maxValue) :
    key + 1 < k + 1 ↔ key < k := by
  rw [Int64.lt_iff_toInt_lt, Int64.lt_iff_toInt_lt, toInt_add_one below, toInt_add_one below']
  omega

/-- Behind a key there are only keys that come next after one. -/
theorem exists_eq_add_one (before : key < k) : ∃ j, k = j + 1 ∧ key ≤ j ∧ j < k := by
  have back : k - 1 + 1 = k := Int64.sub_add_cancel k 1
  generalize k - 1 = j at back
  subst back
  have below : j ≠ Int64.maxValue := by
    rintro rfl
    exact Int64.not_le.mpr before (Int64.minValue_le key)
  refine ⟨j, rfl, ?_, key_lt_add_one below⟩
  rw [Int64.lt_iff_toInt_lt, toInt_add_one below] at before
  rw [Int64.le_iff_toInt_le]
  omega

end

/-- Going on to the next key leaves fewer keys. -/
theorem keysLeft_add_one {key : Int64} (h : key ≠ Int64.maxValue) :
    keysLeft (key + 1) < keysLeft key := by
  have below := toInt_lt_greatest h
  unfold keysLeft
  rw [toInt_add_one h]
  omega

end HybridTable
