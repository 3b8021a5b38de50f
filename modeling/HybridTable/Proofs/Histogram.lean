import HybridTable.Proofs.Census
import HybridTable.Proofs.Faults

/-! The size of the array region from a histogram. Keys are counted by the least power of two that
they do not exceed, one counter for each exponent; one pass over the counters then adds them up and
remembers the last exponent of which half would be used. The pass may stop as soon as all keys
together are too few, because no greater exponent can do better. What it finds is what a search
among all exponents finds. -/
namespace HybridTable

/-- The least exponent whose power of two is not exceeded. -/
def ceilLog2 (n : Nat) : Nat := if n ≤ 1 then 0 else (n - 1).log2 + 1

theorem ceilLog2_le_iff {n bits : Nat} : ceilLog2 n ≤ bits ↔ n ≤ 2 ^ bits := by
  have one := Nat.one_le_two_pow (n := bits)
  unfold ceilLog2
  split
  · omega
  · rw [Nat.succ_le_iff, Nat.log2_lt (by omega)]
    omega

namespace Checked

/-- Counts a key. -/
def tally (counters : Array Nat) (key : Nat) : Checked (Array Nat) := do
  let n ← read counters (ceilLog2 key)
  write counters (ceilLog2 key) (n + 1)

/-- The size after so many more exponents, from `bits` on, when `used` keys are smaller than those
and `size` is the size for the smaller exponents. -/
def sizeFrom (counters : Array Nat) (total : Nat) :
    (steps : Nat) → (bits used size : Nat) → Checked Nat
  | 0, _, _, size => .ok size
  | steps + 1, bits, used, size => do
    let used := used + (← read counters bits)
    if total * 2 < 2 ^ bits then return size
    let size := if 2 ^ (bits - 1) ≤ used then 2 ^ bits else size
    sizeFrom counters total steps (bits + 1) used size

/-- `arraySizeFor` from a histogram. -/
def arraySize (keys : List Nat) : Checked Nat := do
  let counters ← keys.foldlM tally (Array.replicate (maxArrayBits + 1) 0)
  sizeFrom counters keys.length maxArrayBits 1 (← read counters 0) 0

/-- Every counter holds the number that belongs to its exponent. -/
def Tallied (counters : Array Nat) (number : Nat → Nat) : Prop :=
  ∀ bits ≤ maxArrayBits, counters[bits]? = some (number bits)

variable {counters : Array Nat} {number : Nat → Nat} {keys : List Nat}

theorem tallied_start : Tallied (Array.replicate (maxArrayBits + 1) 0) fun _ => 0 := by
  intro bits inside
  rw [Array.getElem?_replicate, if_pos (by omega)]

theorem tally_eq (tallied : Tallied counters number) {key : Nat} (inside : key ≤ 2 ^ maxArrayBits) :
    ∃ counters', tally counters key = .ok counters' ∧
      Tallied counters' fun bits => number bits + if ceilLog2 key = bits then 1 else 0 := by
  have found := tallied (ceilLog2 key) (ceilLog2_le_iff.mpr inside)
  have range := (Array.getElem?_eq_some_iff.mp found).1
  refine ⟨counters.setIfInBounds (ceilLog2 key) (number (ceilLog2 key) + 1), ?_,
    fun bits below => ?_⟩
  · rw [tally, read_eq found, ok_bind, write_eq range]
  · dsimp only
    by_cases own : ceilLog2 key = bits
    · rw [← own, Array.getElem?_setIfInBounds_self_of_lt range, if_pos rfl]
    · rw [Array.getElem?_setIfInBounds_ne own, if_neg own]
      exact tallied bits below

theorem foldlM_tally (tallied : Tallied counters number)
    (inside : ∀ key ∈ keys, key ≤ 2 ^ maxArrayBits) :
    ∃ counters', keys.foldlM tally counters = .ok counters' ∧
      Tallied counters' fun bits => number bits + keys.countP (ceilLog2 · = bits) := by
  induction keys generalizing counters number with
  | nil => exact ⟨counters, rfl, tallied⟩
  | cons key rest ih =>
    obtain ⟨next, counted, tallied⟩ := tally_eq tallied (inside key List.mem_cons_self)
    obtain ⟨final, others, tallied⟩ :=
      ih tallied fun other member => inside other (List.mem_cons_of_mem key member)
    refine ⟨final, ?_, fun bits below => ?_⟩
    · rw [List.foldlM_cons, counted, ok_bind, others]
    · rw [tallied bits below]
      simp only [List.countP_cons, decide_eq_true_eq]
      congr 1
      omega

/-- The keys up to a power are those up to the power before and those of its own counter. -/
theorem countP_succ (keys : List Nat) (bits : Nat) : keys.countP (· ≤ 2 ^ (bits + 1)) =
    keys.countP (· ≤ 2 ^ bits) + keys.countP (ceilLog2 · = bits + 1) := by
  induction keys with
  | nil => rfl
  | cons key rest ih =>
    have own := @ceilLog2_le_iff key bits
    have next := @ceilLog2_le_iff key (bits + 1)
    simp only [List.countP_cons, ih, decide_eq_true_eq]
    split <;> split <;> split <;> omega

/-- The size for the exponents up to a limit. -/
def sizeUpTo (keys : List Nat) (limit : Nat) : Nat :=
  match Nat.findGreatest (fun bits => 2 ^ bits ≤ 2 * keys.countP (· ≤ 2 ^ bits)) limit with
  | 0 => 0
  | bits + 1 => 2 ^ (bits + 1)

theorem sizeUpTo_succ (keys : List Nat) (limit : Nat) : sizeUpTo keys (limit + 1) =
    if 2 ^ limit ≤ keys.countP (· ≤ 2 ^ (limit + 1)) then 2 ^ (limit + 1)
    else sizeUpTo keys limit := by
  unfold sizeUpTo
  rw [Nat.findGreatest_succ]
  have half : 2 ^ (limit + 1) ≤ 2 * keys.countP (· ≤ 2 ^ (limit + 1)) ↔
      2 ^ limit ≤ keys.countP (· ≤ 2 ^ (limit + 1)) := by
    rw [Nat.pow_succ]
    omega
  by_cases enough : 2 ^ limit ≤ keys.countP (· ≤ 2 ^ (limit + 1))
  · rw [if_pos (half.mpr enough), if_pos enough]
  · rw [if_neg (mt half.mp enough), if_neg enough]

/-- Once all keys are too few, greater exponents change nothing. -/
theorem sizeUpTo_of_few {limit : Nat} (few : keys.length * 2 < 2 ^ (limit + 1)) (more : Nat) :
    sizeUpTo keys (limit + more) = sizeUpTo keys limit := by
  induction more with
  | zero => rfl
  | succ more ih =>
    have greater : 2 ^ limit ≤ 2 ^ (limit + more) :=
      Nat.pow_le_pow_right (by decide) (Nat.le_add_right ..)
    have part := keys.countP_le_length (p := (· ≤ 2 ^ (limit + more + 1)))
    rw [Nat.pow_succ] at few
    rw [← Nat.add_assoc, sizeUpTo_succ, if_neg (by omega), ih]

/-- One step of the pass keeps what is known of the smaller exponents. -/
theorem sizeFrom_eq (tallied : Tallied counters fun bits => keys.countP (ceilLog2 · = bits))
    {steps bits : Nat} (range : bits + steps = maxArrayBits) :
    sizeFrom counters keys.length steps (bits + 1) (keys.countP (· ≤ 2 ^ bits))
      (sizeUpTo keys bits) = .ok (sizeUpTo keys maxArrayBits) := by
  induction steps generalizing bits with
  | zero => rw [sizeFrom, ← range, Nat.add_zero]
  | succ steps ih =>
    have next : bits + 1 + steps = maxArrayBits := by omega
    rw [sizeFrom, read_eq (tallied (bits + 1) (by omega)), ok_bind, ← countP_succ]
    by_cases few : keys.length * 2 < 2 ^ (bits + 1)
    · rw [if_pos few, ← range, sizeUpTo_of_few few]
      rfl
    · rw [if_neg few]
      dsimp only
      rw [Nat.add_sub_cancel, ← sizeUpTo_succ]
      exact ih next

/-- Counting the keys finds the size, and no counter is missing. -/
theorem arraySize_eq (inside : ∀ key ∈ keys, key ≤ 2 ^ maxArrayBits) :
    arraySize keys = .ok (arraySizeFor keys) := by
  obtain ⟨counters, counted, tallied⟩ := foldlM_tally tallied_start inside
  simp only [Nat.zero_add] at tallied
  have first : keys.countP (ceilLog2 · = 0) = keys.countP (· ≤ 2 ^ 0) := by
    refine List.countP_congr fun key _ => ?_
    rw [decide_eq_true_eq, decide_eq_true_eq, ← ceilLog2_le_iff, Nat.le_zero]
  rw [arraySize, counted, ok_bind, read_eq (tallied 0 (Nat.zero_le _)), ok_bind,
    arraySizeFor_eq_findGreatest]
  dsimp only
  rw [first]
  exact sizeFrom_eq tallied (Nat.zero_add _)

end Checked

end HybridTable
