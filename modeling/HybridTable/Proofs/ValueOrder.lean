import HybridTable.Proofs.HeapOrder
import HybridTable.Proofs.NumberOrder
import HybridTable.Proofs.TextOrder
import HybridTable.World.Library

/-! The order of values that are compared without handlers. Numbers are told apart by the units that
they count, whether they are integers or floats, and strings by their content; primitive equality is
equality of these keys, and of two different keys one is below the other. -/
namespace HybridTable

namespace Value

/-- Whether a value is below another one of its kind, if both are numbers or both are strings. -/
def below : Value → Value → Bool
  | text s, text t => decide (s.content < t.content)
  | a, b => match a.units?, b.units? with
    | some u, some v => decide (u < v)
    | _, _ => false

/-- The content of a string. -/
def text? : Value → Option String
  | text s => some s.content
  | _ => none

theorem below_iff_number? {a b : Value} (number : a.kind = .number) : a.below b = true ↔
    ∃ x ∈ a.number?, ∃ y ∈ b.number?, x < y := by
  rw [exists_number?_lt_iff]
  have keyed : a.below b = match a.units?, b.units? with
      | some u, some v => decide (u < v)
      | _, _ => false := by
    cases a with
    | text s => cases number
    | _ => rfl
  rw [keyed]
  cases a.units? <;> cases b.units? <;> simp

theorem below_iff_bytesOf {s t : Text} :
    (text s).below (text t) = true ↔ bytesOf s.content < bytesOf t.content :=
  decide_eq_true_iff.trans lt_iff_bytesOf_lt

end Value

/-- Whether two values are compared without handlers. -/
def Alike (a b : Value) : Prop :=
  a.kind = .number ∧ b.kind = .number ∨ a.kind = .string ∧ b.kind = .string

/-- Values that are ordered, and equal, as their keys are. -/
structure OrderedBy {κ : Type} [LinearOrder κ] (key? : Value → Option κ) : Prop where
  alike : ∀ {a b}, key? a ≠ none → key? b ≠ none → Alike a b
  below : ∀ {a b x y}, key? a = some x → key? b = some y → a.below b = decide (x < y)
  equal : ∀ {a b x y}, key? a = some x → key? b = some y → a.rawEqual b = decide (x = y)

/-- Numbers are ordered by their units. -/
theorem orderedBy_units : OrderedBy Value.units? where
  alike {a b} first second := by
    have number {v : Value} (keyed : v.units? ≠ none) : v.kind = .number := by
      cases v <;> first | rfl | exact absurd rfl keyed
    exact .inl ⟨number first, number second⟩
  below {a b x y} first second := by
    cases a with
    | text s => cases first
    | _ => simp only [Value.below, first, second]
  equal first second := by
    rw [Bool.eq_iff_iff, decide_eq_true_iff]
    exact Value.rawEqual_iff_units first second

/-- Strings are ordered by their content. -/
theorem orderedBy_text : OrderedBy Value.text? where
  alike {a b} first second := by
    have string {v : Value} (keyed : v.text? ≠ none) : v.kind = .string := by
      cases v <;> first | rfl | exact absurd rfl keyed
    exact .inr ⟨string first, string second⟩
  below {a b x y} first second := by
    cases a <;> cases first
    cases b <;> cases second
    rfl
  equal {a b x y} first second := by
    cases a <;> cases first
    cases b <;> cases second
    rfl

namespace OrderedBy

variable {κ : Type} [LinearOrder κ] {key? : Value → Option κ} (ordered : OrderedBy key?)
include ordered

/-- Exactly one of two values is below the other, unless they are equal. -/
theorem trichotomy {a b : Value} (first : key? a ≠ none) (second : key? b ≠ none) :
    [a.below b, b.below a, a.rawEqual b].count true = 1 := by
  obtain ⟨x, first⟩ := Option.ne_none_iff_exists'.mp first
  obtain ⟨y, second⟩ := Option.ne_none_iff_exists'.mp second
  rw [ordered.below first second, ordered.below second first, ordered.equal first second]
  rcases lt_trichotomy x y with before | rfl | after
  · simp [before, before.asymm, before.ne]
  · simp
  · simp [after, after.asymm, after.ne']

/-- Being below another value is a strict weak order. -/
theorem strictWeak : Sort.StrictWeakOn Value.below (key? · ≠ none) where
  irrefl a known := by
    obtain ⟨x, keyed⟩ := Option.ne_none_iff_exists'.mp known
    simp [ordered.below keyed keyed]
  trans a b c known known' known'' := by
    obtain ⟨x, first⟩ := Option.ne_none_iff_exists'.mp known
    obtain ⟨y, second⟩ := Option.ne_none_iff_exists'.mp known'
    obtain ⟨z, third⟩ := Option.ne_none_iff_exists'.mp known''
    rw [ordered.below first second, ordered.below second third, ordered.below first third]
    simpa using lt_trans
  incomparable a b c known known' known'' := by
    obtain ⟨x, first⟩ := Option.ne_none_iff_exists'.mp known
    obtain ⟨y, second⟩ := Option.ne_none_iff_exists'.mp known'
    obtain ⟨z, third⟩ := Option.ne_none_iff_exists'.mp known''
    rw [ordered.below first second, ordered.below second first, ordered.below second third,
      ordered.below third second, ordered.below first third, ordered.below third first]
    simp only [decide_eq_false_iff_not, not_lt]
    exact fun lower upper lower' upper' => ⟨lower'.trans lower, upper.trans upper'⟩

end OrderedBy

namespace Binary64

/-- The integers are in the order of their units. -/
theorem toInt_lt_iff_units {i j : Int64} :
    i < j ↔ i.toInt * unitsPerOne < j.toInt * unitsPerOne := by
  have scale : (0 : Int) < unitsPerOne := Int.natCast_pos.mpr unitsPerOne_pos
  rw [Int64.lt_iff_toInt_lt, Int.mul_lt_mul_right scale]

end Binary64

namespace Action

variable {ε : Type} [Hashing] {calls : Calls ε}

/-- Numbers and strings are compared by themselves: nothing is called, and nothing changes. -/
theorem run_lessThan {a b : Value} (alike : Alike a b) (w : World ε) :
    (lessThan calls a b).run w = (.ok (a.below b), w) := by
  have answered {answer : Bool} (same : answer = a.below b) :
      (pure answer : Action ε Bool).run w = (.ok (a.below b), w) := by
    rw [same]
    rfl
  rcases alike with ⟨first, second⟩ | ⟨first, second⟩
  · cases a with
    | int i =>
      cases b with
      | int j =>
        apply answered
        simp only [Value.below, Value.units?, Binary64.toInt_lt_iff_units]
      | float y =>
        apply answered
        cases number : y.isNaN <;> simp only [Value.below, Value.units?, Binary64.intLess_eq,
          number, Bool.not_true, Bool.false_and, Bool.not_false, Bool.true_and,
          Bool.false_eq_true, ↓reduceIte]
      | _ => cases second
    | float x =>
      cases b with
      | int j =>
        apply answered
        cases number : x.isNaN <;> simp only [Value.below, Value.units?, Binary64.lessInt_eq,
          number, Bool.not_true, Bool.false_and, Bool.not_false, Bool.true_and,
          Bool.false_eq_true, ↓reduceIte]
      | float y =>
        apply answered
        cases number : x.isNaN <;> cases number' : y.isNaN <;>
          simp [Value.below, Value.units?, Binary64.less, number, number']
      | _ => cases second
    | _ => cases first
  · cases a <;> cases first
    cases b <;> cases second
    rfl

/-- A sort of values that are ordered by a key puts them in that order, and nothing else happens. -/
theorem heapSort_lessThan {κ : Type} [LinearOrder κ] {key? : Value → Option κ}
    (ordered : OrderedBy key?) {n : Nat} (values : Vector Value n) (w : World ε)
    (known : ∀ v ∈ values, key? v ≠ none) :
    let out := Sort.heapSort (fun left right => (lessThan calls left right).run) values w
    out.verdict = .ok () ∧ out.state = w ∧ out.values.Perm values ∧
      out.values.toList.Pairwise fun earlier later => later.below earlier = false := by
  intro out
  have runs {a b : Value} (first : key? a ≠ none) (second : key? b ≠ none) (w : World ε) :
      (lessThan calls a b).run w = (.ok (a.below b), w) :=
    run_lessThan (ordered.alike first second) w
  have answers : Sort.Answers (fun left right => (lessThan calls left right).run) Value.below
      (key? · ≠ none) := fun left right s first second =>
      congrArg Prod.fst (runs first second s)
  obtain ⟨completed, sorted⟩ := Sort.heapSort_sorts ordered.strictWeak answers values w known
  have keeps (left right : Value) (s : World ε) (first : key? left ≠ none)
      (second : key? right ≠ none) (same : s = w) : ((lessThan calls left right).run s).2 = w := by
    rw [runs first second, same]
  have unchanged : out.state = w := Sort.heapSort_keeps keeps values w known rfl
  refine ⟨completed, unchanged, Sort.heapSort_perm .., List.pairwise_iff_getElem.mpr ?_⟩
  intro i j hi hj earlier
  rw [Vector.length_toList] at hi hj
  exact sorted i j earlier (by omega) hj hi

/-- Numbers are compared by the real numbers or infinities that they are, in any mix of integers and
floats, a non-number being below nothing and above nothing; strings are compared by their bytes.
Among the numbers, and among the strings, the order is a strict weak one, and of two values either
one is below the other or they are primitively equal. So a sort of such values ends in ascending
order, without any call. -/
theorem lessThan_orders_values (calls : Calls ε) :
    (∀ a b, Alike a b → ∀ w, (lessThan calls a b).run w = (.ok (a.below b), w)) ∧
      (∀ a b : Value, a.kind = .number → b.kind = .number →
        (a.below b = true ↔ ∃ x ∈ a.number?, ∃ y ∈ b.number?, x < y)) ∧
      (∀ s t : Text,
        (Value.text s).below (.text t) = true ↔ bytesOf s.content < bytesOf t.content) ∧
      ∀ among : Value → Prop, (among = (·.number? ≠ none) ∨ among = (·.kind = .string)) →
        Sort.StrictWeakOn Value.below among ∧
        (∀ a b, among a → among b → [a.below b, b.below a, a.rawEqual b].count true = 1) ∧
        ∀ (n : Nat) (values : Vector Value n) (w : World ε), (∀ v ∈ values, among v) →
          let out := Sort.heapSort (fun left right => (lessThan calls left right).run) values w
          out.verdict = .ok () ∧ out.state = w ∧ out.values.Perm values ∧
            out.values.toList.Pairwise fun earlier later => later.below earlier = false := by
  refine ⟨fun a b => run_lessThan, fun a b number _ => Value.below_iff_number? number,
    fun s t => Value.below_iff_bytesOf, ?_⟩
  rintro among (rfl | rfl)
  · have counted : (fun v : Value => v.number? ≠ none) = (·.units? ≠ none) := by
      funext v
      rw [Value.number?_eq, ne_eq, Option.map_eq_none_iff]
    rw [counted]
    exact ⟨orderedBy_units.strictWeak, fun a b => orderedBy_units.trichotomy,
      fun n values w => heapSort_lessThan orderedBy_units values w⟩
  · have written : (fun v : Value => v.kind = .string) = (·.text? ≠ none) := by
      funext v
      cases v <;> simp [Value.kind, Value.text?]
    rw [written]
    exact ⟨orderedBy_text.strictWeak, fun a b => orderedBy_text.trichotomy,
      fun n values w => heapSort_lessThan orderedBy_text values w⟩

omit [Hashing] in
/-- Around the limits of exact floats and of integers: `2 ^ 53 + 1` is above the float `2 ^ 53`,
and the greatest integer is below the float `2 ^ 63`, to which it would be rounded. -/
theorem lessThan_orders_limits :
    let _ : Hashing := .uniform
    let calls : Calls Unit := fun _ _ => pure []
    let w : World Unit := .initial ()
    let odd : Value := .int 9007199254740993
    let even : Value := .float ⟨0x4340000000000000⟩
    let greatest : Value := .int Int64.maxValue
    let past : Value := .float ⟨0x43e0000000000000⟩
    let values : Vector Value 4 := #v[past, odd, greatest, even]
    even.below odd = true ∧ greatest.below past = true ∧ (∀ v ∈ values, v.number? ≠ none) ∧
      (lessThan calls even odd).run w = (.ok true, w) ∧
      [greatest.below past, past.below greatest, greatest.rawEqual past].count true = 1 ∧
      (Sort.heapSort (fun left right => (lessThan calls left right).run) values w).verdict =
        .ok () := by
  intro hashing calls w odd even greatest past values
  have first : even.below odd = true := by decide +kernel
  have second : greatest.below past = true := by decide +kernel
  have known : ∀ v ∈ values, v.number? ≠ none := by
    have units : ∀ v ∈ values.toList, v.units?.isSome := by decide +kernel
    intro v member
    rw [Value.number?_eq, ne_eq, Option.map_eq_none_iff, ← ne_eq, ← Option.isSome_iff_ne_none]
    exact units v (Vector.mem_toList_iff.mpr member)
  obtain ⟨runs, -, -, ordered⟩ := lessThan_orders_values calls
  obtain ⟨-, apart, sorts⟩ := ordered _ (.inl rfl)
  have compared := runs even odd (.inl ⟨rfl, rfl⟩) w
  rw [first] at compared
  exact ⟨first, second, known, compared,
    apart _ _ (known greatest (by simp [values])) (known past (by simp [values])),
    (sorts 4 values w known).1⟩

end Action

end HybridTable
