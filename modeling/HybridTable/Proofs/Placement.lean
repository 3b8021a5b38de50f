import HybridTable.Proofs.Storage

/-! Putting pairs into storage that has room for them. A piece of old storage goes to the position
of its key or in front of the chain of its bucket. `Filled` describes the outcome by what is stored
and by the count, and it composes, so the fold over many pieces with different keys is described by
one step. -/
namespace HybridTable

namespace Entry

theorem arrayKey?_eq_some_iff {policy : WeakPolicy} {e : Entry} (fitted : e.Fitted policy)
    {limit n : Nat} : e.arrayKey? limit = some n ↔
      ∃ i, e.key = .int i ∧ 1 ≤ i.toInt ∧ i.toInt ≤ limit ∧ n = i.toInt.toNat := by
  have of_int (i : Int64) : (if 1 ≤ i.toInt ∧ i.toInt ≤ limit then some i.toInt.toNat else none) =
      some n ↔ ∃ j, Value.int i = .int j ∧ 1 ≤ j.toInt ∧ j.toInt ≤ limit ∧ n = j.toInt.toNat := by
    constructor
    · intro found
      split at found
      · rename_i inside
        cases found
        exact ⟨i, rfl, inside.1, inside.2, rfl⟩
      · cases found
    · rintro ⟨j, same, low, high, rfl⟩
      cases same
      exact if_pos ⟨low, high⟩
  cases e with
  | plain key value =>
    cases key with
    | int i => exact of_int i
    | _ => exact ⟨nofun, fun ⟨_, same, _⟩ => nomatch same⟩
  | guarded key value =>
    cases key with
    | strong key =>
      cases key with
      | int i => exact of_int i
      | _ => exact ⟨nofun, fun ⟨_, same, _⟩ => nomatch same⟩
    | weak key =>
      -- a policy never weakens an integer
      have weak : Cell.weak key = policy.keyCell key := fitted.1
      refine ⟨nofun, fun ⟨i, same, _⟩ => ?_⟩
      have integer : key = .int i := same
      simp [integer, WeakPolicy.keyCell, WeakPolicy.cell, Value.isObject] at weak

end Entry

namespace Moving

variable {alive : Ref → Bool} {policy : WeakPolicy} {item : Moving} {k : Key}

/-- The key of the pair, whether or not it can still be read. -/
def key : Moving → Value
  | cell key _ => .int (Int64.ofNat key)
  | entry e => e.key

theorem value_entry (e : Entry) : (entry e).value = e.value := by cases e <;> rfl

/-- A piece of sound storage with this policy. -/
structure Proper (policy : WeakPolicy) (item : Moving) : Prop where
  /-- It is under a key. -/
  named : item.key.toKey? ≠ none
  /-- The key is in normal form. -/
  normal : item.key.IsNormal
  /-- There is a value. -/
  valued : item.value ≠ .nil
  /-- A position has an integer key. -/
  inRange : ∀ n c, item = cell n c →
    1 ≤ n ∧ n ≤ 2 ^ maxArrayBits ∧ c = policy.valueCell c.content
  /-- An entry is as weak as the policy says. -/
  fitted : ∀ e, item = entry e → e.Fitted policy

theorem Proper.isAlive_iff (proper : item.Proper policy) (named : item.key.toKey? = some k) :
    item.isAlive alive = true ↔ policy.Spares alive k item.value := by
  cases item with
  | cell n c =>
    obtain ⟨_, _, own⟩ := proper.inRange n c rfl
    cases named
    rw [isAlive, own, WeakPolicy.isAlive_valueCell_iff, value, WeakPolicy.content_valueCell]
    exact ⟨fun spared => ⟨nofun, spared⟩, (·.value)⟩
  | entry e =>
    rw [value_entry]
    exact (proper.fitted e rfl).isAlive_iff named

/-- Where more is alive, more can be read. -/
theorem isAlive_mono {alive' : Ref → Bool} (more : ∀ r, alive r = true → alive' r = true)
    (readable : item.isAlive alive = true) : item.isAlive alive' = true := by
  cases item with
  | cell n c => exact c.isAlive_mono more readable
  | entry e => exact e.isAlive_mono more readable

/-- What a readable piece refers to is held by it or is alive. -/
theorem held_or_alive (readable : item.isAlive alive = true) {r : Ref}
    (member : r ∈ item.key.refs ++ item.value.refs) : r ∈ item.refs ∨ alive r = true := by
  cases item with
  | cell n c => exact c.held_or_alive readable member
  | entry e =>
    rw [value_entry] at member
    exact e.held_or_alive readable member

/-- A piece goes to the array region exactly if its key is one from 1 up to the limit. -/
theorem Proper.arrayKey?_eq_some_iff (proper : item.Proper policy) {limit n : Nat} :
    item.arrayKey? limit = some n ↔
      1 ≤ n ∧ n ≤ limit ∧ n < 2 ^ 63 ∧ item.key = .int (Int64.ofNat n) := by
  cases item with
  | cell m c =>
    obtain ⟨low, high, _⟩ := proper.inRange m c rfl
    have top : (2 : Nat) ^ maxArrayBits < 2 ^ 63 := by decide
    simp only [arrayKey?, key, Value.int.injEq]
    constructor
    · intro found
      split at found
      · cases found
        exact ⟨low, by assumption, by omega, rfl⟩
      · cases found
    · rintro ⟨_, below, small, same⟩
      have equal := congrArg Int64.toInt same
      rw [Int64.toInt_ofNat_of_lt (by omega), Int64.toInt_ofNat_of_lt small] at equal
      have : m = n := by omega
      subst this
      exact if_pos below
  | entry e =>
    refine (Entry.arrayKey?_eq_some_iff (proper.fitted e rfl)).trans ⟨?_, ?_⟩
    · rintro ⟨i, same, low, high, rfl⟩
      have top := i.toInt_lt
      refine ⟨by omega, by omega, by omega, ?_⟩
      have again : Int64.ofNat i.toInt.toNat = i := by
        rw [← Int64.toInt_inj, Int64.toInt_ofNat_of_lt (by omega)]
        omega
      rw [again]
      exact same
    · rintro ⟨low, below, small, same⟩
      have equal := Int64.toInt_ofNat_of_lt small
      exact ⟨_, same, by omega, by omega, by omega⟩

theorem key_toEntry (policy : WeakPolicy) (rebuild : Bool) (item : Moving) :
    (item.toEntry policy rebuild).key = item.key := by
  cases item with
  | cell n c => exact Entry.key_make ..
  | entry e =>
    cases e <;> cases rebuild <;> simp [toEntry, key] <;> rfl

theorem value_toEntry (policy : WeakPolicy) (rebuild : Bool) (item : Moving) :
    (item.toEntry policy rebuild).value = item.value := by
  cases item with
  | cell n c => exact Entry.value_make ..
  | entry e => cases e <;> cases rebuild <;> simp [toEntry, value] <;> rfl

/-- An entry that is not made anew has to fit as it is. -/
theorem fitted_toEntry {rebuild : Bool} (fitting : rebuild = true ∨ ∀ e, item = entry e →
    e.Fitted policy) : (item.toEntry policy rebuild).Fitted policy := by
  cases item with
  | cell n c => exact Entry.fitted_make ..
  | entry e =>
    by_cases anew : rebuild = true
    · cases e <;> simp only [toEntry, anew, ↓reduceIte] <;> exact Entry.fitted_make ..
    · have fitted := fitting.resolve_left anew e rfl
      cases e <;> simpa [toEntry, anew] using fitted

/-- Under another policy every entry is made anew; under the same one it fits as it is. -/
theorem Proper.fitted_toEntry (proper : item.Proper policy) {rebuild : Bool} {next : WeakPolicy}
    (fitting : rebuild = true ∨ next = policy) : (item.toEntry next rebuild).Fitted next := by
  refine Moving.fitted_toEntry (fitting.imp_right ?_)
  rintro rfl
  exact proper.fitted

end Moving

namespace Table

variable [Hashing] {t t' t'' : Table} {item : Moving} {items : List Moving} {policy : WeakPolicy}
  {rebuild : Bool}

omit [Hashing] in
/-- What stays out of the array region has no position there. -/
theorem position?_of_arrayKey? (addressable : t.array.size ≤ 2 ^ maxArrayBits)
    (proper : item.Proper policy) (outside : item.arrayKey? t.array.size = none) {i : Int64}
    (integer : item.key = .int i) : t.position? i = none := by
  apply Option.eq_none_iff_forall_ne_some.mpr
  intro position found
  obtain ⟨inside, rfl⟩ := (position?_eq_some_iff addressable).mp found
  have top : (2 : Nat) ^ maxArrayBits < 2 ^ 63 := by decide
  have : item.arrayKey? t.array.size = some (position + 1) :=
    proper.arrayKey?_eq_some_iff.mpr ⟨by omega, by omega, by omega, integer⟩
  rw [outside] at this
  cases this

theorem place_of_some {n : Nat} (found : item.arrayKey? t.array.size = some n) :
    t.place rebuild item = t.setCell (n - 1) (some (t.policy.valueCell item.value)) := by
  simp only [place, found]

theorem place_of_none (outside : item.arrayKey? t.array.size = none) :
    t.place rebuild item = t.rechain (t.bucketOf item.key)
      (.live (item.toEntry t.policy rebuild) :: t.chain (t.bucketOf item.key)) (t.count + 1) := by
  simp only [place, outside, Entry.keyHash_eq, Moving.key_toEntry]
  rfl

theorem policy_place (rebuild : Bool) (t : Table) (item : Moving) :
    (t.place rebuild item).policy = t.policy := by
  cases found : item.arrayKey? t.array.size with
  | some n => rw [place_of_some found]; rfl
  | none => rw [place_of_none found]; rfl

/-- Having no tombstone. -/
def Clean (t : Table) : Prop := ∀ bucket s, s ∈ t.chain bucket → ∃ e, s = .live e

/-- `t'` is `t` with some pieces put into it. -/
structure Filled (t : Table) (items : List Moving) (t' : Table) : Prop where
  /-- The layout is kept. -/
  sound : t'.Sound
  /-- Nothing but entries was added. -/
  clean : t'.Clean
  /-- The array region has its size. -/
  arraySize : t'.array.size = t.array.size
  /-- The hash region has its size. -/
  hashSize : t'.buckets.size = t.buckets.size
  /-- The policy is the same. -/
  policy : t'.policy = t.policy
  /-- The metatable is the same. -/
  metatable : t'.metatable = t.metatable
  /-- Exactly the pieces were added. -/
  stores : ∀ k v, t'.Stores k v ↔
    t.Stores k v ∨ ∃ item ∈ items, item.key.toKey? = some k ∧ item.value = v
  /-- What has no position was counted. -/
  count : t'.count = t.count + items.countP fun item => (item.arrayKey? t.array.size).isNone

theorem Filled.nil (sound : t.Sound) (clean : t.Clean) : Filled t [] t :=
  ⟨sound, clean, rfl, rfl, rfl, rfl, by simp, rfl⟩

theorem Filled.cons (first : Filled t [item] t') (rest : Filled t' items t'') :
    Filled t (item :: items) t'' where
  sound := rest.sound
  clean := rest.clean
  arraySize := rest.arraySize.trans first.arraySize
  hashSize := rest.hashSize.trans first.hashSize
  policy := rest.policy.trans first.policy
  metatable := rest.metatable.trans first.metatable
  stores k v := by
    rw [rest.stores, first.stores]
    simp only [List.mem_cons, List.not_mem_nil, false_and, exists_false, exists_eq_or_imp,
      false_or, or_assoc]
  count := by
    have countFirst := first.count
    have countRest := rest.count
    rw [first.arraySize] at countRest
    simp only [List.countP_cons, List.countP_nil] at countFirst ⊢
    omega

private theorem filled_setCell (sound : t.Sound) (clean : t.Clean) (proper : item.Proper policy)
    {n : Nat} (found : item.arrayKey? t.array.size = some n)
    (fresh : ∀ k v, item.key.toKey? = some k → ¬ t.Stores k v) :
    Filled t [item] (t.setCell (n - 1) (some (t.policy.valueCell item.value))) := by
  obtain ⟨low, high, _, integer⟩ := proper.arrayKey?_eq_some_iff.mp found
  have inside : n - 1 < t.array.size := by omega
  have sound' : (t.setCell (n - 1) (some (t.policy.valueCell item.value))).Sound := by
    apply sound.setCell inside _
    intro c same
    cases same
    exact ⟨by rw [WeakPolicy.content_valueCell], by simpa using proper.valued⟩
  have named : item.key.toKey? = some (.int (Int64.ofNat (n - 1 + 1))) := by
    rw [integer, Nat.sub_add_cancel low]
    rfl
  have own := stores_setCell inside (t.policy.valueCell item.value)
  rw [WeakPolicy.content_valueCell] at own
  refine ⟨sound', clean, by simp, rfl, rfl, rfl, fun k v => ?_, by simp [found]⟩
  simp only [List.mem_singleton, exists_eq_left, named, Option.some.injEq]
  by_cases same : k = .int (Int64.ofNat (n - 1 + 1))
  · subst same
    constructor
    · exact fun stored => .inr ⟨rfl, sound'.functional own stored⟩
    · rintro (stored | ⟨_, rfl⟩)
      · exact absurd stored (fresh _ v named)
      · exact own
  · rw [stores_setCell_iff inside same]
    exact ⟨.inl, fun stored => stored.resolve_right fun added => same added.1.symm⟩

private theorem filled_rechain (sound : t.Sound) (clean : t.Clean) (proper : item.Proper policy)
    (fitting : rebuild = true ∨ t.policy = policy) (outside : item.arrayKey? t.array.size = none)
    (fresh : ∀ k v, item.key.toKey? = some k → ¬ t.Stores k v) (room : t.count < t.buckets.size) :
    Filled t [item] (t.rechain (t.bucketOf item.key)
      (.live (item.toEntry t.policy rebuild) :: t.chain (t.bucketOf item.key)) (t.count + 1)) := by
  have inside : t.bucketOf item.key < t.buckets.size := t.bucketOf_lt item.key (by omega)
  obtain ⟨k, named⟩ := Option.ne_none_iff_exists'.mp proper.named
  have keyed := Moving.key_toEntry t.policy rebuild item
  have valued := Moving.value_toEntry t.policy rebuild item
  have fitted := proper.fitted_toEntry fitting
  generalize item.toEntry t.policy rebuild = added at keyed valued fitted ⊢
  have admitted : t.Admits (t.bucketOf item.key) (.live added) := by
    have own : (Slot.live added).key = item.key := keyed
    refine ⟨congrArg t.bucketOf own.symm, own ▸ proper.named, own ▸ proper.normal,
      fun i integer => ?_, ?_, ?_⟩
    · exact position?_of_arrayKey? sound.addressable proper outside (own ▸ integer)
    · rintro e ⟨⟩
      exact fitted
    · rintro e ⟨⟩
      exact valued ▸ proper.valued
  have distinct : Chain.Distinct (.live added :: t.chain (t.bucketOf item.key)) := by
    refine List.pairwise_cons.mpr ⟨fun s member same => ?_, sound.distinct _⟩
    obtain ⟨e, rfl⟩ := clean _ s member
    have spelled : added.key.toKey? = some k := keyed ▸ named
    exact fresh k e.value named (.entry member (same.symm.trans spelled))
  refine ⟨sound.rechain inside ?_ distinct ?_ room, ?_, rfl, size_buckets_rechain, rfl, rfl,
    fun k v => ?_, by simp [outside]⟩
  · intro s member
    rcases List.mem_cons.mp member with rfl | old
    · exact admitted
    · exact sound.slots _ s old
  · simp only [Chain.entryCount, List.countP_cons, Slot.isDead, Bool.not_false, ↓reduceIte]
    omega
  · intro other s member
    rw [chain_rechain inside] at member
    split at member
    · rcases List.mem_cons.mp member with rfl | old
      · exact ⟨added, rfl⟩
      · exact clean _ s old
    · exact clean other s member
  · simp only [List.mem_singleton, exists_eq_left]
    constructor
    · intro stored
      rcases stores_of_rechain inside stored with old | ⟨e, member, spelled, rfl⟩
      · exact .inl old
      · rcases List.mem_cons.mp member with same | old
        · cases same
          exact .inr ⟨keyed ▸ spelled, valued.symm⟩
        · exact .inl (.entry old spelled)
    · rintro (old | ⟨spelled, rfl⟩)
      · exact old.rechain inside fun ⟨e, member, rest⟩ => ⟨e, List.mem_cons_of_mem _ member, rest⟩
      · exact stores_rechain inside ⟨added, List.mem_cons_self, keyed ▸ spelled, valued⟩

/-- A pair under a new key is put in its place. -/
theorem filled_place (sound : t.Sound) (clean : t.Clean) (proper : item.Proper policy)
    (fitting : rebuild = true ∨ t.policy = policy)
    (fresh : ∀ k v, item.key.toKey? = some k → ¬ t.Stores k v)
    (room : item.arrayKey? t.array.size = none → t.count < t.buckets.size) :
    Filled t [item] (t.place rebuild item) := by
  cases found : item.arrayKey? t.array.size with
  | some n =>
    rw [place_of_some found]
    exact filled_setCell sound clean proper found fresh
  | none =>
    rw [place_of_none found]
    exact filled_rechain sound clean proper fitting found fresh (room found)

/-- Pairs under different keys are put in their places one after another, if there is room. -/
theorem filled_foldl (sound : t.Sound) (clean : t.Clean)
    (proper : ∀ item ∈ items, item.Proper policy) (fitting : rebuild = true ∨ t.policy = policy)
    (distinct : items.Pairwise fun a b => a.key.toKey? ≠ b.key.toKey?)
    (fresh : ∀ item ∈ items, ∀ k v, item.key.toKey? = some k → ¬ t.Stores k v)
    (room : t.count + items.countP (fun item => (item.arrayKey? t.array.size).isNone) ≤
      t.buckets.size) : Filled t items (items.foldl (place rebuild) t) := by
  induction items generalizing t with
  | nil => exact .nil sound clean
  | cons item rest ih =>
    obtain ⟨apart, restDistinct⟩ := List.pairwise_cons.mp distinct
    have placed : Filled t [item] (t.place rebuild item) := by
      refine filled_place sound clean (proper item List.mem_cons_self) fitting
        (fresh item List.mem_cons_self) fun outside => ?_
      rw [List.countP_cons_of_pos (by simp [outside])] at room
      omega
    refine placed.cons (ih placed.sound placed.clean ?_ (placed.policy.symm ▸ fitting) restDistinct
      ?_ ?_)
    · exact fun other member => proper other (List.mem_cons_of_mem item member)
    · intro other member k v named stored
      rcases (placed.stores k v).mp stored with old | ⟨same, listed, spelled, rfl⟩
      · exact fresh other (List.mem_cons_of_mem item member) k v named old
      · cases List.mem_singleton.mp listed
        exact apart other member (spelled.trans named.symm)
    · have := placed.count
      rw [placed.arraySize, placed.hashSize]
      simp only [List.countP_cons, List.countP_nil] at room this
      omega

end Table

end HybridTable
