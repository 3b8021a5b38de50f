import HybridTable.Proofs.Upkeep

/-! How strongly a table holds what is in it. `Wrapped` says it of one table: every cell is as weak
as the present policy wants it, and what a tombstone holds cannot be reclaimed at all. It is a
matter of single cells, so it does not depend on the layout, on the size of the regions, or on what
any operation takes to be alive. A change of the policy is the one moment at which the storage does
not fit, and then everything that stays is wrapped anew. -/
namespace HybridTable

namespace Entry

/-- The cell of the key. A plain entry holds both halves strongly. -/
def keyPart : Entry → Cell
  | plain key _ => .strong key
  | guarded key _ => key

/-- The cell of the value. -/
def valuePart : Entry → Cell
  | plain _ value => .strong value
  | guarded _ value => value

variable {policy : WeakPolicy} {e : Entry}

theorem refs_eq (e : Entry) : e.refs = e.keyPart.refs ++ e.valuePart.refs := by
  cases e <;> rfl

theorem Fitted.keyPart_eq (fitted : e.Fitted policy) : e.keyPart = policy.keyCell e.key := by
  cases e with
  | plain key value => exact fitted.1.symm
  | guarded key value => exact fitted.1

theorem Fitted.valuePart_eq (fitted : e.Fitted policy) :
    e.valuePart = policy.valueCell e.value := by
  cases e with
  | plain key value => exact fitted.2.symm
  | guarded key value => exact fitted.2

end Entry

namespace WeakPolicy

variable {weakly : Bool} {v w : Value}

theorem cell_eq_strong_iff :
    cell weakly v = .strong w ↔ v = w ∧ ¬ (weakly = true ∧ v.isObject = true) := by
  unfold cell
  split
  · rename_i weak
    simp [Bool.and_eq_true_iff.mp weak]
  · rename_i strong
    simp only [Cell.strong.injEq, iff_self_and]
    exact fun _ weak => strong (Bool.and_eq_true_iff.mpr weak)

theorem cell_eq_weak_iff :
    cell weakly v = .weak w ↔ v = w ∧ weakly = true ∧ v.isObject = true := by
  unfold cell
  split
  · rename_i weak
    simp [Bool.and_eq_true_iff.mp weak]
  · rename_i strong
    simp only [reduceCtorEq, false_iff, not_and]
    exact fun _ first second => strong (Bool.and_eq_true_iff.mpr ⟨first, second⟩)

/-- What a cell keeps alive. -/
theorem mem_refs_cell_iff {r : Ref} :
    r ∈ (cell weakly v).refs ↔ r ∈ v.refs ∧ ¬ (weakly = true ∧ v.isObject = true) := by
  unfold cell
  split
  · rename_i weak
    simp [Cell.refs, Bool.and_eq_true_iff.mp weak]
  · rename_i strong
    simp only [Cell.refs, iff_self_and]
    exact fun _ weak => strong (Bool.and_eq_true_iff.mpr weak)

end WeakPolicy

/-- Being held as a policy says. A tombstone is made in the same way under every policy. -/
def Slot.Wrapped (policy : WeakPolicy) : Slot → Prop
  | live e => e.Fitted policy
  | dead own => own = .forTombstone own.content

theorem Slot.wrapped_forTombstone (policy : WeakPolicy) (key : Value) :
    (Slot.dead (.forTombstone key)).Wrapped policy := by
  rw [Wrapped, Cell.content_forTombstone]

/-- The slots of an amended chain are those of the chain, but for one that was made of an entry. -/
theorem Chain.mem_of_amend? {alive : Ref → Bool} {key : Value} {f : Entry → Slot}
    {chain amended : Chain} (found : chain.amend? alive key f = some amended) {s : Slot}
    (member : s ∈ amended) : s ∈ chain ∨ ∃ e, .live e ∈ chain ∧ s = f e := by
  obtain ⟨before, e, after, rfl, rfl, -⟩ := exists_of_amend? found
  rcases Table.mem_of_replaced (.live e) member with same | old
  · exact .inr ⟨e, List.mem_append_right _ List.mem_cons_self, same⟩
  · exact .inl old

namespace Table

/-- Every cell is held as the policy says. -/
structure Wrapped (t : Table) : Prop where
  /-- The positions of the array region. -/
  cells : ∀ (position : Nat) (c : Cell), t.array[position]? = some (some c) →
    c = t.policy.valueCell c.content
  /-- The slots of the hash region. -/
  slots : ∀ bucket s, s ∈ t.chain bucket → s.Wrapped t.policy

namespace Wrapped

/-! ## Single changes of the storage -/

section
variable {t : Table}

theorem setCell (wrapped : t.Wrapped) (position : Nat) {cell : Option Cell}
    (fitted : ∀ c, cell = some c → c = t.policy.valueCell c.content) :
    (t.setCell position cell).Wrapped where
  cells other c used := by
    simp only [Table.setCell, Array.getElem?_setIfInBounds] at used
    split at used
    · split at used
      · exact fitted c (Option.some.inj used)
      · cases used
    · exact wrapped.cells other c used
  slots := wrapped.slots

theorem rechain (wrapped : t.Wrapped) (bucket : Nat) {chain : Chain} (count : Nat)
    (fitted : ∀ s ∈ chain, s.Wrapped t.policy) : (t.rechain bucket chain count).Wrapped where
  cells := wrapped.cells
  slots other s member := by
    have inside := size_buckets_rechain ▸ lt_of_mem_chain member
    by_cases same : other = bucket
    · subst same
      rw [chain_rechain inside, if_pos rfl] at member
      exact fitted s member
    · have kept : (t.rechain bucket chain count).chain other = t.chain other :=
        t.chain_setChain_other chain (Ne.symm same)
      exact wrapped.slots other s (kept ▸ member)

theorem of_storage {t' : Table} (wrapped : t.Wrapped) (array : t'.array = t.array)
    (buckets : t'.buckets = t.buckets) (policy : t'.policy = t.policy) : t'.Wrapped where
  cells := array ▸ policy ▸ wrapped.cells
  slots bucket s member := by
    rw [chain, buckets] at member
    exact policy ▸ wrapped.slots bucket s member

theorem sized (arrayCapacity hashCapacity : Nat) (metatable : Option Ref) (policy : WeakPolicy) :
    (sized arrayCapacity hashCapacity metatable policy).Wrapped where
  cells position c used := by simp [Table.sized, Array.getElem?_replicate] at used
  slots bucket s member := by
    rw [chain_sized] at member
    cases member

theorem opened (wrapped : t.Wrapped) : t.opened.Wrapped := by
  unfold Table.opened
  split
  · refine ⟨wrapped.cells, fun bucket s member => ?_⟩
    obtain ⟨chain, found, inChain⟩ := mem_chain_iff.mp member
    simp only [Array.getElem?_replicate] at found
    split at found <;> cases found
    cases inChain
  · exact wrapped

theorem setPosition (wrapped : t.Wrapped) (position : Nat) (value : Value) :
    (t.setPosition position value).Wrapped :=
  wrapped.setCell position fun _ => WeakPolicy.eq_valueCell

theorem pruneChain (wrapped : t.Wrapped) (live : Liveness) (bucket : Nat) :
    (t.pruneChain live bucket).Wrapped := by
  refine wrapped.rechain bucket _ fun s member => ?_
  exact wrapped.slots bucket s ((Chain.prune_sublist _ _).mem member)

end

/-! ## Moving to new storage -/

variable [Hashing] {t : Table}

theorem append (wrapped : t.Wrapped) (key value : Value) : (t.append key value).Wrapped := by
  rw [append_eq]
  refine wrapped.opened.rechain _ _ fun s member => ?_
  rcases List.mem_append.mp member with old | last
  · exact wrapped.opened.slots _ s old
  · cases List.mem_singleton.mp last
    exact Entry.fitted_make ..

theorem place (wrapped : t.Wrapped) {rebuild : Bool} {item : Moving}
    (fitting : rebuild = true ∨ ∀ e, item = .entry e → e.Fitted t.policy) :
    (t.place rebuild item).Wrapped := by
  cases found : item.arrayKey? t.array.size with
  | some n =>
    rw [place_of_some found]
    refine wrapped.setCell _ fun c same => ?_
    cases same
    rw [WeakPolicy.content_valueCell]
  | none =>
    rw [place_of_none found]
    refine wrapped.rechain _ _ fun s member => ?_
    rcases List.mem_cons.mp member with rfl | old
    · exact Moving.fitted_toEntry fitting
    · exact wrapped.slots _ s old

theorem placeAll (wrapped : t.Wrapped) (live : Liveness) {rebuild : Bool} {items : List Moving}
    (fitting : rebuild = true ∨ ∀ e, .entry e ∈ items → e.Fitted t.policy) :
    (placeAll live rebuild items t).Wrapped := by
  induction items generalizing t with
  | nil => exact wrapped
  | cons item rest ih =>
    have later : rebuild = true ∨ ∀ e, .entry e ∈ rest → e.Fitted t.policy :=
      fitting.imp_right fun fitted e member => fitted e (List.mem_cons_of_mem item member)
    unfold Table.placeAll
    split
    · refine ih (wrapped.place (fitting.imp_right fun fitted e same => ?_)) ?_
      · exact fitted e (same ▸ List.mem_cons_self)
      · rwa [policy_place]
    · exact ih wrapped later

/-- Where the storage does not fit the policy, it fits after everything was made anew. -/
theorem resize (live : Liveness) {rebuild : Bool} (arrayCapacity hashCapacity : Nat)
    (fitting : rebuild = true ∨ t.Wrapped) :
    (t.resize live rebuild arrayCapacity hashCapacity).Wrapped := by
  refine (Wrapped.sized ..).placeAll live (fitting.imp_right fun wrapped e moves => ?_)
  obtain ⟨bucket, e', member, same⟩ := (mem_moving_iff.mp moves).resolve_left fun ⟨_, _, _, other⟩ =>
    nomatch other
  cases same
  exact wrapped.slots bucket _ member

theorem rehash (live : Liveness) (pending : Pending) (fitting : pending = .none ∨ t.Wrapped) :
    (t.rehash live pending).Wrapped := by
  obtain ⟨keys, rebuild, anew, made⟩ := t.rehash_eq live pending
  rw [made]
  exact resize live _ _ (fitting.imp_left anew)

theorem presizeArray (wrapped : t.Wrapped) (live : Liveness) (positions : Nat) :
    (t.presizeArray live positions).Wrapped := by
  unfold Table.presizeArray
  split
  · exact resize live _ _ (.inr wrapped)
  · exact wrapped

theorem attachMetatable (wrapped : t.Wrapped) (live : Liveness) (metatable : Option Ref)
    (policy : WeakPolicy) : (t.attachMetatable live metatable policy).Wrapped := by
  unfold Table.attachMetatable
  dsimp only
  split
  · exact rehash live .none (.inl rfl)
  · rename_i same
    exact wrapped.of_storage rfl rfl (by simpa using same)

/-! ## Writing -/

variable {live : Liveness} {key value : Value}

theorem removeHashed (wrapped : t.Wrapped) : (t.removeHashed live key).Wrapped := by
  unfold Table.removeHashed
  dsimp only
  split
  · rename_i chain found
    refine wrapped.rechain (t.bucketOf key) (t.count - 1) fun s member => ?_
    rcases Chain.mem_of_amend? found member with old | ⟨e, _, rfl⟩
    · exact wrapped.slots _ s old
    · exact Slot.wrapped_forTombstone ..
  · exact wrapped

theorem addHashed (wrapped : t.Wrapped) : (t.addHashed live key value).Wrapped := by
  have grown (pending : Pending) : (t.rehash live pending).Wrapped :=
    rehash live pending (.inr wrapped)
  unfold Table.addHashed
  split
  · exact wrapped.append key value
  · split
    · split
      · dsimp only
        split
        · exact (grown _).setPosition ..
        · exact (grown _).append ..
      · exact (grown _).append ..
    · exact (grown _).append ..

theorem setHashed (wrapped : t.Wrapped) : (t.setHashed live key value).Wrapped := by
  unfold Table.setHashed
  dsimp only
  split
  · exact wrapped.removeHashed
  · split
    · rename_i chain found
      refine wrapped.rechain (t.bucketOf key) t.count fun s member => ?_
      rcases Chain.mem_of_amend? found member with old | ⟨e, own, rfl⟩
      · exact wrapped.slots _ s old
      · have fitted : e.Fitted t.policy := wrapped.slots _ (.live e) own
        exact fitted.replace value
    · exact (wrapped.pruneChain ..).addHashed

end Wrapped

variable [Hashing] {t : Table}

theorem kept_wrapped : Kept (fun _ => True) Wrapped where
  sized := Wrapped.sized
  setCell position _ fitted wrapped := wrapped.setCell position fitted
  setHashed _ _ _ wrapped := wrapped.setHashed
  presizeArray positions _ wrapped := wrapped.presizeArray _ positions
  attachMetatable metatable policy _ wrapped := wrapped.attachMetatable _ metatable policy

/-- The tables that operations can leave behind, of whatever size and whatever they take to be
alive. -/
inductive Arises : Table → Prop
  /-- A new table. -/
  | made {origin : Origin} {t : Table} (built : origin.build = .ok t) : Arises t
  /-- A write that may be refused, more room, or another metatable with any mode. -/
  | changed {t : Table} (live : Liveness) (c : Change) (earlier : Arises t) :
    Arises (c.perform live t)
  /-- An insertion into a list. -/
  | inserted {t : Table} (live : Liveness) (key : Int64) (value : Value) (earlier : Arises t) :
    Arises (t.insert live key value)
  /-- A removal from a list that found something to remove. -/
  | removed {t t' : Table} {live : Liveness} {key : Int64} {value : Value} (earlier : Arises t)
    (found : t.remove live key = some (value, t')) : Arises t'
  /-- A sort during which the table could not be changed. -/
  | sortedBy {σ ε : Type} {less : Sort.Comparison Value σ ε} {alive : Ref → Bool} {t t' : Table}
    {s s' : σ} (earlier : Arises t) (sorted : t.sortBy less alive s = (.ok t', s')) : Arises t'
  /-- Values, however sorted, that are written back to what has become of the table meanwhile. -/
  | sorted {t : Table} (values : List Value) (earlier : Arises t) : Arises (t.storeSequence values)

theorem Reachable.arises (reachable : t.Reachable) : t.Arises := by
  induction reachable with
  | made _ built => exact .made built
  | changed _ _ _ ih => exact .changed _ _ ih
  | inserted _ _ _ ih => exact .inserted _ _ _ ih
  | removed _ _ found ih => exact .removed ih found
  | sortedBy _ sorted ih => exact .sortedBy ih sorted
  | sorted _ _ _ _ ih => exact .sorted _ ih

theorem Arises.after (arises : t.Arises) (steps : List (Liveness × Change)) :
    (t.after steps).Arises := by
  induction steps generalizing t with
  | nil => exact arises
  | cons step rest ih => exact ih (.changed step.1 step.2 arises)

theorem Arises.arisesIn (arises : t.Arises) : t.ArisesIn fun _ => True := by
  induction arises with
  | made built => exact .made built
  | changed _ c _ ih => exact .changed c ih trivial
  | inserted _ key value _ ih => exact .inserted key value ih trivial
  | removed _ found ih => exact .removed ih trivial found
  | sortedBy _ sorted ih => exact .sortedBy ih sorted
  | sorted values _ ih => exact .sorted values ih

theorem Arises.wrapped (arises : t.Arises) : t.Wrapped :=
  kept_wrapped.arisesIn Liveness.closed_any arises.arisesIn

omit [Hashing] in
/-- What a table keeps alive follows from what is stored in it and from the policy. -/
theorem Wrapped.mem_refs_iff (wrapped : t.Wrapped) {r : Ref} : r ∈ t.refs ↔ t.metatable = some r ∨
    (∃ (position : Nat) (c : Cell), t.array[position]? = some (some c) ∧ r ∈ c.content.refs ∧
      ¬ (t.policy.values = true ∧ c.content.isObject = true)) ∨
    ∃ bucket e, .live e ∈ t.chain bucket ∧
      ((r ∈ e.key.refs ∧ ¬ (t.policy.keys = true ∧ e.key.isObject = true)) ∨
        (r ∈ e.value.refs ∧ ¬ (t.policy.values = true ∧ e.value.isObject = true))) := by
  rw [mem_refs]
  refine or_congr Option.mem_toList (or_congr ?_ ?_)
  · refine exists_congr fun position => exists_congr fun c => and_congr_right fun used => ?_
    have held : r ∈ (t.policy.valueCell c.content).refs ↔ _ := WeakPolicy.mem_refs_cell_iff
    rwa [← wrapped.cells position c used] at held
  · constructor
    · rintro ⟨bucket, s, member, own⟩
      cases s with
      | dead key =>
        have small : key = .forTombstone key.content := wrapped.slots bucket _ member
        rw [Slot.refs, small, Cell.refs_forTombstone] at own
        cases own
      | live e =>
        have fitted : e.Fitted t.policy := wrapped.slots bucket _ member
        refine ⟨bucket, e, member, ?_⟩
        rw [Slot.refs, e.refs_eq, fitted.keyPart_eq, fitted.valuePart_eq, List.mem_append] at own
        exact own.imp WeakPolicy.mem_refs_cell_iff.mp WeakPolicy.mem_refs_cell_iff.mp
    · rintro ⟨bucket, e, member, own⟩
      have fitted : e.Fitted t.policy := wrapped.slots bucket _ member
      refine ⟨bucket, .live e, member, ?_⟩
      rw [Slot.refs, e.refs_eq, fitted.keyPart_eq, fitted.valuePart_eq, List.mem_append]
      exact own.imp WeakPolicy.mem_refs_cell_iff.mpr WeakPolicy.mem_refs_cell_iff.mpr

/-- Everything is held exactly as weakly as the policy says. A value in the array region and either
half of an entry is held weakly if the policy asks for that and it is an object, else strongly, and a
tombstone holds nothing strongly that could be reclaimed. So what the table keeps alive is its
metatable and what its pairs refer to, less what the policy weakens. -/
theorem held_as_policy_asks (arises : t.Arises) :
    (∀ (position : Nat) (v : Value), t.array[position]? = some (some (.strong v)) →
      ¬ (t.policy.values = true ∧ v.isObject = true)) ∧
    (∀ (position : Nat) (v : Value), t.array[position]? = some (some (.weak v)) →
      t.policy.values = true ∧ v.isObject = true) ∧
    (∀ bucket e, .live e ∈ t.chain bucket → ∀ v,
      (e.keyPart = .strong v → ¬ (t.policy.keys = true ∧ v.isObject = true)) ∧
      (e.keyPart = .weak v → t.policy.keys = true ∧ v.isObject = true) ∧
      (e.valuePart = .strong v → ¬ (t.policy.values = true ∧ v.isObject = true)) ∧
      (e.valuePart = .weak v → t.policy.values = true ∧ v.isObject = true)) ∧
    (∀ bucket v, .dead (.strong v) ∈ t.chain bucket →
      v.isObject = false ∧ ∀ s, v = .text s → s.isLong = false) ∧
    ∀ r, r ∈ t.refs ↔ t.metatable = some r ∨
      (∃ (position : Nat) (c : Cell), t.array[position]? = some (some c) ∧ r ∈ c.content.refs ∧
        ¬ (t.policy.values = true ∧ c.content.isObject = true)) ∨
      ∃ bucket e, .live e ∈ t.chain bucket ∧
        ((r ∈ e.key.refs ∧ ¬ (t.policy.keys = true ∧ e.key.isObject = true)) ∨
          (r ∈ e.value.refs ∧ ¬ (t.policy.values = true ∧ e.value.isObject = true))) := by
  have wrapped := arises.wrapped
  have half (weakly : Bool) (content v : Value) :
      (WeakPolicy.cell weakly content = .strong v → ¬ (weakly = true ∧ v.isObject = true)) ∧
        (WeakPolicy.cell weakly content = .weak v → weakly = true ∧ v.isObject = true) := by
    rw [WeakPolicy.cell_eq_strong_iff, WeakPolicy.cell_eq_weak_iff]
    exact ⟨fun ⟨same, strong⟩ => same ▸ strong, fun ⟨same, weak⟩ => same ▸ weak⟩
  refine ⟨?_, ?_, ?_, ?_, fun r => wrapped.mem_refs_iff⟩
  · exact fun position v used => (half _ v v).1 (wrapped.cells position _ used).symm
  · exact fun position v used => (half _ v v).2 (wrapped.cells position _ used).symm
  · intro bucket e member v
    have fitted : e.Fitted t.policy := wrapped.slots bucket _ member
    rw [fitted.keyPart_eq, fitted.valuePart_eq]
    exact ⟨(half _ _ v).1, (half _ _ v).2, (half _ _ v).1, (half _ _ v).2⟩
  · intro bucket v member
    have made : Cell.strong v = .forTombstone v := wrapped.slots bucket _ member
    have small : v.ref? = none := by
      unfold Cell.forTombstone at made
      split at made
      · cases made
      · rename_i small
        simpa [Value.isLargeKey] using small
    constructor
    · cases v <;> first | rfl | cases small
    · rintro s rfl
      cases s with
      | short content => rfl
      | long content ref => cases small

omit [Hashing] in
/-- Pairs of objects under a mode for the keys and then under one for the values. What was held
weakly before the change is held strongly after it, and the other way about, and the removal of a
pair with a long string lets go of the string. -/
theorem held_as_changed_policy_asks :
    let long : Value := .text (.long "a string of more than forty characters in all" 9)
    let steps : List Change := [.attach (some 3) (some (.text (.short "k"))),
      .set (.table 5) (.thread 6), .setInt 1 (.userdata 7), .set long (.int 1),
      .attach (some 3) (some (.text (.short "v"))), .set long .nil]
    let now := @after .uniform .empty (steps.map (nothingReclaimed, ·))
    now.policy = ⟨false, true⟩ ∧ now.array = #[some (.weak (.userdata 7)), none] ∧
      now.buckets = #[[.dead (.weak long),
        .live (.guarded (.strong (.table 5)) (.weak (.thread 6)))], []] ∧
      5 ∈ now.refs ∧ 6 ∉ now.refs := by
  intro long steps now
  have arises : @Arises .uniform now :=
    @Arises.after .uniform .empty (@Arises.made .uniform .empty .empty rfl) _
  have policy : now.policy = ⟨false, true⟩ := by decide +kernel
  have member : .live (.guarded (.strong (.table 5)) (.weak (.thread 6))) ∈ now.chain 0 := by
    decide +kernel
  obtain ⟨_, _, _, _, refs⟩ := @held_as_policy_asks .uniform now arises
  refine ⟨policy, by decide +kernel, by decide +kernel, (refs 5).mpr ?_, by decide +kernel⟩
  exact .inr (.inr ⟨0, _, member, .inl ⟨List.mem_singleton_self 5, by simp [policy]⟩⟩)

end Table

end HybridTable
