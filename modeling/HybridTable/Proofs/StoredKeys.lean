import HybridTable.Proofs.Strength

/-! What can be a key, and that nothing else is ever found or stored. A pair that moves takes its key
along, and a new key is refused before it comes to a chain. -/
namespace HybridTable

/-- What is no number is not equal to anything. -/
theorem Value.rawEqual_of_isNaN {x : Binary64} (number : x.isNaN = true) (v : Value) :
    v.rawEqual (.float x) = false := by
  cases v with
  | int i => simp [rawEqual, Binary64.toInt64?_of_isNaN number]
  | float y => simp [rawEqual, Binary64.equal, number]
  | _ => rfl

theorem Entry.hasKey_of_isNaN {x : Binary64} (number : x.isNaN = true) (alive : Ref → Bool)
    (e : Entry) : e.hasKey alive (.float x) = false := by
  cases e with
  | plain key value =>
    cases key with
    | int i => rfl
    | _ => simp only [hasKey, Value.rawEqual_of_isNaN number]
  | guarded key value =>
    simp only [hasKey, Cell.holdsKey, Value.rawEqual_of_isNaN number]
    cases key.read alive <;> rfl

theorem Chain.lookup_of_isNaN {x : Binary64} (number : x.isNaN = true) {alive : Ref → Bool}
    (chain : Chain) : chain.lookup alive (.float x) = none := by
  induction chain with
  | nil => rfl
  | cons s rest ih =>
    cases s with
    | dead own => exact ih
    | live e =>
      unfold lookup
      rw [e.hasKey_of_isNaN number alive, if_neg Bool.false_ne_true]
      exact ih

namespace Table

variable [Hashing] {t : Table}

/-- A lookup never finds what cannot be a key, whatever is stored. -/
theorem get_of_defect (t : Table) (alive : Ref → Bool) {key : Value} {defect : KeyDefect}
    (invalid : key.keyDefect? = some defect) : t.get alive key = none := by
  cases key with
  | nil => rfl
  | float x =>
    have number : x.isNaN = true := by
      change (if x.isNaN then some KeyDefect.notANumber else none) = _ at invalid
      split at invalid
      · assumption
      · cases invalid
    have normal : (Value.float x).normalize = .float x := by
      simp only [Value.normalize, Binary64.toInt64?_of_isNaN number]
    unfold get
    simp only [normal]
    unfold getHashed
    split
    · rfl
    · exact Chain.lookup_of_isNaN number _
  | _ => cases invalid

/-! ## Keys that can be stored -/

/-- Every slot, also one of a removed or a reclaimed pair, is for something that can be a key. -/
def Keyed (t : Table) : Prop := ∀ bucket s, s ∈ t.chain bucket → s.key.keyDefect? = none

namespace Keyed

variable {live : Liveness} {key : Value}

omit [Hashing] in
theorem rechain (keyed : t.Keyed) (bucket : Nat) {chain : Chain} (count : Nat)
    (valid : ∀ s ∈ chain, s.key.keyDefect? = none) : (t.rechain bucket chain count).Keyed := by
  intro other s member
  have inside := size_buckets_rechain ▸ lt_of_mem_chain member
  by_cases same : other = bucket
  · subst same
    rw [chain_rechain inside, if_pos rfl] at member
    exact valid s member
  · have kept : (t.rechain bucket chain count).chain other = t.chain other :=
      t.chain_setChain_other chain (Ne.symm same)
    exact keyed other s (kept ▸ member)

omit [Hashing] in
theorem setCell (keyed : t.Keyed) (position : Nat) (cell : Option Cell) :
    (t.setCell position cell).Keyed := keyed

omit [Hashing] in
theorem sized (arrayCapacity hashCapacity : Nat) (metatable : Option Ref) (policy : WeakPolicy) :
    (Table.sized arrayCapacity hashCapacity metatable policy).Keyed := by
  intro bucket s member
  rw [chain_sized] at member
  cases member

omit [Hashing] in
theorem opened (keyed : t.Keyed) : t.opened.Keyed := by
  unfold Table.opened
  split
  · intro bucket s member
    obtain ⟨chain, found, inChain⟩ := mem_chain_iff.mp member
    simp only [Array.getElem?_replicate] at found
    split at found <;> cases found
    cases inChain
  · exact keyed

theorem append (keyed : t.Keyed) (valid : key.keyDefect? = none) (value : Value) :
    (t.append key value).Keyed := by
  rw [append_eq]
  refine keyed.opened.rechain _ _ fun s member => ?_
  rcases List.mem_append.mp member with old | last
  · exact keyed.opened _ s old
  · cases List.mem_singleton.mp last
    exact (congrArg Value.keyDefect? (Entry.key_make ..)).trans valid

theorem place (keyed : t.Keyed) {rebuild : Bool} {item : Moving}
    (valid : item.key.keyDefect? = none) : (t.place rebuild item).Keyed := by
  cases found : item.arrayKey? t.array.size with
  | some n =>
    rw [place_of_some found]
    exact keyed.setCell _ _
  | none =>
    rw [place_of_none found]
    refine keyed.rechain _ _ fun s member => ?_
    rcases List.mem_cons.mp member with rfl | old
    · exact (congrArg Value.keyDefect? (Moving.key_toEntry ..)).trans valid
    · exact keyed _ s old

theorem placeAll (keyed : t.Keyed) (live : Liveness) {rebuild : Bool} {items : List Moving}
    (valid : ∀ item ∈ items, item.key.keyDefect? = none) :
    (placeAll live rebuild items t).Keyed := by
  induction items generalizing t with
  | nil => exact keyed
  | cons item rest ih =>
    obtain ⟨first, later⟩ := List.forall_mem_cons.mp valid
    unfold Table.placeAll
    split
    · exact ih (keyed.place first) later
    · exact ih keyed later

/-- Pairs of the array region move under integers, those of the hash region under their keys. -/
theorem resize (keyed : t.Keyed) (live : Liveness) (rebuild : Bool)
    (arrayCapacity hashCapacity : Nat) :
    (t.resize live rebuild arrayCapacity hashCapacity).Keyed := by
  refine (Keyed.sized _ _ _ _).placeAll live fun item moves => ?_
  rcases mem_moving_iff.mp moves with ⟨position, c, _, rfl⟩ | ⟨bucket, e, member, rfl⟩
  · rfl
  · exact keyed bucket (.live e) member

theorem removeHashed (keyed : t.Keyed) (valid : key.keyDefect? = none) :
    (t.removeHashed live key).Keyed := by
  unfold Table.removeHashed
  dsimp only
  split
  · rename_i chain found
    refine keyed.rechain (t.bucketOf key) (t.count - 1) fun s member => ?_
    rcases Chain.mem_of_amend? found member with old | ⟨e, _, rfl⟩
    · exact keyed _ s old
    · exact (congrArg Value.keyDefect? (Cell.content_forTombstone key)).trans valid
  · exact keyed

theorem rehash (keyed : t.Keyed) (live : Liveness) (pending : Pending) :
    (t.rehash live pending).Keyed := by
  obtain ⟨keys, rebuild, -, made⟩ := t.rehash_eq live pending
  exact made ▸ keyed.resize live rebuild _ _

theorem presizeArray (keyed : t.Keyed) (live : Liveness) (positions : Nat) :
    (t.presizeArray live positions).Keyed := by
  unfold Table.presizeArray
  split
  · exact keyed.resize live false _ _
  · exact keyed

theorem attachMetatable (keyed : t.Keyed) (live : Liveness) (metatable : Option Ref)
    (policy : WeakPolicy) : (t.attachMetatable live metatable policy).Keyed := by
  have attached : Keyed { t with metatable, policy } := keyed
  unfold Table.attachMetatable
  dsimp only
  split
  · exact attached.rehash live .none
  · exact attached

theorem addHashed (keyed : t.Keyed) (valid : key.keyDefect? = none) (value : Value) :
    (t.addHashed live key value).Keyed := by
  have grown (pending : Pending) : (t.rehash live pending).Keyed := keyed.rehash live pending
  unfold Table.addHashed
  split
  · exact keyed.append valid value
  · split
    · split
      · dsimp only
        split
        · exact (grown _).setCell _ _
        · exact (grown _).append valid value
      · exact (grown _).append valid value
    · exact (grown _).append valid value

theorem setHashed (keyed : t.Keyed) (valid : key.keyDefect? = none) (value : Value) :
    (t.setHashed live key value).Keyed := by
  unfold Table.setHashed
  dsimp only
  split
  · exact keyed.removeHashed valid
  · split
    · rename_i chain found
      refine keyed.rechain (t.bucketOf key) t.count fun s member => ?_
      rcases Chain.mem_of_amend? found member with old | ⟨e, own, rfl⟩
      · exact keyed _ s old
      · exact (congrArg Value.keyDefect? (Entry.key_replace ..)).trans (keyed _ (.live e) own)
    · refine addHashed (keyed.rechain _ _ fun s member => ?_) valid value
      exact keyed _ s ((Chain.prune_sublist _ _).mem member)

end Keyed

theorem kept_keyed : Kept (fun _ => True) Keyed where
  sized := Keyed.sized
  setCell position cell _ keyed := keyed.setCell position cell
  setHashed value _ valid keyed := keyed.setHashed valid value
  presizeArray positions _ keyed := keyed.presizeArray _ positions
  attachMetatable metatable policy _ keyed := keyed.attachMetatable _ metatable policy

/-- What cannot be a key is never stored, and nothing is ever left behind for it. -/
theorem Arises.keyed (arises : t.Arises) : t.Keyed :=
  kept_keyed.arisesIn Liveness.closed_any arises.arisesIn

end Table

end HybridTable
