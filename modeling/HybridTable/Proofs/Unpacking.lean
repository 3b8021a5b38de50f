import HybridTable.Proofs.GivenPairs
import HybridTable.Proofs.HandlerChains
import HybridTable.Proofs.CheckedActions

/-! Packing values into a table and taking ranges of keys out of tables. A table without handlers is
only read, and of one in which nothing is weak every read gives what is stored, whatever else is
held or reclaimed meanwhile. The keys of a range are counted without going past the last one, which
may be the greatest key there is. -/
namespace HybridTable

/-- The value at a position is the one in the list. -/
theorem valueAt?_position {values : List Value} {i : Nat} (inside : i < values.length)
    (short : values.length < 2 ^ 63) :
    (valueAt? values (.int (Int64.ofNat (i + 1)))).getD .nil = values[i] := by
  rw [valueAt?, toInt_ofNat_succ inside short, if_pos (by omega),
    show ((i : Int) + 1).toNat - 1 = i by omega, List.getElem?_eq_getElem inside]
  cases values[i] <;> rfl

/-! ## Tables without handlers in which nothing is weak -/

/-- A chain in which nothing is weak has the same values for every reader. -/
theorem Chain.lookup_of_strong {chain : Chain}
    (fitted : ∀ e, .live e ∈ chain → e.Fitted .allStrong) (alive alive' : Ref → Bool)
    (key : Value) : chain.lookup alive key = chain.lookup alive' key := by
  induction chain with
  | nil => rfl
  | cons slot rest ih =>
    have others := ih fun e member => fitted e (List.mem_cons_of_mem slot member)
    cases slot with
    | dead own => exact others
    | live e =>
      have read : e.hasKey alive key = e.hasKey alive' key ∧ e.value? alive = e.value? alive' := by
        have asked := fitted e List.mem_cons_self
        cases e with
        | plain own value => exact ⟨by cases own <;> rfl, rfl⟩
        | guarded own value =>
          rw [asked.1, asked.2]
          exact ⟨rfl, rfl⟩
      simp only [lookup, read.1, read.2, others]

namespace Table

variable [Hashing] {t : Table} {live : Liveness} {key value : Value}

/-- A table in which nothing is weak reads the same for everyone. -/
theorem Wrapped.get_of_strong (wrapped : t.Wrapped) (strong : t.policy = .allStrong)
    (alive alive' : Ref → Bool) (key : Value) : t.get alive key = t.get alive' key := by
  have hashed (key : Value) : t.getHashed alive key = t.getHashed alive' key := by
    unfold getHashed
    rw [Chain.lookup_of_strong (fun e member => strong ▸ wrapped.slots _ (.live e) member)]
  have positions (position : Nat) :
      t.readPosition alive position = t.readPosition alive' position := by
    unfold readPosition
    split
    · rename_i c used
      rw [wrapped.cells position c used, strong]
      rfl
    · rfl
  unfold get getInt
  simp only [hashed, positions]

theorem metatable_place (rebuild : Bool) (t : Table) (item : Moving) :
    (t.place rebuild item).metatable = t.metatable := by
  unfold place
  split <;> rfl

theorem metatable_rehash (live : Liveness) (pending : Pending) (t : Table) :
    (t.rehash live pending).metatable = t.metatable := by
  unfold rehash
  exact resize_keeps Table.metatable (metatable_place _) ..

theorem metatable_append (t : Table) (key value : Value) :
    (t.append key value).metatable = t.metatable := by
  unfold append
  split <;> rfl

theorem metatable_addHashed (live : Liveness) (t : Table) (key value : Value) :
    (t.addHashed live key value).metatable = t.metatable := by
  have anew (pending : Pending) (key : Value) :
      ((t.rehash live pending).append key value).metatable = t.metatable :=
    (metatable_append ..).trans (metatable_rehash ..)
  unfold addHashed
  split
  · exact metatable_append ..
  · split
    · split
      · dsimp only
        split
        · exact (metatable_setCell ..).trans (metatable_rehash ..)
        · exact anew _ _
      · exact anew _ _
    · exact anew _ _

theorem metatable_setHashed (live : Liveness) (t : Table) (key value : Value) :
    (t.setHashed live key value).metatable = t.metatable := by
  unfold setHashed
  dsimp only
  split
  · unfold removeHashed
    dsimp only
    split <;> rfl
  · split
    · rfl
    · exact metatable_addHashed ..

/-- Writes leave the metatable as it is. -/
theorem metatable_setInt (live : Liveness) (t : Table) (i : Int64) (value : Value) :
    (t.setInt live i value).metatable = t.metatable := by
  unfold setInt
  split
  · rfl
  · exact metatable_setHashed ..

theorem metatable_ofArguments (values : List Value) : (ofArguments values).metatable = none := by
  have filled (items : List (Value × Nat)) (t : Table) : (items.foldl (fun t item =>
      if item.1.isNil then t else t.setInt nothingReclaimed (Int64.ofNat (item.2 + 1)) item.1)
        t).metatable = t.metatable := by
    induction items generalizing t with
    | nil => rfl
    | cons item rest ih =>
      refine (ih _).trans ?_
      dsimp only
      split
      · rfl
      · exact metatable_setInt ..
  exact (metatable_setHashed ..).trans (filled _ _)

/-- What is packed is found under the positions from 1 on, and its length under `n`. -/
theorem get_ofArguments {values : List Value} (short : values.length ≤ maxArrayCapacity)
    (alive : Ref → Bool) (key : Value) : (ofArguments values).get alive key =
      key.toKey?.bind fun k => if k = .text "n" then some (.int (Int64.ofNat values.length))
        else valueAt? values k := by
  have inside : (Origin.arguments values).Bounded := arrayCapacityFor_le short
  have few : values.length < 2 ^ 63 := Nat.lt_of_le_of_lt short (by decide)
  rw [(represents_build inside rfl).1.get_eq]
  congr 1
  funext k
  rw [Origin.contents, ← Contents.lookup_ofSequence few]
  split
  · rename_i own
    rw [own, Contents.lookup_write_same, if_neg (by simp)]
  · rename_i other
    exact Contents.lookup_write_other _ _ other

end Table

namespace Action

variable {ε : Type} [Hashing] (calls : Calls ε) {w : World ε} {ref : Ref}

/-- A table without a metatable is read as it is. -/
theorem run_index_bare (bare : (w.table ref).metatable = none) (key : Value) :
    (index calls (.table ref) key).run w = (.ok ((w.rawGet ref key).getD .nil), w) := by
  have unhandled : w.handler? (.table ref) .index = none := by
    unfold World.handler?
    rw [show w.objects.metatable? (.table ref) = none from bare]
    rfl
  have ended : w.EndsAt .index key (.table ref) (.table ref) := by
    cases has : w.rawGet ref key with
    | none => exact .bare has unhandled
    | some value => exact .held (Option.isSome_of_eq_some has)
  rw [run_index, show maxChain = 1999 + 1 from rfl, World.destination_of_endsAt ended]

section
variable (wrapped : (w.table ref).Wrapped) (strong : (w.table ref).policy = .allStrong)
  (bare : (w.table ref).metatable = none)
include wrapped strong bare

/-- What running operations hold makes no difference. -/
theorem run_holding_index (found : List Value) (key : Value) :
    (holding found (index calls (.table ref) key)).run w =
      (.ok ((w.rawGet ref key).getD .nil), w) := by
  have held := run_index_bare calls (w := { w with held := found :: w.held }) bare key
  have same : ({ w with held := found :: w.held } : World ε).rawGet ref key = w.rawGet ref key :=
    wrapped.get_of_strong strong ..
  rw [same] at held
  unfold holding
  dsimp only [ExceptT.run] at held ⊢
  rw [held]

/-- Values are found one after another, as many as there are keys. -/
theorem run_valuesFrom {count : Nat} {key : Int64} (found : List Value)
    (inside : key.toInt + count ≤ 2 ^ 63) : (valuesFrom calls ref count key found).run w =
      (.ok (found.reverse ++ (List.range count).map fun n : Nat =>
        (w.rawGet ref (.int (Int64.ofInt (key.toInt + n)))).getD .nil), w) := by
  induction count generalizing key found with
  | zero =>
    rw [List.range_zero, List.map_nil, List.append_nil]
    rfl
  | succ count ih =>
    -- after the last key there need not be another one
    have next (more : 0 < count) : (key + 1).toInt = key.toInt + 1 := by
      have top : Int64.maxValue.toInt = 2 ^ 63 - 1 := rfl
      refine toInt_add_one ?_
      rintro rfl
      omega
    have inside' : (key + 1).toInt + count ≤ 2 ^ 63 := by
      rcases Nat.eq_zero_or_pos count with rfl | more
      · have := (key + 1).toInt_lt
        omega
      · rw [next more]
        omega
    have others : (List.range count).map (fun n : Nat =>
          (w.rawGet ref (.int (Int64.ofInt ((key + 1).toInt + n)))).getD .nil) =
        (List.range count).map fun n : Nat =>
          (w.rawGet ref (.int (Int64.ofInt (key.toInt + n.succ)))).getD .nil := by
      refine List.map_congr_left fun n member => ?_
      have before := List.mem_range.mp member
      rw [next (by omega), Nat.succ_eq_add_one, Int.natCast_add, Int.natCast_one, Int.add_assoc,
        Int.add_comm 1]
    rw [valuesFrom, run_bind, run_holding_index calls wrapped strong bare]
    dsimp only
    rw [ih _ inside', others, List.range_succ_eq_map, List.map_cons, List.map_map,
      List.reverse_cons, List.append_assoc, List.singleton_append, Int.natCast_zero, Int.add_zero,
      Int64.ofInt_toInt]
    rfl

/-- The values of a range of keys are all that are asked for, or too many. -/
theorem run_unpack (first last : Int64) :
    let count := last.toInt - first.toInt + 1
    if last < first then (unpack calls ref first last).run w = (.ok [], w)
    else if maxUnpack ≤ count then (unpack calls ref first last).run w =
      (.error (.unpackTooLarge (min count.toNat (2 ^ 64 - 1))), w)
    else ∃ values, (unpack calls ref first last).run w = (.ok values, w) ∧
      values.length = count ∧ ∀ k : Int64, first ≤ k → k ≤ last →
        values[(k.toInt - first.toInt).toNat]? = some ((w.rawGet ref (.int k)).getD .nil) := by
  intro count
  split
  · rename_i empty
    rw [unpack, if_neg (Int64.not_le.mpr empty)]
    rfl
  · rename_i some_key
    have order := Int64.not_lt.mp some_key
    have range := Int64.le_iff_toInt_le.mp order
    have bound := last.toInt_lt
    have counted : (last.toInt - first.toInt).toNat + 1 = count.toNat := by omega
    rw [unpack, if_pos order]
    dsimp only
    rw [counted]
    split
    · rw [if_pos (by omega)]
      rfl
    · rw [if_neg (by omega), run_valuesFrom calls wrapped strong bare [] (by omega)]
      refine ⟨_, rfl, ?_, fun k after before => ?_⟩
      · rw [List.reverse_nil, List.nil_append, List.length_map, List.length_range]
        omega
      · have above := Int64.le_iff_toInt_le.mp after
        have below := Int64.le_iff_toInt_le.mp before
        rw [List.reverse_nil, List.nil_append, List.getElem?_map, List.getElem?_range (by omega),
          Option.map_some,
          show first.toInt + ((k.toInt - first.toInt).toNat : Int) = k.toInt by omega,
          Int64.ofInt_toInt]

end

omit [Hashing] in
/-- What can be unpacked has its positions in an array region. -/
theorem le_maxArrayCapacity_of_unpackable {values : List Value}
    (few : values.length + 1 ≤ maxUnpack) : values.length ≤ Table.maxArrayCapacity := by
  have limit : maxUnpack = 2 ^ 24 - 1 := rfl
  have room : Table.maxArrayCapacity = 2 ^ 30 := rfl
  omega

/-- Unpacking all that was packed gives it back, `nil` at the end included. -/
theorem run_unpack_packed {values : List Value} (few : values.length + 1 ≤ maxUnpack)
    (packed : w.table ref = .ofArguments values) :
    (unpack calls ref 1 (Int64.ofNat values.length)).run w = (.ok values, w) := by
  have limit : maxUnpack = 2 ^ 24 - 1 := rfl
  have short := le_maxArrayCapacity_of_unpackable few
  have built : (Origin.arguments values).build = .ok (w.table ref) := packed ▸ rfl
  have inside : (Origin.arguments values).Bounded := Table.arrayCapacityFor_le short
  have arises : (w.table ref).Arises := .made built
  have number : (Int64.ofNat values.length).toInt = values.length :=
    Int64.toInt_ofNat_of_lt (by omega)
  have one : (1 : Int64).toInt = 1 := rfl
  have whole := run_unpack calls arises.wrapped
    (Table.represents_build inside built).1.strong
    (packed ▸ Table.metatable_ofArguments values) 1 (Int64.ofNat values.length)
  dsimp only at whole
  rw [number, one] at whole
  split at whole
  · rename_i empty
    have none : values.length = 0 := by
      have := Int64.lt_iff_toInt_lt.mp empty
      omega
    rw [whole, List.length_eq_zero_iff.mp none]
  · rw [if_neg (by omega)] at whole
    obtain ⟨found, taken, length, each⟩ := whole
    rw [taken]
    suffices found = values by rw [this]
    refine List.ext_getElem (by omega) fun i inFound inValues => ?_
    have key : (Int64.ofNat (i + 1)).toInt = i + 1 := toInt_ofNat_succ inValues (by omega)
    have there := each (Int64.ofNat (i + 1)) (by rw [Int64.le_iff_toInt_le]; omega)
      (by rw [Int64.le_iff_toInt_le]; omega)
    rw [key, show ((i : Int) + 1 - 1).toNat = i by omega, List.getElem?_eq_getElem inFound,
      World.rawGet, packed, Table.get_ofArguments short] at there
    exact (Option.some.inj there).trans (valueAt?_position inValues (by omega))

/-- What is packed, however many `nil` are in it, can be unpacked as it was, and its length is kept
with it. Of any table without handlers in which nothing is weak, a range of keys gives the value of
each, or `nil`; only a range of too many keys is refused, which may be the longest range there is.
No step on the way meets a fault. -/
theorem unpack_inverts_pack :
    (∀ values : List Value, values.length + 1 ≤ maxUnpack →
      (∀ alive, (Table.ofArguments values).get alive (.text (.short "n")) =
        some (.int (Int64.ofNat values.length))) ∧
      ∀ w ref, w.table ref = .ofArguments values →
        (unpack calls ref 1 (Int64.ofNat values.length)).run w = (.ok values, w)) ∧
    ∀ w ref, (w.table ref).Arises → (w.table ref).policy = .allStrong →
      (w.table ref).metatable = none → ∀ first last : Int64,
        let count := last.toInt - first.toInt + 1
        (if last < first then (unpack calls ref first last).run w = (.ok [], w)
          else if maxUnpack ≤ count then (unpack calls ref first last).run w =
            (.error (.unpackTooLarge (min count.toNat (2 ^ 64 - 1))), w)
          else ∃ values, (unpack calls ref first last).run w = (.ok values, w) ∧
            values.length = count ∧ ∀ k : Int64, first ≤ k → k ≤ last →
              values[(k.toInt - first.toInt).toNat]? = some ((w.rawGet ref (.int k)).getD .nil)) ∧
        (w.Orderly → World.KeepOrder calls → CheckedAction.unpack calls ref first last w =
          .ok ((unpack calls ref first last).run w)) := by
  refine ⟨fun values few =>
      ⟨fun alive => ?_, fun w ref packed => run_unpack_packed calls few packed⟩,
    fun w ref arises strong bare first last =>
      ⟨run_unpack calls arises.wrapped strong bare first last,
        fun orderly keep => (CheckedAction.follows_unpack keep ref first last w orderly).1⟩⟩
  exact Table.get_ofArguments (le_maxArrayCapacity_of_unpackable few) alive (.text (.short "n"))

omit [Hashing] in
/-- Of four packed values two are `nil`, and there is one at the end. Beyond them there is `nil`,
too; the longest range is refused with the greatest count that can be told, and a range may end with
the greatest key. -/
theorem unpack_of_packed_nil :
    let values : List Value := [.int 1, .nil, .text (.short "x"), .nil]
    let calls : Calls Unit := fun _ _ => pure []
    let t := @Table.ofArguments .uniform values
    let w : World Unit := (World.initial ()).setTable 0 t
    let unpacked (first last : Int64) := (@unpack Unit .uniform calls 0 first last).run w
    values.length + 1 ≤ maxUnpack ∧ w.table 0 = t ∧
      (∀ alive, @Table.get .uniform t alive (.text (.short "n")) = some (.int 4)) ∧
      unpacked 1 4 = (.ok values, w) ∧ unpacked 4 1 = (.ok [], w) ∧
      (∃ found, unpacked 3 6 = (.ok found, w) ∧ found.length = 4 ∧
        found[0]? = some (.text (.short "x")) ∧ found[3]? = some .nil) ∧
      unpacked Int64.minValue Int64.maxValue = (.error (.unpackTooLarge (2 ^ 64 - 1)), w) ∧
      (∃ found, unpacked Int64.maxValue Int64.maxValue = (.ok found, w) ∧ found.length = 1) ∧
      @CheckedAction.unpack Unit .uniform calls 0 Int64.maxValue Int64.maxValue w =
        .ok (unpacked Int64.maxValue Int64.maxValue) := by
  intro values calls t w unpacked
  have few : values.length + 1 ≤ maxUnpack := by decide
  have own : w.table 0 = t := World.table_setTable ..
  have inside : (Origin.arguments values).Bounded := by decide
  have reachable : @Table.Reachable .uniform t := @Table.Reachable.made .uniform _ _ inside rfl
  have orderly : @World.Orderly Unit .uniform w :=
    @World.Orderly.setTable _ .uniform _ (@World.orderly_initial _ .uniform ()) t reachable 0
  have arises : @Table.Arises .uniform (w.table 0) :=
    own ▸ @Table.Arises.made .uniform (.arguments values) _ rfl
  have strong : (w.table 0).policy = .allStrong := by
    rw [own]
    decide +kernel
  have bare : (w.table 0).metatable = none := own ▸ @Table.metatable_ofArguments .uniform values
  have read (key : Value) : @World.rawGet Unit .uniform w 0 key =
      key.toKey?.bind fun k => if k = .text "n" then some (.int 4) else valueAt? values k :=
    (congrArg (fun t => @Table.get .uniform t _ key) own).trans
      (@Table.get_ofArguments .uniform values (by decide) _ key)
  obtain ⟨packing, unpacking⟩ := @unpack_inverts_pack Unit .uniform calls
  have ranges := unpacking w 0 arises strong bare
  obtain ⟨number, again⟩ := packing values few
  obtain ⟨found, taken, length, each⟩ := (ranges 3 6).1
  obtain ⟨top, single, one, -⟩ := (ranges Int64.maxValue Int64.maxValue).1
  have third := each 3 (by decide) (by decide)
  have sixth := each 6 (by decide) (by decide)
  rw [read] at third sixth
  exact ⟨few, own, number, again w 0 own, (ranges 4 1).1,
    ⟨found, taken, Int.ofNat_inj.mp length, third, sixth⟩,
    (ranges Int64.minValue Int64.maxValue).1,
    ⟨top, single, Int.ofNat_inj.mp one⟩, (ranges _ _).2 orderly fun _ _ _ kept => kept⟩

end Action

end HybridTable
