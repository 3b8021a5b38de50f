import HybridTable.Proofs.Construction
import HybridTable.Proofs.JsonPairs

/-! Which values can be written as JSON. Going down into tables comes to an end because no table is
entered again inside of itself; `Written` is the same descent without a limit. Whether it succeeds
is a matter of what can be reached from the value: it fails by something that can be reached, and
if it succeeds, there is nothing to fail by. -/
namespace HybridTable

namespace World

open Relation

variable {ε : Type} [Hashing] {w : World ε} {depth : Nat} {around : List Ref} {v : Value}

/-- Writing a value that is inside of the tables `around`, by going down into tables. A table that
is around is not entered again. -/
inductive Written (w : World ε) : List Ref → Value → Except JsonError Json → Prop
  | other {around : List Ref} {v : Value} (other : ∀ ref, v ≠ .table ref) :
    Written w around v (writeOther v)
  | again {around : List Ref} {ref : Ref} (entered : ref ∈ around) :
    Written w around (.table ref) (.error .circular)
  | table {around : List Ref} {ref : Ref} (new : ref ∉ around)
    {written : Value → Except JsonError Json}
    (each : ∀ pair ∈ w.pairsOf ref, Written w (ref :: around) pair.2 (written pair.2)) :
    Written w around (.table ref) (writePairs written (w.pairsOf ref))

/-- Going down has one result. -/
theorem Written.unique {result other : Except JsonError Json}
    (written : w.Written around v result) (written' : w.Written around v other) :
    result = other := by
  induction written generalizing other with
  | @other _ v apart =>
    cases written' with
    | other _ => rfl
    | _ => exact absurd rfl (apart _)
  | again entered =>
    cases written' with
    | other apart => exact absurd rfl (apart _)
    | again _ => rfl
    | table new _ => exact absurd entered new
  | table new each ih =>
    cases written' with
    | other apart => exact absurd rfl (apart _)
    | again entered => exact absurd entered new
    | table _ each' => exact writePairs_congr fun pair member => ih pair member (each' pair member)

/-- Only identities that were given out have tables with something in them. -/
def Numbered (w : World ε) : Prop := ∀ ref, w.objects.next ≤ ref → w.table ref = .empty

theorem Numbered.given (numbered : w.Numbered) {ref : Ref} (inside : w.Inside v (.table ref)) :
    ref < w.objects.next := by
  obtain ⟨_, key, same, read⟩ := inside
  cases same
  refine Nat.lt_of_not_le fun beyond => ?_
  rw [rawGet, numbered ref beyond, Table.empty, Table.get_sized] at read
  cases read

/-- The limit on the depth is never reached: going down without one is the same. -/
theorem written_jsonWithin (orderly : w.Orderly) (numbered : w.Numbered)
    (a : w.Around depth around v) : w.Written around v (w.jsonWithin depth around v) := by
  induction depth generalizing around v with
  | zero =>
    obtain ⟨_, none⟩ := a.exists_left
    cases none
  | succ depth ih =>
    by_cases table : ∃ ref, v = .table ref
    · obtain ⟨ref, rfl⟩ := table
      rw [jsonWithin_table]
      split
      · exact .again ‹_›
      · rename_i new
        refine .table new fun ⟨key, v⟩ member => ?_
        have inside := (inside_iff_mem_pairsOf orderly).mpr ⟨key, member⟩
        exact ih (a.further new (numbered.given inside) inside)
    · have other : ∀ ref, v ≠ .table ref := fun ref same => table ⟨ref, same⟩
      rw [jsonWithin_other w other]
      exact .other other

/-! ## What keeps a value from being written -/

/-- What keeps a value from being written, by the failure that it leads to. -/
def Hinders (w : World ε) : JsonError → Value → Prop
  | .circular, u => TransGen w.Inside u u
  | .invalidNumber x, u => u = .float x ∧ x.isFinite = false
  | .unwritable kind, u => u.kind = kind ∧ (kind = .function ∨ kind = .userdata ∨ kind = .thread)
  | .unusableKey kind, u => ∃ ref, u = .table ref ∧ ¬w.IsList ref ∧
    ∃ key, w.rawGet ref key ≠ none ∧ key.isObject = true ∧ key.kind = kind

omit [Hashing] in
/-- Two spellings of a key are objects of one kind, or neither is one. -/
theorem isObject_of_toKey? {own key : Value} (same : own.toKey? = key.toKey?)
    (object : key.isObject = true) : own.isObject = true ∧ own.kind = key.kind := by
  cases key with
  | table _ | function _ | userdata _ | thread _ =>
    cases own with
    | float x =>
      rcases Value.number_of_float same with named | ⟨i, named⟩ <;> cases named
    | _ => first | exact ⟨rfl, rfl⟩ | cases same
  | _ => cases object

theorem hinders_of_writeOther {e : JsonError} (other : ∀ ref, v ≠ .table ref)
    (failed : writeOther v = .error e) : w.Hinders e v := by
  cases v with
  | float x =>
    change (if x.isFinite then _ else _) = _ at failed
    split at failed <;> cases failed
    rename_i infinite
    exact ⟨rfl, by simpa using infinite⟩
  | table ref => exact absurd rfl (other ref)
  | function _ | userdata _ | thread _ =>
    cases failed
    exact ⟨rfl, by simp [Value.kind]⟩
  | _ => cases failed

theorem not_hinders_of_writeOther {j : Json} (other : ∀ ref, v ≠ .table ref)
    (done : writeOther v = .ok j) (e : JsonError) : ¬w.Hinders e v := by
  cases e with
  | circular =>
    intro cycle
    obtain ⟨_, -, ref, key, table, -⟩ := TransGen.tail'_iff.mp cycle
    exact other ref table
  | invalidNumber x =>
    rintro ⟨rfl, infinite⟩
    change (if x.isFinite then _ else _) = _ at done
    rw [infinite] at done
    cases done
  | unwritable kind =>
    rintro ⟨rfl, refused⟩
    cases v with
    | table ref => exact other ref rfl
    | function _ | userdata _ | thread _ => cases done
    | _ => simp [Value.kind] at refused
  | unusableKey kind =>
    rintro ⟨ref, table, -⟩
    exact other ref table

/-- A failure is the fault of something that can be reached. -/
theorem Written.exists_hinders {result : Except JsonError Json} {e : JsonError}
    (written : w.Written around v result) (orderly : w.Orderly) (failed : result = .error e)
    (outer : ∀ ref ∈ around, TransGen w.Inside v (.table ref)) :
    ∃ u, ReflTransGen w.Inside u v ∧ w.Hinders e u := by
  induction written with
  | other other => exact ⟨_, .refl, hinders_of_writeOther other failed⟩
  | again entered =>
    cases failed
    exact ⟨_, .refl, outer _ entered⟩
  | @table around ref new written each ih =>
    rcases writePairs_eq_error failed with
      ⟨⟨key, v⟩, member, failed⟩ | ⟨object, ⟨key, v⟩, member, failed⟩
    · have inside := (inside_iff_mem_pairsOf orderly).mpr ⟨key, member⟩
      obtain ⟨u, reached, hinders⟩ := ih _ member failed (List.forall_mem_cons.mpr
        ⟨.single inside, fun other before => .head inside (outer other before)⟩)
      exact ⟨u, reached.tail inside, hinders⟩
    · obtain ⟨-, valid, read⟩ := rawGet_of_mem_pairsOf orderly member
      obtain ⟨isObject, rfl⟩ := (memberName_eq_error_iff valid).mp failed
      refine ⟨_, .refl, ref, rfl, fun list => ?_, key, by simp [read], isObject, rfl⟩
      exact Bool.false_ne_true (object.symm.trans (list.isListing orderly))

/-- Where a value is written, nothing can be reached that hinders it. -/
theorem Written.not_hinders {result : Except JsonError Json} {j : Json}
    (written : w.Written around v result) (orderly : w.Orderly) (done : result = .ok j) :
    ∀ u, ReflTransGen w.Inside u v → ∀ e, ¬w.Hinders e u := by
  induction written generalizing j with
  | @other around v other =>
    intro u reached
    rcases reached.cases_tail with same | ⟨_, -, ref, key, table, -⟩
    · exact same ▸ not_hinders_of_writeOther other done
    · exact absurd table (other ref)
  | again entered => cases done
  | @table around ref new written each ih =>
    have values := writePairs_eq_ok done
    have below {u v : Value} (reached : ReflTransGen w.Inside u v)
        (inside : w.Inside v (.table ref)) : ∀ e, ¬w.Hinders e u := by
      obtain ⟨key, member⟩ := (inside_iff_mem_pairsOf orderly).mp inside
      obtain ⟨⟨own, done⟩, -⟩ := values _ member
      exact ih _ member done u reached
    intro u reached e hinders
    rcases reached.cases_tail with same | ⟨v, reached, inside⟩
    · subst same
      cases e with
      | circular =>
        -- the table would also be reached from one of its values
        obtain ⟨v, reached, inside⟩ := TransGen.tail'_iff.mp hinders
        exact below reached inside .circular hinders
      | invalidNumber x => cases hinders.1
      | unwritable kind =>
        obtain ⟨rfl, refused⟩ := hinders
        simp [Value.kind] at refused
      | unusableKey kind =>
        obtain ⟨_, same, -, key, present, object, -⟩ := hinders
        cases same
        obtain ⟨v, read⟩ := Option.ne_none_iff_exists'.mp present
        obtain ⟨own, -, spelled, member⟩ := exists_mem_pairsOf orderly read
        have own_object := (isObject_of_toKey? spelled object).1
        cases listing : isListing (w.pairsOf ref) with
        | true =>
          obtain ⟨i, rfl⟩ := exists_int_of_isListing listing member
          cases own_object
        | false =>
          obtain ⟨name, named⟩ := (values _ member).2 listing
          have valid := (rawGet_of_mem_pairsOf orderly member).2.1
          have failed := (memberName_eq_error_iff valid).mpr ⟨own_object, rfl⟩
          cases named.symm.trans failed
    · exact below reached inside e hinders

/-- Being data that has a form in JSON. -/
structure Writable (w : World ε) (v : Value) : Prop where
  /-- Nothing that can be reached can be reached from itself. -/
  acyclic : ∀ u, ReflTransGen w.Inside u v → ¬TransGen w.Inside u u
  /-- All numbers that can be reached are finite. -/
  finite : ∀ x, ReflTransGen w.Inside (.float x) v → x.isFinite = true
  /-- No function, userdata or thread can be reached. -/
  data : ∀ u, ReflTransGen w.Inside u v →
    u.kind ≠ .function ∧ u.kind ≠ .userdata ∧ u.kind ≠ .thread
  /-- A table that can be reached has the keys of a list, or no object for a key. -/
  keys : ∀ ref, ReflTransGen w.Inside (.table ref) v →
    w.IsList ref ∨ ∀ key, w.rawGet ref key ≠ none → key.isObject = false

theorem writable_iff :
    w.Writable v ↔ ∀ u, ReflTransGen w.Inside u v → ∀ e, ¬w.Hinders e u := by
  constructor
  · intro writable u reached e hinders
    cases e with
    | circular => exact writable.acyclic u reached hinders
    | invalidNumber x =>
      obtain ⟨rfl, infinite⟩ := hinders
      exact Bool.false_ne_true (infinite.symm.trans (writable.finite x reached))
    | unwritable kind =>
      obtain ⟨rfl, refused⟩ := hinders
      obtain ⟨function, userdata, thread⟩ := writable.data u reached
      exact refused.elim function fun rest => rest.elim userdata thread
    | unusableKey kind =>
      obtain ⟨ref, rfl, unlisted, key, present, object, -⟩ := hinders
      have plain := (writable.keys ref reached).resolve_left unlisted key present
      exact Bool.false_ne_true (plain.symm.trans object)
  · intro free
    refine ⟨fun u reached => free u reached .circular, fun x reached => ?_,
      fun u reached => ⟨?_, ?_, ?_⟩, fun ref reached => ?_⟩
    · exact Bool.of_not_eq_false fun infinite =>
        free _ reached (.invalidNumber x) ⟨rfl, infinite⟩
    · exact fun kind => free u reached (.unwritable _) ⟨rfl, .inl kind⟩
    · exact fun kind => free u reached (.unwritable _) ⟨rfl, .inr (.inl kind)⟩
    · exact fun kind => free u reached (.unwritable _) ⟨rfl, .inr (.inr kind)⟩
    · refine Classical.or_iff_not_imp_left.mpr fun unlisted key present => ?_
      exact Bool.of_not_eq_true fun object => free _ reached (.unusableKey key.kind)
        ⟨ref, rfl, unlisted, key, present, object, rfl⟩

/-- Writing a value as JSON comes to an end, with one result, whatever contains what. It succeeds
exactly for what has a form in JSON. If it fails, the failure is the fault of something that can be
reached from the value; in particular a table that is reached on several ways is not taken for one
that contains itself. -/
theorem toJson_succeeds_iff (orderly : w.Orderly) (numbered : w.Numbered) (v : Value) :
    (∀ result, w.Written [] v result ↔ result = w.toJson v) ∧
      ((∃ j, w.toJson v = .ok j) ↔ w.Writable v) ∧
      ∀ e, w.toJson v = .error e → ∃ u, ReflTransGen w.Inside u v ∧ w.Hinders e u := by
  have written : w.Written [] v (w.toJson v) :=
    written_jsonWithin orderly numbered (.start w v)
  have blame : ∀ e, w.toJson v = .error e → ∃ u, ReflTransGen w.Inside u v ∧ w.Hinders e u :=
    fun e failed => written.exists_hinders orderly failed nofun
  refine ⟨fun result => ⟨fun other => other.unique written, fun same => same ▸ written⟩, ?_, blame⟩
  rw [writable_iff]
  constructor
  · rintro ⟨j, done⟩
    exact written.not_hinders orderly done
  · intro free
    cases result : w.toJson v with
    | ok j => exact ⟨j, rfl⟩
    | error e =>
      obtain ⟨u, reached, hinders⟩ := blame e result
      exact absurd hinders (free u reached e)

omit [Hashing] in
/-- A table that is the value of two keys is written twice, and a table that contains itself is
refused. -/
theorem toJson_shared_or_circular :
    let _ : Hashing := .uniform
    let made (changes : List Change) : Table :=
      Table.after .empty (changes.map (Table.nothingReclaimed, ·))
    let blank : World Unit := ⟨{ Objects.none with next := 3 }, ∅, [], ()⟩
    let w := ((blank.setTable 0 (made [.set (.text (.short "a")) (.table 1),
      .set (.text (.short "b")) (.table 1)])).setTable 1 (made [.setInt 1 (.int 7)])).setTable 2
        (made [.set (.text (.short "self")) (.table 2)])
    w.Orderly ∧ w.Numbered ∧
      w.toJson (.table 0) = .ok (.object [("a", .array [.int 7]), ("b", .array [.int 7])]) ∧
      w.Writable (.table 0) ∧
      w.toJson (.table 2) = .error .circular ∧
      ∃ u, ReflTransGen w.Inside u (.table 2) ∧ TransGen w.Inside u u := by
  intro hashing made blank w
  have holds (ref : Ref) : w.table ref =
      if 2 = ref then made [.set (.text (.short "self")) (.table 2)]
      else if 1 = ref then made [.setInt 1 (.int 7)]
      else if 0 = ref then made [.set (.text (.short "a")) (.table 1),
        .set (.text (.short "b")) (.table 1)]
      else .empty := by
    have blank (ref : Ref) : blank.table ref = .empty := table_initial () ref
    simp only [w, table_setTable_eq_ite, blank]
  have orderly : w.Orderly := by
    intro ref
    rw [holds]
    split_ifs
    iterate 3 exact Table.reachable_after_empty (by decide +kernel)
    exact Table.reachable_empty
  have numbered : w.Numbered := by
    intro ref beyond
    have beyond : 3 ≤ ref := beyond
    rw [holds, if_neg, if_neg, if_neg]
    all_goals exact fun same => absurd (same ▸ beyond) (by decide)
  have pairs (ref : Ref) : w.pairsOf ref =
      orderedPairs ((w.table ref).pairs w.survivors.contains) := rfl
  have list : w.jsonWithin 3 [0] (.table 1) = .ok (.array [.int 7]) := by
    have listed : w.pairsOf 1 = [(.int 1, .int 7)] := by
      rw [pairs, holds]
      decide +kernel
    rw [jsonWithin_table, if_neg (by decide), listed]
    rfl
  have shared : w.toJson (.table 0) =
      .ok (.object [("a", .array [.int 7]), ("b", .array [.int 7])]) := by
    have listed : w.pairsOf 0 =
        [(.text (.short "a"), .table 1), (.text (.short "b"), .table 1)] := by
      rw [pairs, holds]
      decide +kernel
    have written : writePairs (w.jsonWithin 3 [0]) (w.pairsOf 0) =
        writePairs (fun _ => .ok (.array [.int 7])) (w.pairsOf 0) :=
      writePairs_congr (by simp [listed, list])
    show w.jsonWithin 4 [] (.table 0) = _
    rw [jsonWithin_table, if_neg (by decide), written, listed]
    rfl
  have circular : w.toJson (.table 2) = .error .circular := by
    have listed : w.pairsOf 2 = [(.text (.short "self"), .table 2)] := by
      rw [pairs, holds]
      decide +kernel
    have written : writePairs (w.jsonWithin 3 [2]) (w.pairsOf 2) =
        writePairs (fun _ => .error .circular) (w.pairsOf 2) :=
      writePairs_congr (by simp [listed, jsonWithin_table])
    show w.jsonWithin 4 [] (.table 2) = _
    rw [jsonWithin_table, if_neg (by decide), written, listed]
    rfl
  have first := toJson_succeeds_iff orderly numbered (.table 0)
  have second := toJson_succeeds_iff orderly numbered (.table 2)
  exact ⟨orderly, numbered, shared, first.2.1.mp ⟨_, shared⟩, circular, second.2.2 _ circular⟩

end World

end HybridTable
