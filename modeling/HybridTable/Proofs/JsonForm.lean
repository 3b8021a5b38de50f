import HybridTable.Proofs.JsonOrder
import HybridTable.Proofs.Nesting
import HybridTable.Proofs.Shapes

/-! What values are in JSON. `Depicts` says it without any conversion: a list is an array and a
table with names is an object, as far as what can be read of them goes. Writing a value as JSON then
gives what it depicts, however its tables are laid out, and whatever is around it. -/
namespace HybridTable

/-- Being in JSON what a value is. All tables on the way are as `Made` asks for. -/
inductive World.Depicts {ε : Type} [Hashing] (Made : Table → Prop) (w : World ε) :
    Value → Json → Prop
  | bool (b : Bool) : Depicts Made w (.bool b) (.bool b)
  | int (i : Int64) : Depicts Made w (.int i) (.int i)
  | float {x : Binary64} (finite : x.isFinite = true) : Depicts Made w (.float x) (.float x)
  | text (s : Text) : Depicts Made w (.text s) (.text s.content)
  /-- The values of the keys from 1 on are the items, in this order. -/
  | array {ref : Ref} (cells : List (Value × Json)) (given : ref < w.objects.next)
    (made : Made (w.table ref)) (reads : (w.table ref).Reads (listing (cells.map Prod.fst)))
    (short : cells.length < 2 ^ 63) (each : ∀ cell ∈ cells, Depicts Made w cell.1 cell.2) :
    Depicts Made w (.table ref) (.array (cells.map Prod.snd))
  /-- The values under names are the members with these names. -/
  | object {ref : Ref} (fields : List ((String × Value) × Json)) (given : ref < w.objects.next)
    (made : Made (w.table ref)) (reads : (w.table ref).Reads (naming (fields.map Prod.fst)))
    (some_field : fields ≠ []) (distinct : (fields.map fun field => field.1.1).Nodup)
    (each : ∀ field ∈ fields, Depicts Made w field.1.2 field.2) :
    Depicts Made w (.table ref) (.object (fields.map fun field => (field.1.1, field.2)))

namespace World

variable {ε : Type} [Hashing] {w : World ε} {Made : Table → Prop} {v : Value} {j : Json}

theorem inside_iff {ref : Ref} {entries : List (Key × Value)}
    (reads : (w.table ref).Reads entries) : w.Inside v (.table ref) ↔ ∃ k, (k, v) ∈ entries := by
  constructor
  · rintro ⟨_, key, same, read⟩
    cases same
    obtain ⟨k, -, member⟩ := (reads.get_iff _ key v).mp read
    exact ⟨k, member⟩
  · rintro ⟨k, member⟩
    obtain ⟨key, spelled⟩ := reads.spelled k v member
    exact ⟨ref, key, rfl, (reads.get_iff _ key v).mpr ⟨k, spelled, member⟩⟩

theorem inside_listing {ref : Ref} {cells : List (Value × Json)}
    (reads : (w.table ref).Reads (listing (cells.map Prod.fst))) :
    w.Inside v (.table ref) ↔ ∃ cell ∈ cells, cell.1 = v := by
  rw [inside_iff reads, ← List.mem_map, List.mem_iff_getElem?]
  simp only [mem_listing]
  exact ⟨fun ⟨_, i, found, _⟩ => ⟨i, found⟩, fun ⟨i, found⟩ => ⟨_, i, found, rfl⟩⟩

theorem inside_naming {ref : Ref} {fields : List ((String × Value) × Json)}
    (reads : (w.table ref).Reads (naming (fields.map Prod.fst))) :
    w.Inside v (.table ref) ↔ ∃ field ∈ fields, field.1.2 = v := by
  rw [inside_iff reads]
  simp only [mem_naming, List.mem_map]
  constructor
  · rintro ⟨_, name, ⟨field, member, same⟩, -⟩
    exact ⟨field, member, congrArg Prod.snd same⟩
  · rintro ⟨field, member, rfl⟩
    exact ⟨_, field.1.1, ⟨field, member, rfl⟩, rfl⟩

namespace Depicts

/-- What depicts JSON data comes to an end. -/
theorem acyclic (depicts : w.Depicts Made v j) : Acc w.Inside v := by
  induction depicts with
  | array cells given made reads short each ih =>
    refine .intro _ fun inner inside => ?_
    obtain ⟨cell, member, rfl⟩ := (inside_listing reads).mp inside
    exact ih cell member
  | object fields given made reads some_field distinct each ih =>
    refine .intro _ fun inner inside => ?_
    obtain ⟨field, member, rfl⟩ := (inside_naming reads).mp inside
    exact ih field member
  | _ =>
    refine .intro _ fun inner inside => ?_
    obtain ⟨_, _, same, _⟩ := inside
    cases same

end Depicts

omit [Hashing] in
/-- An array is written item by item. -/
theorem mapM_listed {written : Value → Except JsonError Json} {cells : List (Value × Json)}
    (each : ∀ cell ∈ cells, written cell.1 = .ok cell.2.sorted) :
    (listed (cells.map Prod.fst)).mapM (fun (_, value) => written value) =
      .ok (cells.map fun cell => cell.2.sorted) := by
  have values : (listed (cells.map Prod.fst)).mapM (fun (_, value) => written value) =
      cells.mapM fun cell => written cell.1 := by
    calc
      _ = ((listed (cells.map Prod.fst)).map Prod.snd).mapM written := List.mapM_map.symm
      _ = (cells.map Prod.fst).mapM written := by rw [map_snd_listed]
      _ = _ := List.mapM_map
  rw [values]
  clear values
  induction cells with
  | nil => rfl
  | cons cell rest ih =>
    have own := each cell List.mem_cons_self
    have others := ih fun cell member => each cell (List.mem_cons_of_mem _ member)
    rw [List.mapM_cons, own, others]
    rfl

omit [Hashing] in
/-- An object is written member by member. -/
theorem foldlM_members {written : Value → Except JsonError Json} {form : Value → Json}
    {pairs : List (Value × Value)} (members : List (String × Json))
    (each : ∀ pair ∈ pairs, (∃ s, pair.1 = .text s) ∧ written pair.2 = .ok (form pair.2)) :
    pairs.foldlM (fun members (key, value) => do
        let name ← memberName key
        return Json.addMember name (← written value) members) members =
      .ok (Json.addMembers (pairs.map fun pair => (nameOf pair.1, form pair.2)) members) := by
  induction pairs generalizing members with
  | nil => rfl
  | cons pair rest ih =>
    obtain ⟨key, value⟩ := pair
    obtain ⟨⟨s, rfl⟩, own⟩ := each _ List.mem_cons_self
    have others := ih (Json.addMember s.content (form value) members) fun pair member =>
      each pair (List.mem_cons_of_mem _ member)
    dsimp only at own
    rw [List.foldlM_cons]
    dsimp only [memberName]
    rw [own]
    exact others

omit [Hashing] in
/-- In whatever order an object is written, its members come to be in the order of their names. -/
theorem foldlM_naming {written : Value → Except JsonError Json} {pairs : List (Value × Value)}
    {fields : List ((String × Value) × Json)} (texts : ∀ pair ∈ pairs, ∃ s, pair.1 = .text s)
    (perm : (pairs.map fun pair => (nameOf pair.1, pair.2)).Perm (fields.map Prod.fst))
    (distinct : (fields.map fun field => field.1.1).Nodup)
    (each : ∀ field ∈ fields, written field.1.2 = .ok field.2.sorted) :
    pairs.foldlM (fun members (key, value) => do
        let name ← memberName key
        return Json.addMember name (← written value) members) [] =
      .ok (Json.sortedMembers (fields.map fun field => (field.1.1, field.2))) := by
  let form (v : Value) : Json := (written v).toOption.getD .null
  have form_eq {v : Value} {j : Json} (done : written v = .ok j) : form v = j := by
    simp only [form, done, Except.toOption, Option.getD_some]
  have writes : ∀ pair ∈ pairs, written pair.2 = .ok (form pair.2) := by
    intro pair met
    obtain ⟨field, member, same⟩ :=
      List.mem_map.mp (perm.mem_iff.mp (List.mem_map.mpr ⟨pair, met, rfl⟩))
    have done := each field member
    rw [same] at done
    rw [done, form_eq done]
  have members := foldlM_members [] fun pair met => ⟨texts pair met, writes pair met⟩
  have forms : (pairs.map fun pair => (nameOf pair.1, form pair.2)).Perm
      ((fields.map fun field => (field.1.1, field.2)).map fun m => (m.1, m.2.sorted)) := by
    have mapped := perm.map fun p => (p.1, form p.2)
    rw [List.map_map, List.map_map] at mapped
    rw [List.map_map]
    refine mapped.trans (.of_eq (List.map_congr_left fun field member => ?_))
    simp only [Function.comp_apply, form_eq (each field member)]
  have names : ((fields.map fun field => (field.1.1, field.2)).map Prod.fst).Nodup := by
    rwa [List.map_map]
  have named : ((pairs.map fun pair => (nameOf pair.1, form pair.2)).map Prod.fst).Nodup := by
    rw [(forms.map Prod.fst).nodup_iff, Json.names_sorted]
    exact names
  rw [members, Json.addMembers_perm forms named, Json.addMembers_sorted names]

/-- Writing a value gives what it depicts, with the members of objects in order. -/
theorem Depicts.jsonWithin (depicts : w.Depicts Table.Plain v j) {depth : Nat}
    {around : List Ref} (a : w.Around depth around v) :
    w.jsonWithin depth around v = .ok j.sorted := by
  induction depicts generalizing depth around with
  | @array ref cells given made reads short each ih =>
    have acyclic := acyclic (.array cells given made reads short each)
    obtain ⟨new, left, rfl, further⟩ := a.enter acyclic given
    have few : (cells.map Prod.fst).length < 2 ^ 63 := by rwa [List.length_map]
    have order := orderedPairs_listing made.sound reads few w.survivors.contains
    have items := mapM_listed fun cell member =>
      ih cell member (further _ ((inside_listing reads).mpr ⟨cell, member, rfl⟩))
    rw [World.jsonWithin, if_neg (by simpa using new)]
    dsimp only
    rw [order, isListing_listed, if_pos rfl, items, Json.sorted, Json.sortedItems_eq, List.map_map]
    rfl
  | @object ref fields given made reads some_field distinct each ih =>
    have acyclic := acyclic (.object fields given made reads some_field distinct each)
    obtain ⟨new, left, rfl, further⟩ := a.enter acyclic given
    have sound := made.sound
    have names : ((fields.map Prod.fst).map Prod.fst).Nodup := by rwa [List.map_map]
    have some_name : fields.map Prod.fst ≠ [] := mt List.map_eq_nil_iff.mp some_field
    obtain ⟨order, object⟩ := orderedPairs_naming sound reads names some_name w.survivors.contains
    have texts : ∀ pair ∈ (w.table ref).pairs w.survivors.contains, ∃ s, pair.1 = .text s := by
      intro pair met
      obtain ⟨s, text, -⟩ := text_of_mem_pairs sound reads met
      exact ⟨s, text⟩
    have members := foldlM_naming texts (perm_naming sound reads names _) distinct
      fun field member =>
        ih field member (further _ ((inside_naming reads).mpr ⟨field, member, rfl⟩))
    rw [World.jsonWithin, if_neg (by simpa using new)]
    dsimp only
    rw [order, object, if_neg Bool.false_ne_true, members, Json.sorted]
    rfl
  | float finite =>
    rw [World.jsonWithin, if_pos finite]
    rfl
  | _ =>
    rw [World.jsonWithin]
    rfl

/-- A value can be written as JSON, and gives what it depicts. -/
theorem Depicts.toJson (depicts : w.Depicts Table.Plain v j) : w.toJson v = .ok j.sorted :=
  depicts.jsonWithin (.start w v)

end World

end HybridTable
