import HybridTable.Proofs.JsonMaking

/-! Values that are data. They consist of tables that are lists or have names only, down to what is
no table, whatever way the tables came about and however they are laid out. Such a value can be
written as JSON, and the value that is made of that JSON has the same contents. -/
namespace HybridTable

/-- Being data. As this is inductive, no table contains itself, while one may occur many times. -/
inductive World.Data {ε : Type} [Hashing] (w : World ε) : Value → Prop
  | bool (b : Bool) : Data w (.bool b)
  | int (i : Int64) : Data w (.int i)
  | float {x : Binary64} (finite : x.isFinite = true) : Data w (.float x)
  | text (s : Text) : Data w (.text s)
  /-- The keys are the integers from 1 to `n`. -/
  | list {ref : Ref} (n : Nat) (given : ref < w.objects.next) (plain : (w.table ref).Plain)
    (short : n < 2 ^ 63)
    (keys : ∀ key, w.rawGet ref key ≠ none ↔
      ∃ i, i < n ∧ key.toKey? = some (.int (Int64.ofNat (i + 1))))
    (each : ∀ key v, w.rawGet ref key = some v → Data w v) : Data w (.table ref)
  /-- The keys are strings. -/
  | names {ref : Ref} (given : ref < w.objects.next) (plain : (w.table ref).Plain)
    (keys : ∀ key, w.rawGet ref key ≠ none → ∃ s, key = .text s)
    (each : ∀ key v, w.rawGet ref key = some v → Data w v) : Data w (.table ref)

/-- Having the same contents in two worlds. Tables have the same keys, with values that have the
same contents. -/
inductive World.SameData {ε : Type} [Hashing] (w w' : World ε) : Value → Value → Prop
  | bool (b : Bool) : SameData w w' (.bool b) (.bool b)
  | int (i : Int64) : SameData w w' (.int i) (.int i)
  | float (x : Binary64) : SameData w w' (.float x) (.float x)
  | text {s s' : Text} (same : s.content = s'.content) : SameData w w' (.text s) (.text s')
  | table {ref ref' : Ref} (keys : ∀ key, w.rawGet ref key ≠ none ↔ w'.rawGet ref' key ≠ none)
    (each : ∀ key v v', w.rawGet ref key = some v → w'.rawGet ref' key = some v' →
      SameData w w' v v') : SameData w w' (.table ref) (.table ref')

/-! ## Lists of things that go with others -/

section
variable {α β : Type}

theorem exists_paired {P : α → β → Prop} {l : List α} (each : ∀ a ∈ l, ∃ b, P a b) :
    ∃ pairs : List (α × β), pairs.map Prod.fst = l ∧ ∀ pair ∈ pairs, P pair.1 pair.2 := by
  induction l with
  | nil => exact ⟨[], rfl, nofun⟩
  | cons a rest ih =>
    obtain ⟨b, own⟩ := each a List.mem_cons_self
    obtain ⟨pairs, rfl, all⟩ := ih fun other member => each other (List.mem_cons_of_mem _ member)
    exact ⟨(a, b) :: pairs, rfl, List.forall_mem_cons.mpr ⟨own, all⟩⟩

theorem exists_perm_map {f : α → β} {l : List α} {image : List β} (perm : image.Perm (l.map f)) :
    ∃ l' : List α, l'.Perm l ∧ l'.map f = image := by
  have along : List.Forall₂ (fun b a => b = f a) (l.map f) l :=
    List.forall₂_map_left_iff.mpr (List.forall₂_same.mpr fun _ _ => rfl)
  obtain ⟨l', same, perm⟩ := List.perm_comp_forall₂ perm along
  rw [← List.forall₂_map_right_iff, List.forall₂_eq_eq_eq] at same
  exact ⟨l', perm, same.symm⟩

end

namespace World

variable {ε : Type} [Hashing] {w w' : World ε} {Made Made' : Table → Prop} {v v' : Value} {j : Json}

/-- Data depicts some JSON data. -/
theorem Data.exists_depicts (data : w.Data v) : ∃ j, w.Depicts Table.Plain v j := by
  induction data with
  | bool b => exact ⟨_, .bool b⟩
  | int i => exact ⟨_, .int i⟩
  | float finite => exact ⟨_, .float finite⟩
  | text s => exact ⟨_, .text s⟩
  | @list ref n given plain short keys each ih =>
    obtain ⟨values, rfl, reads⟩ := Table.reads_of_keys plain keys
    have depicted : ∀ v ∈ values, ∃ j, w.Depicts Table.Plain v j := by
      intro v member
      obtain ⟨i, found⟩ := List.mem_iff_getElem?.mp member
      obtain ⟨key, read⟩ := reads.exists_get w.survivors.contains
        (mem_listing.mpr ⟨i, found, rfl⟩)
      exact ih key v read
    obtain ⟨cells, rfl, all⟩ := exists_paired depicted
    rw [List.length_map] at short
    exact ⟨_, .array cells given plain reads short all⟩
  | @names ref given plain keys each ih =>
    obtain ⟨distinct, reads⟩ := Table.reads_of_texts plain keys
    generalize named_eq : ((w.table ref).pairs _).map _ = named at reads
    have depicted : ∀ named_value ∈ named, ∃ j, w.Depicts Table.Plain named_value.2 j := by
      rintro ⟨name, v⟩ member
      obtain ⟨key, read⟩ := reads.exists_get w.survivors.contains
        (mem_naming.mpr ⟨name, member, rfl⟩)
      exact ih key v read
    obtain ⟨fields, rfl, all⟩ := exists_paired depicted
    have once : (fields.map fun field => field.1.1).Nodup := by
      have mapped := congrArg (List.map Prod.fst) named_eq
      rw [List.map_map, List.map_map] at mapped
      exact mapped ▸ distinct
    by_cases some_field : fields = []
    · subst some_field
      exact ⟨_, .array [] given plain reads (by decide) nofun⟩
    · exact ⟨_, .object fields given plain reads some_field once all⟩

/-- The order in which the members of objects are written is not what makes them. -/
theorem Depicts.sorted (depicts : w.Depicts Made v j) : w.Depicts Made v j.sorted := by
  induction depicts with
  | bool b => exact .bool b
  | int i => exact .int i
  | float finite => exact .float finite
  | text s => exact .text s
  | @array ref cells given made reads short each ih =>
    let cells' := cells.map fun cell => (cell.1, cell.2.sorted)
    have values : cells'.map Prod.fst = cells.map Prod.fst := by
      rw [List.map_map]
      rfl
    have items : cells'.map Prod.snd = Json.sortedItems (cells.map Prod.snd) := by
      rw [Json.sortedItems_eq, List.map_map, List.map_map]
      rfl
    rw [Json.sorted, ← items]
    refine .array cells' given made (by rwa [values]) (by rwa [List.length_map]) ?_
    exact List.forall_mem_map.mpr ih
  | @object ref fields given made reads some_field distinct each ih =>
    have names : ((fields.map fun field => (field.1.1, field.2)).map Prod.fst).Nodup := by
      rwa [List.map_map]
    have perm := Json.sortedMembers_perm names
    rw [List.map_map] at perm
    obtain ⟨reordered, reordering, image⟩ := exists_perm_map perm
    let fields' := reordered.map fun field => (field.1, field.2.sorted)
    have named : fields'.map Prod.fst = reordered.map Prod.fst := by
      rw [List.map_map]
      rfl
    have members : fields'.map (fun field => (field.1.1, field.2)) =
        Json.sortedMembers (fields.map fun field => (field.1.1, field.2)) := by
      rw [List.map_map]
      exact image
    rw [Json.sorted, ← members]
    refine .object fields' given made ?_ ?_ ?_ ?_
    · rw [named]
      exact reads.of_perm ((reordering.map Prod.fst).symm.map _)
    · exact mt List.map_eq_nil_iff.mp
        (mt (fun none => List.perm_nil.mp (none ▸ reordering.symm)) some_field)
    · rw [List.map_map]
      exact (reordering.map _).nodup_iff.mpr distinct
    · refine List.forall_mem_map.mpr fun field member => ih field (reordering.mem_iff.mp member)

theorem Depicts.solid (depicts : w.Depicts Made v j) : j.Solid (2 ^ 63 - 1) := by
  induction depicts with
  | bool b => exact .bool b
  | int i => exact .int i
  | float finite => exact .float finite
  | text s => exact .text s.content
  | @array ref cells given made reads short each ih =>
    refine .array (by rw [List.length_map]; omega) (List.forall_mem_map.mpr ih)
  | @object ref fields given made reads some_field distinct each ih =>
    exact .object (mt List.map_eq_nil_iff.mp some_field) (by rwa [List.map_map])
      (List.forall_mem_map.mpr ih)

/-- What keys a table has is what keys are read of it. -/
theorem rawGet_ne_none_iff {ref : Ref} {entries : List (Key × Value)}
    (reads : (w.table ref).Reads entries) (key : Value) : w.rawGet ref key ≠ none ↔
      ∃ k, key.toKey? = some k ∧ ∃ v, (k, v) ∈ entries := by
  rw [Option.ne_none_iff_exists']
  constructor
  · rintro ⟨v, found⟩
    obtain ⟨k, spelled, member⟩ := (reads.get_iff _ key v).mp found
    exact ⟨k, spelled, v, member⟩
  · rintro ⟨k, spelled, v, member⟩
    exact ⟨v, (reads.get_iff _ key v).mpr ⟨k, spelled, member⟩⟩

/-- Only data depicts JSON data. -/
theorem Depicts.data (depicts : w.Depicts Table.Plain v j) : w.Data v := by
  induction depicts with
  | bool b => exact .bool b
  | int i => exact .int i
  | float finite => exact .float finite
  | text s => exact .text s
  | @array ref cells given made reads short each ih =>
    refine .list cells.length given made short (fun key => ?_) fun key v read => ?_
    · rw [rawGet_ne_none_iff reads]
      simp only [exists_mem_listing, List.length_map]
      constructor
      · rintro ⟨_, spelled, i, inside, rfl⟩
        exact ⟨i, inside, spelled⟩
      · rintro ⟨i, inside, spelled⟩
        exact ⟨_, spelled, i, inside, rfl⟩
    · obtain ⟨cell, member, rfl⟩ := (inside_listing reads).mp ⟨ref, key, rfl, read⟩
      exact ih cell member
  | @object ref fields given made reads some_field distinct each ih =>
    refine .names given made (fun key present => ?_) fun key v read => ?_
    · obtain ⟨k, spelled, named⟩ := (rawGet_ne_none_iff reads key).mp present
      obtain ⟨name, -, rfl⟩ := exists_mem_naming.mp named
      obtain ⟨s, text, -⟩ := eq_text_of_toKey? spelled
      exact ⟨s, text⟩
    · obtain ⟨field, member, rfl⟩ := (inside_naming reads).mp ⟨ref, key, rfl, read⟩
      exact ih field member

/-- Tables of which the same is read, up to what has the same contents, have the same contents. -/
theorem sameData_of_reads {ref ref' : Ref} {entries entries' : List (Key × Value)}
    (reads : (w.table ref).Reads entries) (reads' : (w'.table ref').Reads entries')
    (keys : ∀ k, (∃ v, (k, v) ∈ entries) ↔ ∃ v, (k, v) ∈ entries')
    (each : ∀ k v v', (k, v) ∈ entries → (k, v') ∈ entries' → w.SameData w' v v') :
    w.SameData w' (.table ref) (.table ref') := by
  refine .table (fun key => ?_) fun key v v' found found' => ?_
  · simp only [rawGet_ne_none_iff reads, rawGet_ne_none_iff reads', keys]
  · obtain ⟨k, spelled, member⟩ := (reads.get_iff _ key v).mp found
    obtain ⟨k', spelled', member'⟩ := (reads'.get_iff _ key v').mp found'
    cases spelled.symm.trans spelled'
    exact each k v v' member member'

omit [Hashing] in
/-- Values at one place of two lists whose items are the same depict the same item. -/
theorem exists_item {cells cells' : List (Value × Json)} (short : cells.length < 2 ^ 63)
    (items : cells.map Prod.snd = cells'.map Prod.snd) {k : Key}
    (member : (k, v) ∈ listing (cells.map Prod.fst))
    (member' : (k, v') ∈ listing (cells'.map Prod.fst)) :
    ∃ item, (v, item) ∈ cells ∧ (v', item) ∈ cells' := by
  have length : cells.length = cells'.length := by simpa using congrArg List.length items
  obtain ⟨i, found, rfl⟩ := mem_listing.mp member
  obtain ⟨i', found', spelled⟩ := mem_listing.mp member'
  rw [List.getElem?_map, Option.map_eq_some_iff] at found found'
  obtain ⟨⟨v, item⟩, found, rfl⟩ := found
  obtain ⟨⟨v', item'⟩, found', rfl⟩ := found'
  have inside := (List.getElem?_eq_some_iff.mp found).1
  have inside' := (List.getElem?_eq_some_iff.mp found').1
  have number := congrArg Int64.toInt (Key.int.inj spelled)
  rw [toInt_ofNat_succ inside short, toInt_ofNat_succ inside' (length ▸ short)] at number
  obtain rfl : i = i' := by omega
  have same := congrArg (·[i]?) items
  simp only [List.getElem?_map, found, found', Option.map_some, Option.some.injEq] at same
  subst same
  exact ⟨item, List.mem_of_getElem? found, List.mem_of_getElem? found'⟩

omit [Hashing] in
/-- Values under one name depict the same member, if the members are the same. -/
theorem exists_member {fields fields' : List ((String × Value) × Json)}
    (distinct : (fields.map fun field => field.1.1).Nodup)
    (members : fields.map (fun field => (field.1.1, field.2)) =
      fields'.map fun field => (field.1.1, field.2)) {k : Key}
    (member : (k, v) ∈ naming (fields.map Prod.fst))
    (member' : (k, v') ∈ naming (fields'.map Prod.fst)) :
    ∃ name j, ((name, v), j) ∈ fields ∧ ((name, v'), j) ∈ fields' := by
  obtain ⟨name, listed, rfl⟩ := mem_naming.mp member
  obtain ⟨name', listed', spelled⟩ := mem_naming.mp member'
  cases spelled
  obtain ⟨⟨_, j⟩, known, rfl⟩ := List.mem_map.mp listed
  obtain ⟨⟨_, j'⟩, known', rfl⟩ := List.mem_map.mp listed'
  have names : ((fields.map fun field => (field.1.1, field.2)).map Prod.fst).Nodup := by
    rwa [List.map_map]
  have own : (name, j) ∈ fields.map fun field => (field.1.1, field.2) :=
    List.mem_map_of_mem known
  have copy : (name, j') ∈ fields.map fun field => (field.1.1, field.2) :=
    members ▸ List.mem_map_of_mem known'
  cases List.inj_on_of_nodup_map names own copy rfl
  exact ⟨name, j, known, known'⟩

/-- Values that depict the same JSON data have the same contents. -/
theorem Depicts.sameData (depicts : w.Depicts Made v j) (depicts' : w'.Depicts Made' v' j) :
    w.SameData w' v v' := by
  induction depicts generalizing v' with
  | bool b =>
    cases depicts'
    exact .bool b
  | int i =>
    cases depicts'
    exact .int i
  | @float x finite =>
    cases depicts'
    exact .float x
  | text s =>
    generalize same : Json.text s.content = j at depicts'
    cases depicts' with
    | text s' => exact .text (Json.text.inj same)
    | _ => cases same
  | @array ref cells given made reads short each ih =>
    generalize same : Json.array (cells.map Prod.snd) = j at depicts'
    cases depicts' with
    | array cells' given' made' reads' short' each' =>
      have items := Json.array.inj same
      have length : cells.length = cells'.length := by simpa using congrArg List.length items
      refine sameData_of_reads reads reads' (fun k => ?_) fun k v v' member member' => ?_
      · simp only [exists_mem_listing, List.length_map, length]
      · obtain ⟨item, known, known'⟩ := exists_item short items member member'
        exact ih _ known (each' _ known')
    | _ => cases same
  | @object ref fields given made reads some_field distinct each ih =>
    generalize same : Json.object _ = j at depicts'
    cases depicts' with
    | object fields' given' made' reads' some_field' distinct' each' =>
      have members := Json.object.inj same
      refine sameData_of_reads reads reads' (fun k => ?_) fun k v v' member member' => ?_
      · have names := congrArg (List.map Prod.fst) members
        simp only [List.map_map] at names
        simp only [exists_mem_naming, List.map_map]
        exact names ▸ .rfl
      · obtain ⟨name, member, known, known'⟩ := exists_member distinct members member member'
        exact ih _ known (each' _ known')
    | _ => cases same

/-- Data survives being written as JSON. A value of booleans, integers, finite floats, strings and
strong tables that do not contain themselves can be written, if each table has either the integers
from 1 to some `n` or strings only as its keys, however it came about. The JSON data is what the
value depicts: an array of the values of the keys in their order, or an object of the values under
their names, the table without keys being an array. The value that is made of it in any world has
the same contents. -/
theorem ofJson_toJson (data : w.Data v) (start : World ε) : ∃ j, w.toJson v = .ok j ∧
    w.Depicts Table.Plain v j ∧ ∃ v' w', (Action.ofJson j).run start = (.ok v', w') ∧
      w.SameData w' v v' := by
  obtain ⟨j, depicts⟩ := data.exists_depicts
  have makes : Action.Makes ε (fun _ => True) j.sorted :=
    Action.makes_of_solid depicts.sorted.solid (by decide) fun _ _ _ _ _ => trivial
  obtain ⟨v', w', made, -, depicts'⟩ := makes start
  exact ⟨j.sorted, depicts.toJson, depicts.sorted, v', w', made, depicts.sorted.sameData depicts'⟩

omit [Hashing] in
/-- A list in the hash region, written from its end, under two names. -/
theorem ofJson_toJson_shared :
    let half : Value := .float ⟨0x3fe0000000000000⟩
    let list := @Table.after .uniform .empty [
      (Table.nothingReclaimed, .set (.text (.short "x")) (.bool false)),
      (Table.nothingReclaimed, .setInt 2 (.bool true)),
      (Table.nothingReclaimed, .set (.text (.short "x")) .nil),
      (Table.nothingReclaimed, .setInt 1 half)]
    let names := @Table.after .uniform .empty [
      (Table.nothingReclaimed, .set (.text (.short "y")) (.table 0)),
      (Table.nothingReclaimed, .set (.text (.short "10")) (.table 0))]
    let w : World Unit := (((initial ()).addTable list).2.addTable names).2
    let items : Json := .array [.float ⟨0x3fe0000000000000⟩, .bool true]
    let j : Json := .object [("10", items), ("y", items)]
    list.capacities = (0, 2) ∧ @toJson Unit .uniform w (.table 1) = .ok j ∧
      ∃ v' w', (@Action.ofJson Unit .uniform j).run w = (.ok v', w') ∧
        @SameData Unit .uniform w w' (.table 1) v' := by
  intro half list names w items j
  let _ : Hashing := .uniform
  refine ⟨by decide +kernel, ?_⟩
  have inside : Origin.empty.Bounded := by decide
  have plain (steps : List (Liveness × Change))
      (lawful : ∀ step ∈ steps, step.1 = Table.nothingReclaimed)
      (bounded : ∀ done ∈ steps.inits, (Table.after .empty done).Bounded)
      (strong : (Table.after .empty steps).policy = .allStrong) :
      (Table.after .empty steps).Plain := by
    refine ⟨Table.Reachable.after (.made inside rfl) (fun step member => ?_)
      fun done begun => bounded done ((List.mem_inits done steps).mpr begun), strong⟩
    rw [lawful step member]
    exact Table.nothingReclaimed_lawful
  have plain_list : list.Plain := by
    refine plain _ ?_ (by decide +kernel) (by decide +kernel)
    simp
  have plain_names : names.Plain := by
    refine plain _ ?_ (by decide +kernel) (by decide +kernel)
    simp
  have list_reads : list.Reads (listing [half, .bool true]) :=
    plain_list.reads (fun _ => true) (by decide +kernel)
  have names_reads : names.Reads (naming [("y", .table 0), ("10", .table 0)]) :=
    plain_names.reads (fun _ => true) (by decide +kernel)
  have table_list : w.table 0 = list :=
    ((((initial ()).addTable list).2.extends_addTable names).table 0 (by decide)).trans
      (table_addTable _ list)
  have table_names : w.table 1 = names := table_addTable _ names
  rw [← table_list] at plain_list list_reads
  rw [← table_names] at plain_names names_reads
  have depicts_list : w.Depicts Table.Plain (.table 0) items :=
    .array [(half, .float ⟨0x3fe0000000000000⟩), (.bool true, .bool true)] (by decide)
      plain_list list_reads (by decide)
      (List.forall_mem_cons.mpr ⟨.float (by decide), List.forall_mem_singleton.mpr (.bool true)⟩)
  have depicts : w.Depicts Table.Plain (.table 1) (.object [("y", items), ("10", items)]) :=
    .object [(("y", .table 0), items), (("10", .table 0), items)] (by decide) plain_names
      names_reads (by decide) (by decide)
      (List.forall_mem_cons.mpr ⟨depicts_list, List.forall_mem_singleton.mpr depicts_list⟩)
  obtain ⟨j', written, -, v', w', made, same⟩ := ofJson_toJson depicts.data w
  have sorted : w.toJson (.table 1) = .ok j := depicts.toJson
  cases sorted.symm.trans written
  exact ⟨sorted, v', w', made, same⟩

end World

end HybridTable
