import HybridTable.Proofs.Construction
import HybridTable.Proofs.JsonForm

/-! Making values of JSON data. Every item becomes a value of its own, in tables that are new, and
what was made before stays as it is. So what is made depicts the data that it was made of, and can
be written as JSON again. -/
namespace HybridTable

/-- However a string is stored, its content is the same. -/
theorem Text.content_make (fresh : Ref) (content : String) :
    (Text.make fresh content).content = content := by
  unfold make
  split <;> rfl

/-- Being JSON data that tables can keep. Nothing in it is `null` or an empty object, its numbers
are finite and its arrays are not too long. The members of an object have different names. -/
inductive Json.Solid (limit : Nat) : Json → Prop
  | bool (b : Bool) : Solid limit (.bool b)
  | int (i : Int64) : Solid limit (.int i)
  | float {x : Binary64} (finite : x.isFinite = true) : Solid limit (.float x)
  | text (s : String) : Solid limit (.text s)
  | array {items : List Json} (few : items.length ≤ limit)
    (each : ∀ item ∈ items, Solid limit item) : Solid limit (.array items)
  | object {members : List (String × Json)} (some_member : members ≠ [])
    (distinct : (members.map Prod.fst).Nodup) (each : ∀ m ∈ members, Solid limit m.2) :
    Solid limit (.object members)

namespace World

variable {ε : Type} {w w' w'' : World ε}

/-- Having all tables that another world has, as they are there. -/
structure Extends (w w' : World ε) : Prop where
  next : w.objects.next ≤ w'.objects.next
  table : ∀ ref, ref < w.objects.next → w'.table ref = w.table ref

theorem Extends.refl (w : World ε) : w.Extends w := ⟨Nat.le_refl _, fun _ _ => rfl⟩

theorem Extends.trans (first : w.Extends w') (second : w'.Extends w'') : w.Extends w'' :=
  ⟨Nat.le_trans first.next second.next, fun ref given =>
    (second.table ref (Nat.lt_of_lt_of_le given first.next)).trans (first.table ref given)⟩

theorem extends_addText (w : World ε) (content : String) : w.Extends (w.addText content).2 :=
  ⟨Nat.le_succ _, fun _ _ => rfl⟩

theorem extends_addTable (w : World ε) (t : Table) : w.Extends (w.addTable t).2 :=
  ⟨Nat.le_succ _, fun _ given =>
    Objects.table_setTable_other _ t (Nat.ne_of_gt given)⟩

theorem table_addTable (w : World ε) (t : Table) :
    (w.addTable t).2.table w.objects.next = t :=
  Objects.table_setTable_same ..

theorem next_addTable (w : World ε) (t : Table) :
    w.objects.next < (w.addTable t).2.objects.next :=
  Nat.lt_succ_self _

variable [Hashing] {Made : Table → Prop}

/-- What is depicted stays so while other things are made. -/
theorem Depicts.mono {v : Value} {j : Json} (depicts : w.Depicts Made v j)
    (later : w.Extends w') : w'.Depicts Made v j := by
  induction depicts with
  | bool b => exact .bool b
  | int i => exact .int i
  | float finite => exact .float finite
  | text s => exact .text s
  | @array ref cells given made reads short each ih =>
    rw [← later.table ref given] at made reads
    exact .array cells (Nat.lt_of_lt_of_le given later.next) made reads short ih
  | @object ref fields given made reads some_field distinct each ih =>
    rw [← later.table ref given] at made reads
    exact .object fields (Nat.lt_of_lt_of_le given later.next) made reads some_field distinct ih

/-- What is depicted is not `nil`. -/
theorem Depicts.ne_nil {v : Value} {j : Json} (depicts : w.Depicts Made v j) : v ≠ .nil := by
  cases depicts <;> nofun

end World

namespace Action

variable {ε : Type} [Hashing] {Made : Table → Prop} {limit : Nat}

/-- Adding to the world a value that depicts the data. -/
def Makes (ε : Type) (Made : Table → Prop) (j : Json) : Prop :=
  ∀ w : World ε, ∃ v w', (ofJson j).run w = (.ok v, w') ∧ w.Extends w' ∧ w'.Depicts Made v j

/-- Items are made into values one after another, in their order. -/
theorem ofJsonItems_makes {items : List Json} (each : ∀ item ∈ items, Makes ε Made item)
    (w : World ε) : ∃ (cells : List (Value × Json)) (w' : World ε),
      (ofJsonItems items).run w = (.ok (cells.map Prod.fst), w') ∧
      w.Extends w' ∧ cells.map Prod.snd = items ∧
      ∀ cell ∈ cells, w'.Depicts Made cell.1 cell.2 := by
  induction items generalizing w with
  | nil => exact ⟨[], w, rfl, .refl w, rfl, nofun⟩
  | cons item rest ih =>
    obtain ⟨v, w₁, made, first, depicts⟩ := each item List.mem_cons_self w
    obtain ⟨cells, w₂, others, second, items, all⟩ :=
      ih (fun other member => each other (List.mem_cons_of_mem _ member)) w₁
    refine ⟨(v, item) :: cells, w₂, ?_, first.trans second, by rw [List.map_cons, items], ?_⟩
    · rw [ofJsonItems, run_bind, made]
      dsimp only
      rw [run_bind, others]
      rfl
    · exact List.forall_mem_cons.mpr ⟨depicts.mono second, all⟩

/-- Members are made into pairs of a string and a value, in their order. -/
theorem ofJsonMembers_makes {members : List (String × Json)}
    (each : ∀ m ∈ members, Makes ε Made m.2) (w : World ε) :
    ∃ (named : List (Value × Value)) (fields : List ((String × Value) × Json)) (w' : World ε),
      (ofJsonMembers members).run w = (.ok named, w') ∧ w.Extends w' ∧
      (∀ pair ∈ named, ∃ s, pair.1 = .text s) ∧
      named.map (fun pair => (nameOf pair.1, pair.2)) = fields.map Prod.fst ∧
      fields.map (fun field => (field.1.1, field.2)) = members ∧
      ∀ field ∈ fields, w'.Depicts Made field.1.2 field.2 := by
  induction members generalizing w with
  | nil => exact ⟨[], [], w, rfl, .refl w, nofun, rfl, rfl, nofun⟩
  | cons member rest ih =>
    obtain ⟨name, member⟩ := member
    obtain ⟨v, w₁, made, first, depicts⟩ := each _ List.mem_cons_self (w.addText name).2
    obtain ⟨named, fields, w₂, others, second, texts, names, members, all⟩ :=
      ih (fun other member => each other (List.mem_cons_of_mem _ member)) w₁
    have content : nameOf (w.addText name).1 = name := Text.content_make _ name
    refine ⟨((w.addText name).1, v) :: named, ((name, v), member) :: fields, w₂, ?_,
      (w.extends_addText name).trans (first.trans second), ?_, ?_, ?_, ?_⟩
    · rw [ofJsonMembers, run_bind]
      -- the string of the name is added before the member is made
      change (ofJson member >>= fun value => _).run (w.addText name).2 = _
      rw [run_bind, made]
      dsimp only
      rw [run_bind, others]
      rfl
    · exact List.forall_mem_cons.mpr ⟨⟨_, rfl⟩, texts⟩
    · rw [List.map_cons, names, content, List.map_cons]
    · rw [List.map_cons, members]
    · exact List.forall_mem_cons.mpr ⟨depicts.mono second, all⟩

theorem run_array {items : List Json} {w w' : World ε} {values : List Value} {t : Table}
    (done : (ofJsonItems items).run w = (.ok values, w'))
    (built : Table.ofParts [] values = .ok t) :
    (ofJson (.array items)).run w = (.ok (.table w'.objects.next), (w'.addTable t).2) := by
  rw [ofJson, run_bind, done]
  dsimp only
  rw [built]
  rfl

theorem run_object {members : List (String × Json)} {w w' : World ε}
    {named : List (Value × Value)} {t : Table}
    (done : (ofJsonMembers members).run w = (.ok named, w'))
    (built : Table.ofParts named [] = .ok t) :
    (ofJson (.object members)).run w = (.ok (.table w'.objects.next), (w'.addTable t).2) := by
  rw [ofJson, run_bind, done]
  dsimp only
  rw [built]
  rfl

/-- Data that tables can keep is made into a value that depicts it. -/
theorem makes_of_solid {j : Json} (solid : j.Solid limit) (short : limit < 2 ^ 63)
    (made : ∀ named values t, values.length ≤ limit → Table.ofParts named values = .ok t → Made t) :
    Makes ε Made j := by
  induction solid with
  | bool b => exact fun w => ⟨_, w, rfl, .refl w, .bool b⟩
  | int i => exact fun w => ⟨_, w, rfl, .refl w, .int i⟩
  | float finite => exact fun w => ⟨_, w, rfl, .refl w, .float finite⟩
  | text s =>
    intro w
    have content : (Text.make w.objects.next s).content = s := Text.content_make _ s
    have depicts : (w.addText s).2.Depicts Made (w.addText s).1
        (.text (Text.make w.objects.next s).content) := .text _
    rw [content] at depicts
    exact ⟨_, _, rfl, w.extends_addText s, depicts⟩
  | @array items few each ih =>
    intro w
    obtain ⟨cells, w₁, done, first, rfl, all⟩ := ofJsonItems_makes ih w
    have valued : ∀ v ∈ cells.map Prod.fst, v ≠ .nil := by
      intro v listed
      obtain ⟨cell, member, rfl⟩ := List.mem_map.mp listed
      exact (all cell member).ne_nil
    have built : Table.ofParts [] (cells.map Prod.fst) =
      .ok (Table.ofSequence (cells.map Prod.fst) 0) := rfl
    rw [List.length_map, ← List.length_map (f := Prod.fst)] at few
    have short := Nat.lt_of_le_of_lt few short
    have second := w₁.extends_addTable (Table.ofSequence (cells.map Prod.fst) 0)
    refine ⟨_, _, run_array done built, first.trans second, .array cells ?_ ?_ ?_ ?_ ?_⟩
    · exact w₁.next_addTable _
    · rw [w₁.table_addTable]
      exact made [] _ _ few built
    · rw [w₁.table_addTable]
      exact Table.reads_ofSequence valued short
    · rwa [List.length_map] at short
    · exact fun cell member => (all cell member).mono second
  | @object members some_member distinct each ih =>
    intro w
    obtain ⟨named, fields, w₁, done, first, texts, names, rfl, all⟩ := ofJsonMembers_makes ih w
    have valued : ∀ pair ∈ named, pair.2 ≠ .nil := by
      intro pair listed
      have field := List.mem_map_of_mem (f := fun pair => (nameOf pair.1, pair.2)) listed
      rw [names] at field
      obtain ⟨field, member, same⟩ := List.mem_map.mp field
      rw [← congrArg Prod.snd same]
      exact (all field member).ne_nil
    have once : (named.map fun pair => nameOf pair.1).Nodup := by
      have mapped := congrArg (List.map Prod.fst) names
      rw [List.map_map, List.map_map] at mapped
      rw [List.map_map] at distinct
      exact mapped ▸ distinct
    obtain ⟨t, built, reads⟩ := Table.exists_ofParts_named texts valued once
    rw [names] at reads
    have second := w₁.extends_addTable t
    refine ⟨_, _, run_object done built, first.trans second, .object fields ?_ ?_ ?_ ?_ ?_ ?_⟩
    · exact w₁.next_addTable _
    · rw [w₁.table_addTable]
      exact made named [] t (Nat.zero_le _) built
    · rwa [w₁.table_addTable]
    · exact mt List.map_eq_nil_iff.mpr some_member
    · rwa [List.map_map] at distinct
    · exact fun field member => (all field member).mono second

end Action

namespace World

variable {ε : Type}

/-- JSON data survives being made into a value. Where nothing in it is `null` or an empty object,
numbers are finite and arrays have at most 2^30 items, a value is made of it in every world, and
writing that value gives the data again. Only the members of objects are in order by then, as in
all JSON data that is written. -/
theorem toJson_ofJson [Hashing] {j : Json} (solid : j = .null ∨ j.Solid Table.maxArrayCapacity)
    (w : World ε) : ∃ v w', (Action.ofJson j).run w = (.ok v, w') ∧ w'.toJson v = .ok j.sorted := by
  rcases solid with rfl | solid
  · exact ⟨.nil, w, rfl, rfl⟩
  · obtain ⟨v, w', made, -, depicts⟩ := Action.makes_of_solid solid (by decide)
      (fun _ _ _ few built => Table.plain_ofParts few built) w
    exact ⟨v, w', made, depicts.toJson⟩

/-- Names like numbers, floats that are integers, an empty array. -/
theorem toJson_ofJson_nested :
    let list : Json := .array [.int 2, .float ⟨0x4000000000000000⟩, .float ⟨0x8000000000000000⟩,
      .array []]
    let named : Json := .object [("2", .bool true), ("10", .text "x")]
    ∃ v w', (@Action.ofJson Unit .uniform (.object [("list", list), ("1", named)])).run
        (.initial ()) = (.ok v, w') ∧
      @toJson Unit .uniform w' v = .ok (.object [("1", .object [("10", .text "x"),
        ("2", .bool true)]), ("list", list)]) := by
  intro list named
  let _ : Hashing := .uniform
  have listed : list.Solid Table.maxArrayCapacity := by
    refine .array (by decide) (List.forall_mem_cons.mpr ⟨.int 2, ?_⟩)
    refine List.forall_mem_cons.mpr ⟨.float (by decide), ?_⟩
    refine List.forall_mem_cons.mpr ⟨.float (by decide), ?_⟩
    exact List.forall_mem_singleton.mpr (.array (by decide) nofun)
  have members : named.Solid Table.maxArrayCapacity := by
    refine .object (by decide) (by decide) (List.forall_mem_cons.mpr ⟨.bool true, ?_⟩)
    exact List.forall_mem_singleton.mpr (.text "x")
  have solid : (Json.object [("list", list), ("1", named)]).Solid Table.maxArrayCapacity :=
    .object (by decide) (by decide)
      (List.forall_mem_cons.mpr ⟨listed, List.forall_mem_singleton.mpr members⟩)
  exact toJson_ofJson (.inr solid) (.initial ())

end World

end HybridTable
