import HybridTable.Proofs.JsonPairs
import HybridTable.Proofs.KeyTexts

/-! The object that a table becomes. Its members are named by the texts of keys, and different keys
can have one text. A pair that is written later then takes the member of an earlier one, so what is
kept of the pairs with one text is the last of them; nothing else is lost. -/
namespace HybridTable

variable {written : Value → Except JsonError Json} {pairs : List (Value × Value)}
  {members : List (String × Json)} {name : String} {j : Json}

namespace Json

/-- A new member is there beside all members of other names. -/
theorem mem_addMember {value : Json} (ascending : members.Pairwise (·.1 < ·.1)) {other : String} :
    (other, j) ∈ addMember name value members ↔
      other = name ∧ j = value ∨ other ≠ name ∧ (other, j) ∈ members := by
  induction members with
  | nil => simp [addMember]
  | cons member rest ih =>
    obtain ⟨first, own⟩ := member
    obtain ⟨least, ascending⟩ := List.pairwise_cons.mp ascending
    rcases lt_trichotomy name first with before | rfl | after
    · have apart : (other, j) ∈ (first, own) :: rest → other ≠ name := by
        intro member
        rcases List.mem_cons.mp member with same | later
        · cases same
          exact before.ne'
        · exact (before.trans (least _ later)).ne'
      rw [addMember_before before, List.mem_cons, Prod.mk.injEq]
      exact or_congr_right (iff_and_self.mpr apart)
    · have apart : (other, j) ∈ rest → other ≠ name := fun later => (least _ later).ne'
      rw [addMember_same, List.mem_cons, List.mem_cons, Prod.mk.injEq, Prod.mk.injEq]
      tauto
    · have apart : first ≠ name := after.ne
      rw [addMember_after after, List.mem_cons, List.mem_cons, ih ascending, Prod.mk.injEq]
      grind

theorem ascending_addMember {value : Json} (ascending : members.Pairwise (·.1 < ·.1)) :
    (addMember name value members).Pairwise (·.1 < ·.1) := by
  induction members with
  | nil => exact List.pairwise_singleton ..
  | cons member rest ih =>
    obtain ⟨first, own⟩ := member
    obtain ⟨least, others⟩ := List.pairwise_cons.mp ascending
    rcases lt_trichotomy name first with before | rfl | after
    · rw [addMember_before before]
      refine List.pairwise_cons.mpr ⟨List.forall_mem_cons.mpr ⟨before, ?_⟩, ascending⟩
      exact fun later member => before.trans (least later member)
    · rw [addMember_same]
      exact List.pairwise_cons.mpr ⟨least, others⟩
    · rw [addMember_after after]
      refine List.pairwise_cons.mpr ⟨fun ⟨other, j⟩ member => ?_, ih others⟩
      rcases (mem_addMember others).mp member with ⟨rfl, -⟩ | ⟨-, later⟩
      · exact after
      · exact least _ later

end Json

/-- A pair is the last one whose key has the name. -/
def LastNamed (pairs : List (Value × Value)) (name : String) (pair : Value × Value) : Prop :=
  ∃ before after, pairs = before ++ pair :: after ∧ memberName pair.1 = .ok name ∧
    ∀ other ∈ after, memberName other.1 ≠ .ok name

theorem LastNamed.mem {pair : Value × Value} (last : LastNamed pairs name pair) : pair ∈ pairs := by
  obtain ⟨before, after, rfl, -⟩ := last
  exact List.mem_append_right _ List.mem_cons_self

theorem LastNamed.named {pair : Value × Value} (last : LastNamed pairs name pair) :
    memberName pair.1 = .ok name := by
  obtain ⟨-, -, -, named, -⟩ := last
  exact named

theorem lastNamed_concat {pair own : Value × Value} : LastNamed (pairs ++ [own]) name pair ↔
    memberName own.1 = .ok name ∧ pair = own ∨
      memberName own.1 ≠ .ok name ∧ LastNamed pairs name pair := by
  constructor
  · rintro ⟨before, after, split, named, others⟩
    rcases List.eq_nil_or_concat after with rfl | ⟨earlier, last, rfl⟩
    · obtain ⟨-, same⟩ := List.append_inj' split rfl
      cases same
      exact .inl ⟨named, rfl⟩
    · rw [List.concat_eq_append] at split others
      rw [← List.cons_append, ← List.append_assoc] at split
      obtain ⟨rfl, same⟩ := List.append_inj' split rfl
      cases same
      obtain ⟨others, apart⟩ := List.forall_mem_append.mp others
      exact .inr ⟨apart own List.mem_cons_self, before, earlier, rfl, named, others⟩
  · rintro (⟨named, rfl⟩ | ⟨apart, before, after, rfl, named, others⟩)
    · exact ⟨pairs, [], rfl, named, nofun⟩
    · refine ⟨before, after ++ [own], by simp, named, List.forall_mem_append.mpr ⟨others, ?_⟩⟩
      exact List.forall_mem_singleton.mpr apart

/-- One more pair is one more member. -/
theorem writeMembers_concat {own : Value × Value} :
    writeMembers written (pairs ++ [own]) = .ok members ↔ ∃ earlier name j,
      writeMembers written pairs = .ok earlier ∧ memberName own.1 = .ok name ∧
        written own.2 = .ok j ∧ members = Json.addMember name j earlier := by
  unfold writeMembers
  rw [List.mapM_append, map_eq_ok_iff]
  simp only [map_eq_ok_iff, bind_eq_ok_iff, List.mapM_cons, List.mapM_nil, pure_eq_ok_iff]
  constructor
  · rintro ⟨_, ⟨before, begun, _, ⟨⟨name, j⟩, last, _, rfl, rfl⟩, rfl⟩, rfl⟩
    obtain ⟨named, value⟩ := memberOf_eq_ok_iff.mp last
    exact ⟨_, name, j, ⟨before, begun, rfl⟩, named, value, List.foldl_append⟩
  · rintro ⟨_, name, j, ⟨before, begun, rfl⟩, named, value, rfl⟩
    exact ⟨_, ⟨before, begun, _, ⟨_, memberOf_eq_ok_iff.mpr ⟨named, value⟩, _, rfl, rfl⟩, rfl⟩,
      List.foldl_append⟩

/-- What members are of pairs: under each name the value of the last pair whose key has it. -/
structure MembersOf (written : Value → Except JsonError Json) (pairs : List (Value × Value))
    (members : List (String × Json)) : Prop where
  /-- The names are in ascending order, so each stands once. -/
  ascending : members.Pairwise (·.1 < ·.1)
  /-- Every pair has its text and its value written. -/
  every : ∀ pair ∈ pairs, ∃ name j, memberName pair.1 = .ok name ∧ written pair.2 = .ok j
  /-- A member is the last pair whose key has its name. -/
  last : ∀ name j, (name, j) ∈ members ↔
    ∃ pair, LastNamed pairs name pair ∧ written pair.2 = .ok j

theorem membersOf_writeMembers (done : writeMembers written pairs = .ok members) :
    MembersOf written pairs members := by
  -- from the right, since a pair gives way to those after it
  induction pairs using List.reverseRecOn generalizing members with
  | nil =>
    cases done
    refine ⟨.nil, nofun, fun name j => ⟨nofun, ?_⟩⟩
    rintro ⟨pair, last, -⟩
    cases last.mem
  | append_singleton pairs own ih =>
    obtain ⟨before, text, own', begun, named, value, rfl⟩ := writeMembers_concat.mp done
    have earlier := ih begun
    refine ⟨Json.ascending_addMember earlier.ascending, ?_, fun name j => ?_⟩
    · exact List.forall_mem_append.mpr
        ⟨earlier.every, List.forall_mem_singleton.mpr ⟨text, own', named, value⟩⟩
    · rw [Json.mem_addMember earlier.ascending, earlier.last]
      simp only [lastNamed_concat, named, ne_eq, Except.ok.injEq]
      constructor
      · rintro (⟨rfl, rfl⟩ | ⟨apart, pair, last, own_value⟩)
        · exact ⟨own, .inl ⟨rfl, rfl⟩, value⟩
        · exact ⟨pair, .inr ⟨Ne.symm apart, last⟩, own_value⟩
      · rintro ⟨pair, ⟨rfl, rfl⟩ | ⟨apart, last⟩, own_value⟩
        · cases value.symm.trans own_value
          exact .inl ⟨rfl, rfl⟩
        · exact .inr ⟨Ne.symm apart, pair, last, own_value⟩

/-- There is a last pair of every name that a key has. -/
theorem exists_lastNamed {pair : Value × Value} (member : pair ∈ pairs)
    (named : memberName pair.1 = .ok name) : ∃ last, LastNamed pairs name last := by
  induction pairs using List.reverseRecOn with
  | nil => cases member
  | append_singleton pairs own ih =>
    by_cases last : memberName own.1 = .ok name
    · exact ⟨own, lastNamed_concat.mpr (.inl ⟨last, rfl⟩)⟩
    · rcases List.mem_append.mp member with earlier | same
      · obtain ⟨found, is_last⟩ := ih earlier
        exact ⟨found, lastNamed_concat.mpr (.inr ⟨last, is_last⟩)⟩
      · exact absurd (List.mem_singleton.mp same ▸ named) last

namespace MembersOf

/-- The names of the members are the texts of the keys. -/
theorem names (of : MembersOf written pairs members) (text : Except JsonError String) :
    text ∈ members.map (.ok ·.1) ↔ text ∈ pairs.map (memberName ·.1) := by
  constructor
  · intro listed
    obtain ⟨⟨name, j⟩, member, rfl⟩ := List.mem_map.mp listed
    obtain ⟨pair, last, -⟩ := (of.last name j).mp member
    exact List.mem_map.mpr ⟨pair, last.mem, last.named⟩
  · intro listed
    obtain ⟨pair, member, rfl⟩ := List.mem_map.mp listed
    obtain ⟨name, -, named, -⟩ := of.every pair member
    obtain ⟨last, is_last⟩ := exists_lastNamed member named
    obtain ⟨-, j, -, value⟩ := of.every last is_last.mem
    exact List.mem_map.mpr ⟨(name, j), (of.last name j).mpr ⟨last, is_last, value⟩, named.symm⟩

theorem nodup_names (of : MembersOf written pairs members) :
    (members.map fun m => (.ok m.1 : Except JsonError String)).Nodup :=
  List.pairwise_map.mpr (of.ascending.imp fun before same => before.ne (Except.ok.inj same))

/-- There are as many members as pairs just if no key has the text of another. -/
theorem length_eq_iff (of : MembersOf written pairs members) :
    members.length = pairs.length ↔ (pairs.map (memberName ·.1)).Nodup := by
  classical
  have same : (members.map fun m => (.ok m.1 : Except JsonError String)).toFinset =
      (pairs.map (memberName ·.1)).toFinset := by
    ext text
    simp only [List.mem_toFinset, of.names text]
  have count := congrArg Finset.card same
  rw [List.toFinset_card_of_nodup of.nodup_names, List.length_map] at count
  rw [count, ← List.length_map (memberName ·.1)]
  exact Multiset.toFinset_card_eq_card_iff_nodup

end MembersOf

namespace World

variable {ε : Type} [Hashing] {w : World ε} {ref : Ref} {v : Value}

/-- What can be written inside of some tables can be written inside of fewer of them. -/
theorem jsonWithin_mono {depth depth' : Nat} {around around' : List Ref}
    (done : w.jsonWithin depth around v = .ok j) (deeper : depth ≤ depth')
    (fewer : around' ⊆ around) : w.jsonWithin depth' around' v = .ok j := by
  induction depth generalizing depth' around around' v j with
  | zero =>
    have other : ∀ ref, v ≠ .table ref := by
      rintro ref rfl
      cases done
    rw [jsonWithin_other w other] at done ⊢
    exact done
  | succ depth ih =>
    by_cases table : ∃ ref, v = .table ref
    · obtain ⟨ref, rfl⟩ := table
      obtain ⟨depth', rfl⟩ : ∃ n, depth' = n + 1 := ⟨depth' - 1, by omega⟩
      rw [jsonWithin_table] at done ⊢
      split at done
      · cases done
      · rename_i new
        rw [if_neg fun entered => new (fewer entered), ← done]
        refine writePairs_congr fun pair member => ?_
        obtain ⟨⟨own, value⟩, -⟩ := writePairs_eq_ok done pair member
        rw [value]
        exact ih value (Nat.le_of_succ_le_succ deeper) (List.cons_subset_cons ref fewer)
    · have other : ∀ ref, v ≠ .table ref := fun ref same => table ⟨ref, same⟩
      rw [jsonWithin_other w other] at done ⊢
      exact done

theorem writePairs_of_toJson (done : w.toJson (.table ref) = .ok j) :
    writePairs w.toJson (w.pairsOf ref) = .ok j := by
  rw [toJson, jsonWithin_table, if_neg List.not_mem_nil] at done
  rw [← done]
  refine writePairs_congr fun pair member => ?_
  obtain ⟨⟨own, value⟩, -⟩ := writePairs_eq_ok done pair member
  rw [value]
  exact jsonWithin_mono value (Nat.le_succ _) (List.nil_subset _)

theorem writeMembers_of_toJson (done : w.toJson (.table ref) = .ok (.object members)) :
    writeMembers w.toJson (w.pairsOf ref) = .ok members := by
  have whole := writePairs_of_toJson done
  unfold writePairs at whole
  split at whole
  · obtain ⟨items, -, other⟩ := map_eq_ok_iff.mp whole
    cases other
  · obtain ⟨own, kept, same⟩ := map_eq_ok_iff.mp whole
    cases same
    exact kept

/-- What the object of a table keeps of its pairs. -/
structure ObjectOf (w : World ε) (ref : Ref) (members : List (String × Json)) : Prop where
  /-- The pairs that are written are those that can be read. -/
  live : ∀ key v, w.rawGet ref key = some v ↔
    ∃ own, own.toKey? = key.toKey? ∧ (own, v) ∈ w.pairsOf ref
  /-- No two pairs have one key. -/
  keys : ((w.pairsOf ref).map (·.1.toKey?)).Nodup
  /-- Under the text of each key stands the last pair whose key has this text. -/
  last : MembersOf w.toJson (w.pairsOf ref) members
  /-- A pair whose key shares its text with no other has its member. -/
  own : ∀ pair ∈ w.pairsOf ref,
    (∀ other ∈ w.pairsOf ref, memberName other.1 = memberName pair.1 → other = pair) →
    ∃ name j, memberName pair.1 = .ok name ∧ w.toJson pair.2 = .ok j ∧ (name, j) ∈ members
  /-- There are as many members as pairs just if no two keys have one text. -/
  count : members.length = (w.pairsOf ref).length ↔ ∀ p ∈ w.pairsOf ref, ∀ q ∈ w.pairsOf ref,
    memberName p.1 = memberName q.1 → p = q
  /-- Different keys of one text are a string and a number or truth value, or two floats. -/
  shared : ∀ p ∈ w.pairsOf ref, ∀ q ∈ w.pairsOf ref, p ≠ q → memberName p.1 = memberName q.1 →
    (p.1.kind = .string ↔ q.1.kind ≠ .string) ∨ ∃ x y, p.1 = .float x ∧ q.1 = .float y

/-- A table that is written as an object loses no pair, except to a later one whose key has the same
text. -/
theorem toJson_keeps_last_of_text (orderly : w.Orderly)
    (done : w.toJson (.table ref) = .ok (.object members)) : w.ObjectOf ref members := by
  have of : MembersOf w.toJson (w.pairsOf ref) members :=
    membersOf_writeMembers (writeMembers_of_toJson done)
  have sound := (orderly ref).sound_bounded.1
  have keys : ((w.pairsOf ref).map (·.1.toKey?)).Nodup :=
    ((orderedPairs_perm _).map _).nodup_iff.mpr (Table.nodup_toKey? sound _)
  refine ⟨fun key v => ⟨fun read => ?_, ?_⟩, keys, of, fun pair member alone => ?_, ?_, ?_⟩
  · obtain ⟨own, -, same, member⟩ := exists_mem_pairsOf orderly read
    exact ⟨own, same, member⟩
  · rintro ⟨own, same, member⟩
    have read := (rawGet_of_mem_pairsOf orderly member).2.2
    rwa [rawGet, Table.get_congr sound same] at read
  · obtain ⟨name, j, named, value⟩ := of.every pair member
    obtain ⟨last, is_last⟩ := exists_lastNamed member named
    cases alone last is_last.mem (is_last.named.trans named.symm)
    exact ⟨name, j, named, value, (of.last name j).mpr ⟨pair, is_last, value⟩⟩
  · rw [of.length_eq_iff, List.nodup_map_iff_inj_on keys.of_map]
  · intro p p_member q q_member apart same
    obtain ⟨name, -, named, -⟩ := of.every p p_member
    refine string_or_floats_of_memberName named (same.symm.trans named) fun key => apart ?_
    exact List.inj_on_of_nodup_map keys p_member q_member key

omit [Hashing] in
/-- A key and a string have one text, and another key has its own. -/
theorem object_keeps_string :
    let _ : Hashing := .uniform
    let t := Table.after .empty ([.setInt 1 (.text (.short "a")),
      .set (.text (.short "1")) (.text (.short "b")), .set (.bool true) (.int 3)].map
        (Table.nothingReclaimed, ·))
    let w : World Unit := ((initial ()).addTable t).2
    let members : List (String × Json) := [("1", .text "b"), ("true", .int 3)]
    w.Orderly ∧ w.toJson (.table 0) = .ok (.object members) ∧ w.ObjectOf 0 members := by
  intro hashing t w members
  have orderly : w.Orderly :=
    (orderly_initial ()).addTable (Table.reachable_after_empty (by decide +kernel))
  have pairs : w.pairsOf 0 = [(.int 1, .text (.short "a")),
      (.text (.short "1"), .text (.short "b")), (.bool true, .int 3)] := by
    decide +kernel
  have done : w.toJson (.table 0) = .ok (.object members) := by
    rw [toJson, jsonWithin_table, if_neg List.not_mem_nil, pairs]
    rfl
  exact ⟨orderly, done, toJson_keeps_last_of_text orderly done⟩

omit [Hashing] in
/-- Of an integer and the string that is its text, only the string has a member: there are fewer
members than pairs, and none is the value of the integer. -/
theorem object_drops_integer :
    let _ : Hashing := .uniform
    let t := Table.after .empty ([.setInt 1 (.text (.short "a")),
      .set (.text (.short "1")) (.text (.short "b"))].map (Table.nothingReclaimed, ·))
    let w : World Unit := ((initial ()).addTable t).2
    let members : List (String × Json) := [("1", .text "b")]
    w.Orderly ∧ w.toJson (.table 0) = .ok (.object members) ∧
      members.length ≠ (w.pairsOf 0).length ∧
      ¬∀ key v name j, w.rawGet 0 key = some v → memberName key = .ok name →
        w.toJson v = .ok j → (name, j) ∈ members := by
  intro hashing t w members
  have orderly : w.Orderly :=
    (orderly_initial ()).addTable (Table.reachable_after_empty (by decide +kernel))
  have pairs : w.pairsOf 0 =
      [(.int 1, .text (.short "a")), (.text (.short "1"), .text (.short "b"))] := by
    decide +kernel
  have done : w.toJson (.table 0) = .ok (.object members) := by
    rw [toJson, jsonWithin_table, if_neg List.not_mem_nil, pairs]
    rfl
  have read : w.rawGet 0 (.int 1) = some (.text (.short "a")) := by decide +kernel
  refine ⟨orderly, done, by simp [members, pairs], fun all => ?_⟩
  have kept : ("1", Json.text "a") ∈ members := all (.int 1) _ "1" (.text "a") read rfl rfl
  simp [members] at kept

end World

end HybridTable
