import Mathlib.Data.List.Nodup
import Mathlib.Data.String.Basic
import HybridTable.Json.Basic

/-! Objects as maps. The members of an object are kept in ascending order of their names, wherever
they come from, so two objects with the same members are the same list. -/
namespace HybridTable.Json

mutual

/-- The same data with the members of every object in ascending order. -/
def sorted : Json → Json
  | .array items => .array (sortedItems items)
  | .object members => .object (sortedMembers members)
  | j => j

/-- The items of an array, each sorted. -/
def sortedItems : List Json → List Json
  | [] => []
  | item :: rest => item.sorted :: sortedItems rest

/-- The members of an object in ascending order, each sorted. -/
def sortedMembers : List (String × Json) → List (String × Json)
  | [] => []
  | (name, member) :: rest => addMember name member.sorted (sortedMembers rest)

end

/-- The members of an object after others are added. -/
def addMembers (added members : List (String × Json)) : List (String × Json) :=
  added.foldl (fun members m => addMember m.1 m.2 members) members

theorem sortedItems_eq (items : List Json) : sortedItems items = items.map sorted := by
  induction items with
  | nil => rfl
  | cons item rest ih => rw [sortedItems, ih, List.map_cons]

theorem addMember_before {name other : String} (before : name < other) (a b : Json)
    (rest : List (String × Json)) :
    addMember name a ((other, b) :: rest) = (name, a) :: (other, b) :: rest := by
  rw [addMember, if_pos before]

theorem addMember_same (name : String) (a b : Json) (rest : List (String × Json)) :
    addMember name a ((name, b) :: rest) = (name, a) :: rest := by
  rw [addMember, if_neg (lt_irrefl name), if_pos rfl]

theorem addMember_after {name other : String} (after : other < name) (a b : Json)
    (rest : List (String × Json)) :
    addMember name a ((other, b) :: rest) = (other, b) :: addMember name a rest := by
  rw [addMember, if_neg after.asymm, if_neg after.ne']

private theorem addMember_comm_of_lt {name other : String} (before : name < other) (a b : Json)
    (members : List (String × Json)) : addMember name a (addMember other b members) =
      addMember other b (addMember name a members) := by
  induction members with
  | nil => exact (addMember_before before a b []).trans (addMember_after before b a []).symm
  | cons member rest ih =>
    obtain ⟨third, own⟩ := member
    rcases lt_trichotomy name third with first | rfl | first
    · rw [addMember_before first, addMember_after before]
      rcases lt_trichotomy other third with second | rfl | second
      · rw [addMember_before second, addMember_before before]
      · rw [addMember_same, addMember_before before]
      · rw [addMember_after second, addMember_before first]
    · rw [addMember_after before, addMember_same, addMember_same, addMember_after before]
    · rw [addMember_after (first.trans before), addMember_after first, addMember_after first,
        addMember_after (first.trans before), ih]

/-- In which order two members are added makes no difference. -/
theorem addMember_comm {name other : String} (apart : name ≠ other) (a b : Json)
    (members : List (String × Json)) : addMember name a (addMember other b members) =
      addMember other b (addMember name a members) := by
  rcases lt_or_gt_of_ne apart with before | after
  · exact addMember_comm_of_lt before a b members
  · exact (addMember_comm_of_lt after b a members).symm

/-- In which order members of different names are added makes no difference. -/
theorem addMembers_perm {added added' : List (String × Json)} (perm : added.Perm added')
    (distinct : (added.map Prod.fst).Nodup) (members : List (String × Json)) :
    addMembers added members = addMembers added' members := by
  refine perm.foldl_eq' (fun first known second known' members => ?_) members
  by_cases same : first = second
  · rw [same]
  · have apart : second.1 ≠ first.1 :=
      fun name => same (List.inj_on_of_nodup_map distinct known known' name.symm)
    exact addMember_comm apart ..

/-- A new member is one more. -/
theorem addMember_perm {name : String} (a : Json) {members : List (String × Json)}
    (new : name ∉ members.map Prod.fst) :
    (addMember name a members).Perm ((name, a) :: members) := by
  induction members with
  | nil => exact .refl _
  | cons member rest ih =>
    obtain ⟨other, own⟩ := member
    simp only [List.map_cons, List.mem_cons, not_or] at new
    rcases lt_or_gt_of_ne new.1 with before | after
    · rw [addMember_before before]
    · rw [addMember_after after]
      exact ((ih new.2).cons _).trans (.swap ..)

theorem names_sorted (members : List (String × Json)) :
    (members.map fun m => (m.1, m.2.sorted)).map Prod.fst = members.map Prod.fst := by
  rw [List.map_map]
  rfl

/-- Members of different names that are sorted are the same members, each sorted. -/
theorem sortedMembers_perm {members : List (String × Json)}
    (distinct : (members.map Prod.fst).Nodup) :
    (sortedMembers members).Perm (members.map fun m => (m.1, m.2.sorted)) := by
  induction members with
  | nil => exact .refl _
  | cons member rest ih =>
    obtain ⟨name, member⟩ := member
    obtain ⟨new, distinct⟩ := List.nodup_cons.mp distinct
    have perm := ih distinct
    have names := perm.map Prod.fst
    rw [names_sorted] at names
    exact (addMember_perm _ fun old => new (names.mem_iff.mp old)).trans (perm.cons _)

/-- Adding the sorted members one after another sorts the members. -/
theorem addMembers_sorted {members : List (String × Json)}
    (distinct : (members.map Prod.fst).Nodup) :
    addMembers (members.map fun m => (m.1, m.2.sorted)) [] =
      sortedMembers members := by
  induction members with
  | nil => rfl
  | cons member rest ih =>
    obtain ⟨name, member⟩ := member
    obtain ⟨-, others⟩ := List.nodup_cons.mp distinct
    rw [← names_sorted, List.map_cons] at distinct
    rw [List.map_cons, addMembers_perm (List.perm_append_singleton _ _).symm distinct, addMembers,
      List.foldl_append]
    change addMember name member.sorted (addMembers _ []) = _
    rw [ih others, sortedMembers]

end HybridTable.Json
