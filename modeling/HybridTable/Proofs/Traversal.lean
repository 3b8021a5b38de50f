import HybridTable.Proofs.Listing
import HybridTable.Proofs.Reachable

/-! Traversals that are disturbed on the way. Between two steps the caller may remove keys that it
was given and overwrite keys that are present, and the environment may reclaim what it likes. None
of this changes which places there are, so the traversal keeps walking down the list of places that
the table had at the start. A place is passed over only at a moment at which nothing can be read
there. -/
namespace HybridTable

/-- A table and what is alive at a moment. -/
structure Scene where
  /-- The table. -/
  table : Table
  /-- Which referents are alive. -/
  alive : Ref → Bool

variable [Hashing]

namespace Scene

/-- The value of a key at that moment. -/
def get (s : Scene) (key : Value) : Option Value := s.table.get s.alive key

/-- The pair after a key at that moment. -/
def next (s : Scene) (key : Value) : Except Error (Option (Value × Value)) :=
  s.table.next s.alive key

/-- The keys at that moment. -/
def keys (s : Scene) : List Value := s.table.keys s.alive

end Scene

/-- What may happen between two steps of a traversal whose caller was given some keys. Nothing is
assumed of what is alive afterwards. -/
inductive Disturbed (known : List Value) : Scene → Scene → Prop
  /-- A key is removed by the very value that was given. -/
  | removed {s : Scene} {t : Table} {alive : Ref → Bool} {live : Liveness} {key : Value}
    (lawful : live.Lawful) (given : key ∈ known) (done : s.table.set live key .nil = .ok t) :
    Disturbed known s ⟨t, alive⟩
  /-- A key that is present gets another value. -/
  | overwritten {s : Scene} {t : Table} {alive : Ref → Bool} {live : Liveness} {key value : Value}
    (lawful : live.Lawful) (present : s.get key ≠ none) (stored : value ≠ .nil)
    (done : s.table.set live key value = .ok t) : Disturbed known s ⟨t, alive⟩
  /-- Only what is alive changes. -/
  | reclaimed {s : Scene} {alive : Ref → Bool} : Disturbed known s ⟨s.table, alive⟩

/-- A traversal as far as it has come: the present scene and those before it, the keys that the
caller was given, and among them those that were returned by the steps, the last one first. -/
inductive Traversal (start : Table) : Scene → List Scene → List Value → List Value → Prop
  /-- At the start no step has been made. -/
  | begun {alive : Ref → Bool} : Traversal start ⟨start, alive⟩ [] [] []
  /-- The caller lists the keys. -/
  | listed {now : Scene} {past : List Scene} {known visited : List Value}
    (earlier : Traversal start now past known visited) :
    Traversal start now past (now.keys ++ known) visited
  /-- Something happens to the table or to what it refers to. -/
  | disturbed {now later : Scene} {past : List Scene} {known visited : List Value}
    (earlier : Traversal start now past known visited) (happened : Disturbed known now later) :
    Traversal start later (now :: past) known visited
  /-- The caller, who still holds the key that was returned last, goes on from it. -/
  | stepped {now : Scene} {past : List Scene} {known visited : List Value} {k v : Value}
    (earlier : Traversal start now past known visited)
    (held : ∀ r ∈ (visited.headD .nil).refs, now.alive r = true)
    (returned : now.next (visited.headD .nil) = .ok (some (k, v))) :
    Traversal start now past (k :: known) (k :: visited)

/-- A key that could not be read at some moment. -/
def Missed (scenes : List Scene) (k : Value) : Prop :=
  ∃ scene ∈ scenes, ∀ key, key.toKey? = k.toKey? → scene.get key = none

theorem Missed.later {scenes : List Scene} {k : Value} (missed : Missed scenes k) (s : Scene) :
    Missed (s :: scenes) k := by
  obtain ⟨scene, member, absent⟩ := missed
  exact ⟨scene, List.mem_cons_of_mem s member, absent⟩

namespace Table

variable {t : Table} {alive : Ref → Bool}

/-- From the last of the places seen, a step gives the first pair in the other places. -/
theorem next_of_outline (sound : t.Sound) {seen rest visited : List Value}
    (split : t.outline = seen ++ rest) (last : seen.getLast? = visited.head?)
    (held : ∀ r ∈ (visited.headD .nil).refs, alive r = true) :
    ∃ before after, t.readings alive = before ++ after ∧ before.map Prod.fst = seen ∧
      after.map Prod.fst = rest ∧
      t.next alive (visited.headD .nil) = .ok (after.findSome? pairAt) := by
  rw [← map_fst_readings t alive] at split
  obtain ⟨before, after, places, rfl, rfl⟩ := List.map_eq_append_iff.mp split
  refine ⟨before, after, places, rfl, rfl, ?_⟩
  cases visited with
  | nil =>
    cases before with
    | nil => rw [List.headD_nil, next_nil, places, List.nil_append]
    | cons place more => simp at last
  | cons k earlier =>
    obtain ⟨front, same⟩ := List.getLast?_eq_some_iff.mp last
    obtain ⟨front, tail, rfl, _, single⟩ := List.map_eq_append_iff.mp same
    obtain ⟨⟨_, read⟩, rfl, rfl⟩ := List.map_eq_singleton_iff.mp single
    exact next_of_place sound (by rw [places, List.append_assoc]; rfl) (.inr held)

end Table

/-- How far a traversal has come in the list of places that the table had at the start. -/
structure Progress (start : Table) (now : Scene) (past : List Scene) (known visited : List Value) :
    Prop where
  /-- The layout is sound. -/
  sound : now.table.Sound
  /-- The array region is not larger than it is meant to be. -/
  bounded : now.table.Bounded
  /-- The places are those of the start. -/
  framed : now.table.frame = start.frame
  /-- The caller was given keys of places only. -/
  given : ∀ k ∈ known, k ∈ start.outline
  /-- The places up to that of the key returned last were visited, or else there was nothing to read
  when they were passed over. -/
  reached : ∃ seen rest, start.outline = seen ++ rest ∧ seen.getLast? = visited.head? ∧
    visited.reverse.Sublist seen ∧ ∀ k ∈ seen, k ∈ visited ∨ Missed (now :: past) k

namespace Progress

variable {start : Table} {now later : Scene} {past : List Scene} {known visited : List Value}
  {k v : Value}

theorem outline (progress : Progress start now past known visited) :
    now.table.outline = start.outline := Table.outline_of_frame progress.framed

theorem begun {alive : Ref → Bool} (sound : start.Sound) (bounded : start.Bounded) :
    Progress start ⟨start, alive⟩ [] [] [] :=
  ⟨sound, bounded, rfl, nofun, [], start.outline, rfl, rfl, .slnil, nofun⟩

theorem listed (progress : Progress start now past known visited) :
    Progress start now past (now.keys ++ known) visited where
  sound := progress.sound
  bounded := progress.bounded
  framed := progress.framed
  given k member := by
    rcases List.mem_append.mp member with listed | old
    · exact progress.outline ▸ (Table.keys_sublist progress.sound now.alive).mem listed
    · exact progress.given k old
  reached := progress.reached

/-- A write that keeps the places does not interfere with the traversal. -/
private theorem written {live : Liveness} {key value : Value} {t : Table} {alive : Ref → Bool}
    (progress : Progress start now past known visited) (lawful : live.Lawful)
    (done : now.table.set live key value = .ok t)
    (present : value ≠ .nil → now.get key ≠ none) (very : value = .nil → key ∈ known) :
    Progress start ⟨t, alive⟩ (now :: past) known visited := by
  cases named : key.toKey? with
  | none =>
    obtain ⟨defect, _, refused⟩ := Table.set_of_invalid live now.table value named
    rw [refused] at done
    cases done
  | some k =>
    rw [Table.set_of_named named] at done
    cases done
    have stored : value ≠ .nil → ∃ v, now.table.Stores k v := by
      intro some_value
      obtain ⟨v, read⟩ := Option.ne_none_iff_exists'.mp (present some_value)
      obtain ⟨k', named', stored, _⟩ := progress.sound.get_eq_some_iff.mp read
      cases named.symm.trans named'
      exact ⟨v, stored⟩
    have same : (now.table.put live key value).frame = now.table.frame :=
      Table.frame_put progress.sound (.inr lawful) named stored fun removed =>
        progress.outline.symm ▸ progress.given key (very removed)
    have bounded := progress.bounded.of_size (Table.size_array_of_frame same)
    refine ⟨(Table.written_put progress.sound (.inr lawful) named bounded).sound, bounded,
      same.trans progress.framed, progress.given, ?_⟩
    obtain ⟨seen, rest, split, last, order, passed⟩ := progress.reached
    exact ⟨seen, rest, split, last, order, fun k member => (passed k member).imp_right (·.later _)⟩

theorem disturbed (progress : Progress start now past known visited)
    (happened : Disturbed known now later) :
    Progress start later (now :: past) known visited := by
  cases happened with
  | removed lawful given done =>
    exact progress.written lawful done (fun some_value => absurd rfl some_value) (fun _ => given)
  | overwritten lawful present stored done =>
    exact progress.written lawful done (fun _ => present) (fun removed => absurd removed stored)
  | reclaimed =>
    refine ⟨progress.sound, progress.bounded, progress.framed, progress.given, ?_⟩
    obtain ⟨seen, rest, split, last, order, passed⟩ := progress.reached
    exact ⟨seen, rest, split, last, order, fun k member => (passed k member).imp_right (·.later _)⟩

/-- A step passes over places in which nothing can be read, up to the first pair or to the end. -/
theorem step (progress : Progress start now past known visited)
    (held : ∀ r ∈ (visited.headD .nil).refs, now.alive r = true) :
    ∃ seen rest, start.outline = seen ++ rest ∧ seen.getLast? = visited.head? ∧
      visited.reverse.Sublist seen ∧ (∀ k ∈ seen, k ∈ visited ∨ Missed (now :: past) k) ∧
      ((now.next (visited.headD .nil) = .ok none ∧ ∀ k ∈ rest, Missed (now :: past) k) ∨
      ∃ skipped k v after, rest = skipped ++ k :: after ∧ now.get k = some v ∧
        now.next (visited.headD .nil) = .ok (some (k, v)) ∧
        ∀ k ∈ skipped, Missed (now :: past) k) := by
  obtain ⟨seen, rest, split, last, order, passed⟩ := progress.reached
  obtain ⟨before, after, places, rfl, rfl, found⟩ := Table.next_of_outline progress.sound
    (progress.outline.trans split) last held
  have missed {place : Value × Option Value} (member : place ∈ after)
      (unread : Table.pairAt place = none) : Missed (now :: past) place.1 := by
    refine ⟨now, List.mem_cons_self, fun key same => ?_⟩
    obtain ⟨k, read⟩ := place
    have absent := Table.get_of_mem_readings progress.sound
      (places ▸ List.mem_append_right before member)
    exact (Table.get_congr progress.sound same).trans
      (absent.trans (Option.map_eq_none_iff.mp unread))
  refine ⟨_, _, split, last, order, passed, ?_⟩
  cases first : after.findSome? Table.pairAt with
  | none =>
    refine .inl ⟨found.trans (congrArg _ first), fun k member => ?_⟩
    obtain ⟨place, listed, rfl⟩ := List.mem_map.mp member
    exact missed listed (List.findSome?_eq_none_iff.mp first place listed)
  | some pair =>
    obtain ⟨skipped, ⟨k, value⟩, later, rfl, read, unread⟩ := List.findSome?_eq_some_iff.mp first
    obtain ⟨v, rfl, rfl⟩ := Option.map_eq_some_iff.mp read
    refine .inr ⟨skipped.map Prod.fst, k, v, later.map Prod.fst, by simp, ?_,
      found.trans (congrArg _ first), fun k member => ?_⟩
    · exact Table.get_of_mem_readings progress.sound (places ▸ by simp)
    · obtain ⟨place, listed, rfl⟩ := List.mem_map.mp member
      exact missed (List.mem_append_left _ listed) (unread place listed)

theorem stepped (progress : Progress start now past known visited)
    (held : ∀ r ∈ (visited.headD .nil).refs, now.alive r = true)
    (returned : now.next (visited.headD .nil) = .ok (some (k, v))) :
    Progress start now past (k :: known) (k :: visited) := by
  obtain ⟨seen, rest, split, last, order, passed, ⟨done, _⟩ | more⟩ := progress.step held
  · rw [done] at returned
    cases returned
  · obtain ⟨skipped, k', v', after, rfl, _, found, missed⟩ := more
    rw [found] at returned
    cases returned
    refine ⟨progress.sound, progress.bounded, progress.framed, fun own member => ?_,
      seen ++ skipped ++ [k], after, by rw [split]; simp, by simp, ?_, fun own member => ?_⟩
    · rcases List.mem_cons.mp member with rfl | old
      · exact split ▸ by simp
      · exact progress.given own old
    · rw [List.reverse_cons]
      exact (order.trans (List.sublist_append_left ..)).append_right _
    · rcases List.mem_append.mp member with early | here
      · rcases List.mem_append.mp early with before | passed_over
        · exact (passed own before).imp_left (List.mem_cons_of_mem k)
        · exact .inr (missed own passed_over)
      · exact .inl (List.mem_singleton.mp here ▸ List.mem_cons_self)

/-- The keys are returned in the order of their places. -/
theorem sublist (progress : Progress start now past known visited) :
    visited.reverse.Sublist now.table.outline := by
  obtain ⟨seen, rest, split, _, order, _⟩ := progress.reached
  rw [progress.outline, split]
  exact order.trans (List.sublist_append_left ..)

theorem named (progress : Progress start now past known visited) {k : Value}
    (member : k ∈ visited) : k.toKey? ≠ none :=
  (Table.named_of_mem_outline progress.sound
    (progress.sublist.mem (List.mem_reverse.mpr member))).1

/-- No key is returned twice. -/
theorem distinct (progress : Progress start now past known visited) :
    visited.Pairwise fun a b => a.toKey? ≠ b.toKey? := by
  refine (List.pairwise_reverse.mp ?_).imp Ne.symm
  exact (Table.outline_pairwise progress.sound).sublist progress.sublist

theorem length_le (progress : Progress start now past known visited) :
    visited.length ≤ start.placeCount := by
  rw [← Table.length_outline, ← progress.outline, ← visited.length_reverse]
  exact progress.sublist.length_le

/-- The keys of the array region are returned first and in ascending order. -/
theorem ascending (progress : Progress start now past known visited) :
    ∃ (positions : List Nat) (others : List Value), visited.reverse =
        positions.map (fun i => Value.int (Int64.ofNat (i + 1))) ++ others ∧
      positions.Pairwise (· < ·) ∧ (∀ i ∈ positions, i < now.table.arrayCapacity) ∧
      ∀ i, .int i ∈ others → now.table.position? i = none := by
  obtain ⟨cells, others, split, first, second⟩ := List.sublist_append_iff.mp progress.sublist
  obtain ⟨positions, part, rfl⟩ := List.sublist_map_iff.mp first
  refine ⟨positions, others, split, List.pairwise_lt_range.sublist part,
    fun i member => List.mem_range.mp (part.mem member), fun i member => ?_⟩
  obtain ⟨s, listed, same⟩ := List.mem_map.mp (second.mem member)
  obtain ⟨bucket, slot⟩ := Table.mem_flatten_buckets.mp listed
  exact (progress.sound.slots bucket s slot).outside i same

/-- When no place is left, a key that was present in all scenes was returned. -/
theorem complete (progress : Progress start now past known visited)
    (held : ∀ r ∈ (visited.headD .nil).refs, now.alive r = true)
    (done : now.next (visited.headD .nil) = .ok none) {key : Value}
    (present : ∀ scene ∈ now :: past, scene.get key ≠ none) :
    visited.countP (·.rawEqual key) = 1 := by
  obtain ⟨v, read⟩ := Option.ne_none_iff_exists'.mp (present now List.mem_cons_self)
  obtain ⟨name, named, stored, _⟩ := progress.sound.get_eq_some_iff.mp read
  obtain ⟨k, place, spelled⟩ := Table.exists_mem_outline stored
  have not_missed : ¬ Missed (now :: past) k := fun ⟨scene, member, absent⟩ =>
    present scene member (absent key (named.trans spelled.symm))
  have returned : k ∈ visited := by
    obtain ⟨seen, rest, split, _, _, passed, ⟨_, missed⟩ | ⟨_, _, _, _, _, _, more, _⟩⟩ :=
      progress.step held
    · rw [progress.outline, split] at place
      rcases List.mem_append.mp place with early | late
      · exact (passed k early).resolve_right not_missed
      · exact absurd (missed k late) not_missed
    · rw [done] at more
      cases more
  refine Nat.le_antisymm ?_ (List.countP_pos_iff.mpr
    ⟨k, returned, (Value.rawEqual_iff spelled).mpr named⟩)
  apply countP_le_one_of_pairwise_ne progress.distinct
  intro a first b second found again
  obtain ⟨_, own⟩ := Option.ne_none_iff_exists'.mp (progress.named first)
  obtain ⟨_, other⟩ := Option.ne_none_iff_exists'.mp (progress.named second)
  rw [own, other, ← (Value.rawEqual_iff own).mp found, ← (Value.rawEqual_iff other).mp again]

end Progress

/-- Every traversal of a sound table makes progress. -/
theorem Traversal.progress {start : Table} {now : Scene} {past : List Scene}
    {known visited : List Value} (sound : start.Sound) (bounded : start.Bounded)
    (run : Traversal start now past known visited) : Progress start now past known visited := by
  induction run with
  | begun => exact .begun sound bounded
  | listed _ ih => exact ih.listed
  | disturbed _ happened ih => exact ih.disturbed happened
  | stepped _ held returned ih => exact ih.stepped held returned

/-- However a traversal is disturbed, a step never fails as long as the caller holds the key from
which it goes on. A pair that it gives is one that can be read at that moment, under a key that was
not returned before; when it gives none, every key that could be read all the time was returned
exactly once. There are no more steps than places at the start, no key is returned twice, and keys
of the array region come first and in ascending order. In particular a table that is left alone
lists exactly the keys that can be read, each once. -/
theorem traversal_of_reachable {start : Table} {now : Scene} {past : List Scene}
    {known visited : List Value} (reachable : start.Reachable)
    (run : Traversal start now past known visited) :
    ((∀ r ∈ (visited.headD .nil).refs, now.alive r = true) →
      (now.next (visited.headD .nil) = .ok none ∧
        ∀ key, (∀ scene ∈ now :: past, scene.get key ≠ none) →
          visited.countP (·.rawEqual key) = 1) ∨
      ∃ k v, now.next (visited.headD .nil) = .ok (some (k, v)) ∧ now.get k = some v ∧
        ∀ old ∈ visited, old.rawEqual k = false) ∧
      visited.length ≤ start.placeCount ∧
      visited.Pairwise (fun a b => a.rawEqual b = false) ∧
      (∃ (positions : List Nat) (others : List Value), visited.reverse =
          positions.map (fun i => Value.int (Int64.ofNat (i + 1))) ++ others ∧
        positions.Pairwise (· < ·) ∧ (∀ i ∈ positions, i < now.table.arrayCapacity) ∧
        ∀ i, .int i ∈ others → now.table.position? i = none) ∧
      (∀ key, (∃ k ∈ now.keys, k.rawEqual key = true) ↔ now.get key ≠ none) ∧
      now.keys.Pairwise (fun a b => a.rawEqual b = false) ∧
      ∃ present : Finset Key,
        (∀ k, k ∈ present ↔ ∃ key, key.toKey? = some k ∧ now.get key ≠ none) ∧
        present.card = now.keys.length := by
  obtain ⟨sound, bounded⟩ := reachable.sound_bounded
  have progress := run.progress sound bounded
  refine ⟨fun held => ?_, progress.length_le, ?_, progress.ascending,
    fun key => Table.exists_mem_keys_iff progress.sound, ?_,
    Table.exists_card_eq_length_keys progress.sound now.alive⟩
  · obtain ⟨seen, rest, split, _, _, _, ⟨done, _⟩ | ⟨_, k, v, _, _, read, returned, _⟩⟩ :=
      progress.step held
    · exact .inl ⟨done, fun key present => progress.complete held done present⟩
    · refine .inr ⟨k, v, returned, read, fun old member => ?_⟩
      have apart := (List.pairwise_cons.mp (progress.stepped held returned).distinct).1 old member
      exact Value.rawEqual_eq_false (progress.named member) apart.symm
  · exact progress.distinct.imp_of_mem fun first _ apart =>
      Value.rawEqual_eq_false (progress.named first) apart
  · refine (Table.keys_pairwise progress.sound now.alive).imp_of_mem fun {a b} first _ apart => ?_
    have place := (Table.keys_sublist progress.sound now.alive).mem first
    exact Value.rawEqual_eq_false (Table.named_of_mem_outline progress.sound place).1 apart

omit [Hashing] in
/-- A traversal goes on from a key that was removed after it had been returned, and ends after the
other keys. -/
theorem traversal_past_removed_key :
    let a : Value := .text (.short "a")
    let b : Value := .text (.short "b")
    let steps : List (Liveness × Change) := [(Table.nothingReclaimed, .setInt 1 (.int 10)),
      (Table.nothingReclaimed, .set a (.int 11)), (Table.nothingReclaimed, .set b (.int 12))]
    let alive : Ref → Bool := fun _ => true
    let start := @Table.after .uniform .empty steps
    let now := @Table.put .uniform Table.nothingReclaimed start a .nil
    @Traversal .uniform start ⟨now, alive⟩ [⟨start, alive⟩] [b, a, .int 1] [b, a, .int 1] ∧
      [b, a, .int 1].countP (·.rawEqual b) = 1 := by
  intro a b steps alive start now
  have lawful : ∀ step ∈ steps, step.1.Lawful := by simp [steps, Table.nothingReclaimed_lawful]
  have bounded : ∀ done ∈ steps.inits, (@Table.after .uniform .empty done).Bounded := by
    decide +kernel
  have inside : Origin.empty.Bounded := by decide
  let hashing : Hashing := .uniform
  have reachable : start.Reachable := .after (.made inside rfl) lawful
    fun done begun => bounded done ((List.mem_inits done steps).mpr begun)
  have answers : (start.next alive .nil).toOption = some (some (.int 1, .int 10)) ∧
      (start.next alive (.int 1)).toOption = some (some (a, .int 11)) ∧
      (now.next alive a).toOption = some (some (b, .int 12)) ∧
      (now.next alive b).toOption = some none ∧ now.get alive b = some (.int 12) ∧
      start.get alive b = some (.int 12) := by
    decide +kernel
  have removal : start.set Table.nothingReclaimed a .nil = .ok now :=
    Table.set_of_named (k := .text "a") rfl
  clear_value start now
  have answer {t : Table} {key : Value} {pair : Option (Value × Value)}
      (found : (t.next alive key).toOption = some pair) : t.next alive key = .ok pair := by
    cases same : t.next alive key <;> rw [same] at found <;> cases found
    rfl
  have first : Traversal start ⟨start, alive⟩ [] [.int 1] [.int 1] :=
    .stepped .begun (fun _ _ => rfl) (answer answers.1)
  have second : Traversal start ⟨start, alive⟩ [] [a, .int 1] [a, .int 1] :=
    .stepped first (fun _ _ => rfl) (answer answers.2.1)
  have third : Traversal start ⟨now, alive⟩ [⟨start, alive⟩] [a, .int 1] [a, .int 1] :=
    .disturbed second (.removed Table.nothingReclaimed_lawful List.mem_cons_self removal)
  have run : Traversal start ⟨now, alive⟩ [⟨start, alive⟩] [b, a, .int 1] [b, a, .int 1] :=
    .stepped third (fun _ _ => rfl) (answer answers.2.2.1)
  refine ⟨run, ?_⟩
  rcases (traversal_of_reachable reachable run).1 (fun _ _ => rfl) with ⟨_, complete⟩ | more
  · apply complete b
    intro scene member
    rcases List.mem_pair.mp member with rfl | rfl
    · exact Option.ne_none_iff_exists'.mpr ⟨_, answers.2.2.2.2.1⟩
    · exact Option.ne_none_iff_exists'.mpr ⟨_, answers.2.2.2.2.2⟩
  · obtain ⟨k, v, found, _⟩ := more
    cases (answer answers.2.2.2.1).symm.trans found

end HybridTable
