import HybridTable.World.Basic
import HybridTable.Proofs.Reachable

/-! Which objects the running program reclaims. `Gone` says it without counting: an object is gone
when it is no root and all that hold it are gone, and nothing else is. The sweep finds exactly these
by counting down the holders of each object. From this follows that what the program takes for
reclaimed is a lawful judgement, which is all that the other modules assume of an environment. -/
namespace HybridTable

namespace Objects

variable {next : Ref} {holds : Ref → List Ref} {roots : List Ref} {r : Ref}

/-- Being reclaimed: known, no root, and held by reclaimed objects only. -/
inductive Gone (next : Ref) (holds : Ref → List Ref) (roots : List Ref) : Ref → Prop
  /-- All holders are gone. -/
  | of_holders {r : Ref} (known : r < next) (free : r ∉ roots)
    (holders : ∀ h, h < next → r ∈ holds h → Gone next holds roots h) : Gone next holds roots r

/-- With fewer roots and fewer holders, more is gone. -/
theorem Gone.mono {holds' : Ref → List Ref} {roots' : List Ref}
    (fewer : ∀ h, h < next → ∀ r ∈ holds' h, r ∈ holds h) (part : ∀ r ∈ roots', r ∈ roots)
    (lost : Gone next holds roots r) : Gone next holds' roots' r := by
  induction lost with
  | of_holders known free _ ih =>
    refine .of_holders known (fun root => free (part _ root)) fun h knownHolder holding => ?_
    exact ih h knownHolder (fewer h knownHolder _ holding)

/-! ## Counting holders -/

theorem getElem?_addHolders (holders : Array Nat) (refs : List Ref) (r : Ref) :
    (addHolders holders refs)[r]? = holders[r]?.map (· + refs.count r) := by
  induction refs generalizing holders with
  | nil => simp [addHolders]
  | cons ref rest ih =>
    rw [addHolders, List.foldl_cons]
    refine (ih _).trans ?_
    rw [Array.getElem?_modify, List.count_cons]
    by_cases same : ref = r
    · subst same
      rw [if_pos rfl, Option.map_map]
      refine congrArg (Option.map · holders[ref]?) (funext fun n => ?_)
      simp
      omega
    · simp [same]

/-- The count of an object is the number of times that it is mentioned. -/
theorem getElem?_holderCounts (next : Ref) (holds : Ref → List Ref) (roots : List Ref) (r : Ref) :
    (holderCounts next holds roots)[r]? = if r < next then
      some ((roots ++ (List.range next).flatMap holds).count r) else .none := by
  have counting (objects : List Ref) (holders : Array Nat) :
      (objects.foldl (fun holders ref => addHolders holders (holds ref)) holders)[r]? =
        holders[r]?.map (· + (objects.flatMap holds).count r) := by
    induction objects generalizing holders with
    | nil => simp
    | cons first rest ih =>
      rw [List.foldl_cons, ih, getElem?_addHolders, List.flatMap_cons, List.count_append]
      simp [Function.comp_def, Nat.add_assoc]
  rw [holderCounts, counting, getElem?_addHolders, List.count_append]
  by_cases known : r < next <;> simp [known]

/-- Taking away as many holders as an object has leaves it without any; the others keep the rest. An
object is added when its last holder goes, and so only once. -/
theorem dropHolders_spec {refs unheld : List Ref} {holders : Array Nat}
    (enough : ∀ r n, holders[r]? = some n → refs.count r ≤ n)
    (waiting : ∀ r ∈ unheld, holders[r]? = some 0) (once : unheld.Nodup) :
    let after := dropHolders refs holders unheld
    (∀ r, after.1[r]? = holders[r]?.map (· - refs.count r)) ∧ after.2.Nodup ∧
      ∀ r, r ∈ after.2 ↔ r ∈ unheld ∨ r ∈ refs ∧ holders[r]? = some (refs.count r) := by
  induction refs generalizing holders unheld with
  | nil => simp [dropHolders, once]
  | cons ref rest ih =>
    intro after
    let fewer := holders.modify ref (· - 1)
    let more := if holders[ref]? = some 1 then ref :: unheld else unheld
    have fewer_eq (r : Ref) : fewer[r]? = holders[r]?.map (· - if ref = r then 1 else 0) := by
      rw [Array.getElem?_modify]
      by_cases same : ref = r <;> simp [same]
    have count_eq (r : Ref) : (ref :: rest).count r = rest.count r + if ref = r then 1 else 0 := by
      simp [List.count_cons]
    have unmet : ref ∉ unheld := by
      intro member
      have := enough ref 0 (waiting ref member)
      simp at this
    have more_iff (r : Ref) : r ∈ more ↔ r ∈ unheld ∨ r = ref ∧ holders[ref]? = some 1 := by
      by_cases last : holders[ref]? = some 1 <;> simp [more, last, or_comm]
    have enough' : ∀ r n, fewer[r]? = some n → rest.count r ≤ n := by
      intro r n found
      rw [fewer_eq] at found
      obtain ⟨m, was, rfl⟩ := Option.map_eq_some_iff.mp found
      have := enough r m was
      rw [count_eq] at this
      omega
    have waiting' : ∀ r ∈ more, fewer[r]? = some 0 := by
      intro r member
      rw [fewer_eq]
      rcases (more_iff r).mp member with old | ⟨rfl, last⟩
      · simp [waiting r old]
      · simp [last]
    have once' : more.Nodup := by
      by_cases last : holders[ref]? = some 1
      · simpa [more, last] using ⟨unmet, once⟩
      · simpa [more, last] using once
    obtain ⟨counts, distinct, members⟩ := ih enough' waiting' once'
    refine ⟨fun r => ?_, distinct, fun r => ?_⟩
    · refine (counts r).trans ?_
      rw [fewer_eq, count_eq, Option.map_map]
      refine congrArg (Option.map · holders[r]?) (funext fun n => ?_)
      simp only [Function.comp]
      omega
    · refine (members r).trans ?_
      rw [more_iff, fewer_eq, count_eq]
      by_cases same : ref = r
      · subst same
        cases found : holders[ref]? with
        | none => simp
        | some n =>
          have := enough ref n found
          rw [count_eq, if_pos rfl] at this
          have listed : ref ∈ rest ↔ rest.count ref ≠ 0 := by
            rw [← Nat.pos_iff_ne_zero, List.count_pos_iff]
          simp only [unmet, listed, Option.map_some, Option.some.injEq, List.mem_cons, ↓reduceIte,
            true_and, true_or, false_or]
          omega
      · have other : r ≠ ref := fun equal => same equal.symm
        simp [same, other]

/-! ## The sweep -/

/-- A sweep with some objects left: those are not marked, each count is that of the mentions by a
root or by an object that is left, and the objects that are waiting are those left that nothing
mentions. -/
structure Swept (next : Ref) (holds : Ref → List Ref) (roots left unheld : List Ref)
    (holders : Array Nat) (gone : Array Bool) : Prop where
  /-- Each object is left once. -/
  distinct : left.Nodup
  /-- Only known objects are left. -/
  known : ∀ r ∈ left, r < next
  /-- What is marked is not left. -/
  marks : ∀ r, gone[r]? = if r < next then some (decide (r ∉ left)) else .none
  /-- The counts are up to date. -/
  counts : ∀ r, holders[r]? =
    if r < next then some ((roots ++ left.flatMap holds).count r) else .none
  /-- Each object waits once. -/
  once : unheld.Nodup
  /-- Objects wait when nothing mentions them any more. -/
  waiting : ∀ r, r ∈ unheld ↔ r ∈ left ∧ r ∉ roots ++ left.flatMap holds
  /-- What is marked is not mentioned any more. -/
  settled : ∀ r, r < next → r ∉ left → r ∉ roots ++ left.flatMap holds
  /-- What is marked is gone. -/
  found : ∀ r, r < next → r ∉ left → Gone next holds roots r

variable {left unheld : List Ref} {holders : Array Nat} {gone : Array Bool}

theorem swept_start : Swept next holds roots (List.range next)
    ((List.range next).filter fun ref => (holderCounts next holds roots)[ref]? = some 0)
    (holderCounts next holds roots) (Array.replicate next false) where
  distinct := List.nodup_range
  known r := List.mem_range.mp
  marks r := by
    by_cases known : r < next <;> simp [known]
  counts := getElem?_holderCounts next holds roots
  once := List.nodup_range.filter _
  waiting r := by
    rw [List.mem_filter, List.mem_range]
    apply and_congr_right
    intro known
    rw [getElem?_holderCounts, if_pos known, decide_eq_true_iff, Option.some.injEq,
      List.count_eq_zero]
  settled r known unlisted := absurd (List.mem_range.mpr known) unlisted
  found r known unlisted := absurd (List.mem_range.mpr known) unlisted

/-- When nothing waits any more, what is not marked is not gone. -/
theorem Swept.ended (state : Swept next holds roots left [] holders gone) :
    gone[r]? = some false ↔ r < next ∧ ¬ Gone next holds roots r := by
  have kept : ∀ r, Gone next holds roots r → r ∉ left := by
    intro r lost
    induction lost with
    | @of_holders r known free _ ih =>
      intro member
      have mentioned : r ∈ roots ++ left.flatMap holds := by
        by_cases mentioned : r ∈ roots ++ left.flatMap holds
        · exact mentioned
        · exact absurd ((state.waiting r).mpr ⟨member, mentioned⟩) List.not_mem_nil
      rcases List.mem_append.mp mentioned with root | held
      · exact free root
      · obtain ⟨h, listed, holding⟩ := List.mem_flatMap.mp held
        exact ih h (state.known h listed) holding listed
  rw [state.marks r]
  by_cases known : r < next
  · have left_iff : r ∈ left ↔ ¬ Gone next holds roots r := by
      constructor
      · exact fun member lost => kept r lost member
      · intro alive
        by_cases member : r ∈ left
        · exact member
        · exact absurd (state.found r known member) alive
    simp [known, left_iff]
  · simp [known]

/-- Taking the first of the waiting objects. -/
theorem Swept.taken {ref : Ref} {rest : List Ref}
    (state : Swept next holds roots left (ref :: rest) holders gone) :
    let after := dropHolders (holds ref) holders rest
    Swept next holds roots (left.erase ref) after.2 after.1 (gone.setIfInBounds ref true) := by
  intro after
  obtain ⟨member, unmentioned⟩ := (state.waiting ref).mp List.mem_cons_self
  obtain ⟨unlisted, restOnce⟩ := List.nodup_cons.mp state.once
  have erased (r : Ref) : r ∈ left.erase ref ↔ r ≠ ref ∧ r ∈ left := state.distinct.mem_erase_iff
  -- the mentions are those by the object that is taken and those by the others
  have total (r : Ref) : (roots ++ left.flatMap holds).count r =
      (holds ref).count r + (roots ++ (left.erase ref).flatMap holds).count r := by
    have parts := (List.perm_cons_erase member).flatMap_right holds
    rw [List.count_append, List.count_append, parts.count_eq, List.flatMap_cons, List.count_append]
    omega
  have fewer (r : Ref) (mentioned : r ∉ roots ++ left.flatMap holds) :
      r ∉ roots ++ (left.erase ref).flatMap holds := by
    rw [← List.count_eq_zero] at mentioned ⊢
    have := total r
    omega
  have enough : ∀ r n, holders[r]? = some n → (holds ref).count r ≤ n := by
    intro r n found
    rw [state.counts] at found
    split at found <;> cases found
    have := total r
    omega
  have idle : ∀ r ∈ rest, holders[r]? = some 0 := by
    intro r waits
    obtain ⟨listed, unheld⟩ := (state.waiting r).mp (List.mem_cons_of_mem ref waits)
    rw [state.counts, if_pos (state.known r listed), List.count_eq_zero.mpr unheld]
  obtain ⟨counts, once, members⟩ := dropHolders_spec enough idle restOnce
  refine ⟨state.distinct.erase ref, fun r listed => state.known r ((erased r).mp listed).2, ?_, ?_,
    once, ?_, ?_, ?_⟩
  · intro r
    have inside : ref < gone.size := by
      have := state.marks ref
      rw [if_pos (state.known ref member)] at this
      exact (Array.getElem?_eq_some_iff.mp this).1
    rw [Array.getElem?_setIfInBounds]
    by_cases same : ref = r
    · subst same
      simp [inside, state.known ref member, erased]
    · have other : r ≠ ref := fun equal => same equal.symm
      rw [if_neg same, state.marks]
      simp [erased, other]
  · intro r
    refine (counts r).trans ?_
    rw [state.counts]
    by_cases known : r < next
    · rw [if_pos known, if_pos known, Option.map_some, total, Nat.add_sub_cancel_left]
    · rw [if_neg known, if_neg known, Option.map_none]
  · intro r
    rw [members, erased]
    constructor
    · rintro (waits | ⟨held, last⟩)
      · obtain ⟨listed, unheld⟩ := (state.waiting r).mp (List.mem_cons_of_mem ref waits)
        refine ⟨⟨?_, listed⟩, fewer r unheld⟩
        rintro rfl
        exact unlisted waits
      · have mentioned : r ∈ roots ++ left.flatMap holds :=
          List.mem_append_right _ (List.mem_flatMap.mpr ⟨ref, member, held⟩)
        by_cases known : r < next
        · rw [state.counts, if_pos known, Option.some.injEq] at last
          have := total r
          refine ⟨⟨?_, ?_⟩, List.count_eq_zero.mp (by omega)⟩
          · rintro rfl
            exact unmentioned mentioned
          · by_cases listed : r ∈ left
            · exact listed
            · exact absurd mentioned (state.settled r known listed)
        · rw [state.counts, if_neg known] at last
          cases last
    · rintro ⟨⟨other, listed⟩, unheld⟩
      by_cases held : r ∈ holds ref
      · refine .inr ⟨held, ?_⟩
        rw [state.counts, if_pos (state.known r listed), total, List.count_eq_zero.mpr unheld,
          Nat.add_zero]
      · refine .inl ((List.mem_cons.mp ((state.waiting r).mpr ⟨listed, ?_⟩)).resolve_left other)
        rw [← List.count_eq_zero, total, List.count_eq_zero.mpr held, List.count_eq_zero.mpr unheld]
  · intro r known unmarked
    by_cases same : r = ref
    · subst same
      exact fewer r unmentioned
    · exact fewer r (state.settled r known fun listed => unmarked ((erased r).mpr ⟨same, listed⟩))
  · intro r known unmarked
    by_cases same : r = ref
    · subst same
      refine .of_holders known (fun root => unmentioned (List.mem_append_left _ root)) ?_
      intro h knownHolder holding
      refine state.found h knownHolder fun listed => unmentioned ?_
      exact List.mem_append_right _ (List.mem_flatMap.mpr ⟨h, listed, holding⟩)
    · exact state.found r known fun listed => unmarked ((erased r).mpr ⟨same, listed⟩)

/-- The sweep leaves unmarked what is not gone. -/
theorem sweep_eq_false_iff {steps : Nat}
    (state : Swept next holds roots left unheld holders gone) (enough : left.length ≤ steps) :
    (sweep holds steps unheld holders gone)[r]? = some false ↔
      r < next ∧ ¬ Gone next holds roots r := by
  induction steps generalizing left unheld holders gone with
  | zero =>
    have none_waits : unheld = [] := by
      apply List.eq_nil_iff_forall_not_mem.mpr
      intro r member
      have := List.length_pos_of_mem ((state.waiting r).mp member).1
      omega
    subst none_waits
    exact state.ended
  | succ steps ih =>
    cases unheld with
    | nil => exact state.ended
    | cons ref rest =>
      have member := ((state.waiting ref).mp List.mem_cons_self).1
      have shorter := List.length_erase_of_mem member
      have := List.length_pos_of_mem member
      exact ih state.taken (by omega)

/-- What is not reclaimed is what is known and not gone. -/
theorem reclaimed_eq_false_iff : (reclaimed next holds roots)[r]? = some false ↔
    r < next ∧ ¬ Gone next holds roots r :=
  sweep_eq_false_iff swept_start (by simp)

/-- What is alive is a root, is held, or is known and not gone. -/
theorem isAliveWith_iff (o : Objects) (inHand : Ref) (held : List Ref) :
    o.isAliveWith roots inHand held r = true ↔ r ∈ roots ∨ r ∈ held ∨
      r < o.next ∧ ¬ Gone o.next (fun h => if h = inHand then held else o.holds h)
        (inHand :: roots) r := by
  simp only [isAliveWith, Bool.or_eq_true, List.contains_iff_mem, beq_iff_eq,
    reclaimed_eq_false_iff, or_assoc]

/-- What is not alive while something is held is gone also while something else is held instead, as
long as that much is alive anyway. -/
theorem gone_of_settled {o : Objects} {inHand : Ref} {held more : List Ref}
    (settled : ∀ m ∈ more, o.isAliveWith roots inHand held m = true)
    (lost : Gone o.next (fun h => if h = inHand then held else o.holds h) (inHand :: roots) r)
    (dead : o.isAliveWith roots inHand held r ≠ true) :
    Gone o.next (fun h => if h = inHand then more else o.holds h) (inHand :: roots) r := by
  by_cases inside : inHand < o.next
  · induction lost with
    | @of_holders r known free holders ih =>
      refine .of_holders known free fun h knownHolder holding => ?_
      by_cases same : h = inHand
      · rw [if_pos same] at holding
        exact absurd (settled r holding) dead
      · rw [if_neg same] at holding
        have gone := holders h knownHolder (by rwa [if_neg same])
        apply ih h knownHolder (by rwa [if_neg same])
        intro alive
        obtain ⟨_, unrooted, others⟩ := gone
        rcases isAliveWith_iff o inHand held |>.mp alive with root | own | ⟨_, kept⟩
        · exact unrooted (List.mem_cons_of_mem inHand root)
        · obtain ⟨_, free, _⟩ := others inHand inside (by rwa [if_pos rfl])
          exact free List.mem_cons_self
        · exact kept (.of_holders knownHolder unrooted others)
  · -- an object that is not known holds nothing
    refine lost.mono (fun h knownHolder r holding => ?_) fun r root => root
    have other : h ≠ inHand := fun same => inside (same ▸ knownHolder)
    rw [if_neg other] at holding ⊢
    exact holding

end Objects

variable {ε : Type}

/-- The running program judges lawfully what is alive: what is held is, and what was reclaimed does
not come back when something is held that is alive anyway. -/
theorem World.liveWith_lawful (w : World ε) (inHand : Ref) : (w.liveWith inHand).Lawful where
  holds member := (w.objects.isAliveWith_iff inHand _).mpr (.inr (.inl member))
  settled := by
    intro held more r settled alive
    apply Classical.byContradiction
    intro dead
    rcases (w.objects.isAliveWith_iff inHand more).mp alive with root | own | ⟨known, kept⟩
    · exact dead ((w.objects.isAliveWith_iff inHand held).mpr (.inl root))
    · exact dead (settled r own)
    · refine kept (Objects.gone_of_settled settled ?_ dead)
      apply Classical.byContradiction
      intro alive
      exact dead ((w.objects.isAliveWith_iff inHand held).mpr (.inr (.inr ⟨known, alive⟩)))

/-- What survives once a table was written was alive while the table was in hand. -/
theorem World.liveWith_of_survivor (w : World ε) (inHand : Ref) (t : Table) {r : Ref}
    (survives : (w.setTable inHand t).survivors.contains r = true) :
    w.liveWith inHand t.refs r = true := by
  have holds_eq : (w.objects.setTable inHand t).holds =
      fun h => if h = inHand then t.refs else w.objects.holds h := by
    funext h
    by_cases same : h = inHand
    · subst same
      simp [Objects.holds, Objects.setTable]
    · have other : inHand ≠ h := fun equal => same equal.symm
      simp [Objects.holds, Objects.setTable, Objects.metatable?, Std.HashMap.getElem?_insert, other,
        same]
  have judged : (w.roots.contains r || (Objects.reclaimed w.objects.next
      (w.objects.setTable inHand t).holds w.roots)[r]? == some false) = true := survives
  refine (w.objects.isAliveWith_iff inHand t.refs).mpr ?_
  rcases Bool.or_eq_true_iff.mp judged with root | kept
  · exact .inl (List.contains_iff_mem.mp root)
  · rw [beq_iff_eq, Objects.reclaimed_eq_false_iff, holds_eq] at kept
    obtain ⟨known, alive⟩ := kept
    refine .inr (.inr ⟨known, fun lost => alive ?_⟩)
    exact lost.mono (fun _ _ _ holding => holding) fun r root => List.mem_cons_of_mem inHand root

/-- Whatever change the running program makes to a table, the table stays one that operations can
leave behind. -/
theorem World.reachable_modifyTable [Hashing] (w : World ε) (ref : Ref) (c : Change)
    (reachable : (w.table ref).Reachable)
    (bounded : ((w.modifyTable ref fun live t => c.perform live t).table ref).Bounded) :
    ((w.modifyTable ref fun live t => c.perform live t).table ref).Reachable := by
  have written : (w.modifyTable ref fun live t => c.perform live t).table ref =
      c.perform ((w.setTable ref .empty).liveWith ref) (w.table ref) :=
    Objects.table_setTable_same ..
  rw [written] at bounded ⊢
  exact reachable.changed ((w.setTable ref .empty).liveWith_lawful ref) bounded

end HybridTable
