import HybridTable.Proofs.Writes

/-! Which keys the array region must not reach. An integer key beyond the range of array keys gets
an entry when it is new, also after a rehash, so it is lost if that rehash gives it a position. The
sizes that are meant to be cannot do that. Here it is told from the table alone whether it happened:
whether some entry is for a key that has a position. -/
namespace HybridTable.Table

variable [Hashing] {t t' : Table} {live : Liveness} {value : Value} {i : Int64}

/-- Having no position for the key of an entry. At issue are keys beyond the range of array keys. -/
def Parted (t : Table) : Prop :=
  ∀ bucket e i, .live e ∈ t.chain bucket → e.key = .int i → t.LeavesOut i

omit [Hashing] in
theorem Bounded.parted (bounded : t.Bounded) : t.Parted :=
  fun _ _ i _ _ => bounded.leavesOut i

theorem Sound.parted (sound : t.Sound) : t.Parted :=
  fun bucket e i member integer _ => (sound.slots bucket (.live e) member).outside i integer

theorem exists_entry_append (some_bucket : 0 < t.buckets.size) (key value : Value) :
    ∃ bucket e, .live e ∈ (t.append key value).chain bucket ∧ e.key = key := by
  refine ⟨t.bucketOf key, .make t.policy key value, ?_, Entry.key_make ..⟩
  rw [append_eq, opened_of_buckets some_bucket, chain_rechain (t.bucketOf_lt key some_bucket),
    if_pos rfl]
  exact List.mem_append_right _ (List.mem_singleton_self _)

/-- Under a key beyond the range of array keys that has no position, a write leaves the array region
alone or else makes a rehash for a new entry. -/
theorem setHashed_beyond (sound : t.Sound) (fair : live.Fair t.policy)
    (beyond : maxArrayKey < i.toInt) (outside : t.position? i = none) (value : Value) :
    (t.setHashed live (.int i) value).array.size = t.array.size ∨
      ∃ before, Migrated (live.holding value.refs) t t.metatable t.policy before ∧
        before.array.size = t.array.size ∧ (∀ v, ¬ before.Stores (.int i) v) ∧
        before.buckets.size ≤ before.count ∧
        t.setHashed live (.int i) value =
          (before.rehash (live.holding value.refs) .hashKey).append (.int i) value := by
  have holds := fair.holds ((Value.int i).refs ++ value.refs)
  have fair := fair.holding ((Value.int i).refs ++ value.refs)
  have apart (j : Int64) (same : Value.int i = .int j) : t.position? j = none :=
    Value.int.inj same ▸ outside
  unfold setHashed
  dsimp only
  by_cases removed : value.isNil = true
  · left
    rw [if_pos removed, removeHashed]
    dsimp only
    split <;> rfl
  rw [if_neg removed]
  cases found : (t.chain (t.bucketOf (.int i))).amend?
      (fun r => live.holding ((Value.int i).refs ++ value.refs) t.refs r) (.int i)
      (fun e => .live (e.replace t.policy value)) with
  | some chain => exact .inl rfl
  | none =>
    have missing := not_stores_of_amend? sound holds rfl rfl apart found
    obtain ⟨moved, array, -, -⟩ := migrated_pruneChain sound fair (t.bucketOf (.int i))
    have size := congrArg Array.size array
    dsimp only
    unfold addHashed
    split
    · exact .inl ((size_array_append ..).trans size)
    · rename_i full
      right
      refine ⟨_, moved, size, fun v stored => missing v (moved.keeps.stale _ v trivial stored),
        Nat.le_of_not_lt full, ?_⟩
      dsimp only
      rw [if_neg fun range => absurd range.2 (Int.not_le.mpr beyond)]
      rfl

/-- A rehash for a new entry leaves room for it. -/
theorem some_bucket_of_rehash (sound : t.Sound) (fair : live.Fair t.policy) :
    0 < (t.rehash live .hashKey).buckets.size := by
  obtain ⟨-, -, room⟩ := migrated_rehash sound fair t.metatable .hashKey (.inr rfl)
  exact Nat.lt_of_lt_of_le (Nat.succ_pos _) room

/-- If no entry is for a key with a position after a write, that of the key that was written is
not. -/
theorem Parted.leavesOut_setHashed (sound : t.Sound) (fair : live.Fair t.policy)
    (outside : t.position? i = none) (parted : (t.setHashed live (.int i) value).Parted) :
    (t.setHashed live (.int i) value).LeavesOut i := by
  intro beyond
  rcases setHashed_beyond sound fair beyond outside value with same | again
  · unfold position?
    rw [same]
    exact outside
  · obtain ⟨before, moved, -, -, -, made⟩ := again
    have some_bucket : 0 < (before.rehash (live.holding value.refs) .hashKey).buckets.size :=
      some_bucket_of_rehash moved.sound (moved.ruled.symm ▸ fair.holding _)
    obtain ⟨bucket, e, member, own⟩ := exists_entry_append some_bucket (.int i) value
    rw [← made] at member
    exact parted bucket e i member own beyond

theorem written_setInt_of_parted (sound : t.Sound) (fair : live.Fair t.policy)
    (parted : (t.setInt live i value).Parted) :
    Written (live.holding value.refs) t (.int i) value (t.setInt live i value) := by
  refine written_setInt_of_leavesOut sound fair fun outside => ?_
  unfold setInt at parted ⊢
  rw [outside] at parted ⊢
  exact Parted.leavesOut_setHashed sound fair outside parted

theorem written_put_of_parted {key : Value} {k : Key} (sound : t.Sound)
    (fair : live.Fair t.policy) (named : key.toKey? = some k)
    (parted : (t.put live key value).Parted) :
    Written (live.holding (key.refs ++ value.refs)) t k value (t.put live key value) := by
  refine written_put_of_leavesOut sound fair named fun i integer outside => ?_
  have made : t.put live key value = t.setHashed live (.int i) value := by
    simp only [put, integer, setInt, outside]
  rw [made] at parted ⊢
  exact Parted.leavesOut_setHashed sound fair outside parted

end HybridTable.Table
