import HybridTable.Table.Write

/-!
Tables made from lists of values.

A new table holds nothing weakly, so no judgement about what is alive is asked for.
-/

namespace HybridTable.Table

variable [Hashing]

/-- The judgement that nothing was reclaimed. -/
def nothingReclaimed : Liveness := fun _ _ => true

/-- A table with room for so many entries and the given values under the keys from 1 on, `nil` being
skipped. -/
def ofSequence (values : List Value) (entries : Nat) : Table :=
  values.zipIdx.foldl (fun t (value, i) =>
      if value.isNil then t else t.setInt nothingReclaimed (Int64.ofNat (i + 1)) value)
    (withCapacity values.length entries)

/-- A table with positional values under the keys from 1 on, over which the named pairs are stored.
Pairs whose value is `nil` are skipped, whatever their key. -/
def ofParts (named : List (Value × Value)) (positional : List Value) : Except Error Table :=
  let stored := named.filter fun (_, value) => !value.isNil
  stored.foldlM (fun t (key, value) => t.set nothingReclaimed key value)
    (ofSequence positional stored.length)

/-- A table with the given values under the keys from 1 on and their number under the key `n`. -/
def ofArguments (values : List Value) : Table :=
  (ofSequence values 1).setHashed nothingReclaimed (.text (.short "n"))
    (.int (Int64.ofNat values.length))

end HybridTable.Table
