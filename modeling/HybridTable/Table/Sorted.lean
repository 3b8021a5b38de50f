import HybridTable.Sort.Heap
import HybridTable.Table.Write

/-!
Sorting the leading values of a table in place.
-/

namespace HybridTable.Table

variable {σ ε : Type}

/-- Sorts the leading values of the array region. The table changes only if every comparison
succeeded, and then only in these positions. -/
def sortBy (less : Sort.Comparison Value σ ε) (alive : Ref → Bool) (t : Table) (s : σ) :
    Except ε Table × σ :=
  let values := t.sequence alive
  if values.length < 2 then (.ok t, s)
  else match Sort.heapSort less values.toArray.toVector s with
    | ⟨.ok (), sorted, s⟩ => (.ok (t.storeSequence sorted.toList), s)
    | ⟨.error e, _, s⟩ => (.error e, s)

end HybridTable.Table
