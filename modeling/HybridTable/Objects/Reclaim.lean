import HybridTable.Objects.Basic

/-!
Which objects have been reclaimed.

An object is reclaimed the moment that its last strong holder goes, and what it held goes with it.
Objects that hold each other in a cycle are never reclaimed. So the reclaimed objects are the least
set that contains each object all of whose holders are in the set, a root being a holder that never
is. Nothing has to be remembered for this: what holds what at a moment decides it.
-/

namespace HybridTable.Objects

/-- Adds one to the number of holders of each identity of a list. -/
def addHolders (holders : Array Nat) (refs : List Ref) : Array Nat :=
  refs.foldl (fun holders ref => holders.modify ref (· + 1)) holders

/-- The number of holders of each identity below `next`. -/
def holderCounts (next : Ref) (holds : Ref → List Ref) (roots : List Ref) : Array Nat :=
  (List.range next).foldl (fun holders ref => addHolders holders (holds ref))
    (addHolders (Array.replicate next 0) roots)

/-- Takes a holder away from each identity of a list, and adds to `unheld` those that lose their
last one. -/
def dropHolders (refs : List Ref) (holders : Array Nat) (unheld : List Ref) :
    Array Nat × List Ref :=
  refs.foldl (fun (holders, unheld) ref =>
      (holders.modify ref (· - 1), if holders[ref]? = some 1 then ref :: unheld else unheld))
    (holders, unheld)

/-- Marks the identities that nothing holds, and those that go with them. Each is met once, so as
many steps as there are identities are enough. -/
def sweep (holds : Ref → List Ref) :
    (steps : Nat) → (unheld : List Ref) → (holders : Array Nat) → (gone : Array Bool) → Array Bool
  | 0, _, _, gone => gone
  | _ + 1, [], _, gone => gone
  | steps + 1, ref :: rest, holders, gone =>
    let (holders, unheld) := dropHolders (holds ref) holders rest
    sweep holds steps unheld holders (gone.setIfInBounds ref true)

/-- For each identity below `next` whether it has been reclaimed. -/
def reclaimed (next : Ref) (holds : Ref → List Ref) (roots : List Ref) : Array Bool :=
  let holders := holderCounts next holds roots
  let unheld := (List.range next).filter fun ref => holders[ref]? = some 0
  sweep holds next unheld holders (Array.replicate next false)

/-- A judgement about what is alive. It is asked about many identities, so what it takes to answer
waits for the first question that needs it and is kept for the others. -/
structure Survivors where
  /-- What is held from outside; this much needs no search. -/
  roots : Thunk (List Ref)
  /-- For each identity whether it has been reclaimed. -/
  gone : Thunk (Array Bool)

/-- Whether an identity is alive. -/
def Survivors.contains (s : Survivors) (ref : Ref) : Bool :=
  s.roots.get.contains ref || s.gone.get[ref]? == some false

/-- What is alive when the roots are held from outside. -/
def survivors (o : Objects) (roots : Thunk (List Ref)) : Survivors :=
  ⟨roots, Thunk.mk fun _ => reclaimed o.next o.holds roots.get⟩

/-- Whether an identity is alive while a table is in hand that holds `held`. -/
def isAliveWith (o : Objects) (roots : List Ref) (inHand : Ref) (held : List Ref) (ref : Ref) :
    Bool :=
  roots.contains ref || held.contains ref ||
    (reclaimed o.next (fun r => if r = inHand then held else o.holds r)
      (inHand :: roots))[ref]? == some false

end HybridTable.Objects
