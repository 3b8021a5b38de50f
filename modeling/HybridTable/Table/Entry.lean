import HybridTable.Table.Cell

/-!
Pairs in the hash region: entries, the tombstones they leave when they are removed, and the chains
of both that share a bucket.

A removed entry stays in its chain as a tombstone, so that a traversal can still go on from its key.
Tombstones, and entries that lost a half, leave a chain when a new key is about to join it.
-/

namespace HybridTable

/-- Which referents are alive, given what the table in hand and the running operation hold. -/
abbrev Liveness := List Ref → Ref → Bool

/-- The same judgement for a holder that holds something more. -/
def Liveness.holding (live : Liveness) (refs : List Ref) : Liveness :=
  fun held => live (refs ++ held)

/-- A pair in the hash region. -/
inductive Entry where
  /-- A pair of which nothing is weak. -/
  | plain (key value : Value)
  /-- A pair whose halves are cells; either half may be lost. -/
  | guarded (key value : Cell)
  deriving DecidableEq

namespace Entry

/-- The entry for a pair under a policy. It is guarded only if a half is in fact weak. -/
def make (policy : WeakPolicy) (key value : Value) : Entry :=
  match policy.keyCell key, policy.valueCell value with
  | .strong key, .strong value => plain key value
  | key, value => guarded key value

/-- The key, unless it was reclaimed. -/
def key? (alive : Ref → Bool) : Entry → Option Value
  | plain key _ => some key
  | guarded key _ => key.read alive

/-- The value, unless it was reclaimed. -/
def value? (alive : Ref → Bool) : Entry → Option Value
  | plain _ value => some value
  | guarded _ value => value.read alive

/-- The pair, unless either half was reclaimed. -/
def pair? (alive : Ref → Bool) (e : Entry) : Option (Value × Value) := do
  return (← e.key? alive, ← e.value? alive)

/-- Whether the key can still be read. -/
def keyIsAlive (alive : Ref → Bool) : Entry → Bool
  | plain .. => true
  | guarded key _ => key.isAlive alive

/-- Whether both halves can still be read. -/
def isAlive (alive : Ref → Bool) : Entry → Bool
  | plain .. => true
  | guarded key value => key.isAlive alive && value.isAlive alive

/-- Whether the entry is for a key. A plain integer key is compared as an integer only, which is
enough for keys in normal form. -/
def hasKey (alive : Ref → Bool) (key : Value) : Entry → Bool
  | plain (.int i) _ => key == .int i
  | plain own _ => own.rawEqual key
  | guarded own _ => own.holdsKey alive key

/-- The hash of the key, which outlives the key itself. -/
def keyHash [Hashing] : Entry → KeyHash
  | plain key _ => key.keyHash
  | guarded key _ => key.content.keyHash

/-- The integer key, if it is one from 1 up to a limit. -/
def arrayKey? (limit : Nat) (e : Entry) : Option Nat :=
  match e with
  | plain (.int i) _ | guarded (.strong (.int i)) _ =>
    if 1 ≤ i.toInt ∧ i.toInt ≤ limit then some i.toInt.toNat else none
  | _ => none

/-- The entry with another value. A guarded entry stays guarded. -/
def replace (policy : WeakPolicy) (value : Value) : Entry → Entry
  | plain key _ => make policy key value
  | guarded key _ => guarded key (policy.valueCell value)

/-- What the entry keeps alive. -/
def refs : Entry → List Ref
  | plain key value => key.refs ++ value.refs
  | guarded key value => key.refs ++ value.refs

end Entry

/-- A member of a chain. -/
inductive Slot where
  /-- A stored pair. -/
  | live (entry : Entry)
  /-- What is left of a removed pair: its key. -/
  | dead (key : Cell)
  deriving DecidableEq

namespace Slot

/-- Whether the slot is or was for a key. -/
def hasKey (alive : Ref → Bool) (key : Value) : Slot → Bool
  | live entry => entry.hasKey alive key
  | dead own => own.holdsKey alive key

/-- The stored pair, if the slot has one and neither half was reclaimed. -/
def pair? (alive : Ref → Bool) : Slot → Option (Value × Value)
  | live entry => entry.pair? alive
  | dead _ => none

/-- The entry, if the slot has one, reclaimed or not. -/
def stored? : Slot → Option Entry
  | live entry => some entry
  | dead _ => none

/-- Whether the slot is a tombstone. -/
def isDead : Slot → Bool
  | live _ => false
  | dead _ => true

/-- Whether the slot has a pair that can still be read. -/
def isAlive (alive : Ref → Bool) : Slot → Bool
  | live entry => entry.isAlive alive
  | dead _ => false

/-- What the slot keeps alive. -/
def refs : Slot → List Ref
  | live entry => entry.refs
  | dead key => key.refs

end Slot

/-- The slots that share a bucket, in the order in which a traversal meets them. -/
abbrev Chain := List Slot

namespace Chain

/-- The value of the first entry for a key, unless it was reclaimed. -/
def lookup (alive : Ref → Bool) (key : Value) : Chain → Option Value
  | [] => none
  | .live entry :: rest =>
    if entry.hasKey alive key then entry.value? alive else lookup alive key rest
  | .dead _ :: rest => lookup alive key rest

/-- The chain with the first slot for a key replaced, if that slot is an entry. -/
def amend? (alive : Ref → Bool) (key : Value) (f : Entry → Slot) : Chain → Option Chain
  | [] => none
  | slot :: rest =>
    if slot.hasKey alive key then
      match slot with
      | .live entry => some (f entry :: rest)
      | .dead _ => none
    else (amend? alive key f rest).map (slot :: ·)

/-- The slots after the first one for a key, entry or tombstone. -/
def after? (alive : Ref → Bool) (key : Value) : Chain → Option Chain
  | [] => none
  | slot :: rest => if slot.hasKey alive key then some rest else after? alive key rest

/-- The chain without tombstones and without entries that lost a half. A slot that goes lets go of
what it held, so each is judged by what is held when its turn comes. -/
def prune (live : Liveness) : Chain → Chain
  | [] => []
  | slot :: rest =>
    if slot.isAlive fun r => live (slot.refs ++ rest.flatMap Slot.refs) r then
      slot :: prune (live.holding slot.refs) rest
    else prune live rest

/-- Pruning only drops slots. -/
theorem prune_sublist (live : Liveness) (chain : Chain) : (prune live chain).Sublist chain := by
  induction chain generalizing live with
  | nil => exact .slnil
  | cons slot rest ih =>
    unfold prune
    split
    · exact .cons_cons slot (ih (live.holding slot.refs))
    · exact .cons slot (ih live)

/-- The number of entries of a chain, reclaimed ones included. -/
def entryCount (chain : Chain) : Nat := chain.countP (!·.isDead)

end Chain

end HybridTable
