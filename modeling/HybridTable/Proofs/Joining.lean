import HybridTable.Proofs.Unpacking

/-! Joining the texts of a range of keys. Going from key to key, the loop either has appended the
text of every key it has passed, each but the last with the separator behind it, or stops at the
first key whose value has no text. A separator is appended only where another key is still to come,
so there is none at the end, and the key after the greatest one is never asked for. -/
namespace HybridTable

namespace Value

/-- A text is what a value adds when it is joined: a string its characters, an integer its decimal
digits, a float its printed form. -/
inductive Shows : Value → String → Prop
  | text (s : Text) : Shows (text s) s.content
  | int (i : Int64) : Shows (int i) (toString i.toInt)
  | float (x : Binary64) : Shows (float x) x.print

/-- Strings and numbers can be joined. -/
def IsJoinable (v : Value) : Prop := v.kind = .string ∨ v.kind = .number

theorem shows_of_concatText? {v : Value} {s : String} (found : v.concatText? = some s) :
    v.Shows s := by
  cases v with
  | text | int | float => cases found; constructor
  | _ => cases found

theorem Shows.isJoinable {v : Value} {s : String} (shows : v.Shows s) : v.IsJoinable := by
  cases shows with
  | text => exact .inl rfl
  | int | float => exact .inr rfl

/-- A value adds one text. -/
theorem Shows.unique {v : Value} {s s' : String} (shows : v.Shows s) (again : v.Shows s') :
    s = s' := by
  cases shows <;> cases again <;> rfl

/-- Nothing else can be joined. -/
theorem not_isJoinable_of_concatText? {v : Value} (none : v.concatText? = none) :
    ¬ v.IsJoinable := by
  rintro (string | number) <;> cases v <;> contradiction

end Value

/-- Joined texts are as long as the texts without separators, and one separator fewer than texts. -/
theorem length_intercalate (separator text : String) (texts : List String) :
    (separator.intercalate (text :: texts)).length =
      (String.join (text :: texts)).length + texts.length * separator.length := by
  induction texts generalizing text with
  | nil => simp
  | cons next rest ih =>
    rw [String.intercalate_cons_cons, String.length_append, String.length_append, ih,
      show String.join (text :: next :: rest) = text ++ String.join (next :: rest) from
        String.join_cons, String.length_append, List.length_cons, Nat.succ_mul]
    omega

variable {ε : Type} [Hashing]

namespace World

variable {w : World ε} {ref : Ref} {first last key : Int64} {text : String} {texts : List String}

/-- The value of an integer key, which is `nil` where nothing is stored. -/
def element (w : World ε) (ref : Ref) (key : Int64) : Value := (w.rawGet ref (.int key)).getD .nil

/-- Texts are those of a range of keys: one for each key, in the order of the keys. -/
structure Shown (w : World ε) (ref : Ref) (first last : Int64) (texts : List String) : Prop where
  /-- There are as many texts as keys. -/
  length : (texts.length : Int) = last.toInt - first.toInt + 1
  /-- Every key has its text in its place. -/
  each : ∀ key, first ≤ key → key ≤ last →
    ∃ text, texts[(key.toInt - first.toInt).toNat]? = some text ∧ (w.element ref key).Shows text

/-- A key is the first of a range of keys whose value cannot be joined. -/
structure Obstructs (w : World ε) (ref : Ref) (first last key : Int64) : Prop where
  /-- The key is not before the range. -/
  fromFirst : first ≤ key
  /-- The key is not behind the range. -/
  toLast : key ≤ last
  /-- The value of the key is neither string nor number. -/
  unjoinable : ¬ (w.element ref key).IsJoinable
  /-- Up to it every key has a string or a number. -/
  before : ∀ k, first ≤ k → k < key → (w.element ref k).IsJoinable

theorem Shown.single (shows : (w.element ref key).Shows text) : w.Shown ref key key [text] where
  length := by
    rw [List.length_singleton]
    omega
  each k after before := by
    cases Int64.le_antisymm before after
    exact ⟨text, by rw [Int.sub_self]; rfl, shows⟩

/-- The text of one more key goes in front. -/
theorem Shown.cons (below : key ≠ Int64.maxValue) (shows : (w.element ref key).Shows text)
    (others : w.Shown ref (key + 1) last texts) : w.Shown ref key last (text :: texts) where
  length := by
    have counted := others.length
    rw [toInt_add_one below] at counted
    rw [List.length_cons]
    omega
  each k after before := by
    rcases Int64.lt_or_eq_of_le after with later | rfl
    · have order := Int64.lt_iff_toInt_lt.mp later
      obtain ⟨shown, found, spelled⟩ := others.each k ((add_one_le_iff_lt below).mpr later) before
      refine ⟨shown, ?_, spelled⟩
      rw [toInt_add_one below] at found
      rw [show (k.toInt - key.toInt).toNat = (k.toInt - (key.toInt + 1)).toNat + 1 by omega,
        List.getElem?_cons_succ, found]
    · exact ⟨text, by rw [Int.sub_self]; rfl, shows⟩

theorem Shown.isJoinable (shown : w.Shown ref first last texts) (key : Int64)
    (after : first ≤ key) (before : key ≤ last) : (w.element ref key).IsJoinable := by
  obtain ⟨text, -, shows⟩ := shown.each key after before
  exact shows.isJoinable

/-- A range of keys has its texts in one way. -/
theorem Shown.unique {others : List String} (shown : w.Shown ref first last texts)
    (again : w.Shown ref first last others) : texts = others := by
  have counted := shown.length
  have counted' := again.length
  refine List.ext_getElem (by omega) fun i inside inside' => ?_
  have low := first.le_toInt
  have high := last.toInt_lt
  have number : (Int64.ofInt (first.toInt + i)).toInt = first.toInt + i :=
    Int64.toInt_ofInt_of_le (by omega) (by omega)
  have after : first ≤ Int64.ofInt (first.toInt + i) := by
    rw [Int64.le_iff_toInt_le, number]
    omega
  have before : Int64.ofInt (first.toInt + i) ≤ last := by
    rw [Int64.le_iff_toInt_le, number]
    omega
  obtain ⟨text, found, shows⟩ := shown.each _ after before
  obtain ⟨other, found', shows'⟩ := again.each _ after before
  rw [number, show (first.toInt + i - first.toInt).toNat = i by omega] at found found'
  obtain ⟨_, rfl⟩ := List.getElem?_eq_some_iff.mp found
  obtain ⟨_, rfl⟩ := List.getElem?_eq_some_iff.mp found'
  exact shows.unique shows'

/-- A range of keys is obstructed by one key. -/
theorem Obstructs.unique {k : Int64} (obstructs : w.Obstructs ref first last key)
    (again : w.Obstructs ref first last k) : key = k := by
  refine Int64.le_antisymm (Int64.not_lt.mp fun behind => ?_) (Int64.not_lt.mp fun behind => ?_)
  · exact again.unjoinable (obstructs.before k again.fromFirst behind)
  · exact obstructs.unjoinable (again.before key obstructs.fromFirst behind)

/-- A key with a text in front does not move what obstructs a range. -/
theorem Obstructs.cons (below : key ≠ Int64.maxValue) (shows : (w.element ref key).Shows text)
    {k : Int64} (obstructs : w.Obstructs ref (key + 1) last k) : w.Obstructs ref key last k where
  fromFirst := Int64.le_of_lt ((add_one_le_iff_lt below).mp obstructs.fromFirst)
  toLast := obstructs.toLast
  unjoinable := obstructs.unjoinable
  before j after before := by
    rcases Int64.lt_or_eq_of_le after with later | rfl
    · exact obstructs.before j ((add_one_le_iff_lt below).mpr later) before
    · exact shows.isJoinable

end World

namespace Action

variable (calls : Calls ε) {w : World ε} {ref : Ref}

/-- What the loop does at one key. -/
theorem run_concatFrom_step (bare : (w.table ref).metatable = none) (separator : String)
    (last key : Int64) (before : String) :
    (concatFrom calls ref separator last key before).run w =
      match (w.element ref key).concatText? with
      | none => (.error (.invalidConcatValue key (w.element ref key).kind), w)
      | some text =>
        if key < last then
          (concatFrom calls ref separator last (key + 1) (before ++ text ++ separator)).run w
        else (.ok (before ++ text), w) := by
  rw [concatFrom, run_bind, run_index_bare calls bare]
  show (match (w.element ref key).concatText? with
    | none => _
    | some text => _ : Action ε String).run w = _
  cases (w.element ref key).concatText? with
  | none => rfl
  | some text =>
    dsimp only
    split
    · rename_i more
      rw [dif_neg (ne_greatest_of_lt more)]
    · rfl

/-- From a key on, the loop appends the texts of all keys or fails at the first without one. -/
theorem run_concatFrom (bare : (w.table ref).metatable = none) (separator : String)
    {last key : Int64} (inside : key ≤ last) (before : String) :
    (∃ texts, w.Shown ref key last texts ∧
      (concatFrom calls ref separator last key before).run w =
        (.ok (before ++ separator.intercalate texts), w)) ∨
    ∃ k, w.Obstructs ref key last k ∧ (concatFrom calls ref separator last key before).run w =
      (.error (.invalidConcatValue k (w.element ref k).kind), w) := by
  rw [run_concatFrom_step calls bare]
  cases found : (w.element ref key).concatText? with
  | none => exact .inr ⟨key, ⟨Int64.le_refl key, inside,
      Value.not_isJoinable_of_concatText? found, fun k after before =>
        absurd after (Int64.not_le.mpr before)⟩, rfl⟩
  | some text =>
    have shows := Value.shows_of_concatText? found
    dsimp only
    by_cases more : key < last
    · have below := ne_greatest_of_lt more
      rw [if_pos more]
      rcases run_concatFrom bare separator ((add_one_le_iff_lt below).mpr more)
        (before ++ text ++ separator) with ⟨texts, shown, ran⟩ | ⟨k, obstructs, ran⟩
      · refine .inl ⟨text :: texts, shown.cons below shows, ?_⟩
        have rest : texts ≠ [] := by
          have counted := shown.length
          have order := Int64.lt_iff_toInt_lt.mp more
          rw [toInt_add_one below] at counted
          rintro rfl
          rw [List.length_nil] at counted
          omega
        rw [ran, String.intercalate_cons_of_ne_nil rest]
        simp only [String.append_assoc]
      · exact .inr ⟨k, obstructs.cons below shows, ran⟩
    · obtain rfl : key = last := Int64.le_antisymm inside (Int64.not_lt.mp more)
      exact .inl ⟨[text], .single shows, by rw [if_neg more, String.intercalate_singleton]⟩
termination_by keysLeft key
decreasing_by exact keysLeft_add_one below

/-- Joining a range of keys of a table without handlers gives the texts of their values in the order
of the keys, with a separator between two keys and nowhere else, and nothing for a range without
keys. If a key of the range has neither a string nor a number, it fails at the first such key, which
the failure names with the type found there. The table is left as it is, whatever it contains, and
no step on the way meets a fault, also where the range ends with the greatest key. -/
theorem concat_joins_range (bare : (w.table ref).metatable = none) (separator : String)
    (first last : Int64) :
    let joined := (concat calls ref separator first last).run w
    (last < first → joined = (.ok "", w)) ∧
    (first ≤ last →
      (∀ key, first ≤ key → key ≤ last → (w.element ref key).IsJoinable) →
        ∃ texts, w.Shown ref first last texts ∧
          joined = (.ok (separator.intercalate texts), w) ∧
          ((separator.intercalate texts).length : Int) =
            (String.join texts).length + (last.toInt - first.toInt) * separator.length) ∧
    ((∃ key, first ≤ key ∧ key ≤ last ∧ ¬ (w.element ref key).IsJoinable) →
      ∃ key, w.Obstructs ref first last key ∧
        joined = (.error (.invalidConcatValue key (w.element ref key).kind), w)) ∧
    (w.Orderly → World.KeepOrder calls →
      CheckedAction.concat calls ref separator first last w = .ok joined) := by
  intro joined
  have nonempty (order : first ≤ last) :
      joined = (concatFrom calls ref separator last first "").run w := by
    show (concat calls ref separator first last).run w = _
    rw [concat, if_pos order]
  refine ⟨fun empty => ?_, fun order joinable => ?_, fun ⟨key, after, before, unjoinable⟩ => ?_,
    fun orderly keep =>
      (CheckedAction.follows_concat keep ref separator first last w orderly).1⟩
  · show (concat calls ref separator first last).run w = _
    rw [concat, if_neg (Int64.not_le.mpr empty)]
    rfl
  · rw [nonempty order]
    rcases run_concatFrom calls bare separator order "" with
      ⟨texts, shown, ran⟩ | ⟨key, obstructs, -⟩
    · refine ⟨texts, shown, by rw [ran, String.empty_append], ?_⟩
      have counted := shown.length
      have range := Int64.le_iff_toInt_le.mp order
      cases texts with
      | nil =>
        rw [List.length_nil] at counted
        omega
      | cons text others =>
        rw [List.length_cons] at counted
        rw [length_intercalate, show last.toInt - first.toInt = others.length by omega]
        push_cast
        rfl
    · exact absurd (joinable key obstructs.fromFirst obstructs.toLast) obstructs.unjoinable
  · have order := Int64.le_trans after before
    rw [nonempty order]
    rcases run_concatFrom calls bare separator order "" with
      ⟨texts, shown, -⟩ | ⟨least, obstructs, ran⟩
    · exact absurd (shown.isJoinable key after before) unjoinable
    · exact ⟨least, obstructs, ran⟩

omit [Hashing] in
/-- A string, an integer and a float are joined, a range without keys has no text, and the boolean
behind them is where a longer range fails. A range may be the greatest key alone. -/
theorem concat_of_packed_mixture :
    let values : List Value :=
      [.text (.short "a"), .int 1, .float ⟨0x4004000000000000⟩, .bool true, .nil]
    let calls : Calls Unit := fun _ _ => pure []
    let t := @Table.ofArguments .uniform values
    let w : World Unit := (World.initial ()).setTable 0 t
    let joined (first last : Int64) := (@concat Unit .uniform calls 0 ", " first last).run w
    (w.table 0).metatable = none ∧ joined 1 3 = (.ok "a, 1, 2.5", w) ∧
      joined 3 1 = (.ok "", w) ∧ joined 1 5 = (.error (.invalidConcatValue 4 .boolean), w) ∧
      joined Int64.maxValue Int64.maxValue =
        (.error (.invalidConcatValue Int64.maxValue .nil), w) ∧
      @CheckedAction.concat Unit .uniform calls 0 ", " Int64.maxValue Int64.maxValue w =
        .ok (joined Int64.maxValue Int64.maxValue) := by
  intro values calls t w joined
  let hashing : Hashing := .uniform
  have own : w.table 0 = t := World.table_setTable ..
  have inside : (Origin.arguments values).Bounded := by decide
  have reachable : t.Reachable := .made inside rfl
  have orderly : w.Orderly := (World.orderly_initial ()).setTable reachable 0
  have bare : (w.table 0).metatable = none := own ▸ Table.metatable_ofArguments values
  have read (key : Int64) : w.element 0 key = ((Value.int key).toKey?.bind fun k =>
      if k = .text "n" then some (.int 5) else valueAt? values k).getD .nil := by
    unfold World.element World.rawGet
    rw [own, @Table.get_ofArguments _ values (by decide)]
    rfl
  have fourth : w.element 0 4 = .bool true := read 4
  have greatest : w.element 0 Int64.maxValue = .nil :=
    (read Int64.maxValue).trans (by decide +kernel)
  have shown : w.Shown 0 1 3 ["a", "1", "2.5"] := by
    have third : (w.element 0 3).Shows "2.5" :=
      read 3 ▸ (show Binary64.print ⟨0x4004000000000000⟩ = "2.5" by decide +kernel) ▸ .float _
    exact ((World.Shown.single third).cons (by decide) (read 2 ▸ .int 1)).cons (by decide)
      (read 1 ▸ .text (.short "a"))
  have obstructs : w.Obstructs 0 1 5 4 := by
    refine ⟨by decide, by decide, ?_, fun key after before => ?_⟩
    · exact fourth ▸ Value.not_isJoinable_of_concatText? rfl
    · refine shown.isJoinable key after ?_
      rw [Int64.lt_iff_toInt_lt, show (4 : Int64).toInt = 4 from rfl] at before
      rw [Int64.le_iff_toInt_le, show (3 : Int64).toInt = 3 from rfl]
      omega
  have obstructs' : w.Obstructs 0 Int64.maxValue Int64.maxValue Int64.maxValue := by
    refine ⟨by decide, by decide, ?_, fun key after before => ?_⟩
    · exact greatest ▸ Value.not_isJoinable_of_concatText? rfl
    · exact absurd after (Int64.not_le.mpr before)
  have joins := concat_joins_range calls bare ", "
  obtain ⟨texts, found, some_text, -⟩ := (joins 1 3).2.1 (by decide) shown.isJoinable
  obtain ⟨key, first, failed⟩ := (joins 1 5).2.2.1
    ⟨4, obstructs.fromFirst, obstructs.toLast, obstructs.unjoinable⟩
  obtain ⟨top, last, failed'⟩ := (joins Int64.maxValue Int64.maxValue).2.2.1
    ⟨_, obstructs'.fromFirst, obstructs'.toLast, obstructs'.unjoinable⟩
  rw [found.unique shown] at some_text
  rw [first.unique obstructs, fourth] at failed
  rw [last.unique obstructs', greatest] at failed'
  exact ⟨bare, some_text, (joins 3 1).1 (by decide), failed, failed',
    (joins Int64.maxValue Int64.maxValue).2.2.2 orderly fun _ _ _ kept => kept⟩

end Action

end HybridTable
