import BacktrackRegex.Proofs.Regex.Leftmost

/-!
# Precompiled matchers

The matcher of a precompiled pattern was written out beforehand. It makes the same moves as the
program of the pattern at every place between characters. Behind the end of the text and inside of a
character it meets faults that the program does not meet, but a search that begins between
characters never comes to such a place. The matcher therefore finds what the program finds.
-/

namespace BacktrackRegex

open Search Text

/-- At a place of the text a node of a program makes the move of its operation. -/
theorem Program.move_of_le {prog : Program} {text : String} {pos : Nat}
    (hle : pos ≤ text.utf8ByteSize) (node : Nat) (t : Trail) :
    prog.move text node pos t = prog.nodes[node]?.elim .reject
      fun node => moveAt text node (text.utf8ByteSize - pos) pos t := by
  rw [move, if_neg (Nat.not_lt.mpr hle)]
  cases prog.nodes[node]? <;> rfl

namespace Precompiled

/-- A precompiled matcher knows what a program knows of its matches, and makes its moves between
characters. -/
structure Follows (m : Precompiled) (prog : Program) : Prop where
  groups : m.groups = prog.groups
  anchored : m.anchored = prog.anchored
  minLength : m.minLength = prog.minLength
  entry : m.entry = prog.root
  size : m.size = prog.size
  reads : ∀ text, ReadsHistory (m.moves text)
  moves : ∀ text pos, isBoundary text pos = true →
    ∀ node t, m.moves text node pos t = prog.move text node pos t

/-- A search with a precompiled matcher shows what a search of the program finds, since all spots on
its way lie between characters. -/
theorem Follows.exec_shows {m : Precompiled} {source : String} {prog : Program}
    (hm : m.Follows prog) (h : Program.ofText source = .ok prog) {text : String} {start : Nat}
    (storage : Array Entry) (hb : isBoundary text start = true) :
    (m.exec text start (.startingAt storage start)).Shows (.of? (prog.finds? text start)) := by
  have hspec := ((Program.finds?_spec h hb).1 storage).1
  obtain ⟨p, hread, hc⟩ := Program.exists_of_ofText h
  obtain ⟨a, rfl, rfl, rfl, r, k, he, hk, -⟩ :=
    Program.exists_attempt hread (Or.inr rfl) hc text hb
  let s : State := ⟨a.program.root, a.origin, .startingAt storage a.origin, []⟩
  have hs : s.spot = ⟨a.program.root, a.origin, [⟨.group 0, a.origin⟩]⟩ := by
    rw [State.spot, Trail.history_startingAt]
  rw [← hs] at he
  have hsame (s : Spot) (hv : a.Visits s) : s.move (m.moves a.text) = s.move a.moves := by
    obtain ⟨node, opened, c, hsound⟩ := hv
    refine hm.moves a.text s.pos ?_ s.node _
    rw [← hsound.pos]
    exact hsound.valid.boundary
  have hprog : (a.program.exec a.text a.origin (.startingAt storage a.origin)).Shows r :=
    he.run_shows (a.program.readsHistory a.text) rfl hk
  rw [← hprog.unique hspec, exec, hm.entry, hm.size]
  exact (he.congr hsame).run_shows (hm.reads a.text) rfl hk

/-! ## Moves between characters -/

section Moves

variable {text : String} {pos : Nat}

/-- Bytes can be counted from a place of the text on. -/
theorem needingFrom_eq (hle : pos ≤ text.utf8ByteSize) (needed : Nat) (move : Move) :
    needingFrom text pos needed move = needing needed (text.utf8ByteSize - pos) move :=
  if_neg (Nat.not_lt.mpr hle)

/-- The text can be cut between characters. -/
theorem readChar_eq (hb : isBoundary text pos = true) (accepts : Char → Bool) (next : Nat) :
    readChar text pos accepts next = consumeChar text pos accepts next :=
  if_pos hb

/-- The text can be cut at each of its places. -/
theorem readGroup_eq (hle : pos ≤ text.utf8ByteSize) (t : Trail) (group next : Nat) :
    readGroup text pos t group next = consumeGroup text pos t group next := by
  unfold readGroup
  split
  · rw [needingFrom_eq hle, needing, if_neg (Nat.not_lt_zero _)]
  · rfl

end Moves

/-- Consuming the text of a group reads its latest span only, wherever the text is cut. -/
theorem readGroup_congr {t t' : Trail} {group : Nat} (h : t.captured group = t'.captured group)
    (text : String) (pos next : Nat) :
    readGroup text pos t group next = readGroup text pos t' group next := by
  unfold readGroup
  rw [h, Program.consumeGroup_congr h]

/-! ## The repeated group -/

/-- The program of `(hoge)\1fuga`. -/
def repeatedHogeProgram : Program :=
  ⟨#[⟨.success, 0⟩, ⟨.literal "fuga" 0, 4⟩, ⟨.backReference 1 1, 4⟩, ⟨.mark 1 2, 4⟩,
    ⟨.literal "hoge" 3, 8⟩, ⟨.mark 1 4, 8⟩], 5, 1, false⟩

/-- The nodes of the matcher read the records of a trail, and not its storage. -/
theorem readsHistory_repeatedHoge (text : String) : ReadsHistory (repeatedHoge text) := by
  intro node pos t
  match node with
  | 2 =>
    refine readGroup_congr ?_ text pos 1
    rw [Trail.captured_eq, Trail.captured_eq, Trail.history_ofHistory]
  | 0 | 1 | 3 | 4 | 5 | _ + 6 => rfl

/-- Between characters the matcher makes the moves of the program. -/
theorem repeatedHoge_eq {text : String} {pos : Nat} (hb : isBoundary text pos = true) (node : Nat)
    (t : Trail) : repeatedHoge text node pos t = repeatedHogeProgram.move text node pos t := by
  have hle := le_of_isBoundary hb
  rw [Program.move_of_le hle]
  match node with
  | 0 | 3 | 5 => rfl
  | 1 | 4 => exact needingFrom_eq hle _ _
  | 2 => exact readGroup_eq hle t 1 1
  | _ + 6 => rfl

/-- The matcher of `(hoge)\1fuga` follows its program. -/
theorem follows_repeatedHoge :
    Follows ⟨"(hoge)\\1fuga", false, 8, 1, 5, 6, repeatedHoge⟩ repeatedHogeProgram where
  groups := rfl
  anchored := rfl
  minLength := rfl
  entry := rfl
  size := rfl
  reads := readsHistory_repeatedHoge
  moves _ _ hb := repeatedHoge_eq hb

/-! ## The letters -/

/-- The class `[a-c]`. -/
def lowerABCClass : CharClass :=
  .ascii ⟨0x0000000e000000000000000000000000#128, false⟩

/-- The class accepts the characters from `a` to `c`. -/
theorem accepts_lowerABCClass : lowerABCClass.accepts = lowerABC := by
  ext c
  have hbits : (0x0000000e000000000000000000000000#128).getLsbD c.toNat =
      (0xe000000000000000000000000 >>> c.toNat % 2 != 0) := by
    rw [BitVec.getLsbD, Nat.testBit, Nat.one_and_eq_mod_two]
    rfl
  rw [lowerABCClass, CharClass.accepts, CharClass.contains, AsciiMask.contains, lowerABC, hbits]
  by_cases hc : c.toNat < 128 <;> simp [hc]

/-- The program of `[a-c]+.`. -/
def lettersAndOneProgram : Program :=
  ⟨#[⟨.success, 0⟩, ⟨.anyChar 0, 1⟩, ⟨.branch 3 1, 1⟩, ⟨.charClass lowerABCClass 2, 2⟩,
    ⟨.charClass lowerABCClass 2, 2⟩], 4, 0, false⟩

/-- The nodes of the matcher do not read a trail. -/
theorem readsHistory_lettersAndOne (text : String) : ReadsHistory (lettersAndOne text) := by
  intro node pos t
  match node with
  | 0 | 1 | 2 | 3 | 4 | _ + 5 => rfl

/-- Between characters the matcher makes the moves of the program. -/
theorem lettersAndOne_eq {text : String} {pos : Nat} (hb : isBoundary text pos = true)
    (node : Nat) (t : Trail) :
    lettersAndOne text node pos t = lettersAndOneProgram.move text node pos t := by
  have hle := le_of_isBoundary hb
  have hclass (next : Nat) : readChar text pos lowerABC next =
      consumeChar text pos lowerABCClass.accepts next := by
    rw [readChar_eq hb, accepts_lowerABCClass]
  rw [Program.move_of_le hle]
  match node with
  | 0 | _ + 5 => rfl
  | 1 => exact (needingFrom_eq hle 1 _).trans (congrArg _ (readChar_eq hb _ 0))
  | 2 => exact needingFrom_eq hle 1 _
  | 3 | 4 => exact (needingFrom_eq hle 2 _).trans (congrArg _ (hclass 2))

/-- The matcher of `[a-c]+.` follows its program. -/
theorem follows_lettersAndOne :
    Follows ⟨"[a-c]+.", false, 2, 0, 4, 5, lettersAndOne⟩ lettersAndOneProgram where
  groups := rfl
  anchored := rfl
  minLength := rfl
  entry := rfl
  size := rfl
  reads := readsHistory_lettersAndOne
  moves _ _ hb := lettersAndOne_eq hb

/-! ## The prefixed text -/

/-- The program of `(^|A)*foo bar`. -/
def prefixedFooBarProgram : Program :=
  ⟨#[⟨.success, 0⟩, ⟨.literal "foo bar" 0, 7⟩, ⟨.loop 1 7 1, 7⟩, ⟨.mark 1 2, 7⟩,
    ⟨.textStart 3, 7⟩, ⟨.literal "A" 3, 8⟩, ⟨.branch 4 5, 7⟩, ⟨.mark 1 6, 7⟩], 2, 1, false⟩

/-- The nodes of the matcher read the records of a trail, and not its storage. -/
theorem readsHistory_prefixedFooBar (text : String) : ReadsHistory (prefixedFooBar text) := by
  intro node pos t
  match node with
  | 2 =>
    refine congrArg (needingFrom text pos 7) (Program.iterateBody_congr ?_ pos 7 1)
    rw [Trail.find?_eq, Trail.find?_eq, Trail.history_ofHistory]
  | 0 | 1 | 3 | 4 | 5 | 6 | 7 | _ + 8 => rfl

/-- Between characters the matcher makes the moves of the program. -/
theorem prefixedFooBar_eq {text : String} {pos : Nat} (hb : isBoundary text pos = true)
    (node : Nat) (t : Trail) :
    prefixedFooBar text node pos t = prefixedFooBarProgram.move text node pos t := by
  have hle := le_of_isBoundary hb
  rw [Program.move_of_le hle]
  match node with
  | 0 | 3 | 4 | 7 | _ + 8 => rfl
  | 1 | 2 | 5 | 6 => exact needingFrom_eq hle _ _

/-- The matcher of `(^|A)*foo bar` follows its program. -/
theorem follows_prefixedFooBar :
    Follows ⟨"(^|A)*foo bar", false, 7, 1, 2, 8, prefixedFooBar⟩ prefixedFooBarProgram where
  groups := rfl
  anchored := rfl
  minLength := rfl
  entry := rfl
  size := rfl
  reads := readsHistory_prefixedFooBar
  moves _ _ hb := prefixedFooBar_eq hb

/-! ## The registry -/

/-- Every precompiled matcher follows the program of its pattern. -/
theorem exists_follows {m : Precompiled} (hm : m ∈ registry) :
    ∃ prog, Program.ofText m.pattern = .ok prog ∧ m.Follows prog := by
  rw [registry, List.mem_cons, List.mem_cons, List.mem_singleton] at hm
  rcases hm with rfl | rfl | rfl
  · exact ⟨_, Program.ofText_eq_ok_iff.mpr (by decide +kernel), follows_repeatedHoge⟩
  · exact ⟨_, Program.ofText_eq_ok_iff.mpr (by decide +kernel), follows_lettersAndOne⟩
  · exact ⟨_, Program.ofText_eq_ok_iff.mpr (by decide +kernel), follows_prefixedFooBar⟩

/-- The matcher that is looked up for a pattern follows the program of the pattern. -/
theorem exists_follows_of_lookup {source : String} {m : Precompiled}
    (h : lookup source = some m) :
    ∃ prog, Program.ofText source = .ok prog ∧ m.Follows prog := by
  have hpattern : m.pattern = source := by simpa using List.find?_some h
  rw [← hpattern]
  exact exists_follows (List.mem_of_find?_eq_some h)

end Precompiled

end BacktrackRegex
