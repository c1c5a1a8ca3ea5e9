import BacktrackRegex.Proofs.Matching.Searches
import BacktrackRegex.Proofs.Search.Shift

/-!
# Searches behind other text

A program looks at the text from the current place on, at the spans of its groups and at the end of
the text, all of which lie behind the place where the search began. Only an anchor at the start of
the text tells that place from others. A program without such anchors therefore searches behind
other text as it searches without that text, with every place shifted by the length of what comes
before.
-/

namespace BacktrackRegex

open Search History Text

/-! ## Programs without anchors at the start -/

/-- Whether the operation holds at the start of the text only. -/
def Op.isTextStart : Op → Bool
  | .textStart _ => true
  | _ => false

namespace Pattern

/-- Whether the pattern is no anchor at the start of the text. -/
def isNoStart : Pattern → Bool
  | .textStart => false
  | _ => true

/-- Whether there is no anchor at the start of the text in the pattern. -/
def isStartFree (p : Pattern) : Bool :=
  p.everywhere (fun _ => isNoStart) []

/-- Being no anchor at the start does not depend on what simplification changes. -/
theorem stable_isNoStart : Stable fun _ => isNoStart :=
  ⟨fun _ _ => rfl, fun _ _ => rfl, fun _ _ => Or.inr rfl, fun _ _ _ _ _ => rfl,
    fun _ _ _ _ => rfl⟩

/-- Simplification makes no anchors. -/
theorem isStartFree_simplify {p : Pattern} (h : p.isStartFree = true) :
    p.simplify.isStartFree = true :=
  stable_isNoStart.everywhere_simplify p [] h

/-- Only an anchor at the start is compiled to one. -/
theorem isTextStart_of_leafOp? {p : Pattern} {next width : Nat} {op : Op}
    (h : p.leafOp? next = some (op, width)) (hp : p.isNoStart = true) : op.isTextStart = false := by
  cases p with
  | literal s =>
    rw [leafOp?] at h
    split at h
    · simp at h
    · obtain ⟨rfl, -⟩ := Prod.mk.inj (Option.some.inj h)
      rfl
  | anyChar | charClass _ | backReference _ | textEnd =>
    obtain ⟨rfl, -⟩ := Prod.mk.inj (Option.some.inj h)
    rfl
  | textStart => simp [isNoStart] at hp
  | _ => simp [leafOp?] at h

end Pattern

/-- No node of an interval is an anchor at the start of the text. -/
def NoStarts (nodes : Array Node) (lo hi : Nat) : Prop :=
  ∀ i node, lo ≤ i → i < hi → nodes[i]? = some node → node.op.isTextStart = false

namespace NoStarts

variable {nodes : Array Node} {lo m hi : Nat}

/-- An interval without nodes. -/
theorem nothing (nodes : Array Node) (lo : Nat) : NoStarts nodes lo lo :=
  fun _ _ hl hh => absurd hh (Nat.not_lt.mpr hl)

/-- A single node. -/
theorem node {node : Node} (hn : nodes[lo]? = some node) (hop : node.op.isTextStart = false) :
    NoStarts nodes lo (lo + 1) := by
  intro i node' hl hh hn'
  obtain rfl : i = lo := by omega
  obtain rfl := Option.some.inj (hn.symm.trans hn')
  exact hop

/-- Two intervals that follow each other. -/
theorem append (h : NoStarts nodes lo m) (h' : NoStarts nodes m hi) : NoStarts nodes lo hi := by
  intro i node hl hh hn
  by_cases him : i < m
  · exact h i node hl him hn
  · exact h' i node (Nat.le_of_not_lt him) hh hn

end NoStarts

/-- The deciding node of a loop is no anchor. -/
theorem LoopKind.isTextStart_op (kind : LoopKind) (body exit : Nat) :
    (kind.op body exit).isTextStart = false := by
  cases kind <;> rfl

/-- The parts of a pattern without anchors at the start are compiled to nodes that are none. -/
theorem composes_noStarts (nodes : Array Node) :
    Composes nodes (fun groups q => q.isProper groups && q.isNoStart)
      fun _ _ _ _ lo hi => NoStarts nodes lo hi where
  nothing _ := .nothing nodes _
  leaf hp ht hn _ := .node hn (Pattern.isTextStart_of_leafOp? hp (Bool.and_eq_true_iff.mp ht).2)
  seq h h' _ _ _ _ := h.append h'
  branch h h' hn _ _ _ _ _ := (h.append h').append (.node hn rfl)
  loop {_ kind next body _ _} h hn _ _ _ :=
    (NoStarts.node hn (kind.isTextStart_op body next)).append h
  capture _ hstop h hstart _ _ _ := ((NoStarts.node hstop rfl).append h).append (.node hstart rfl)

namespace Program

/-- No node of the program is an anchor at the start of the text. -/
def IsStartFree (prog : Program) : Prop :=
  ∀ (i : Nat) (node : Node), prog.nodes[i]? = some node → node.op.isTextStart = false

/-- A pattern without anchors at the start is compiled to a program without them. -/
theorem isStartFree_of_compile? {p : Pattern} (hw : p.isWellFormed [] = true)
    (hfree : p.isStartFree = true) {limit : Nat} {prog : Program}
    (hc : p.compile? limit = some prog) : prog.IsStartFree := by
  obtain ⟨kinds, hlays⟩ := Pattern.lays_of_compile? hc
  have hboth : (Part.one p).everywhere (fun groups q => q.isProper groups && q.isNoStart) [] =
      true := by
    rw [Part.everywhere, Pattern.everywhere_and, Bool.and_eq_true]
    exact ⟨hw, hfree⟩
  have hproper (groups : List Nat) (q : Pattern) (h : (q.isProper groups && q.isNoStart) = true) :
      q.hasOption = true :=
    Pattern.hasOption_of_isProper groups q (Bool.and_eq_true_iff.mp h).1
  have hnodes := hlays.laid.compose (composes_noStarts _) hproper hboth (by simp) Nat.one_pos
  intro i node hn
  by_cases hzero : i = 0
  · subst hzero
    obtain rfl := Option.some.inj (hlays.success.symm.trans hn)
    rfl
  · exact hnodes i node (Nat.one_le_iff_ne_zero.mpr hzero) (Array.getElem?_eq_some_iff.mp hn).1 hn

/-! ## Moves behind other text -/

section Moves

variable (u v : String) {pos : Nat} {t t' : Trail}

/-- A text is consumed behind other text as it is without it. -/
theorem consumeText_behind (s : String) (next : Nat) :
    consumeText (u ++ v) (u.utf8ByteSize + pos) s next =
      (consumeText v pos s next).shift u.utf8ByteSize := by
  rw [consumeText, consumeText, occursAt_behind]
  split
  · rw [Move.shift, Nat.add_assoc]
  · rfl

/-- A character is consumed behind other text as it is without it. -/
theorem consumeChar_behind (accepts : Char → Bool) (next : Nat) :
    consumeChar (u ++ v) (u.utf8ByteSize + pos) accepts next =
      (consumeChar v pos accepts next).shift u.utf8ByteSize := by
  rw [consumeChar, consumeChar, charAt?_behind]
  cases charAt? v pos with
  | none => rfl
  | some c =>
    dsimp only
    split
    · rw [Move.shift, Nat.add_assoc]
    · rfl

/-- The text of a group is consumed behind other text as it is without it. -/
theorem consumeGroup_behind (h : t'.history = shift u.utf8ByteSize t.history) (group next : Nat) :
    consumeGroup (u ++ v) (u.utf8ByteSize + pos) t' group next =
      (consumeGroup v pos t group next).shift u.utf8ByteSize := by
  rw [consumeGroup, consumeGroup, Trail.captured_shift h]
  cases t.captured group with
  | error fault => rfl
  | ok span? =>
    cases span? with
    | none => rfl
    | some span =>
      have hinside : u.utf8ByteSize + span.stop < u.utf8ByteSize + span.start ∨
          u.utf8ByteSize + v.utf8ByteSize < u.utf8ByteSize + span.stop ↔
          span.stop < span.start ∨ v.utf8ByteSize < span.stop := by
        omega
      simp only [Except.map, Option.map_some, Span.shift, String.utf8ByteSize_append, hinside,
        Nat.add_sub_add_left, sameBytes_behind]
      split
      · rfl
      · split
        · rw [Move.shift, Nat.add_assoc]
        · rfl

/-- The next iteration of a guarded loop is decided behind other text as it is without it. -/
theorem iterateBody_behind (h : t'.history = shift u.utf8ByteSize t.history)
    (index body exit : Nat) :
    iterateBody (u.utf8ByteSize + pos) t' index body exit =
      (iterateBody pos t index body exit).shift u.utf8ByteSize := by
  have hsame : (t.find? (.loop index)).map (u.utf8ByteSize + ·) = some (u.utf8ByteSize + pos) ↔
      t.find? (.loop index) = some pos := by
    simp [Option.map_eq_some_iff]
  rw [iterateBody, iterateBody, Trail.find?_shift h]
  simp only [hsame]
  split <;> rfl

/-- An operation that is no anchor at the start makes the same move behind other text as without it,
further on. -/
theorem unprunedMoveAt_behind {op : Op} (hop : op.isTextStart = false)
    (h : t'.history = shift u.utf8ByteSize t.history) :
    unprunedMoveAt (u ++ v) op (u.utf8ByteSize + pos) t' =
      (unprunedMoveAt v op pos t).shift u.utf8ByteSize := by
  cases op with
  | success | branch _ _ | mark _ _ => rfl
  | literal s next => exact consumeText_behind u v s next
  | charClass cls next => exact consumeChar_behind u v cls.accepts next
  | anyChar next => exact consumeChar_behind u v (· != '\n') next
  | loop index body exit => exact iterateBody_behind u h index body exit
  | backReference group next => exact consumeGroup_behind u v h group next
  | textStart next => simp [Op.isTextStart] at hop
  | textEnd next =>
    have hend : (u.utf8ByteSize + pos == (u ++ v).utf8ByteSize) = (pos == v.utf8ByteSize) := by
      rw [Bool.eq_iff_iff, beq_iff_eq, beq_iff_eq, String.utf8ByteSize_append]
      omega
    rw [unprunedMoveAt, unprunedMoveAt, hend, assertPlace, assertPlace]
    split <;> rfl

/-- A program without anchors at the start makes the same moves behind other text as without it,
further on. -/
theorem shiftsTo_behind {prog : Program} (hfree : prog.IsStartFree) :
    (prog.move v).ShiftsTo u.utf8ByteSize (prog.move (u ++ v)) := by
  intro s
  have hhistory : (Trail.ofHistory (shift u.utf8ByteSize s.history)).history =
      shift u.utf8ByteSize (Trail.ofHistory s.history).history := by
    rw [Trail.history_ofHistory, Trail.history_ofHistory]
  rw [Spot.move, Spot.move, Spot.shift, move, move, String.utf8ByteSize_append]
  simp only [Nat.add_lt_add_iff_left, Nat.add_sub_add_left]
  split
  · rfl
  · cases hn : prog.nodes[s.node]? with
    | none => rfl
    | some node =>
      dsimp only
      rw [moveAt_eq, moveAt_eq, unprunedMoveAt_behind u v (hfree _ node hn) hhistory]
      split <;> rfl

end Moves

/-! ## What is found -/

/-- More text gives a search more rounds. -/
theorem rounds_le_append (prog : Program) (u v : String) :
    prog.rounds v ≤ prog.rounds (u ++ v) := by
  rw [rounds, rounds, roundsFor, roundsFor, String.utf8ByteSize_append]
  have := Nat.mul_le_mul_right ((prog.size + 1) * (prog.size + 1))
    (show v.utf8ByteSize + 1 ≤ u.utf8ByteSize + v.utf8ByteSize + 1 by omega)
  omega

/-- A search for a pattern without anchors at the start finds a match behind other text exactly if
it finds one without that text. The match then ends, and has the spans of its groups, further on by
the length of that text: what comes before the place where a match begins does not matter. -/
theorem exec_behind {limit : Nat} {source : String} {p q : Pattern}
    (hread : Pattern.read limit source = .ok p) (hq : q = p ∨ q = p.simplify)
    (hfree : p.isStartFree = true) {maxNodes : Nat} {prog : Program}
    (hc : q.compile? maxNodes = some prog) (u v : String) (storage storage' : Array Entry) :
    (∃ (t t' : Trail) (stop : Nat) (spans : Nat → Option Span),
      prog.exec v 0 (.startingAt storage 0) = .matched t ∧
      prog.exec (u ++ v) u.utf8ByteSize (.startingAt storage' u.utf8ByteSize) = .matched t' ∧
      t'.entries = t.entries.map (Entry.shift u.utf8ByteSize) ∧
      t.captured 0 = .ok (some ⟨0, stop⟩) ∧
      t'.captured 0 = .ok (some ⟨u.utf8ByteSize, u.utf8ByteSize + stop⟩) ∧
      ∀ i, t.captured i = .ok (spans i) ∧
        t'.captured i = .ok ((spans i).map (Span.shift u.utf8ByteSize))) ∨
    ∃ t t',
      prog.exec v 0 (.startingAt storage 0) = .failed t ∧
      prog.exec (u ++ v) u.utf8ByteSize (.startingAt storage' u.utf8ByteSize) = .failed t' := by
  have hw := Pattern.isWellFormed_of_read_or hread hq
  have hfree' : q.isStartFree = true := by
    rcases hq with rfl | rfl
    · exact hfree
    · exact Pattern.isStartFree_simplify hfree
  have hprog := isStartFree_of_compile? (Pattern.isWellFormed_of_subset (List.nil_subset _) hw)
    hfree' hc
  obtain ⟨found, k, -, hk, -, he, -⟩ := exists_exhausts hw hc v (Nat.zero_le _)
  have hk' : k < 2 ^ prog.rounds (u ++ v) :=
    Nat.lt_of_lt_of_le hk (Nat.pow_le_pow_right (by decide) (prog.rounds_le_append u v))
  have hshows := exec_shows_of_exhausts he hk storage
  have hshows' := exec_shows_of_exhausts (he.shift (shiftsTo_behind u v hprog)) hk' storage'
  rcases hshows.cases_of? with ⟨t, ht, rfl⟩ | ⟨t, ht, rfl⟩
  · obtain ⟨t', ht', -⟩ | ⟨t', -, hsome⟩ := hshows'.cases_of?
    · exact Or.inr ⟨t, t', ht, ht'⟩
    · simp at hsome
  · obtain ⟨t', -, hnone⟩ | ⟨t', ht', hsome⟩ := hshows'.cases_of?
    · simp at hnone
    · have hhistory : t'.history = shift u.utf8ByteSize t.history :=
        (Option.some.inj hsome).symm
      obtain ⟨spans, stop, hspans, hwhole⟩ :=
        exists_spans_of_matched hread hq hc (isBoundary_zero v) ht
      have hspans' (i : Nat) : t'.captured i = .ok ((spans i).map (Span.shift u.utf8ByteSize)) := by
        rw [Trail.captured_shift hhistory, hspans]
        rfl
      refine Or.inl ⟨t, t', stop, spans, ht, ht', ?_, ?_, ?_, fun i => ⟨hspans i, hspans' i⟩⟩
      · exact List.reverse_injective (hhistory.trans (List.map_reverse ..))
      · rw [hspans, hwhole]
      · rw [hspans', hwhole]
        rfl

/-- A guarded loop, a group and a reference to it, with and without a character of two bytes before
them. The latest iteration has to be given up before the reference matches. -/
theorem exec_behind_reference :
    ∃ p prog, Pattern.read 255 "(a*)*b\\1$" = .ok p ∧ p.isStartFree = true ∧
      p.compile? 100 = some prog ∧
      ∃ t t', prog.exec "aaba" 0 (.startingAt #[] 0) = .matched t ∧
        prog.exec ("é" ++ "aaba") 2 (.startingAt #[] 2) = .matched t' ∧
        t.captured 1 = .ok (some ⟨1, 2⟩) ∧ t'.captured 0 = .ok (some ⟨2, 6⟩) ∧
        t'.captured 1 = .ok (some ⟨3, 4⟩) := by
  let p : Pattern := .sequence
    [.repetition (.capture 1 (.repetition (.literal "a") 0 none)) 0 none, .literal "b",
      .backReference 1, .textEnd]
  let prog : Program :=
    ⟨#[⟨.success, 0⟩, ⟨.textEnd 0, 0⟩, ⟨.backReference 1 1, 0⟩, ⟨.literal "b" 2, 1⟩,
      ⟨.loop 1 8 3, 1⟩, ⟨.mark 1 4, 1⟩, ⟨.branch 7 5, 1⟩, ⟨.literal "a" 6, 2⟩, ⟨.mark 1 6, 1⟩],
      4, 1, false⟩
  have hread : Pattern.read 255 "(a*)*b\\1$" = .ok p :=
    Pattern.read_eq_ok_iff.mpr (by decide +kernel)
  have hfree : p.isStartFree = true := by decide
  have hc : p.compile? 100 = some prog := by decide +kernel
  have hexec : (prog.exec "aaba" 0 (.startingAt #[] 0)).trail?.map
      (fun t => (t.captured 0, t.captured 1)) =
        some (.ok (some ⟨0, 4⟩), .ok (some ⟨1, 2⟩)) := by
    decide +kernel
  rcases exec_behind hread (Or.inl rfl) hfree hc "é" "aaba" #[] #[] with
    ⟨t, t', stop, spans, ht, ht', -, hwhole, hwhole', hspans⟩ | ⟨t, -, ht, -⟩
  · rw [ht] at hexec
    obtain ⟨h₀, h₁⟩ := Prod.mk.inj (Option.some.inj hexec)
    obtain rfl : stop = 4 := by simpa [hwhole] using h₀
    have hspan : spans 1 = some ⟨1, 2⟩ := Except.ok.inj ((hspans 1).1.symm.trans h₁)
    exact ⟨p, prog, hread, hfree, hc, t, t', ht, ht', h₁, hwhole', by rw [(hspans 1).2, hspan]; rfl⟩
  · rw [ht] at hexec
    simp [Outcome.trail?] at hexec

end Program

end BacktrackRegex
