import BacktrackRegex.Proofs.Matching.FirstMatch
import BacktrackRegex.Proofs.Search.Choices

/-!
# Safety of searches

Every state of a search for a match stands at a spot that the reference matcher may come to. The
places it records are in order, the groups it reads are complete, and it meets no fault.
-/

namespace BacktrackRegex

open Search History Text

/-- What holds of each state of a search for a match that begins at `start`. -/
structure Program.Safe (prog : Program) (text : String) (start : Nat) (s : State) : Prop where
  /-- The search stands at a boundary of the text. -/
  boundary : isBoundary text s.pos = true
  le : s.pos ≤ text.utf8ByteSize
  /-- Later records are of later places. -/
  sorted : s.trail.entries.Pairwise fun older newer => older.pos ≤ newer.pos
  /-- The recorded places lie inside what was matched. -/
  bounds : ∀ e ∈ s.trail.entries, start ≤ e.pos ∧ e.pos ≤ s.pos
  /-- The trail can be cut back to the length it had at a choice. -/
  choices : ∀ choice ∈ s.choices, choice.top ≤ s.trail.top
  /-- The search goes on from the state, or ends with a match or without one. -/
  noFault : ∀ fault, step (prog.move text) s ≠ .inr (.faulted fault)
  /-- A back-reference reads a piece of the text, or none. -/
  reference : ∀ group next least,
    prog.nodes[s.node]? = some ⟨.backReference group next, least⟩ →
      s.trail.captured group = .ok none ∨ ∃ span piece,
        s.trail.captured group = .ok (some span) ∧ span.start ≤ span.stop ∧
          Spells text span.start span.stop piece
  /-- When the whole pattern has matched, each group spans a piece of the match, or nothing. -/
  success : ∀ least, prog.nodes[s.node]? = some ⟨.success, least⟩ →
    (s.trail.push (.group 0) s.pos).captured 0 = .ok (some ⟨start, s.pos⟩) ∧
      ∀ i, (s.trail.push (.group 0) s.pos).captured i = .ok none ∨ ∃ span,
        (s.trail.push (.group 0) s.pos).captured i = .ok (some span) ∧ start ≤ span.start ∧
          span.start ≤ span.stop ∧ span.stop ≤ s.pos

namespace Attempt

variable {a : Attempt} {s : State} {node : Node} {opened : List (Nat × Nat)} {c : Progress}

/-- Records of later places come later. -/
theorem Sound.sorted (h : a.Sound s.spot node opened c) :
    s.trail.entries.Pairwise fun older newer => older.pos ≤ newer.pos := by
  have hs : s.trail.history.Pairwise fun newer older => older.pos ≤ newer.pos :=
    h.agrees.ordered.sorted
  rwa [Trail.history, List.pairwise_reverse] at hs

/-- The recorded places lie inside what was matched. -/
theorem Sound.bounds (h : a.Sound s.spot node opened c) :
    ∀ e ∈ s.trail.entries, a.origin ≤ e.pos ∧ e.pos ≤ s.pos := by
  intro e he
  have hpos : c.pos = s.pos := h.pos
  rw [← hpos]
  exact h.agrees.ordered.bounds e (List.mem_reverse.mpr he)

/-- A back-reference reads a piece of the text, or none. -/
theorem Sound.reference (h : a.Sound s.spot node opened c) {group next least : Nat}
    (hn : a.program.nodes[s.node]? = some ⟨.backReference group next, least⟩) :
    s.trail.captured group = .ok none ∨ ∃ span piece,
      s.trail.captured group = .ok (some span) ∧ span.start ≤ span.stop ∧
        Spells a.text span.start span.stop piece := by
  obtain rfl := Option.some.inj (h.isNode.symm.trans hn)
  have hclosed : s.trail.captured group = .ok (c.spans group) := by
    rw [Trail.captured_eq]
    exact h.agrees.closed group h.admits
  rw [hclosed]
  cases hspan : c.spans group with
  | none => exact Or.inl rfl
  | some span =>
    obtain ⟨-, hle, -, hb, hb'⟩ := h.valid.spans group span hspan
    obtain ⟨piece, hpiece⟩ := exists_spells hb hb' hle
    exact Or.inr ⟨span, piece, rfl, hle, hpiece⟩

/-- When the whole pattern has matched, each group spans a piece of the match, or nothing. -/
theorem Sound.success (h : a.Sound s.spot node opened c) {least : Nat}
    (hstart : isBoundary a.text a.origin = true)
    (hn : a.program.nodes[s.node]? = some ⟨.success, least⟩) :
    (s.trail.push (.group 0) s.pos).captured 0 = .ok (some ⟨a.origin, s.pos⟩) ∧
      ∀ i, (s.trail.push (.group 0) s.pos).captured i = .ok none ∨ ∃ span,
        (s.trail.push (.group 0) s.pos).captured i = .ok (some span) ∧ a.origin ≤ span.start ∧
          span.start ≤ span.stop ∧ span.stop ≤ s.pos := by
  obtain rfl := Option.some.inj (h.isNode.symm.trans hn)
  obtain rfl : opened = [(0, a.origin)] := h.admits
  have hpos : c.pos = s.pos := h.pos
  rw [← hpos]
  have hvalid : a.Valid (c.close 0 a.origin) :=
    (Progress.valid_initial hstart).close h.valid h.valid.le 0
  have hcaptured (i : Nat) : (s.trail.push (.group 0) c.pos).captured i =
      .ok ((c.close 0 a.origin).spans i) := by
    rw [Trail.captured_eq, Trail.history_push]
    exact (h.agrees.closes h.valid (by simp)).closed i (by simp)
  refine ⟨(hcaptured 0).trans (by simp [Progress.close]), fun i => ?_⟩
  rw [hcaptured]
  cases hspan : (c.close 0 a.origin).spans i with
  | none => exact Or.inl rfl
  | some span =>
    obtain ⟨hle, hle', hle'', -⟩ := hvalid.spans i span hspan
    exact Or.inr ⟨span, rfl, hle, hle', hle''⟩

end Attempt

/-- Every state that a search for a match reaches is safe. These are the states of the machine that
searches alone; what the branches of a shared search come through is not among them. -/
theorem Program.safe_of_reached {limit : Nat} {source : String} {p q : Pattern}
    (hread : Pattern.read limit source = .ok p) (hq : q = p ∨ q = p.simplify) {maxNodes : Nat}
    {prog : Program} (hc : q.compile? maxNodes = some prog) (text : String) {start : Nat}
    (hstart : isBoundary text start = true) (storage : Array Entry) {n : Nat} {s : State}
    (hs : advance (step (prog.move text)) n ⟨prog.root, start, .startingAt storage start, []⟩ =
      .inl s) : prog.Safe text start s := by
  obtain ⟨a, rfl, rfl, rfl, r, k, he, -, hy⟩ := exists_attempt hread hq hc text hstart
  let t := Trail.startingAt storage a.origin
  have ht : t.history = [⟨.group 0, a.origin⟩] := Trail.history_startingAt storage a.origin
  obtain ⟨outcome, hend, hshows⟩ := he.ends (a.program.readsHistory a.text) t ht
  have hfault : ∀ fault, outcome ≠ .faulted fault := by
    rintro fault rfl
    cases hm : q.firstMatch? a.text a.origin with
    | none =>
      rw [hm] at hy
      obtain rfl : r = .failed := hy
      exact hshows
    | some c =>
      rw [hm] at hy
      obtain ⟨h, rfl, -⟩ := hy
      exact hshows
  have hn : n < k := by
    by_contra hle
    have := advance_of_le hend (Nat.le_of_not_lt hle)
    rw [this] at hs
    simp at hs
  obtain ⟨s', hs', node, opened, c, hsound⟩ :=
    he.visits (a.program.readsHistory a.text) t ht [] n hn
  obtain rfl := Sum.inl.inj (hs.symm.trans hs')
  have hpos : c.pos = s.pos := hsound.pos
  have hstacked : s.Stacked :=
    State.Stacked.advance (s := ⟨a.program.root, a.origin, t, []⟩) (List.pairwise_singleton _ _) hs
  refine ⟨hpos ▸ hsound.valid.boundary, hpos ▸ hsound.valid.pos_le, hsound.sorted, hsound.bounds,
    fun choice hchoice => hstacked.top_le hchoice, fun fault hstep => ?_,
    fun group next least hnode => hsound.reference hnode,
    fun least hnode => hsound.success hstart hnode⟩
  have hnext : advance (step (a.program.move a.text)) (n + 1)
      ⟨a.program.root, a.origin, t, []⟩ = .inr (.faulted fault) := by
    rw [advance_add hs, advance, hstep]
  exact hfault fault (Sum.inr.inj (hend.symm.trans (advance_of_le hnext hn)))

/-- A back-reference is met with the span of its group, as in every state. -/
theorem Program.safe_of_reached_reference :
    ∃ p prog s, Pattern.read 255 "(a)\\1" = .ok p ∧ p.compile? 100 = some prog ∧
      advance (step (prog.move "aa")) 3 ⟨prog.root, 0, .startingAt #[] 0, []⟩ = .inl s ∧
      prog.nodes[s.node]? = some ⟨.backReference 1 0, 0⟩ ∧ prog.Safe "aa" 0 s := by
  let p : Pattern := .sequence [.capture 1 (.literal "a"), .backReference 1]
  let prog : Program :=
    ⟨#[⟨.success, 0⟩, ⟨.backReference 1 0, 0⟩, ⟨.mark 1 1, 0⟩, ⟨.literal "a" 2, 1⟩,
      ⟨.mark 1 3, 1⟩], 4, 1, false⟩
  have hread : Pattern.read 255 "(a)\\1" = .ok p :=
    Pattern.read_eq_ok_iff.mpr (by decide +kernel)
  have hc : p.compile? 100 = some prog := by decide +kernel
  let s : State := ⟨1, 1, ((Trail.startingAt #[] 0).push (.group 1) 0).push (.group 1) 1, []⟩
  have hs : advance (step (prog.move "aa")) 3 ⟨prog.root, 0, .startingAt #[] 0, []⟩ = .inl s := by
    decide +kernel
  exact ⟨p, prog, s, hread, hc, hs, rfl,
    safe_of_reached hread (Or.inl rfl) hc "aa" (by decide) #[] hs⟩

end BacktrackRegex
