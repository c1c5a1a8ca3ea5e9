import BacktrackRegex.Proofs.Matching.FirstMatch

/-!
# Anchored patterns

An anchored pattern cannot match anywhere but at the start of the text: every way to match it begins
with an anchor. The same holds of a program that begins with an anchor. It is therefore enough to
try such a program at the start.
-/

namespace BacktrackRegex

open Search Text

/-- Whether the shape of a part lets it match at the start of the text only. -/
def Part.isAnchored : Part → Bool
  | .one p => p.isAnchored
  | .items [] => false
  | .items (p :: _) => p.isAnchored
  | .options ps => Pattern.allAnchored ps
  | .copies p n => 0 < n && p.isAnchored
  | .optionals _ _ => false
  | .loop _ => false

/-- The reference matcher finds nothing for an anchored part behind the start of the text. -/
theorem Part.tries_eq_none {text : String} {part : Part} (h : part.isAnchored = true)
    (o : Occurrence) (k : Continuation) {c : Progress} (hc : c.pos ≠ 0) :
    part.tries text o k c = none := by
  induction part using Part.induct generalizing o k with
  | leaf p hp =>
    rw [tries_leaf hp]
    cases p with
    | textStart => rw [Pattern.stop?, if_neg hc, Option.bind_none]
    | sequence _ | alternation _ | repetition _ _ _ | capture _ _ => simp [Pattern.isLeaf] at hp
    | _ => simp [isAnchored, Pattern.isAnchored] at h
  | sequence ps ih =>
    cases ps with
    | nil => simp [isAnchored, Pattern.isAnchored] at h
    | cons p ps => exact ih h o k
  | alternation ps ih =>
    cases ps with
    | nil => rfl
    | cons p ps => exact ih h o k
  | repetition p min max _ ihcopies =>
    rw [tries_repetition]
    exact ihcopies h _ _
  | capture i p ih => exact ih h _ _
  | noItems => simp [isAnchored] at h
  | item p ps ihp _ => exact ihp h _ _
  | noOptions => rfl
  | option p ps ihp ihps =>
    obtain ⟨hp, hps⟩ := Bool.and_eq_true_iff.mp h
    rw [tries_option, ihp hp, ihps hps, Option.or_none]
  | noCopies p => simp [isAnchored] at h
  | copy p n ihp ihn =>
    have hp : p.isAnchored = true := by simpa [isAnchored] using h
    cases n with
    | zero => exact ihp hp _ _
    | succ n => exact ihn (by simp [isAnchored, hp]) _ _
  | noOptionals p | optional p n _ _ | loop p _ => simp [isAnchored] at h

/-- An anchored pattern does not match behind the start of the text. -/
theorem Pattern.firstMatch?_eq_none {p : Pattern} (h : p.isAnchored = true) (text : String)
    {start : Nat} (hs : start ≠ 0) : p.firstMatch? text start = none :=
  Part.tries_eq_none (show (Part.one p).isAnchored = true from h) [] _ hs

/-- A program is anchored only if it begins with an anchor or was made of an anchored pattern. -/
theorem Pattern.anchored_of_compile? {limit : Nat} {p : Pattern} {prog : Program}
    (h : p.compile? limit = some prog) (ha : prog.anchored = true) :
    p.isAnchored = true ∨ ∃ next least, prog.nodes[prog.root]? = some ⟨.textStart next, least⟩ := by
  obtain ⟨⟨success, d₁⟩, -, h'⟩ := Option.bind_eq_some_iff.mp h
  obtain ⟨⟨root, d₂⟩, -, h₃⟩ := Option.bind_eq_some_iff.mp h'
  obtain rfl := Option.some.inj h₃
  rcases Bool.or_eq_true_iff.mp ha with hroot | hp
  · dsimp only at hroot ⊢
    cases hn : d₂.nodes[root]? with
    | none => simp [hn] at hroot
    | some node =>
      obtain ⟨op, least⟩ := node
      cases op with
      | textStart next => exact Or.inr ⟨next, least, rfl⟩
      | _ => simp [hn] at hroot
  · exact Or.inl hp

/-- A search of an anchored program behind the start of the text fails. -/
theorem Program.exec_of_anchored {limit : Nat} {source : String} {p q : Pattern}
    (hread : Pattern.read limit source = .ok p) (hq : q = p ∨ q = p.simplify) {maxNodes : Nat}
    {prog : Program} (hc : q.compile? maxNodes = some prog) (ha : prog.anchored = true)
    (text : String) {start : Nat} (hstart : isBoundary text start = true) (hs : start ≠ 0)
    (storage : Array Entry) :
    ∃ t, prog.exec text start (.startingAt storage start) = .failed t := by
  rcases Pattern.anchored_of_compile? hc ha with hp | ⟨next, least, hn⟩
  · obtain ⟨a, r, rfl, hy, hshows⟩ := exec_shows hread hq hc text hstart storage
    rw [Pattern.firstMatch?_eq_none hp text hs] at hy
    exact Attempt.exists_failed hy hshows
  · let s : State := ⟨prog.root, start, .startingAt storage start, []⟩
    have hmove : s.spot.move (prog.move text) = .reject := by
      rw [move_eq (s := s.spot) hn (le_of_isBoundary hstart)]
      simp [moveAt, assertPlace, s, State.spot, hs]
    have hfails : Explores (prog.move text) (fun _ => True) s.spot .failed 1 :=
      .reject trivial hmove
    have hshows : (prog.exec text start (.startingAt storage start)).Shows .failed :=
      hfails.run_shows (prog.readsHistory text) rfl (Nat.one_lt_two_pow (Nat.succ_ne_zero _))
    cases he : prog.exec text start (.startingAt storage start) with
    | failed t => exact ⟨t, rfl⟩
    | _ => exact (he ▸ hshows).elim

end BacktrackRegex
