import BacktrackRegex.Proofs.Matching.Simulation
import BacktrackRegex.Proofs.Pattern.Reading
import BacktrackRegex.Proofs.Program.Termination

/-!
# Searches find the first match

A search in a compiled program, on a trail with nothing but the start of the match, ends within its
bound and finds what the reference matcher finds: nothing, or the first match with its end and all
spans of its groups.
-/

namespace BacktrackRegex

open Search Text

/-- The trail on which a search for a match begins: its start under group 0, over a storage whose
records are not read. -/
def Trail.startingAt (storage : Array Entry) (start : Nat) : Trail :=
  (Trail.emptyOn storage).push (.group 0) start

/-- Nothing but the start of the match is on the trail. -/
@[simp] theorem Trail.history_startingAt (storage : Array Entry) (start : Nat) :
    (startingAt storage start).history = [⟨.group 0, start⟩] := by
  rw [startingAt, history_push, history_emptyOn]

namespace Attempt

variable {a : Attempt}

/-- Before the match begins there are no records. -/
theorem agrees_initial (a : Attempt) : a.Agrees [] (.initial a.origin) [] where
  begun _ _ _ := rfl
  closed _ _ := rfl
  started _ _ h := nomatch h
  ordered := ⟨fun _ h => (nomatch h), List.Pairwise.nil⟩

/-- Exploring the root of a program finds the first match. -/
theorem explores_root {p : Pattern} (hw : p.isWellFormed [0] = true)
    (hlays : a.program.Lays p a.kinds) (hstart : isBoundary a.text a.origin = true) :
    ∃ r k, Explores a.moves a.Visits ⟨a.program.root, a.origin, [⟨.group 0, a.origin⟩]⟩ r k ∧
      a.Yields (p.firstMatch? a.text a.origin) r := by
  have hv : a.Valid (.initial a.origin) := Progress.valid_initial hstart
  have hopened : (Part.one p).everywhere Pattern.isProper ([(0, a.origin)].map Prod.fst) = true :=
    hw
  have hroot : a.Resumes [(0, a.origin)] a.program.root (.initial a.origin)
      (p.firstMatch? a.text a.origin) :=
    resumes_of_laid hlays.laid hopened (by simp) hv (Progress.past_initial _ _ _) _
      fun c hc _ => .success hlays.success hc.valid
  exact hroot.explores _ ((agrees_initial a).opens hv (by simp))

/-- A search fails if the reference matcher does. -/
theorem exists_failed {r : Finding} {outcome : Outcome} (hy : a.Yields none r)
    (hs : outcome.Shows r) : ∃ t, outcome = .failed t := by
  obtain rfl : r = .failed := hy
  cases outcome with
  | failed t => exact ⟨t, rfl⟩
  | _ => exact hs.elim

/-- A search finds the match of the reference matcher, and the trail tells its spans. -/
theorem exists_matched {c : Progress} {r : Finding} {outcome : Outcome}
    (hy : a.Yields (some c) r) (hs : outcome.Shows r) :
    ∃ t, outcome = .matched t ∧ (∀ i, t.captured i = .ok (c.spans i)) ∧
      c.spans 0 = some ⟨a.origin, c.pos⟩ := by
  obtain ⟨h, rfl, hagrees, hwhole⟩ := hy
  cases outcome with
  | matched t =>
    obtain rfl : t.history = h := hs
    refine ⟨t, rfl, fun i => ?_, hwhole⟩
    rw [Trail.captured_eq]
    exact hagrees.closed i (by simp)
  | _ => exact hs.elim

end Attempt

/-- A pattern that was read is well-formed, simplified or not. -/
theorem Pattern.isWellFormed_of_read_or {limit : Nat} {source : String} {p q : Pattern}
    (hread : Pattern.read limit source = .ok p) (hq : q = p ∨ q = p.simplify) :
    q.isWellFormed [0] = true := by
  have hp := isWellFormed_of_read hread
  rcases hq with rfl | rfl
  · exact hp
  · exact isWellFormed_simplify hp

/-- In the program of a pattern that was read, exploring the root finds the first match within the
bound of a search. -/
theorem Program.exists_attempt {limit : Nat} {source : String} {p q : Pattern}
    (hread : Pattern.read limit source = .ok p) (hq : q = p ∨ q = p.simplify) {maxNodes : Nat}
    {prog : Program} (hc : q.compile? maxNodes = some prog) (text : String) {start : Nat}
    (hstart : isBoundary text start = true) :
    ∃ a : Attempt, a.program = prog ∧ a.text = text ∧ a.origin = start ∧ ∃ r k,
      Explores a.moves a.Visits ⟨prog.root, start, [⟨.group 0, start⟩]⟩ r k ∧
        k < 2 ^ prog.rounds text ∧ a.Yields (q.firstMatch? text start) r := by
  have hw := Pattern.isWellFormed_of_read_or hread hq
  obtain ⟨kinds, hlays⟩ := Pattern.lays_of_compile? hc
  let a : Attempt := ⟨prog, kinds, hlays.unique, text, start⟩
  obtain ⟨r, k, he, hy⟩ := a.explores_root hw hlays hstart
  obtain ⟨r', k', he', hk⟩ := Program.exists_explores (Pattern.hasOptions_of_isWellFormed hw) hc
    text (le_of_isBoundary hstart) [⟨.group 0, start⟩]
  obtain ⟨rfl, rfl⟩ := he.unique he'
  exact ⟨a, rfl, rfl, rfl, r, k, he, hk, hy⟩

/-- A search with a known result comes to what the reference matcher comes to. -/
theorem Program.exec_shows {limit : Nat} {source : String} {p q : Pattern}
    (hread : Pattern.read limit source = .ok p) (hq : q = p ∨ q = p.simplify) {maxNodes : Nat}
    {prog : Program} (hc : q.compile? maxNodes = some prog) (text : String) {start : Nat}
    (hstart : isBoundary text start = true) (storage : Array Entry) :
    ∃ (a : Attempt) (r : Finding), a.origin = start ∧ a.Yields (q.firstMatch? text start) r ∧
      (prog.exec text start (.startingAt storage start)).Shows r := by
  obtain ⟨a, rfl, rfl, rfl, r, k, he, hk, hy⟩ := exists_attempt hread hq hc text hstart
  refine ⟨a, r, rfl, hy, ?_⟩
  exact Explores.run_shows (s := ⟨a.program.root, a.origin, .startingAt storage a.origin, []⟩)
    (a.program.readsHistory a.text) (by rw [State.spot, Trail.history_startingAt]; exact he) rfl hk

/-- A search finds the first match of the reference matcher, with its end and all spans of its
groups, and fails if there is none. -/
theorem Program.exec_eq_firstMatch? {limit : Nat} {source : String} {p q : Pattern}
    (hread : Pattern.read limit source = .ok p) (hq : q = p ∨ q = p.simplify) {maxNodes : Nat}
    {prog : Program} (hc : q.compile? maxNodes = some prog) (text : String) {start : Nat}
    (hstart : isBoundary text start = true) (storage : Array Entry) :
    match q.firstMatch? text start with
    | none => ∃ t, prog.exec text start (.startingAt storage start) = .failed t
    | some c => ∃ t, prog.exec text start (.startingAt storage start) = .matched t ∧
        (∀ i, t.captured i = .ok (c.spans i)) ∧ c.spans 0 = some ⟨start, c.pos⟩ := by
  obtain ⟨a, r, rfl, hy, hshows⟩ := exec_shows hread hq hc text hstart storage
  cases hm : q.firstMatch? text a.origin with
  | none => exact Attempt.exists_failed (hm ▸ hy) hshows
  | some c => exact Attempt.exists_matched (hm ▸ hy) hshows

/-- An iteration that consumes nothing is recorded for the group inside it, and ends the loop. -/
theorem Program.exec_eq_firstMatch?_nested_loops :
    ∃ p prog, Pattern.read 255 "(a*)*b" = .ok p ∧ p.compile? 100 = some prog ∧
      ∃ t, prog.exec "aab" 0 (.startingAt #[] 0) = .matched t ∧
        t.captured 0 = .ok (some ⟨0, 3⟩) ∧ t.captured 1 = .ok (some ⟨2, 2⟩) := by
  let p : Pattern := .sequence
    [.repetition (.capture 1 (.repetition (.literal "a") 0 none)) 0 none, .literal "b"]
  have hread : Pattern.read 255 "(a*)*b" = .ok p :=
    Pattern.read_eq_ok_iff.mpr (by decide +kernel)
  obtain ⟨prog, hc⟩ : ∃ prog, p.compile? 100 = some prog :=
    Option.isSome_iff_exists.mp (by decide +kernel)
  have hfirst : (p.firstMatch? "aab" 0).map (fun c => (c.spans 0, c.spans 1)) =
      some (some ⟨0, 3⟩, some ⟨2, 2⟩) := by decide +kernel
  have hstart : isBoundary "aab" 0 = true := by decide
  have h := Program.exec_eq_firstMatch? hread (Or.inl rfl) hc "aab" hstart #[]
  cases hm : p.firstMatch? "aab" 0 with
  | none => simp [hm] at hfirst
  | some c =>
    rw [hm] at h hfirst
    obtain ⟨t, ht, hspans, -⟩ := h
    obtain ⟨h₀, h₁⟩ := Prod.mk.inj (Option.some.inj hfirst)
    exact ⟨p, prog, hread, hc, t, ht, by rw [hspans, h₀], by rw [hspans, h₁]⟩

end BacktrackRegex
