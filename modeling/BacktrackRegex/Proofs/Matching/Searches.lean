import BacktrackRegex.Proofs.Matching.FirstMatch
import BacktrackRegex.Proofs.Program.Pruning
import BacktrackRegex.Proofs.Search.Sharing

/-!
# Other ways of searching

A search may also go on where too few bytes are left, or share its decisions with workers. Neither
changes what is found: all of these searches follow paths of the same tree, and it is the first
success on them that they find.
-/

namespace BacktrackRegex

open Search Text

namespace Program

variable {limit : Nat} {source : String} {p q : Pattern} {maxNodes : Nat} {prog : Program}

/-- A search for a match comes to what is found on the paths from the root, if its bound is large
enough. -/
theorem exec_shows_of_exhausts {text : String} {start : Nat} {found : Option History} {k : Nat}
    (he : Exhausts (prog.move text) ⟨prog.root, start, [⟨.group 0, start⟩]⟩ found k)
    (hk : k < 2 ^ prog.rounds text) (storage : Array Entry) :
    (prog.exec text start (.startingAt storage start)).Shows (.of? found) := by
  let s : State := ⟨prog.root, start, .startingAt storage start, []⟩
  have hs : s.spot = ⟨prog.root, start, [⟨.group 0, start⟩]⟩ := by
    rw [State.spot, Trail.history_startingAt]
  exact Exhausts.run_shows (prog.readsHistory text) (hs.symm ▸ he) rfl hk

/-- The trail of a match has spans for its groups, and that of group 0 begins where the search
began. -/
theorem exists_spans_of_matched (hread : Pattern.read limit source = .ok p)
    (hq : q = p ∨ q = p.simplify) (hc : q.compile? maxNodes = some prog) {text : String}
    {start : Nat} (hstart : isBoundary text start = true) {storage : Array Entry} {t : Trail}
    (ht : prog.exec text start (.startingAt storage start) = .matched t) :
    ∃ (spans : Nat → Option Span) (stop : Nat),
      (∀ i, t.captured i = .ok (spans i)) ∧ spans 0 = some ⟨start, stop⟩ := by
  obtain ⟨a, r, rfl, hy, hshows⟩ := exec_shows hread hq hc text hstart storage
  rw [ht] at hshows
  cases hm : q.firstMatch? text a.origin with
  | none =>
    obtain ⟨t', he⟩ := Attempt.exists_failed (hm ▸ hy) hshows
    simp at he
  | some c =>
    obtain ⟨t', he, hspans, hwhole⟩ := Attempt.exists_matched (hm ▸ hy) hshows
    obtain rfl := Outcome.matched.inj he
    exact ⟨c.spans, c.pos, hspans, hwhole⟩

/-- All searches for a match that begins at a place come to what is found on the paths from there,
whatever storage they write to. Nothing is found where fewer bytes are left than a match takes. -/
theorem exists_found (hread : Pattern.read limit source = .ok p) (hq : q = p ∨ q = p.simplify)
    (hc : q.compile? maxNodes = some prog) (text : String) {start : Nat}
    (hstart : start ≤ text.utf8ByteSize) :
    ∃ found, (∀ storage, (prog.exec text start (.startingAt storage start)).Shows (.of? found) ∧
      (prog.execUnpruned text start (.startingAt storage start)).Shows (.of? found) ∧
      ∀ terms, (prog.execShared terms text start (.startingAt storage start)).Stands
        terms.priority false found) ∧
      (text.utf8ByteSize - start < prog.minLength → found = none) := by
  have hw := Pattern.isWellFormed_of_read_or hread hq
  obtain ⟨found, k, k', hk, hk', he, he'⟩ := exists_exhausts hw hc text hstart
  have hnone := he'.eq_none (measured_of_compile? (Pattern.hasOptions_of_isWellFormed hw) hc)
  refine ⟨found, fun storage => ?_, hnone⟩
  let s : State := ⟨prog.root, start, .startingAt storage start, []⟩
  have hs : s.spot = ⟨prog.root, start, [⟨.group 0, start⟩]⟩ := by
    rw [State.spot, Trail.history_startingAt]
  rw [← hs] at he he'
  exact ⟨he.run_shows (prog.readsHistory text) rfl hk,
    he'.run_shows (prog.readsHistory_unpruned text) rfl hk',
    fun terms => he.runShared_stands (prog.readsHistory text) rfl hk terms text.utf8ByteSize⟩

/-- No path from a node of a program succeeds with fewer bytes than the node knows, and a search
finds the same as one that never gives up where too few bytes are left: a match with the same
records, and thus with the same spans, or none. -/
theorem exec_eq_execUnpruned (hread : Pattern.read limit source = .ok p)
    (hq : q = p ∨ q = p.simplify) (hc : q.compile? maxNodes = some prog) (text : String) :
    (∀ moves, moves = prog.move text ∨ moves = prog.unprunedMove text →
      ∀ s s' node, prog.nodes[s.node]? = some node → Relation.ReflTransGen (Leads moves) s s' →
        s'.move moves = .accept → s.pos + node.minLength ≤ s'.pos) ∧
    ∀ start storage, isBoundary text start = true →
      (∃ t t', prog.exec text start (.startingAt storage start) = .matched t ∧
        prog.execUnpruned text start (.startingAt storage start) = .matched t' ∧
        t.entries = t'.entries ∧ ∀ i, t.captured i = t'.captured i) ∨
      ∃ t t', prog.exec text start (.startingAt storage start) = .failed t ∧
        prog.execUnpruned text start (.startingAt storage start) = .failed t' := by
  have hm : prog.Measured := measured_of_compile?
    (Pattern.hasOptions_of_isWellFormed (Pattern.isWellFormed_of_read_or hread hq)) hc
  constructor
  · intro moves hmoves s s' node hn hpath hend
    rw [← leastFrom_eq hn]
    rcases hmoves with rfl | rfl
    · exact (hm.le_of_success
        (Relation.ReflTransGen.mono (fun _ _ => leads_unpruned) _ _ hpath)
        (unprunedMove_of_move hend (by simp))).1
    · exact (hm.le_of_success hpath hend).1
  · intro start storage hstart
    obtain ⟨found, hsearches, -⟩ := exists_found hread hq hc text (le_of_isBoundary hstart)
    obtain ⟨h, h', -⟩ := hsearches storage
    rcases h.cases_of? with ⟨t, ht, hf⟩ | ⟨t, ht, hf⟩ <;>
      rcases h'.cases_of? with ⟨t', ht', hf'⟩ | ⟨t', ht', hf'⟩
    · exact Or.inr ⟨t, t', ht, ht'⟩
    · simp [hf] at hf'
    · simp [hf] at hf'
    · have hsame : t.history = t'.history := Option.some.inj (hf.symm.trans hf')
      exact Or.inl ⟨t, t', ht, ht', List.reverse_injective hsame,
        fun i => by rw [Trail.captured_eq, Trail.captured_eq, hsame]⟩

/-- A loop in front of a character takes that character at least, and a search that does not give up
without it finds the same. -/
theorem exec_eq_execUnpruned_loop :
    ∃ p prog, Pattern.read 255 "a*b" = .ok p ∧ p.compile? 100 = some prog ∧
      prog.nodes[2]? = some ⟨.branch 3 1, 1⟩ ∧
      (∃ s s', s.node = 2 ∧ Relation.ReflTransGen (Leads (prog.unprunedMove "ab")) s s' ∧
        s'.move (prog.unprunedMove "ab") = .accept ∧ s.pos + 1 ≤ s'.pos) ∧
      ∃ t t', prog.exec "ab" 0 (.startingAt #[] 0) = .matched t ∧
        prog.execUnpruned "ab" 0 (.startingAt #[] 0) = .matched t' ∧
        t.entries = t'.entries ∧ ∀ i, t.captured i = t'.captured i := by
  let p : Pattern := .sequence [.repetition (.literal "a") 0 none, .literal "b"]
  let prog : Program :=
    ⟨#[⟨.success, 0⟩, ⟨.literal "b" 0, 1⟩, ⟨.branch 3 1, 1⟩, ⟨.literal "a" 2, 2⟩], 2, 0, false⟩
  have hread : Pattern.read 255 "a*b" = .ok p := Pattern.read_eq_ok_iff.mpr (by decide +kernel)
  have hc : p.compile? 100 = some prog := by decide +kernel
  obtain ⟨hpaths, hsame⟩ := exec_eq_execUnpruned hread (Or.inl rfl) hc "ab"
  have hfirst : Spot.move (prog.unprunedMove "ab") ⟨2, 0, []⟩ = .choose 3 1 none := by
    decide +kernel
  have hbody : Spot.move (prog.unprunedMove "ab") ⟨3, 0, []⟩ = .goto 2 1 := by decide +kernel
  have hsecond : Spot.move (prog.unprunedMove "ab") ⟨2, 1, []⟩ = .choose 3 1 none := by
    decide +kernel
  have hlast : Spot.move (prog.unprunedMove "ab") ⟨1, 1, []⟩ = .goto 0 2 := by decide +kernel
  have hend : Spot.move (prog.unprunedMove "ab") ⟨0, 2, []⟩ = .accept := by decide +kernel
  have hpath : Relation.ReflTransGen (Leads (prog.unprunedMove "ab")) ⟨2, 0, []⟩ ⟨0, 2, []⟩ :=
    .head (.first hfirst) (.head (.goto hbody) (.head (.second hsecond) (.single (.goto hlast))))
  refine ⟨p, prog, hread, hc, rfl, ⟨_, _, rfl, hpath, hend, ?_⟩, ?_⟩
  · exact hpaths _ (Or.inr rfl) ⟨2, 0, []⟩ _ ⟨.branch 3 1, 1⟩ rfl hpath hend
  · rcases hsame 0 #[] (by decide) with h | ⟨t, -, ht, -⟩
    · exact h
    · have hmatch : (prog.exec "ab" 0 (.startingAt #[] 0)).isMatch = true := by decide +kernel
      simp [ht, Outcome.isMatch, Outcome.trail?] at hmatch

/-- Whatever the workers do during a search, it finds a match if and only if a search without
workers does. If matches are preferred in their order it has the same records, and thus the same
spans. -/
theorem execShared_eq_exec (hread : Pattern.read limit source = .ok p)
    (hq : q = p ∨ q = p.simplify) (hc : q.compile? maxNodes = some prog) (text : String)
    {start : Nat} (hstart : isBoundary text start = true) (storage : Array Entry)
    (terms : Speculation) :
    (∃ t t', prog.exec text start (.startingAt storage start) = .matched t ∧
      prog.execShared terms text start (.startingAt storage start) = .matched t' ∧
      (terms.priority = .sequential →
        t'.entries = t.entries ∧ ∀ i, t'.captured i = t.captured i)) ∨
    ∃ t t', prog.exec text start (.startingAt storage start) = .failed t ∧
      prog.execShared terms text start (.startingAt storage start) = .failed t' := by
  obtain ⟨found, hsearches, -⟩ := exists_found hread hq hc text (le_of_isBoundary hstart)
  obtain ⟨h, -, hshared⟩ := hsearches storage
  have h' := hshared terms
  rcases h.cases_of? with ⟨t, ht, rfl⟩ | ⟨t, ht, rfl⟩ <;>
    cases he : prog.execShared terms text start (.startingAt storage start) <;> rw [he] at h'
  case inl.failed t' => exact Or.inr ⟨t, t', ht, rfl⟩
  case inr.matched t' =>
    refine Or.inl ⟨t, t', ht, rfl, fun hp => ?_⟩
    have hsame : t'.history = t.history := h' hp rfl
    exact ⟨List.reverse_injective hsame,
      fun i => by rw [Trail.captured_eq, Trail.captured_eq, hsame]⟩
  case inr.failed t' => exact absurd h' Bool.false_ne_true
  all_goals exact h'.elim

/-- Both sides of a decision match, and the second one ends first. The match of the first side is
taken all the same. -/
theorem execShared_eq_exec_both_sides :
    ∃ p prog, Pattern.read 255 "(a)|(a)" = .ok p ∧ p.compile? 100 = some prog ∧
      ∃ t', prog.execShared ⟨.sequential, 0, ⟨fun _ => true, fun _ => true, fun _ => true⟩⟩ "a" 0
          (.startingAt #[] 0) = .matched t' ∧
        t'.captured 1 = .ok (some ⟨0, 1⟩) ∧ t'.captured 2 = .ok none := by
  let p : Pattern := .alternation [.capture 1 (.literal "a"), .capture 2 (.literal "a")]
  have hread : Pattern.read 255 "(a)|(a)" = .ok p := Pattern.read_eq_ok_iff.mpr (by decide +kernel)
  let prog : Program :=
    ⟨#[⟨.success, 0⟩, ⟨.mark 1 0, 0⟩, ⟨.literal "a" 1, 1⟩, ⟨.mark 1 2, 1⟩, ⟨.mark 2 0, 0⟩,
      ⟨.literal "a" 4, 1⟩, ⟨.mark 2 5, 1⟩, ⟨.branch 3 6, 1⟩], 7, 2, false⟩
  have hc : p.compile? 100 = some prog := by decide +kernel
  have hexec : (prog.exec "a" 0 (.startingAt #[] 0)).trail?.map
      (fun t => (t.captured 1, t.captured 2)) = some (.ok (some ⟨0, 1⟩), .ok none) := by
    decide +kernel
  have hstart : isBoundary "a" 0 = true := by decide
  rcases execShared_eq_exec hread (Or.inl rfl) hc "a" hstart #[]
    ⟨.sequential, 0, ⟨fun _ => true, fun _ => true, fun _ => true⟩⟩ with
    ⟨t, t', ht, ht', hsame⟩ | ⟨t, -, ht, -⟩
  · rw [ht] at hexec
    obtain ⟨h₁, h₂⟩ := Prod.mk.inj (Option.some.inj hexec)
    obtain ⟨-, hspans⟩ := hsame rfl
    exact ⟨p, prog, hread, hc, t', ht', (hspans 1).trans h₁, (hspans 2).trans h₂⟩
  · rw [ht] at hexec
    simp [Outcome.trail?] at hexec

end Program

end BacktrackRegex
