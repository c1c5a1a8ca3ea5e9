import BacktrackRegex.Proofs.Matching.FirstMatch
import BacktrackRegex.Proofs.Matching.Simplified

/-!
# Matches are found where there are any

What the reference matcher finds for a part is a piece of the text that the part matches. It also
finds something wherever the part matches a piece with which the continuation succeeds: an iteration
of a loop that matches the empty piece can be left out, and each of the other ones begins behind the
iterations that are remembered, so that no loop refuses it.
-/

namespace BacktrackRegex

open Text Progress Pattern

variable {text : String} {origin : Nat} {R R' : Nat → Nat → Prop}
  {tries tries' body : Occurrence → Continuation → Continuation}

/-- What is found is a piece that is matched, in front of what the continuation finds. -/
def Finds (text : String) (origin : Nat) (R : Nat → Nat → Prop)
    (tries : Occurrence → Continuation → Continuation) : Prop :=
  ∀ o k c r, c.Valid text origin → tries o k c = some r →
    ∃ c', Keeps text origin (fun _ => False) o c c' ∧ R c.pos c'.pos ∧ k c' = some r

/-- Something is found if a piece is matched in front of which the continuation succeeds. The loops
remember iterations that began before the place only. -/
def Reaches (text : String) (origin : Nat) (R : Nat → Nat → Prop)
    (tries : Occurrence → Continuation → Continuation) : Prop :=
  ∀ o k c j, c.Valid text origin → c.Past (fun _ => True) o → R c.pos j →
    (∀ c', Keeps text origin (fun _ => True) o c c' → c'.pos = j → (k c').isSome = true) →
    (tries o k c).isSome = true

namespace Finds

/-- Two pieces are found one after the other. -/
theorem followed (h : Finds text origin R tries) (h' : Finds text origin R' tries') (t t' : Turn) :
    Finds text origin (fun i j => ∃ l, R i l ∧ R' l j)
      fun o k => tries (t :: o) (tries' (t' :: o) k) := by
  intro o k c r hv hr
  obtain ⟨c', hc', hm, hr⟩ := h _ _ c r hv hr
  obtain ⟨c'', hc'', hm', hr⟩ := h' _ _ c' r hc'.valid hr
  exact ⟨c'', (hc'.of_turn (past_none o c)).trans (hc''.of_turn (past_none o c')),
    ⟨c'.pos, hm, hm'⟩, hr⟩

/-- A larger relation matches what is found, too. -/
theorem mono (h : Finds text origin R tries) (hR : ∀ i j, R i j → R' i j) :
    Finds text origin R' tries := by
  intro o k c r hv hr
  obtain ⟨c', hc', hm, hr⟩ := h o k c r hv hr
  exact ⟨c', hc', hR _ _ hm, hr⟩

/-- The iterations of a loop are found one after the other. -/
theorem tryLoop (h : Finds text origin R body) (n : Nat) :
    Finds text origin (fun i j => ∃ m, Chain R m i j) fun o k => tryLoop body o k n := by
  induction n with
  | zero =>
    intro o k c r hv hr
    exact ⟨c, .refl hv (past_none o c), ⟨0, .nil c.pos⟩, hr⟩
  | succ n ih =>
    intro o k c r hv hr
    have hstop (hr : k c = some r) : ∃ c', Keeps text origin (fun _ => False) o c c' ∧
        (∃ m, Chain R m c.pos c'.pos) ∧ k c' = some r :=
      ⟨c, .refl hv (past_none o c), ⟨0, .nil c.pos⟩, hr⟩
    simp only [tryLoop_succ] at hr
    split at hr
    · exact hstop hr
    · rcases Option.or_eq_some_iff.mp hr with hr | ⟨-, hr⟩
      · obtain ⟨c', hc', hm, hr⟩ := h _ _ _ r (hv.iterate o) hr
        obtain ⟨c'', hc'', ⟨m, hms⟩, hr⟩ := ih o k c' r hc'.valid hr
        exact ⟨c'', (Keeps.of_iterate (past_none o c) hc' False.elim).trans hc'',
          ⟨m + 1, .cons hm hms⟩, hr⟩
      · exact hstop hr

end Finds

namespace Reaches

/-- Two pieces are reached one after the other. -/
theorem followed (h : Reaches text origin R tries) (h' : Reaches text origin R' tries')
    (t t' : Turn) :
    Reaches text origin (fun i j => ∃ l, R i l ∧ R' l j)
      fun o k => tries (t :: o) (tries' (t' :: o) k) := by
  rintro o k c j hv hp ⟨l, hm, hm'⟩ hk
  refine h _ _ c l hv (hp.turn t) hm fun c' hc' hl => ?_
  have hkeeps := hc'.of_turn hp
  subst hl
  refine h' _ _ c' j hc'.valid (hkeeps.past.turn t') hm' fun c'' hc'' hj => ?_
  exact hk c'' (hkeeps.trans (hc''.of_turn hkeeps.past)) hj

/-- A smaller relation is reached, too. -/
theorem anti (h : Reaches text origin R tries) (hR : ∀ i j, R' i j → R i j) :
    Reaches text origin R' tries :=
  fun o k c j hv hp hm hk => h o k c j hv hp (hR _ _ hm) hk

/-- The iterations of a loop are reached one after the other, but for empty ones. -/
theorem loop {p : Pattern} (h : Reaches text origin R ((Part.one p).tries text)) :
    Reaches text origin (fun i j => ∃ m, Chain R m i j) ((Part.loop p).tries text) := by
  rintro o k c j hv hp ⟨m, hm⟩ hk
  induction m generalizing c with
  | zero =>
    cases hm
    have hself : (k c).isSome = true := hk c (.refl hv hp) rfl
    rw [Part.tries_loop p o k hv]
    split
    · exact hself
    · rw [Option.isSome_or, hself, Bool.or_true]
  | succ m ih =>
    cases hm with
    | @cons _ _ l _ hm hms =>
      by_cases hl : c.pos = l
      · subst hl
        exact ih c hv hp hms hk
      · have hb : c.begun o ≠ some c.pos := fun hb =>
          Nat.lt_irrefl _ (hp o List.suffix_rfl trivial c.pos hb)
        have hbody : ((Part.one p).tries text (.first :: o) ((Part.loop p).tries text o k)
            (c.iterate o)).isSome = true := by
          refine h _ _ _ l (hv.iterate o) (hp.iterate .first) hm fun c' hc' he => ?_
          have hlt : c.pos < c'.pos :=
            Nat.lt_of_le_of_ne hc'.le fun hpos => hl (hpos.trans he)
          have hkeeps : Keeps text origin (fun _ => True) o c c' := .of_iterate hp hc' fun _ => hlt
          subst he
          exact ih c' hc'.valid hkeeps.past hms fun c'' hc'' hj => hk c'' (hkeeps.trans hc'') hj
        rw [Part.tries_loop p o k hv, if_neg hb, Option.isSome_or, hbody, Bool.true_or]

end Reaches

namespace Part

/-- What is found for a part is a piece that the part matches. -/
theorem finds (part : Part) (enclosing : List Nat)
    (hr : part.everywhere (fun _ => isRegular) enclosing = true) :
    Finds text origin (part.Matches text) (part.tries text) := by
  induction part using Part.induct generalizing enclosing with
  | leaf p hp =>
    intro o k c r hv h
    rw [Part.everywhere, everywhere_leaf hp] at hr
    rw [tries_leaf hp] at h
    obtain ⟨pos, hs, h⟩ := Option.bind_eq_some_iff.mp h
    obtain ⟨hb, hle⟩ := stop?_spec hv hs
    exact ⟨_, .moveTo hv (past_none o c) hb hle, (stop?_iff hp hr hv.boundary).mp hs, h⟩
  | sequence ps ih =>
    simp only [Part.everywhere, Pattern.everywhere, Bool.and_eq_true] at hr
    apply (ih enclosing hr.2).mono
    intro i j h
    rwa [Part.Matches, Pattern.Matches]
  | alternation ps ih =>
    simp only [Part.everywhere, Pattern.everywhere, Bool.and_eq_true] at hr
    apply (ih enclosing hr.2).mono
    intro i j h
    rwa [Part.Matches, Pattern.Matches]
  | repetition p min max ihmore ihcopies =>
    simp only [Part.everywhere, Pattern.everywhere, Bool.and_eq_true] at hr
    have hmore : (more p min max).everywhere (fun _ => isRegular) enclosing = true := by
      rw [everywhere_more]
      exact hr.2
    intro o k c r hv h
    rw [tries_repetition] at h
    obtain ⟨c', hc', hm, h⟩ :=
      (ihcopies enclosing hr.2).followed (ihmore enclosing hmore) .rest .first o k c r hv h
    exact ⟨c', hc', (matches_repetition hr.1).mpr hm, h⟩
  | capture i p ih =>
    simp only [Part.everywhere, Pattern.everywhere, Bool.and_eq_true] at hr
    intro o k c r hv h
    obtain ⟨c', hc', hm, h⟩ := ih _ hr.2 _ _ c r hv h
    exact ⟨_, (hc'.of_turn (past_none o c)).close hv i, by rwa [Part.Matches, Pattern.Matches], h⟩
  | noItems =>
    intro o k c r hv h
    exact ⟨c, .refl hv (past_none o c), by rw [Part.Matches, MatchesAll], h⟩
  | item p ps ihp ihps =>
    simp only [Part.everywhere, Pattern.everywhereIn, Bool.and_eq_true] at hr
    apply ((ihp _ hr.1).followed (ihps _ hr.2) .first .rest).mono
    intro i j h
    rwa [Part.Matches, MatchesAll]
  | noOptions =>
    intro o k c r hv h
    simp [tries, tryOptions] at h
  | option p ps ihp ihps =>
    simp only [Part.everywhere, Pattern.everywhereIn, Bool.and_eq_true] at hr
    intro o k c r hv h
    rw [tries_option] at h
    rcases Option.or_eq_some_iff.mp h with h | ⟨-, h⟩
    · obtain ⟨c', hc', hm, h⟩ := ihp _ hr.1 _ k c r hv h
      exact ⟨c', hc'.of_turn (past_none o c),
        by rw [Part.Matches, MatchesSome]; exact Or.inl hm, h⟩
    · obtain ⟨c', hc', hm, h⟩ := ihps _ hr.2 _ k c r hv h
      exact ⟨c', hc'.of_turn (past_none o c),
        by rw [Part.Matches, MatchesSome]; exact Or.inr hm, h⟩
  | noCopies p =>
    intro o k c r hv h
    exact ⟨c, .refl hv (past_none o c), .nil c.pos, h⟩
  | copy p n ihp ihn =>
    apply ((ihn _ hr).followed (ihp _ hr) .rest .first).mono
    intro i j h
    exact matches_copy.mpr h
  | noOptionals p =>
    intro o k c r hv h
    exact ⟨c, .refl hv (past_none o c), ⟨0, Nat.le_refl 0, .nil c.pos⟩, h⟩
  | optional p n ihp ihn =>
    intro o k c r hv h
    rw [tries_optional] at h
    rcases Option.or_eq_some_iff.mp h with h | ⟨-, h⟩
    · obtain ⟨c', hc', hm, h⟩ := (ihp _ hr).followed (ihn _ hr) .first .rest o k c r hv h
      exact ⟨c', hc', matches_optional.mpr (Or.inl hm), h⟩
    · exact ⟨c, .refl hv (past_none o c), matches_optional.mpr (Or.inr rfl), h⟩
  | loop p ih => exact (ih _ hr).tryLoop _

/-- Something is found if a part matches a piece in front of which the continuation succeeds. -/
theorem reaches (part : Part) (enclosing : List Nat)
    (hr : part.everywhere (fun _ => isRegular) enclosing = true) :
    Reaches text origin (part.Matches text) (part.tries text) := by
  induction part using Part.induct generalizing enclosing with
  | leaf p hp =>
    intro o k c j hv hpast hm hk
    rw [Part.everywhere, everywhere_leaf hp] at hr
    have hs := (stop?_iff hp hr hv.boundary).mpr hm
    obtain ⟨hb, hle⟩ := stop?_spec hv hs
    rw [tries_leaf hp, hs]
    exact hk _ (.moveTo hv hpast hb hle) rfl
  | sequence ps ih =>
    simp only [Part.everywhere, Pattern.everywhere, Bool.and_eq_true] at hr
    apply (ih enclosing hr.2).anti
    intro i j h
    rwa [Part.Matches, Pattern.Matches] at h
  | alternation ps ih =>
    simp only [Part.everywhere, Pattern.everywhere, Bool.and_eq_true] at hr
    apply (ih enclosing hr.2).anti
    intro i j h
    rwa [Part.Matches, Pattern.Matches] at h
  | repetition p min max ihmore ihcopies =>
    simp only [Part.everywhere, Pattern.everywhere, Bool.and_eq_true] at hr
    have hmore : (more p min max).everywhere (fun _ => isRegular) enclosing = true := by
      rw [everywhere_more]
      exact hr.2
    intro o k c j hv hpast hm hk
    rw [tries_repetition]
    exact (ihcopies enclosing hr.2).followed (ihmore enclosing hmore) .rest .first o k c j hv hpast
      ((matches_repetition hr.1).mp hm) hk
  | capture i p ih =>
    simp only [Part.everywhere, Pattern.everywhere, Bool.and_eq_true] at hr
    intro o k c j hv hpast hm hk
    rw [Part.Matches, Pattern.Matches] at hm
    exact ih _ hr.2 _ _ c j hv (hpast.turn _) hm fun c' hc' hj =>
      hk _ ((hc'.of_turn hpast).close hv i) hj
  | noItems =>
    intro o k c j hv hpast hm hk
    rw [Part.Matches, MatchesAll] at hm
    exact hk c (.refl hv hpast) hm
  | item p ps ihp ihps =>
    simp only [Part.everywhere, Pattern.everywhereIn, Bool.and_eq_true] at hr
    apply ((ihp _ hr.1).followed (ihps _ hr.2) .first .rest).anti
    intro i j h
    rwa [Part.Matches, MatchesAll] at h
  | noOptions =>
    intro o k c j hv hpast hm hk
    simp [Part.Matches, MatchesSome] at hm
  | option p ps ihp ihps =>
    simp only [Part.everywhere, Pattern.everywhereIn, Bool.and_eq_true] at hr
    intro o k c j hv hpast hm hk
    rw [Part.Matches, MatchesSome] at hm
    have hk' (t : Turn) : ∀ c', Keeps text origin (fun _ => True) (t :: o) c c' → c'.pos = j →
        (k c').isSome = true := fun c' hc' => hk c' (hc'.of_turn hpast)
    rw [tries_option, Option.isSome_or, Bool.or_eq_true]
    exact hm.imp (fun hm => ihp _ hr.1 _ k c j hv (hpast.turn _) hm (hk' _))
      fun hm => ihps _ hr.2 _ k c j hv (hpast.turn _) hm (hk' _)
  | noCopies p =>
    intro o k c j hv hpast hm hk
    cases hm
    exact hk c (.refl hv hpast) rfl
  | copy p n ihp ihn =>
    apply ((ihn _ hr).followed (ihp _ hr) .rest .first).anti
    intro i j h
    exact matches_copy.mp h
  | noOptionals p =>
    rintro o k c j hv hpast ⟨m, hm, hc⟩ hk
    obtain rfl : m = 0 := by omega
    cases hc
    exact hk c (.refl hv hpast) rfl
  | optional p n ihp ihn =>
    intro o k c j hv hpast hm hk
    rw [tries_optional, Option.isSome_or, Bool.or_eq_true]
    refine (matches_optional.mp hm).imp (fun hm => ?_) fun hj => hk c (.refl hv hpast) hj
    exact (ihp _ hr).followed (ihn _ hr) .first .rest o k c j hv hpast hm hk
  | loop p ih => exact (ih _ hr).loop

end Part

namespace Pattern

/-- The first match of a regular pattern exists where the pattern matches something, and is a piece
that it matches. -/
theorem firstMatch?_spec {p : Pattern} {enclosing : List Nat}
    (hr : p.everywhere (fun _ => isRegular) enclosing = true) {start : Nat}
    (hstart : isBoundary text start = true) :
    ((p.firstMatch? text start).isSome = true ↔ ∃ j, p.Matches text start j) ∧
      ∀ c, p.firstMatch? text start = some c → p.Matches text start c.pos := by
  have hv : (initial start).Valid text start := valid_initial hstart
  have hfound : ∀ c, p.firstMatch? text start = some c → p.Matches text start c.pos := by
    intro c hc
    obtain ⟨c', -, hm, he⟩ := Part.finds (.one p) enclosing hr [] _ _ c hv hc
    obtain rfl := Option.some.inj he
    exact hm
  refine ⟨?_, hfound⟩
  constructor
  · intro h
    obtain ⟨c, hc⟩ := Option.isSome_iff_exists.mp h
    exact ⟨c.pos, hfound c hc⟩
  · rintro ⟨j, hm⟩
    exact Part.reaches (.one p) enclosing hr [] _ _ j hv (past_initial _ _ _) hm fun _ _ _ => rfl

end Pattern

/-- A search in the program of a pattern without back-references, simplified or not, finds a match
exactly if the pattern matches a piece of the text that begins at the start, and the match that it
finds is such a piece. -/
theorem Program.exec_matched_iff_matches {limit : Nat} {source : String} {p q : Pattern}
    (hread : Pattern.read limit source = .ok p) (hfree : p.isReferenceFree = true)
    (hq : q = p ∨ q = p.simplify) {maxNodes : Nat} {prog : Program}
    (hc : q.compile? maxNodes = some prog) (text : String) {start : Nat}
    (hstart : isBoundary text start = true) (storage : Array Entry) :
    ((∃ t, prog.exec text start (.startingAt storage start) = .matched t) ↔
      ∃ j, p.Matches text start j) ∧
    ∀ t, prog.exec text start (.startingAt storage start) = .matched t →
      ∃ j, t.captured 0 = .ok (some ⟨start, j⟩) ∧ p.Matches text start j := by
  have hw := Pattern.isWellFormed_of_read hread
  have hr : q.everywhere (fun _ => isRegular) [0] = true := by
    rcases hq with rfl | rfl
    · exact everywhere_isRegular hw hfree
    · exact everywhere_isRegular (isWellFormed_simplify hw) (isReferenceFree_simplify hfree)
  have hsame (j : Nat) : q.Matches text start j ↔ p.Matches text start j := by
    rcases hq with rfl | rfl
    · rfl
    · exact matches_simplify p (hasOptions_of_isWellFormed hw) hstart
  obtain ⟨hsome, hpiece⟩ := firstMatch?_spec hr hstart
  simp only [hsame] at hsome hpiece
  obtain ⟨a, r, rfl, hy, hshows⟩ := exec_shows hread hq hc text hstart storage
  cases hm : q.firstMatch? text a.origin with
  | none =>
    obtain ⟨t, ht⟩ := Attempt.exists_failed (hm ▸ hy) hshows
    rw [hm] at hsome
    simpa [ht] using hsome
  | some c =>
    obtain ⟨t, ht, hspans, hwhole⟩ := Attempt.exists_matched (hm ▸ hy) hshows
    have hc' := hpiece c hm
    constructor
    · exact ⟨fun _ => ⟨c.pos, hc'⟩, fun _ => ⟨t, ht⟩⟩
    · intro t' ht'
      obtain rfl := Search.Outcome.matched.inj (ht.symm.trans ht')
      exact ⟨c.pos, by rw [hspans, hwhole], hc'⟩

/-- An option that matches the empty piece is preferred, but hides no match. -/
theorem Program.exec_matched_iff_matches_empty_option :
    ∃ p prog t j, Pattern.read 255 "(|a)*b" = .ok p ∧ p.compile? 100 = some prog ∧
      prog.exec "ab" 0 (.startingAt #[] 0) = .matched t ∧
        t.captured 0 = .ok (some ⟨0, j⟩) ∧ p.Matches "ab" 0 j := by
  let p : Pattern := .sequence
    [.repetition (.capture 1 (.alternation [.sequence [], .literal "a"])) 0 none, .literal "b"]
  have hread : Pattern.read 255 "(|a)*b" = .ok p :=
    Pattern.read_eq_ok_iff.mpr (by decide +kernel)
  obtain ⟨prog, hc⟩ : ∃ prog, p.compile? 100 = some prog :=
    Option.isSome_iff_exists.mp (by decide +kernel)
  have hmatches : p.Matches "ab" 0 2 := by
    have ha : Spells "ab" 0 1 "a" := ⟨"", "b", by decide, by decide, by decide⟩
    have hb : Spells "ab" 1 2 "b" := ⟨"a", "", by decide, by decide, by decide⟩
    refine ⟨1, ⟨1, Nat.zero_le 1, by simp, .cons ?_ (.nil 1)⟩, 2, hb, rfl⟩
    exact Or.inr (Or.inl ha)
  have h := Program.exec_matched_iff_matches hread (by decide +kernel) (Or.inl rfl) hc "ab"
    (by decide : isBoundary "ab" 0 = true) #[]
  obtain ⟨t, ht⟩ := h.1.mpr ⟨2, hmatches⟩
  obtain ⟨j, hj, hm⟩ := h.2 t ht
  exact ⟨p, prog, t, j, hread, hc, ht, hj, hm⟩

end BacktrackRegex
