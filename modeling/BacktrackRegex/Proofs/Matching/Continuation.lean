import BacktrackRegex.Proofs.Matching.Progress

/-!
# Continuations of the reference matcher

A continuation matters for what a part may lead to only. From this follows that a loop never uses up
the number of iterations that it is given: it tries one more iteration before it stops, unless the
latest one began at the same place, and nothing else. Silent parts only go on.
-/

namespace BacktrackRegex

open Text Progress

/-- Continuations that agree on what a part may lead to make no difference to it. -/
def Continuation.Matters (text : String) (origin : Nat)
    (tries : Occurrence → Continuation → Continuation) : Prop :=
  ∀ o k k' c, c.Valid text origin →
    (∀ c', Keeps text origin (fun _ => False) o c c' → k c' = k' c') → tries o k c = tries o k' c

namespace Pattern

variable {text : String} {origin : Nat}
  {body : Occurrence → Continuation → Continuation}

/-- A loop with an iteration left tries it before it stops. -/
theorem tryLoop_succ (o : Occurrence) (k : Continuation) (n : Nat) (c : Progress) :
    tryLoop body o k (n + 1) c =
      if c.begun o = some c.pos then k c
      else (body (.first :: o) (tryLoop body o k n) (c.iterate o)).or (k c) :=
  rfl

/-- A loop whose latest iteration began at the same place stops. -/
theorem tryLoop_of_begun {o : Occurrence} (k : Continuation) (n : Nat) {c : Progress}
    (hb : c.begun o = some c.pos) : tryLoop body o k n c = k c := by
  cases n with
  | zero => rfl
  | succ n => rw [tryLoop_succ, if_pos hb]

/-- A loop makes no difference between such continuations either, nor between numbers of iterations
that are as large as the bytes that are left. -/
theorem tryLoop_congr (hbody : Continuation.Matters text origin body) {o : Occurrence}
    {k k' : Continuation} (n n' : Nat) (c : Progress) (hv : c.Valid text origin)
    (hn : text.utf8ByteSize < n + c.pos ∨ c.begun o = some c.pos)
    (hn' : text.utf8ByteSize < n' + c.pos ∨ c.begun o = some c.pos)
    (hk : ∀ c', Keeps text origin (fun _ => False) o c c' → k c' = k' c') :
    tryLoop body o k n c = tryLoop body o k' n' c := by
  have hle := le_of_isBoundary hv.boundary
  have hself : k c = k' c := hk c (.refl hv (past_none o c))
  induction n generalizing n' c with
  | zero =>
    have hb : c.begun o = some c.pos := hn.resolve_left (by omega)
    rw [tryLoop_of_begun k 0 hb, tryLoop_of_begun k' n' hb, hself]
  | succ n ih =>
    by_cases hb : c.begun o = some c.pos
    · rw [tryLoop_of_begun k _ hb, tryLoop_of_begun k' n' hb, hself]
    · have hn := hn.resolve_right hb
      have hn' := hn'.resolve_right hb
      obtain ⟨m, rfl⟩ : ∃ m, n' = m + 1 := ⟨n' - 1, by omega⟩
      rw [tryLoop_succ, tryLoop_succ, if_neg hb, if_neg hb, hself]
      refine congrArg (Option.or · _) (hbody _ _ _ _ (hv.iterate o) fun c' hc' => ?_)
      have hkeeps : Keeps text origin (fun _ => False) o c c' :=
        .of_iterate (past_none o c) hc' False.elim
      have hpos : c.pos ≤ c'.pos := hkeeps.le
      have henough (m : Nat) (hm : text.utf8ByteSize < m + 1 + c.pos) :
          text.utf8ByteSize < m + c'.pos ∨ c'.begun o = some c'.pos := by
        rcases Nat.eq_or_lt_of_le hpos with he | hlt
        · exact Or.inr (he ▸ hc'.begun_eq)
        · exact Or.inl (by omega)
      have hk' : ∀ c'', Keeps text origin (fun _ => False) o c' c'' → k c'' = k' c'' :=
        fun c'' hc'' => hk c'' (hkeeps.trans hc'')
      exact ih m c' hc'.valid (henough n hn) (henough m hn') hk'
        (le_of_isBoundary hc'.valid.boundary) (hk c' hkeeps)

end Pattern

namespace Part

open Pattern

variable {text : String} {origin : Nat}

/-- No part makes a difference between continuations that agree on what it may lead to. -/
theorem matters (text : String) (origin : Nat) (part : Part) :
    Continuation.Matters text origin (part.tries text) := by
  induction part using Part.induct with
  | leaf p hp =>
    intro o k k' c hv hk
    rw [tries_leaf hp, tries_leaf hp]
    cases hs : p.stop? text c with
    | none => rfl
    | some pos =>
      obtain ⟨hb, hle⟩ := stop?_spec hv hs
      exact hk _ (.moveTo hv (past_none o c) hb hle)
  | sequence ps ih => exact ih
  | alternation ps ih => exact ih
  | repetition p min max ihmore ihcopies =>
    intro o k k' c hv hk
    rw [tries_repetition, tries_repetition]
    refine ihcopies _ _ _ c hv fun c' hc' => ihmore _ _ _ c' hc'.valid fun c'' hc'' => ?_
    exact hk c'' ((hc'.of_turn (past_none o c)).trans (hc''.of_turn (past_none o c')))
  | capture i p ih =>
    intro o k k' c hv hk
    exact ih _ _ _ c hv fun c' hc' => hk _ ((hc'.of_turn (past_none o c)).close hv i)
  | noItems => exact fun o k k' c hv hk => hk c (.refl hv (past_none o c))
  | item p ps ihp ihps =>
    intro o k k' c hv hk
    refine ihp _ _ _ c hv fun c' hc' => ihps _ _ _ c' hc'.valid fun c'' hc'' => ?_
    exact hk c'' ((hc'.of_turn (past_none o c)).trans (hc''.of_turn (past_none o c')))
  | noOptions => exact fun _ _ _ _ _ _ => rfl
  | option p ps ihp ihps =>
    intro o k k' c hv hk
    have hk' (t : Turn) : ∀ c', Keeps text origin (fun _ => False) (t :: o) c c' → k c' = k' c' :=
      fun c' hc' => hk c' (hc'.of_turn (past_none o c))
    rw [tries_option, tries_option, ihp _ k k' c hv (hk' .first), ihps _ k k' c hv (hk' .rest)]
  | noCopies p => exact fun o k k' c hv hk => hk c (.refl hv (past_none o c))
  | copy p n ihp ihn =>
    intro o k k' c hv hk
    refine ihn _ _ _ c hv fun c' hc' => ihp _ _ _ c' hc'.valid fun c'' hc'' => ?_
    exact hk c'' ((hc'.of_turn (past_none o c)).trans (hc''.of_turn (past_none o c')))
  | noOptionals p => exact fun o k k' c hv hk => hk c (.refl hv (past_none o c))
  | optional p n ihp ihn =>
    intro o k k' c hv hk
    rw [tries_optional, tries_optional, hk c (.refl hv (past_none o c))]
    refine congrArg (Option.or · _) ?_
    refine ihp _ _ _ c hv fun c' hc' => ihn _ _ _ c' hc'.valid fun c'' hc'' => ?_
    exact hk c'' ((hc'.of_turn (past_none o c)).trans (hc''.of_turn (past_none o c')))
  | loop p ih =>
    intro o k k' c hv hk
    exact tryLoop_congr ih _ _ c hv (Or.inl (by omega)) (Or.inl (by omega)) hk

/-- A loop tries one more iteration before it stops, unless the latest one began at the same
place. -/
theorem tries_loop (p : Pattern) (o : Occurrence) (k : Continuation) {c : Progress}
    (hv : c.Valid text origin) :
    (Part.loop p).tries text o k c =
      if c.begun o = some c.pos then k c
      else ((Part.one p).tries text (.first :: o) ((Part.loop p).tries text o k)
        (c.iterate o)).or (k c) := by
  refine (tryLoop_succ o k _ c).trans ?_
  split
  · rfl
  · refine congrArg (Option.or · _)
      (matters text origin (.one p) _ _ _ _ (hv.iterate o) fun c' hc' => ?_)
    have hpos : c.pos ≤ c'.pos := hc'.le
    refine tryLoop_congr (matters text origin (.one p)) _ _ c' hc'.valid ?_ (Or.inl (by omega))
      fun _ _ => rfl
    rcases Nat.eq_or_lt_of_le hpos with he | hlt
    · exact Or.inr (he ▸ hc'.begun_eq)
    · exact Or.inl (by omega)

/-- Trying a silent part is going on at once. -/
theorem tries_silent {test : List Nat → Pattern → Bool}
    (ht : ∀ groups q, test groups q = true → q.hasOption = true) {enclosing : List Nat}
    {part : Part} (hs : part.isSilent = true) (ho : part.everywhere test enclosing = true)
    (hne : part ≠ .options []) (o : Occurrence) (k : Continuation) (c : Progress) :
    part.tries text o k c = k c := by
  induction part using Part.induct generalizing enclosing o k c with
  | leaf p hp =>
    rw [tries_leaf hp]
    cases p with
    | literal s =>
      have hs : s = "" := by simpa [Part.isSilent, Pattern.isSilent] using hs
      subst hs
      rfl
    | sequence _ | alternation _ | repetition _ _ _ | capture _ _ => simp [isLeaf] at hp
    | _ => simp [Part.isSilent, Pattern.isSilent] at hs
  | sequence ps ih =>
    simp only [Part.everywhere, Pattern.everywhere, Bool.and_eq_true] at ho
    exact ih hs ho.2 (by simp) o k c
  | alternation ps ih =>
    simp only [Part.everywhere, Pattern.everywhere, Bool.and_eq_true] at ho
    exact ih hs ho.2 (by rintro ⟨⟩; simpa [hasOption] using ht _ _ ho.1) o k c
  | repetition p min max ihmore ihcopies =>
    simp only [Part.everywhere, Pattern.everywhere, Bool.and_eq_true] at ho
    cases max with
    | none => simp [Part.isSilent, Pattern.isSilent] at hs
    | some max =>
      simp only [Part.isSilent, Pattern.isSilent, Bool.and_eq_true] at hs
      rw [tries_repetition, ihcopies hs.2 ho.2 (by simp), ihmore hs.1 ho.2 (by simp [more])]
  | capture i p ih => simp [Part.isSilent, Pattern.isSilent] at hs
  | noItems | noCopies p | noOptionals p => rfl
  | item p ps ihp ihps =>
    simp only [Part.everywhere, Pattern.everywhereIn, Bool.and_eq_true] at ho
    simp only [Part.isSilent, Pattern.allSilent, Bool.and_eq_true] at hs
    exact (ihp hs.1 ho.1 (by simp) _ _ c).trans (ihps hs.2 ho.2 (by simp) _ k c)
  | noOptions => exact absurd rfl hne
  | option p ps ihp _ =>
    simp only [Part.everywhere, Pattern.everywhereIn, Bool.and_eq_true] at ho
    cases ps with
    | cons q qs => simp [Part.isSilent, Pattern.isSilent] at hs
    | nil =>
      rw [tries_option, ihp hs ho.1 (by simp)]
      exact Option.or_none
  | copy p n ihp ihn =>
    have hp : p.isSilent = true := by simpa [Part.isSilent] using hs
    refine (ihn ?_ ho (by simp) _ _ c).trans (ihp hp ho (by simp) _ k c)
    simp [Part.isSilent, hp]
  | optional p n ihp ihn =>
    have hp : p.isSilent = true := by simpa [Part.isSilent] using hs
    rw [tries_optional, ihp hp ho (by simp), ihn (by simp [Part.isSilent, hp]) ho (by simp)]
    exact Option.or_self
  | loop p _ => simp [Part.isSilent] at hs

end Part

end BacktrackRegex
