import BacktrackRegex.Proofs.Search.Exhaustion
import BacktrackRegex.Proofs.Search.Kept

/-!
# Searches that share their decisions

A branch that was cancelled fails like one that finds nothing, and the search then goes on with
older choices. This never hides a match: a branch is cancelled only by a match of the other side,
and that side is then taken. What a branch comes to is therefore compared with what is found on the
paths from where it began, with an exception for cancelled branches only; the whole search is never
cancelled.

The comparison is kept by each shared decision and by each step of a branch, and from it follows
what a branch comes to, by induction on the depth to which decisions may still be shared. A branch
that goes on after a decision does so over the storage that the first side has left, with the same
records as before.
-/

namespace BacktrackRegex.Search

open History

/-- The outcome of a branch stands for what is found on the paths from where it began. The branch
matches only if something is found, and fails only if nothing is or if it was cancelled. If matches
are preferred in their order, a branch that was not cancelled has the records that are found. -/
def Outcome.Stands (priority : Priority) (cancelled : Bool) : Outcome → Option History → Prop
  | .matched t, some h => priority = .sequential → cancelled = false → t.history = h
  | .failed _, none => True
  | .failed _, some _ => cancelled = true
  | _, _ => False

namespace Outcome.Stands

variable {priority : Priority} {cancelled : Bool} {found found' : Option History} {t : Trail}
  {o : Outcome}

/-- A branch that was cancelled may fail whatever is found. -/
theorem failed (hc : cancelled = true) (found : Option History) :
    (Outcome.failed t).Stands priority cancelled found := by
  cases found
  · trivial
  · exact hc

/-- A branch whose outcome stands for something matches or fails. -/
theorem ends (h : o.Stands priority cancelled found) : ∃ t, o = .matched t ∨ o = .failed t := by
  cases o with
  | matched t => exact ⟨t, Or.inl rfl⟩
  | failed t => exact ⟨t, Or.inr rfl⟩
  | faulted _ | unfinished => cases found <;> exact h.elim

/-- What a branch left on its trail does not matter if it failed. -/
theorem of_failed (h : (Outcome.failed t).Stands priority cancelled found) (t' : Trail) :
    (Outcome.failed t').Stands priority cancelled found := by
  cases found
  · trivial
  · exact h

/-- A branch that matches does so for all that comes behind, too. -/
theorem matched_or (h : (Outcome.matched t).Stands priority cancelled found)
    (found' : Option History) :
    (Outcome.matched t).Stands priority cancelled (found.or found') := by
  cases found with
  | none => exact h.elim
  | some _ => exact h

/-- A search that shows what is found stands for it. -/
theorem of_shows (h : o.Shows (.of? found)) (priority : Priority) (cancelled : Bool) :
    o.Stands priority cancelled found := by
  rcases h.cases_of? with ⟨t, rfl, rfl⟩ | ⟨t, rfl, rfl⟩
  · trivial
  · exact fun _ _ => rfl

/-- Where the first of two branches fails, the second one stands for both. -/
theorem or (h : (Outcome.failed t).Stands priority cancelled found)
    (h' : o.Stands priority cancelled found') : o.Stands priority cancelled (found.or found') := by
  cases found with
  | none => exact h'
  | some history =>
    obtain rfl : cancelled = true := h
    cases o with
    | matched _ => exact fun _ hc => absurd hc (by simp)
    | failed _ => rfl
    | faulted _ | unfinished => exact h'.elim

end Outcome.Stands

section Join

variable {priority : Priority} {cancelled : Bool} {found found' : Option History} {e e' : Ended}

/-- The end of a branch whose outcome stands for something is a match or a failure. -/
theorem Ended.cases_of_stands (h : e.outcome.Stands priority cancelled found) :
    (∃ t own, e = .matched t own) ∨ ∃ own, e = .failed own := by
  cases e with
  | matched t own => exact Or.inl ⟨t, own, rfl⟩
  | failed own => exact Or.inr ⟨own, rfl⟩
  | faulted _ | unfinished => cases found <;> exact h.elim

/-- A match of the first side, which ended first, may have cancelled the second side. -/
theorem join_of_cancels (h : e.outcome.Stands priority cancelled found)
    (h' : e'.outcome.Stands priority (cancelled || e.outcome.isMatch) found') :
    (e.join e').outcome.Stands priority cancelled (found.or found') := by
  rcases Ended.cases_of_stands h with ⟨t, own, rfl⟩ | ⟨own, rfl⟩
  · have hmatched : (Ended.join (.matched t own) e').outcome = .matched t := by
      rcases Ended.cases_of_stands h' with ⟨_, _, rfl⟩ | ⟨_, rfl⟩ <;> rfl
    rw [hmatched]
    exact h.matched_or found'
  · have h' : e'.outcome.Stands priority (cancelled || false) found' := h'
    rw [Bool.or_false] at h'
    rcases Ended.cases_of_stands h' with ⟨t, own', rfl⟩ | ⟨own', rfl⟩
    · exact h.or h'
    · exact h.or (h'.of_failed own)

/-- A match of the second side, which ended first, may have cancelled the first side if any match
will do. The match of the second side is taken then. -/
theorem join_of_cancelled
    (h : e.outcome.Stands priority (cancelled || e'.outcome.isMatch && priority == .any) found)
    (h' : e'.outcome.Stands priority cancelled found') :
    (e.join e').outcome.Stands priority cancelled (found.or found') := by
  rcases Ended.cases_of_stands h with ⟨t, own, rfl⟩ | ⟨own, rfl⟩ <;>
    rcases Ended.cases_of_stands h' with ⟨t', own', rfl⟩ | ⟨own', rfl⟩
  case inl.inl | inl.inr =>
    refine Outcome.Stands.matched_or ?_ found'
    cases found with
    | none => exact h.elim
    | some history => exact fun hp hc => h hp (by simp [hp, hc])
  case inr.inl =>
    cases found with
    | none => exact h'
    | some history =>
      have hflag : (cancelled || priority == .any) = true := h
      rcases Bool.or_eq_true_iff.mp hflag with hc | hp
      · exact Outcome.Stands.or (t := own) hc h'
      · obtain rfl : priority = .any := by simpa using hp
        cases found' with
        | none => exact h'.elim
        | some _ => exact fun hp => nomatch hp
  case inr.inr =>
    have h : (Outcome.failed own).Stands priority (cancelled || false) found := h
    rw [Bool.or_false] at h
    exact h.or (h'.of_failed own)

end Join

/-- The two sides of a shared decision stand for what is found on either side, the first one
preferred. -/
theorem race_stands {terms : Speculation} {run : Branch → Bool → State → Ended} {now : Moment}
    {cancelled : Bool} {first second : State} {found found' : Option History}
    (hf : ∀ branch cancelled,
      (run branch cancelled first).outcome.Stands terms.priority cancelled found)
    (hs : ∀ branch cancelled,
      (run branch cancelled second).outcome.Stands terms.priority cancelled found') :
    (race terms run now cancelled first second).outcome.Stands terms.priority cancelled
      (found.or found') := by
  rw [race]
  split
  · exact join_of_cancelled (hf _ _) (hs _ _)
  · exact join_of_cancels (hf _ _) (hs _ _)

/-! ## Steps of a branch -/

section Branch

variable {moves : Moves} {terms : Speculation} {length : Nat}
  {run? : Option (Branch → Bool → State → Ended)} {branch : Branch} {cancelled : Bool}

/-- What a branch comes to at a spot above some choices: a match, or the newest choice, or an end
because it was cancelled. -/
inductive Comes (priority : Priority) (cancelled : Bool) (h : History) (choices : List Choice)
    (found : Option History) : (State × Nat) ⊕ Ended → Prop where
  | matched {t own} (ht : (Outcome.matched t).Stands priority cancelled found) :
      Comes priority cancelled h choices found (.inr (.matched t own))
  | back {t} (clock : Nat) (hs : h <:+ t.history)
      (ht : (Outcome.failed t).Stands priority cancelled found) :
      Comes priority cancelled h choices found (later clock (retreat t choices))
  | cancelled {t} (hc : cancelled = true) :
      Comes priority cancelled h choices found (.inr (.failed t))

namespace Comes

variable {priority : Priority} {h h' : History} {choices : List Choice}
  {found found' : Option History} {result : (State × Nat) ⊕ Ended}

/-- What a branch comes to leaves fewer records as they are, too. -/
theorem of_suffix (hs : h <:+ h') (hc : Comes priority cancelled h' choices found result) :
    Comes priority cancelled h choices found result := by
  cases hc with
  | matched ht => exact .matched ht
  | back clock hs' ht => exact .back clock (hs.trans hs') ht
  | cancelled hc => exact .cancelled hc

/-- A branch that went back to the second side of a decision comes to what it comes to there. -/
theorem or {t : Trail} (ht : (Outcome.failed t).Stands priority cancelled found)
    (hc : Comes priority cancelled h choices found' result) :
    Comes priority cancelled h choices (found.or found') result := by
  cases hc with
  | matched ht' => exact .matched (ht.or ht')
  | back clock hs ht' => exact .back clock hs (ht.or ht')
  | cancelled hc => exact .cancelled hc

end Comes

/-- A branch that goes back to a decision takes up its second side with exactly the records of the
decision. -/
theorem later_retreat {h : History} {key : Option Key} {t : Trail} {pos : Nat}
    (hs : noted key pos h <:+ t.history) (node clock : Nat) (choices : List Choice) :
    ∃ t', t'.history = h ∧ later clock (retreat t (⟨node, pos, h.length⟩ :: choices)) =
      .inl (⟨node, pos, t', choices⟩, clock + 1) := by
  obtain ⟨t', ht', hback⟩ := retreat_to_second hs node choices
  exact ⟨t', ht', by rw [hback]; rfl⟩

/-- Runs of branches from spots with fewer paths than the bound stand for what is found there. -/
def RunsStand (moves : Moves) (priority : Priority) (bound : Nat)
    (run : Branch → Bool → State → Ended) : Prop :=
  ∀ branch cancelled s found k t, Exhausts moves s found k → k < bound → t.history = s.history →
    (run branch cancelled ⟨s.node, s.pos, t, []⟩).outcome.Stands priority cancelled found

/-- A branch that makes a step comes to what it comes to afterwards, unless it gives up instead. A
decision may be shared instead of kept as a choice. -/
theorem comes_of_step {h : History} {choices : List Choice} {found : Option History} {k : Nat}
    {s : State} {clock : Nat}
    (hstep : ∃ n, n ≤ k ∧ Comes terms.priority cancelled h choices found
      ((later clock (step moves s)).elim
        (advance (branchStep moves terms length run? branch cancelled) n) .inr))
    (hshare : ∀ first second key run, moves s.node s.pos s.trail = .choose first second key →
      run? = some run → Comes terms.priority cancelled h choices found
        (share terms run ⟨branch, clock⟩ cancelled first second key s)) :
    ∃ n, n ≤ k + 1 ∧ Comes terms.priority cancelled h choices found
      (advance (branchStep moves terms length run? branch cancelled) n (s, clock)) := by
  rcases @branchStep_cases moves terms length run? branch cancelled s clock with
    ⟨hc, he⟩ | he | he
  · exact ⟨1, by omega, by rw [advance_one, he]; exact .cancelled hc⟩
  · obtain ⟨n, hn, hcomes⟩ := hstep
    exact ⟨n + 1, by omega, by rw [advance_succ, he]; exact hcomes⟩
  · obtain ⟨first, second, key, run, hm, hrun, he⟩ := he
    exact ⟨1, by omega, by rw [advance_one, he]; exact hshare first second key run hm hrun⟩

/-- A branch comes to what it comes to after a step that is no decision: only a decision can be
shared. -/
theorem comes_of_plain (hm : ReadsHistory moves) {s : Spot} {t : Trail} {choices : List Choice}
    {found : Option History} {clock k : Nat} {m : Move} (ht : t.history = s.history)
    (h : s.move moves = m) (hne : ∀ first second key, m ≠ .choose first second key)
    (hgo : ∃ n, n ≤ k ∧ Comes terms.priority cancelled s.history choices found
      ((later clock (act m ⟨s.node, s.pos, t, choices⟩)).elim
        (advance (branchStep moves terms length run? branch cancelled) n) .inr)) :
    ∃ n, n ≤ k + 1 ∧ Comes terms.priority cancelled s.history choices found
      (advance (branchStep moves terms length run? branch cancelled) n
        (⟨s.node, s.pos, t, choices⟩, clock)) := by
  have hmove : moves s.node s.pos t = m := by
    rw [hm, ht]
    exact h
  refine comes_of_step (by rw [step, hmove]; exact hgo) ?_
  intro first second key _ hc
  exact absurd (hmove.symm.trans hc) (hne first second key)

/-- A branch that goes on after a decision comes to what both sides have found, or goes back with
all records of the decision. -/
theorem comes_afterRace {priority : Priority} {h : History} {found : Option History} {ended : Ended}
    {trail : Trail} (hs : h <:+ trail.history)
    (hstands : ended.outcome.Stands priority cancelled found)
    (hown : ∀ t, ended.own? = some t → trail.entries <+: t.entries) (clock : Nat)
    (choices : List Choice) :
    Comes priority cancelled h choices found (afterRace clock trail choices ended) := by
  rcases Ended.cases_of_stands hstands with ⟨t, own, rfl⟩ | ⟨own, rfl⟩
  · exact .matched hstands
  · have hafter : (trail.after own).history = trail.history :=
      congrArg List.reverse (Trail.entries_after_of_prefix (hown own rfl))
    exact .back clock (hafter ▸ hs) (hstands.of_failed _)

/-- A branch comes to what is found on the paths from a spot, in no more steps than spots lie on
them, if the sides of the decisions that it shares do so. -/
theorem Exhausts.comes (hm : ReadsHistory moves) {bound : Nat}
    (hrun : ∀ run, run? = some run → RunsStand moves terms.priority bound run)
    (hholds : ∀ run, run? = some run → RunsHold run) {s : Spot}
    {found : Option History} {k : Nat} (h : Exhausts moves s found k) (hk : k < bound) (t : Trail)
    (ht : t.history = s.history) (choices : List Choice) (clock : Nat) :
    ∃ n, n ≤ k ∧ Comes terms.priority cancelled s.history choices found
      (advance (branchStep moves terms length run? branch cancelled) n
        (⟨s.node, s.pos, t, choices⟩, clock)) := by
  induction h generalizing t choices clock with
  | @accept s h =>
    refine comes_of_plain hm ht h (by simp) ⟨0, Nat.le_refl 0, .matched fun _ _ => ?_⟩
    rw [Trail.history_push, ht]
  | goto h _ ih =>
    exact comes_of_plain hm ht h (by simp) (ih (by omega) t ht choices (clock + 1))
  | @mark s key node _ _ h _ ih =>
    obtain ⟨n, hn, hcomes⟩ := ih (by omega) (t.push key s.pos) (by rw [Trail.history_push, ht])
      choices (clock + 1)
    exact comes_of_plain hm ht h (by simp) ⟨n, hn, hcomes.of_suffix (List.suffix_cons _ _)⟩
  | @choose s first second key found found' k l h hf hs ihf ihs =>
    have hmove : moves s.node s.pos t = .choose first second key := by
      rw [hm, ht]
      exact h
    refine comes_of_step ?_ fun first' second' key' run hc hsome => ?_
    · obtain ⟨n, hn, hcomes⟩ := ihf (by omega) (record t key s.pos)
        (by rw [history_record, ht]) (⟨second, s.pos, t.top⟩ :: choices) (clock + 1)
      rw [step, hmove]
      change ∃ m, m ≤ k + l ∧ Comes terms.priority cancelled s.history choices (found.or found')
        (advance (branchStep moves terms length run? branch cancelled) m
          (⟨first, s.pos, record t key s.pos, ⟨second, s.pos, t.top⟩ :: choices⟩, clock + 1))
      generalize hresult : advance (branchStep moves terms length run? branch cancelled) n
        (⟨first, s.pos, record t key s.pos, ⟨second, s.pos, t.top⟩ :: choices⟩, clock + 1) =
          result at hcomes
      cases hcomes with
      | matched hmatched =>
        exact ⟨n, by omega, hresult ▸ .matched (hmatched.matched_or found')⟩
      | cancelled hc => exact ⟨n, by omega, hresult ▸ .cancelled hc⟩
      | back clock' hsuffix hfailed =>
        obtain ⟨t', ht', hback⟩ := later_retreat hsuffix second clock' choices
        obtain ⟨m, hmle, hcomes⟩ := ihs (by omega) t' ht' choices (clock' + 1)
        rw [← Trail.length_history, ht] at hresult ⊢
        rw [hback] at hresult
        exact ⟨n + m, by omega, by rw [advance_add hresult]; exact hcomes.or hfailed⟩
    · obtain ⟨rfl, rfl, rfl⟩ := Move.choose.inj (hmove.symm.trans hc)
      have hcopy : t.copy.history = s.history :=
        (congrArg List.reverse t.entries_copy).trans ht
      have hrecord : (record t key s.pos).history = noted key s.pos s.history := by
        rw [history_record, ht]
      refine comes_afterRace (hrecord ▸ suffix_noted key s.pos s.history) (race_stands ?_ ?_)
        (fun t => race_own (hholds run hsome) rfl) clock choices
      · exact fun branch cancelled => hrun run hsome branch cancelled _ _ _ _ hf (by omega) hrecord
      · exact fun branch cancelled => hrun run hsome branch cancelled _ _ _ _ hs (by omega) hcopy
  | @reject s h =>
    refine comes_of_plain hm ht h (by simp) ⟨0, Nat.le_refl 0, ?_⟩
    have hback : Comes terms.priority cancelled s.history choices none
        (later clock (retreat t choices)) := .back clock (ht ▸ List.suffix_rfl) trivial
    change Comes _ _ _ _ _ ((later clock (retreat t choices)).elim _ _)
    generalize later clock (retreat t choices) = result at hback ⊢
    cases result <;> exact hback

/-- A branch without choices ends within the bound, with an outcome that stands for what is found on
the paths from where it begins. -/
theorem branch_stands (hm : ReadsHistory moves) {rounds : Nat}
    (hrun : ∀ run, run? = some run → RunsStand moves terms.priority (2 ^ rounds) run)
    (hholds : ∀ run, run? = some run → RunsHold run) :
    RunsStand moves terms.priority (2 ^ rounds) fun branch cancelled s => endOf
      (iterate (branchStep moves terms length run? branch cancelled) rounds (s, 0)) := by
  intro branch cancelled s found k t h hk ht
  obtain ⟨n, result, hn, he, hcomes⟩ : ∃ n result, n ≤ k ∧
      advance (branchStep moves terms length run? branch cancelled) n
        (⟨s.node, s.pos, t, []⟩, 0) = result ∧
      Comes terms.priority cancelled s.history [] found result := by
    obtain ⟨n, hn, hcomes⟩ := h.comes hm hrun hholds hk t ht [] 0
    exact ⟨n, _, hn, rfl, hcomes⟩
  have hend {ended : Ended} (ho : result = .inr ended) : endOf
      (iterate (branchStep moves terms length run? branch cancelled) rounds
        (⟨s.node, s.pos, t, []⟩, 0)) = ended := by
    rw [iterate_of_advance (he.trans ho) (Nat.lt_of_le_of_lt hn hk)]
    rfl
  change Outcome.Stands _ _ (Ended.outcome (endOf _)) _
  cases hcomes with
  | matched hmatched => exact hend rfl ▸ hmatched
  | back clock hs hfailed => exact hend rfl ▸ hfailed
  | cancelled hc => exact hend rfl ▸ .failed hc found

end Branch

/-- Whatever the workers do, a branch with fewer paths than the bound stands for what is found on
them, at each depth to which decisions may still be shared. -/
theorem runBranch_stands {moves : Moves} (hm : ReadsHistory moves) (terms : Speculation)
    (length rounds depth : Nat) :
    RunsStand moves terms.priority (2 ^ rounds) (runBranch moves terms length rounds depth) := by
  induction depth with
  | zero => exact branch_stands hm (fun _ hrun => nomatch hrun) fun _ hrun => nomatch hrun
  | succ depth ih =>
    exact branch_stands hm (fun _ hrun => Option.some.inj hrun ▸ ih)
      fun _ hrun => Option.some.inj hrun ▸ runBranch_holds moves terms length rounds depth

/-- A search that shares its decisions is never cancelled as a whole: it matches if and only if
something is found on the paths from where it begins, and with what is found if matches are
preferred in their order. -/
theorem Exhausts.runShared_stands {moves : Moves} (hm : ReadsHistory moves) {s : State}
    {found : Option History} {k rounds : Nat} (h : Exhausts moves s.spot found k)
    (hs : s.choices = []) (hk : k < 2 ^ rounds) (terms : Speculation) (length : Nat) :
    (runShared moves terms length rounds s).outcome.Stands terms.priority false found := by
  obtain ⟨node, pos, trail, choices⟩ := s
  obtain rfl : choices = [] := hs
  exact runBranch_stands hm terms length rounds maxDepth [] false _ _ _ trail h hk rfl

end BacktrackRegex.Search
