import BacktrackRegex.Proofs.Search.Path

/-!
# Exhausting a spot

The paths from a spot form a tree. A search explores it only up to the first success, but one that
shares its decisions may also follow paths behind that, and a search that is less careful may follow
paths that another one gives up. Exhausting a spot follows all paths from there: each of them ends,
and none in a fault. What is found is the first success among them. The number of spots on the way
bounds the steps of every search that follows some of these paths.
-/

namespace BacktrackRegex.Search

open History

/-- All paths from a spot end, and none in a fault. The first success among them, if there is one,
has certain records, and so many spots lie on the paths. -/
inductive Exhausts (moves : Moves) : Spot → Option History → Nat → Prop where
  | accept {s} (h : s.move moves = .accept) :
      Exhausts moves s (some (⟨.group 0, s.pos⟩ :: s.history)) 1
  | goto {s node pos found k} (h : s.move moves = .goto node pos)
      (hr : Exhausts moves ⟨node, pos, s.history⟩ found k) : Exhausts moves s found (k + 1)
  | mark {s key node found k} (h : s.move moves = .mark key node)
      (hr : Exhausts moves ⟨node, s.pos, ⟨key, s.pos⟩ :: s.history⟩ found k) :
      Exhausts moves s found (k + 1)
  | choose {s first second key found found' k l} (h : s.move moves = .choose first second key)
      (hf : Exhausts moves ⟨first, s.pos, noted key s.pos s.history⟩ found k)
      (hs : Exhausts moves ⟨second, s.pos, s.history⟩ found' l) :
      Exhausts moves s (found.or found') (k + l + 1)
  | reject {s} (h : s.move moves = .reject) : Exhausts moves s none 1

/-- The first success on the paths from a spot as a finding. -/
def Finding.of? : Option History → Finding
  | some h => .matched h
  | none => .failed

namespace Exhausts

variable {moves : Moves} {s : Spot} {found : Option History} {k : Nat}

/-- Some spot lies on the paths. -/
theorem pos (h : Exhausts moves s found k) : 0 < k := by
  cases h <;> omega

/-- Exploring a spot follows some of its paths, and finds the first success. -/
theorem explores (h : Exhausts moves s found k) :
    ∃ k', Explores moves (fun _ => True) s (.of? found) k' ∧ k' ≤ k := by
  induction h with
  | accept h => exact ⟨1, .accept trivial h, Nat.le_refl 1⟩
  | goto h _ ih =>
    obtain ⟨k', he, hk⟩ := ih
    exact ⟨k' + 1, .goto trivial h he, Nat.succ_le_succ hk⟩
  | mark h _ ih =>
    obtain ⟨k', he, hk⟩ := ih
    exact ⟨k' + 1, .mark trivial h he, Nat.succ_le_succ hk⟩
  | @choose _ _ _ _ found found' _ _ h _ _ ihf ihs =>
    obtain ⟨k', he, hk⟩ := ihf
    cases found with
    | some history => exact ⟨k' + 1, .first trivial h he (by simp [Finding.of?]), by omega⟩
    | none =>
      obtain ⟨l', he', hl⟩ := ihs
      exact ⟨k' + l' + 1, .second trivial h he he', by omega⟩
  | reject h => exact ⟨1, .reject trivial h, Nat.le_refl 1⟩

/-- What is found lies at the end of a path. -/
theorem exists_path (h : Exhausts moves s found k) {history : History}
    (hf : found = some history) : ∃ s', Relation.ReflTransGen (Leads moves) s s' ∧
      s'.move moves = .accept ∧ history = ⟨.group 0, s'.pos⟩ :: s'.history := by
  induction h with
  | accept h => exact ⟨_, .refl, h, (Option.some.inj hf).symm⟩
  | goto h _ ih =>
    obtain ⟨s', hpath, hend⟩ := ih hf
    exact ⟨s', .head (.goto h) hpath, hend⟩
  | mark h _ ih =>
    obtain ⟨s', hpath, hend⟩ := ih hf
    exact ⟨s', .head (.mark h) hpath, hend⟩
  | choose h _ _ ihf ihs =>
    rcases Option.or_eq_some_iff.mp hf with hf | ⟨-, hf⟩
    · obtain ⟨s', hpath, hend⟩ := ihf hf
      exact ⟨s', .head (.first h) hpath, hend⟩
    · obtain ⟨s', hpath, hend⟩ := ihs hf
      exact ⟨s', .head (.second h) hpath, hend⟩
  | reject _ => simp at hf

end Exhausts

/-- A search whose bound is large enough ends with what is found on the paths from its spot. -/
theorem Exhausts.run_shows {moves : Moves} (hm : ReadsHistory moves) {s : State}
    {found : Option History} {k rounds : Nat} (h : Exhausts moves s.spot found k)
    (hs : s.choices = []) (hk : k < 2 ^ rounds) : (run moves rounds s).Shows (.of? found) := by
  obtain ⟨k', he, hk'⟩ := h.explores
  exact he.run_shows hm hs (Nat.lt_of_le_of_lt hk' hk)

/-- An outcome that shows the first success on some paths is a match with its records, or a failure
if there is none. -/
theorem Outcome.Shows.cases_of? {outcome : Outcome} {found : Option History}
    (h : outcome.Shows (.of? found)) : (∃ t, outcome = .failed t ∧ found = none) ∨
      ∃ t, outcome = .matched t ∧ found = some t.history := by
  cases found with
  | none =>
    cases outcome with
    | failed t => exact Or.inl ⟨t, rfl, rfl⟩
    | _ => exact h.elim
  | some history =>
    cases outcome with
    | matched t => exact Or.inr ⟨t, rfl, congrArg some (Eq.symm h)⟩
    | _ => exact h.elim

/-- If a rank descends along all paths from a spot, and none meets a fault, the spot can be
exhausted, and fewer spots lie on the paths than a binary tree of that height has nodes. -/
theorem exists_exhausts {moves : Moves} (P : Spot → Prop) (rank : Spot → Nat)
    (hstep : ∀ s s', P s → Leads moves s s' → P s' ∧ rank s' < rank s)
    (hfault : ∀ s fault, P s → s.move moves ≠ .fail fault) {s : Spot} (hs : P s) :
    ∃ found k, Exhausts moves s found k ∧ k < 2 ^ (rank s + 1) := by
  induction hn : rank s using Nat.strongRecOn generalizing s with
  | ind n ih =>
    have hone : 1 < 2 ^ (n + 1) := Nat.one_lt_two_pow (Nat.succ_ne_zero n)
    have next {s'} (hl : Leads moves s s') : ∃ found k, Exhausts moves s' found k ∧ k < 2 ^ n := by
      obtain ⟨hp, hr⟩ := hstep s s' hs hl
      obtain ⟨found, k, he, hk⟩ := ih (rank s') (hn ▸ hr) hp rfl
      exact ⟨found, k, he,
        Nat.lt_of_lt_of_le hk (Nat.pow_le_pow_right (by decide) (hn ▸ hr))⟩
    rw [Nat.pow_succ] at hone ⊢
    cases hmove : s.move moves with
    | accept => exact ⟨_, 1, .accept hmove, hone⟩
    | goto node pos =>
      obtain ⟨found, k, he, hk⟩ := next (.goto hmove)
      exact ⟨found, k + 1, .goto hmove he, by omega⟩
    | mark key node =>
      obtain ⟨found, k, he, hk⟩ := next (.mark hmove)
      exact ⟨found, k + 1, .mark hmove he, by omega⟩
    | choose first second key =>
      obtain ⟨found, k, he, hk⟩ := next (.first hmove)
      obtain ⟨found', l, he', hl⟩ := next (.second hmove)
      exact ⟨_, k + l + 1, .choose hmove he he', by omega⟩
    | reject => exact ⟨none, 1, .reject hmove, hone⟩
    | fail fault => exact absurd hmove (hfault s fault hs)

end BacktrackRegex.Search
