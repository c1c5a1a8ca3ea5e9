import BacktrackRegex.Proofs.Search.History
import BacktrackRegex.Search.Machine
import Mathlib.Algebra.Group.Nat.Defs
import Mathlib.Logic.Relation

/-!
# Paths of a search

A spot of a search is a node, a place of the text and the records that lead there. Its move decides
where a path can go on: a decision leads to two spots, every other move to at most one. The machine
explores the spots in a certain order. Exploring a spot ends with the first success among the paths
from there, and takes a number of steps that does not depend on the choices below it. Where every
path descends in rank, exploring a spot ends after at most exponentially many steps.
-/

namespace BacktrackRegex.Search

open History

/-- A node, a place of the text, and the records that lead there. -/
structure Spot where
  node : Nat
  pos : Nat
  history : History

namespace Spot

/-- The move of a spot. -/
def move (moves : Moves) (s : Spot) : Move :=
  moves s.node s.pos (.ofHistory s.history)

end Spot

/-- The spot at which a search stands. -/
def State.spot (s : State) : Spot :=
  ⟨s.node, s.pos, s.trail.history⟩

/-- The moves depend on the records of the trail only, and not on its storage. -/
def ReadsHistory (moves : Moves) : Prop :=
  ∀ node pos t, moves node pos t = moves node pos (.ofHistory t.history)

/-- One spot of a path leads to the next one. -/
inductive Leads (moves : Moves) : Spot → Spot → Prop where
  | goto {s node pos} (h : s.move moves = .goto node pos) : Leads moves s ⟨node, pos, s.history⟩
  | mark {s key node} (h : s.move moves = .mark key node) :
      Leads moves s ⟨node, s.pos, ⟨key, s.pos⟩ :: s.history⟩
  | first {s first second key} (h : s.move moves = .choose first second key) :
      Leads moves s ⟨first, s.pos, noted key s.pos s.history⟩
  | second {s first second key} (h : s.move moves = .choose first second key) :
      Leads moves s ⟨second, s.pos, s.history⟩

/-- What the paths from a spot come to. -/
inductive Finding where
  /-- One of them succeeds, with these records. -/
  | matched (history : History)
  /-- None of them succeeds. -/
  | failed
  /-- The search cannot go on. -/
  | faulted (fault : Fault)
  deriving DecidableEq

/-- Exploring a spot ends with a finding after a number of steps, and every spot on the way has a
property. The second spot of a decision is explored if and only if the first one comes to
nothing. -/
inductive Explores (moves : Moves) (P : Spot → Prop) : Spot → Finding → Nat → Prop where
  | accept {s} (hs : P s) (h : s.move moves = .accept) :
      Explores moves P s (.matched (⟨.group 0, s.pos⟩ :: s.history)) 1
  | goto {s node pos r k} (hs : P s) (h : s.move moves = .goto node pos)
      (hr : Explores moves P ⟨node, pos, s.history⟩ r k) : Explores moves P s r (k + 1)
  | mark {s key node r k} (hs : P s) (h : s.move moves = .mark key node)
      (hr : Explores moves P ⟨node, s.pos, ⟨key, s.pos⟩ :: s.history⟩ r k) :
      Explores moves P s r (k + 1)
  | first {s first second key r k} (hs : P s) (h : s.move moves = .choose first second key)
      (hr : Explores moves P ⟨first, s.pos, noted key s.pos s.history⟩ r k) (hne : r ≠ .failed) :
      Explores moves P s r (k + 1)
  | second {s first second key r k l} (hs : P s) (h : s.move moves = .choose first second key)
      (hf : Explores moves P ⟨first, s.pos, noted key s.pos s.history⟩ .failed k)
      (hr : Explores moves P ⟨second, s.pos, s.history⟩ r l) : Explores moves P s r (k + l + 1)
  | reject {s} (hs : P s) (h : s.move moves = .reject) : Explores moves P s .failed 1
  | fail {s fault} (hs : P s) (h : s.move moves = .fail fault) :
      Explores moves P s (.faulted fault) 1

namespace Explores

variable {moves : Moves} {P Q : Spot → Prop} {s : Spot} {r r' : Finding} {k k' : Nat}

/-- A decision comes to what its first spot comes to, or else to what its second one does. -/
theorem choose {first second : Nat} {key : Option Key} {l : Nat} (hs : P s)
    (h : s.move moves = .choose first second key)
    (hr : Explores moves P ⟨first, s.pos, noted key s.pos s.history⟩ r k)
    (hr' : Explores moves P ⟨second, s.pos, s.history⟩ r' l) :
    ∃ n, Explores moves P s (if r = .failed then r' else r) n := by
  by_cases hf : r = .failed
  · rw [if_pos hf]
    exact ⟨k + l + 1, .second hs h (hf ▸ hr) hr'⟩
  · rw [if_neg hf]
    exact ⟨k + 1, .first hs h hr hf⟩

/-- Exploring a spot comes to the same where all spots on the way make other moves that are the
same. -/
theorem congr {moves' : Moves} (h : Explores moves P s r k)
    (hm : ∀ s, P s → s.move moves' = s.move moves) : Explores moves' P s r k := by
  induction h with
  | accept hs h => exact .accept hs ((hm _ hs).trans h)
  | goto hs h _ ih => exact .goto hs ((hm _ hs).trans h) ih
  | mark hs h _ ih => exact .mark hs ((hm _ hs).trans h) ih
  | first hs h _ hne ih => exact .first hs ((hm _ hs).trans h) ih hne
  | second hs h _ _ ihf ihr => exact .second hs ((hm _ hs).trans h) ihf ihr
  | reject hs h => exact .reject hs ((hm _ hs).trans h)
  | fail hs h => exact .fail hs ((hm _ hs).trans h)

/-- Exploring a spot has one finding, after one number of steps. -/
theorem unique (h : Explores moves P s r k) (h' : Explores moves Q s r' k') :
    r = r' ∧ k = k' := by
  induction h generalizing r' k' with
  | accept _ h => cases h' <;> simp_all
  | goto _ h _ ih =>
    cases h' with
    | goto _ h₁ hr =>
      obtain ⟨rfl, rfl⟩ := Move.goto.inj (h.symm.trans h₁)
      simpa using ih hr
    | _ => simp_all
  | mark _ h _ ih =>
    cases h' with
    | mark _ h₁ hr =>
      obtain ⟨rfl, rfl⟩ := Move.mark.inj (h.symm.trans h₁)
      simpa using ih hr
    | _ => simp_all
  | first _ h _ hne ih =>
    cases h' with
    | first _ h₁ hr _ =>
      obtain ⟨rfl, rfl, rfl⟩ := Move.choose.inj (h.symm.trans h₁)
      simpa using ih hr
    | second _ h₁ hf _ =>
      obtain ⟨rfl, rfl, rfl⟩ := Move.choose.inj (h.symm.trans h₁)
      exact absurd (ih hf).1 hne
    | _ => simp_all
  | second _ h _ _ ihf ihr =>
    cases h' with
    | first _ h₁ hr hne =>
      obtain ⟨rfl, rfl, rfl⟩ := Move.choose.inj (h.symm.trans h₁)
      exact absurd (ihf hr).1.symm hne
    | second _ h₁ hf hr =>
      obtain ⟨rfl, rfl, rfl⟩ := Move.choose.inj (h.symm.trans h₁)
      obtain ⟨-, rfl⟩ := ihf hf
      obtain ⟨rfl, rfl⟩ := ihr hr
      exact ⟨rfl, rfl⟩
    | _ => simp_all
  | reject _ h => cases h' <;> simp_all
  | fail _ h => cases h' <;> simp_all

end Explores

/-! ## Steps of the machine -/

/-- Takes exactly `n` steps, fewer if one of them gives a result. -/
def advance {σ ρ : Type} (step : σ → σ ⊕ ρ) : Nat → σ → σ ⊕ ρ
  | 0, s => .inl s
  | n + 1, s =>
    match step s with
    | .inl s => advance step n s
    | .inr r => .inr r

section Advance

variable {σ ρ : Type} {step : σ → σ ⊕ ρ}

/-- Steps begin with a step. -/
theorem advance_succ (n : Nat) (s : σ) :
    advance step (n + 1) s = (step s).elim (advance step n) .inr := by
  rw [advance]
  cases step s <;> rfl

/-- One step is a step. -/
theorem advance_one (s : σ) : advance step 1 s = step s := by
  rw [advance_succ]
  cases step s <;> rfl

/-- Steps can be taken one after the other. -/
theorem advance_add {m n : Nat} {s s' : σ} (h : advance step m s = .inl s') :
    advance step (m + n) s = advance step n s' := by
  induction m generalizing s with
  | zero =>
    obtain rfl : s = s' := by simpa [advance] using h
    rw [Nat.zero_add]
  | succ m ih =>
    rw [Nat.add_right_comm]
    rw [advance] at h ⊢
    split at h
    · next he => simpa only [he] using ih h
    · simp at h

/-- A result stays whatever number of steps is allowed beyond. -/
theorem advance_of_le {m n : Nat} {s : σ} {r : ρ} (h : advance step m s = .inr r) (hmn : m ≤ n) :
    advance step n s = .inr r := by
  induction m generalizing s n with
  | zero => simp [advance] at h
  | succ m ih =>
    obtain ⟨n, rfl⟩ : ∃ n', n = n' + 1 := ⟨n - 1, by omega⟩
    rw [advance] at h ⊢
    split at h
    · next he => simpa only [he] using ih h (by omega)
    · next he => simpa only [he] using h

/-- The last of some steps is a step. -/
theorem exists_of_advance_succ {n : Nat} {s s' : σ} (h : advance step (n + 1) s = .inl s') :
    ∃ s₁, advance step n s = .inl s₁ ∧ step s₁ = .inl s' := by
  cases he : advance step n s with
  | inl s₁ =>
    rw [advance_add he, advance_one] at h
    exact ⟨s₁, rfl, h⟩
  | inr r =>
    rw [advance_of_le he (Nat.le_succ n)] at h
    simp at h

/-- What each step keeps, all steps keep. -/
theorem advance_invariant (P : σ → Prop) (hstep : ∀ s s', P s → step s = .inl s' → P s') {n : Nat}
    {s s' : σ} (h : P s) (hs : advance step n s = .inl s') : P s' := by
  induction n generalizing s' with
  | zero =>
    obtain rfl := Sum.inl.inj hs
    exact h
  | succ n ih =>
    obtain ⟨s₁, hs₁, hlast⟩ := exists_of_advance_succ hs
    exact hstep s₁ s' (ih hs₁) hlast

/-- What each step keeps until it shows something of its result, all steps keep or show. -/
theorem advance_elim {P : σ → Prop} {Q : ρ → Prop} (hstep : ∀ s, P s → (step s).elim P Q) (n : Nat)
    {s : σ} (h : P s) : (advance step n s).elim P Q := by
  induction n generalizing s with
  | zero => exact h
  | succ n ih =>
    have hnext := hstep s h
    rw [advance_succ]
    generalize step s = x at hnext
    cases x with
    | inl s' => exact ih hnext
    | inr r => exact hnext

/-- Halving takes a power of two of steps. -/
theorem stepsFor_eq (k : Nat) (s : σ) : stepsFor step k s = advance step (2 ^ k) s := by
  induction k generalizing s with
  | zero =>
    rw [stepsFor, Nat.pow_zero, advance]
    cases step s <;> rfl
  | succ k ih =>
    rw [stepsFor, ih, Nat.pow_succ, Nat.mul_two]
    cases he : advance step (2 ^ k) s with
    | inl s' => rw [advance_add he]; exact ih s'
    | inr r => exact (advance_of_le he (Nat.le_add_right _ _)).symm

/-- Rounds take as many steps as their powers of two add up to. -/
theorem roundsFrom_eq (rounds k : Nat) (s : σ) :
    roundsFrom step rounds k s = advance step (2 ^ (k + rounds) - 2 ^ k) s := by
  induction rounds generalizing k s with
  | zero => simp [roundsFrom, advance]
  | succ rounds ih =>
    have hle : 2 ^ (k + 1) ≤ 2 ^ (k + 1 + rounds) :=
      Nat.pow_le_pow_right (by decide) (Nat.le_add_right _ _)
    have hsum : 2 ^ (k + (rounds + 1)) - 2 ^ k =
        2 ^ k + (2 ^ (k + 1 + rounds) - 2 ^ (k + 1)) := by
      rw [show k + (rounds + 1) = k + 1 + rounds by omega]
      rw [Nat.pow_succ] at hle ⊢
      omega
    rw [roundsFrom, stepsFor_eq, hsum]
    cases he : advance step (2 ^ k) s with
    | inl s' => rw [advance_add he]; exact ih (k + 1) s'
    | inr r => exact (advance_of_le he (Nat.le_add_right _ _)).symm

/-- An iteration takes one step less than its bound. -/
theorem iterate_eq (rounds : Nat) (s : σ) :
    iterate step rounds s = advance step (2 ^ rounds - 1) s := by
  rw [iterate, roundsFrom_eq, Nat.zero_add, Nat.pow_zero]

/-- A result within the bound is the result of the iteration. -/
theorem iterate_of_advance {k rounds : Nat} {s : σ} {r : ρ} (h : advance step k s = .inr r)
    (hk : k < 2 ^ rounds) : iterate step rounds s = .inr r := by
  rw [iterate_eq]
  exact advance_of_le h (by omega)

end Advance

variable {moves : Moves} {P : Spot → Prop}

/-- A step makes the move of the spot. -/
theorem step_eq (hm : ReadsHistory moves) (s : State) :
    step moves s = act (s.spot.move moves) s := by
  rw [step, hm]
  rfl

/-- A step from a state with the records of a spot makes the move of the spot. -/
theorem step_at (hm : ReadsHistory moves) {s : Spot} {t : Trail} (ht : t.history = s.history)
    (choices : List Choice) : step moves ⟨s.node, s.pos, t, choices⟩ =
      act (s.move moves) ⟨s.node, s.pos, t, choices⟩ := by
  rw [step_eq hm, State.spot, ht]

/-- Records under a key come in front of the history. -/
theorem history_record (t : Trail) (key : Option Key) (pos : Nat) :
    (record t key pos).history = noted key pos t.history := by
  cases key <;> simp [record, noted]

/-- Recording only adds to a history. -/
theorem suffix_noted (key : Option Key) (pos : Nat) (h : History) : h <:+ noted key pos h := by
  cases key
  · exact List.suffix_rfl
  · exact List.suffix_cons _ _

/-- What the machine comes to, given the finding at its spot and the choices below. -/
def Settles (h : History) (choices : List Choice) (result : State ⊕ Outcome) : Finding → Prop
  | .matched h' => ∃ t, t.history = h' ∧ result = .inr (.matched t)
  | .failed => ∃ t, h <:+ t.history ∧ result = retreat t choices
  | .faulted fault => result = .inr (.faulted fault)

/-- A finding is settled for fewer records as well. -/
theorem Settles.of_suffix {h h' : History} {choices : List Choice} {result : State ⊕ Outcome}
    {r : Finding} (hs : h <:+ h') (hr : Settles h' choices result r) :
    Settles h choices result r := by
  cases r with
  | matched _ => exact hr
  | failed =>
    obtain ⟨t, ht, he⟩ := hr
    exact ⟨t, hs.trans ht, he⟩
  | faulted _ => exact hr

/-- A machine that goes back to a decision takes up its second spot with exactly the records of the
decision. -/
theorem retreat_to_second {h : History} {key : Option Key} {t : Trail} {pos : Nat}
    (hs : noted key pos h <:+ t.history) (node : Nat) (choices : List Choice) :
    ∃ t', t'.history = h ∧
      retreat t (⟨node, pos, h.length⟩ :: choices) = .inl ⟨node, pos, t', choices⟩ := by
  obtain ⟨t', hcut, ht'⟩ := Trail.cut_of_suffix ((suffix_noted key pos h).trans hs)
  exact ⟨t', ht', by simp only [retreat, hcut]⟩

/-- When the first spot of a decision has failed, the machine takes up the second one with exactly
the records of the decision. -/
theorem Settles.resume {h : History} {key : Option Key} {node pos : Nat} {choices : List Choice}
    {result : State ⊕ Outcome}
    (hr : Settles (noted key pos h) (⟨node, pos, h.length⟩ :: choices) result .failed) :
    ∃ t, t.history = h ∧ result = .inl ⟨node, pos, t, choices⟩ := by
  obtain ⟨t, hs, rfl⟩ := hr
  exact retreat_to_second hs node choices

/-- The machine explores the spot at which it stands, and goes back to its choices only when all
paths from there have failed. The records below the spot are then still on the trail. -/
theorem Explores.settles (hm : ReadsHistory moves) {s : Spot} {r : Finding} {k : Nat}
    (h : Explores moves P s r k) (t : Trail) (ht : t.history = s.history) (choices : List Choice) :
    Settles s.history choices (advance (step moves) k ⟨s.node, s.pos, t, choices⟩) r := by
  induction h generalizing t choices with
  | @accept s _ h =>
    rw [advance, step_at hm ht, h]
    exact ⟨_, by rw [Trail.history_push, ht], rfl⟩
  | @goto s node pos r k _ h _ ih =>
    rw [advance, step_at hm ht, h]
    exact ih t ht choices
  | @mark s key node r k _ h _ ih =>
    rw [advance, step_at hm ht, h]
    exact (ih (t.push key s.pos) (by rw [Trail.history_push, ht]) choices).of_suffix
      (List.suffix_cons _ _)
  | @first s a b key r k _ h _ hne ih =>
    rw [advance, step_at hm ht, h]
    have hr := ih (record t key s.pos) (by rw [history_record, ht]) (⟨b, s.pos, t.top⟩ :: choices)
    cases r with
    | matched _ => exact hr
    | failed => exact absurd rfl hne
    | faulted _ => exact hr
  | @second s a b key r k l _ h _ _ ihf ihr =>
    rw [advance, step_at hm ht, h]
    have hf := ihf (record t key s.pos) (by rw [history_record, ht]) (⟨b, s.pos, t.top⟩ :: choices)
    rw [← Trail.length_history, ht] at hf
    obtain ⟨t', ht', hback⟩ := hf.resume
    change Settles _ _ (advance (step moves) (k + l) _) r
    rw [← Trail.length_history, ht, advance_add hback]
    exact ihr t' ht' choices
  | @reject s _ h =>
    have hact : act .reject ⟨s.node, s.pos, t, choices⟩ = retreat t choices := rfl
    rw [advance, step_at hm ht, h, hact]
    refine ⟨t, ht ▸ List.suffix_rfl, ?_⟩
    cases retreat t choices <;> rfl
  | @fail s fault _ h =>
    rw [advance, step_at hm ht, h]
    rfl

/-- The outcome of a search shows a finding at the spot where it began. -/
def Outcome.Shows : Outcome → Finding → Prop
  | .matched t, .matched h => t.history = h
  | .failed _, .failed => True
  | .faulted fault, .faulted fault' => fault = fault'
  | _, _ => False

/-- An outcome shows one finding only. -/
theorem Outcome.Shows.unique {outcome : Outcome} {r r' : Finding} (h : outcome.Shows r)
    (h' : outcome.Shows r') : r = r' := by
  cases outcome <;> cases r <;> cases r' <;> simp_all [Shows]

/-- A search without choices ends when its spot is explored. -/
theorem Explores.ends (hm : ReadsHistory moves) {s : Spot} {r : Finding} {k : Nat}
    (h : Explores moves P s r k) (t : Trail) (ht : t.history = s.history) :
    ∃ outcome : Outcome,
      advance (step moves) k ⟨s.node, s.pos, t, []⟩ = .inr outcome ∧ outcome.Shows r := by
  have hr := h.settles hm t ht []
  cases r with
  | matched _ =>
    obtain ⟨t', ht', he⟩ := hr
    exact ⟨.matched t', he, ht'⟩
  | failed =>
    obtain ⟨t', -, he⟩ := hr
    exact ⟨.failed t', he, trivial⟩
  | faulted fault => exact ⟨.faulted fault, hr, rfl⟩

/-- The machine stands at spots with the property for as long as it explores a spot. -/
theorem Explores.visits (hm : ReadsHistory moves) {s : Spot} {r : Finding} {k : Nat}
    (h : Explores moves P s r k) (t : Trail) (ht : t.history = s.history) (choices : List Choice)
    (n : Nat) (hn : n < k) :
    ∃ s', advance (step moves) n ⟨s.node, s.pos, t, choices⟩ = .inl s' ∧ P s'.spot := by
  have here {s : Spot} (hs : P s) (t : Trail) (ht : t.history = s.history)
      (choices : List Choice) :
      ∃ s', advance (step moves) 0 ⟨s.node, s.pos, t, choices⟩ = .inl s' ∧ P s'.spot :=
    ⟨_, rfl, by rw [State.spot, ht]; exact hs⟩
  induction h generalizing t choices n with
  | accept hs _ | reject hs _ | fail hs _ =>
    obtain rfl : n = 0 := by omega
    exact here hs t ht choices
  | @goto s _ _ _ _ hs h _ ih =>
    cases n with
    | zero => exact here hs t ht choices
    | succ n =>
      rw [advance, step_at hm ht, h]
      exact ih t ht choices n (by omega)
  | @mark s _ _ _ _ hs h _ ih =>
    cases n with
    | zero => exact here hs t ht choices
    | succ n =>
      rw [advance, step_at hm ht, h]
      exact ih _ (by rw [Trail.history_push, ht]) choices n (by omega)
  | @first s _ _ _ _ _ hs h _ _ ih =>
    cases n with
    | zero => exact here hs t ht choices
    | succ n =>
      rw [advance, step_at hm ht, h]
      exact ih _ (by rw [history_record, ht]) _ n (by omega)
  | @second s a b key r k l hs h hf _ ihf ihr =>
    cases n with
    | zero => exact here hs t ht choices
    | succ n =>
      rw [advance, step_at hm ht, h]
      by_cases hk : n < k
      · exact ihf (record t key s.pos) (by rw [history_record, ht]) _ n hk
      · obtain ⟨m, rfl⟩ : ∃ m, n = k + m := ⟨n - k, by omega⟩
        have hf := hf.settles hm (record t key s.pos) (by rw [history_record, ht])
          (⟨b, s.pos, t.top⟩ :: choices)
        rw [← Trail.length_history, ht] at hf
        obtain ⟨t', ht', hback⟩ := hf.resume
        change ∃ s', advance (step moves) (k + m) _ = _ ∧ _
        rw [← Trail.length_history, ht, advance_add hback]
        exact ihr t' ht' choices m (by omega)

/-- A search whose bound is large enough shows the finding at its spot. -/
theorem Explores.run_shows (hm : ReadsHistory moves) {s : State} {r : Finding} {k rounds : Nat}
    (h : Explores moves P s.spot r k) (hs : s.choices = []) (hk : k < 2 ^ rounds) :
    (run moves rounds s).Shows r := by
  obtain ⟨node, pos, trail, choices⟩ := s
  obtain rfl : choices = [] := hs
  obtain ⟨outcome, he, hshows⟩ := h.ends hm trail rfl
  have he' : advance (step moves) k ⟨node, pos, trail, []⟩ = .inr outcome := he
  rw [run, iterate_of_advance he' hk]
  exact hshows

/-! ## Ranks -/

/-- If a rank descends along all paths from a spot, exploring it takes fewer steps than a binary
tree of that height has nodes. -/
theorem exists_explores (P : Spot → Prop) (rank : Spot → Nat)
    (hstep : ∀ s s', P s → Leads moves s s' → P s' ∧ rank s' < rank s) {s : Spot} (hs : P s) :
    ∃ r k, Explores moves P s r k ∧ k < 2 ^ (rank s + 1) := by
  induction hn : rank s using Nat.strongRecOn generalizing s with
  | ind n ih =>
    have hone : 1 < 2 ^ (n + 1) := Nat.one_lt_two_pow (Nat.succ_ne_zero n)
    have next {s'} (hl : Leads moves s s') : ∃ r k, Explores moves P s' r k ∧ k < 2 ^ n := by
      obtain ⟨hp, hr⟩ := hstep s s' hs hl
      obtain ⟨r, k, he, hk⟩ := ih (rank s') (hn ▸ hr) hp rfl
      exact ⟨r, k, he, Nat.lt_of_lt_of_le hk (Nat.pow_le_pow_right (by decide) (hn ▸ hr))⟩
    rw [Nat.pow_succ] at hone ⊢
    cases hmove : s.move moves with
    | accept => exact ⟨_, 1, .accept hs hmove, hone⟩
    | goto node pos =>
      obtain ⟨r, k, he, hk⟩ := next (.goto hmove)
      exact ⟨r, k + 1, .goto hs hmove he, by omega⟩
    | mark key node =>
      obtain ⟨r, k, he, hk⟩ := next (.mark hmove)
      exact ⟨r, k + 1, .mark hs hmove he, by omega⟩
    | choose first second key =>
      obtain ⟨r, k, he, hk⟩ := next (.first hmove)
      by_cases hr : r = .failed
      · obtain ⟨r', l, he', hl⟩ := next (.second hmove)
        exact ⟨r', k + l + 1, .second hs hmove (hr ▸ he) he', by omega⟩
      · exact ⟨r, k + 1, .first hs hmove he hr, by omega⟩
    | reject => exact ⟨_, 1, .reject hs hmove, hone⟩
    | fail fault => exact ⟨_, 1, .fail hs hmove, hone⟩

end BacktrackRegex.Search
