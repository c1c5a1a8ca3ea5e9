import BacktrackRegex.Proofs.Search.Kept
import Mathlib.Data.Sum.Basic

/-!
# Searches over other storages

A search reads the records of its trail only, and writes over what lies above it in the storage. Two
searches from the same spot, on trails with the same records, therefore take the same steps, and
come to ends with the same records. So do the branches of searches that share their decisions: when
the first side of a decision has written to the storage of a branch, the branch still has the same
records.
-/

namespace BacktrackRegex.Search

/-- Two states that differ at most in the storage above their trails. -/
inductive State.Alike : State → State → Prop where
  | mk {node pos t t' choices} (ht : t.entries = t'.entries) :
      Alike ⟨node, pos, t, choices⟩ ⟨node, pos, t', choices⟩

/-- Two outcomes that differ at most in the storage above their trails. -/
inductive Outcome.Alike : Outcome → Outcome → Prop where
  | matched {t t'} (ht : t.entries = t'.entries) : Alike (.matched t) (.matched t')
  | failed {t t'} (ht : t.entries = t'.entries) : Alike (.failed t) (.failed t')
  | faulted {fault} : Alike (.faulted fault) (.faulted fault)
  | unfinished : Alike .unfinished .unfinished

/-- Two ends of branches that differ at most in the storages above their trails. -/
inductive Ended.Alike : Ended → Ended → Prop where
  | matched {t t' own own'} (ht : t.entries = t'.entries) (ho : own.entries = own'.entries) :
      Alike (.matched t own) (.matched t' own')
  | failed {own own'} (ho : own.entries = own'.entries) : Alike (.failed own) (.failed own')
  | faulted {fault} : Alike (.faulted fault) (.faulted fault)
  | unfinished : Alike .unfinished .unfinished

namespace Ended.Alike

variable {e e' f f' : Ended} {o o' : Outcome}

/-- Branches that come to outcomes alike by themselves end alike. -/
theorem of (h : o.Alike o') : (Ended.of o).Alike (Ended.of o') := by
  cases h with
  | matched ht => exact .matched ht ht
  | failed ht => exact .failed ht
  | faulted => exact .faulted
  | unfinished => exact .unfinished

/-- Of two ends alike, both are matches or none is. -/
theorem isMatch_eq (h : e.Alike e') : e'.outcome.isMatch = e.outcome.isMatch := by
  cases h <;> rfl

/-- Sides that end alike end together alike. -/
theorem join (h : e.Alike e') (hf : f.Alike f') : (e.join f).Alike (e'.join f') := by
  cases h with
  | matched ht ho => cases hf <;> constructor <;> assumption
  | failed ho => cases hf <;> constructor <;> assumption
  | faulted => cases hf <;> exact .faulted
  | unfinished => cases hf <;> constructor

end Ended.Alike

/-! ## Steps of the machine -/

section Steps

variable {moves : Moves} {s s' : State} {t t' : Trail}

/-- Trails with the same records are as long. -/
theorem top_congr (ht : t.entries = t'.entries) : t.top = t'.top := by
  rw [← t.length_entries, ht, t'.length_entries]

/-- The same is recorded on trails with the same records. -/
theorem entries_record_congr (ht : t.entries = t'.entries) (key : Option Key) (pos : Nat) :
    (record t key pos).entries = (record t' key pos).entries := by
  cases key with
  | none => exact ht
  | some key => rw [record, record, Trail.entries_push, Trail.entries_push, ht]

/-- Going back leads to the same choice, with the same records. -/
theorem retreat_alike (ht : t.entries = t'.entries) (choices : List Choice) :
    Sum.LiftRel State.Alike Outcome.Alike (retreat t choices) (retreat t' choices) := by
  cases choices with
  | nil => exact .inr (.failed ht)
  | cons choice rest =>
    by_cases hle : choice.top ≤ t.top
    · obtain ⟨u, hcut, hu⟩ := Trail.exists_cut hle
      obtain ⟨u', hcut', hu'⟩ := Trail.exists_cut (top_congr ht ▸ hle)
      simp only [retreat, hcut, hcut']
      exact .inl (.mk (by rw [hu, hu', ht]))
    · have hle' : ¬ choice.top ≤ t'.top := top_congr ht ▸ hle
      simp only [retreat, Trail.cut, dif_neg hle, dif_neg hle']
      exact .inr .faulted

/-- A move takes states alike to states alike, or to outcomes alike. -/
theorem act_alike (h : s.Alike s') (move : Move) :
    Sum.LiftRel State.Alike Outcome.Alike (act move s) (act move s') := by
  obtain ⟨ht⟩ := h
  cases move with
  | accept => exact .inr (.matched (entries_record_congr ht (some (.group 0)) _))
  | goto _ _ => exact .inl (.mk ht)
  | mark key _ => exact .inl (.mk (entries_record_congr ht (some key) _))
  | choose _ _ key =>
    simp only [act, top_congr ht]
    exact .inl (.mk (entries_record_congr ht key _))
  | reject => exact retreat_alike ht _
  | fail _ => exact .inr .faulted

/-- States alike make the same move. -/
theorem move_congr (hm : ReadsHistory moves) (h : s.Alike s') :
    moves s'.node s'.pos s'.trail = moves s.node s.pos s.trail := by
  obtain @⟨node, pos, t, t', choices, ht⟩ := h
  have hhistory : t'.history = t.history := congrArg List.reverse ht.symm
  exact (hm node pos t').trans (hhistory ▸ (hm node pos t).symm)

/-- A step keeps states alike, or leads to outcomes alike. -/
theorem step_alike (hm : ReadsHistory moves) (h : s.Alike s') :
    Sum.LiftRel State.Alike Outcome.Alike (step moves s) (step moves s') := by
  rw [step, step, move_congr hm h]
  exact act_alike h _

end Steps

/-! ## Runs -/

section Related

variable {σ ρ : Type} {R : σ → σ → Prop} {Q : ρ → ρ → Prop} {step : σ → σ ⊕ ρ}

/-- What each step keeps between two states and two results, all steps keep. -/
theorem advance_related (hstep : ∀ s s', R s s' → Sum.LiftRel R Q (step s) (step s')) (n : Nat)
    {s s' : σ} (h : R s s') : Sum.LiftRel R Q (advance step n s) (advance step n s') := by
  induction n generalizing s s' with
  | zero => exact .inl h
  | succ n ih =>
    have hnext := hstep s s' h
    rw [advance_succ, advance_succ]
    generalize step s = x at hnext
    generalize step s' = x' at hnext
    cases hnext with
    | inl hr => exact ih hr
    | inr hq => exact .inr hq

end Related

/-- Searches from states alike come to outcomes alike. -/
theorem run_alike {moves : Moves} (hm : ReadsHistory moves) {s s' : State} (h : s.Alike s')
    (rounds : Nat) : (run moves rounds s).Alike (run moves rounds s') := by
  have hend := advance_related (fun _ _ => step_alike hm) (2 ^ rounds - 1) h
  rw [run, run, iterate_eq, iterate_eq]
  generalize advance (step moves) _ s = x at hend ⊢
  generalize advance (step moves) _ s' = x' at hend ⊢
  cases hend with
  | inl _ => exact .unfinished
  | inr ho => exact ho

/-! ## Branches -/

/-- Two branches that have made as many steps, to states alike. -/
structure Abreast (a a' : State × Nat) : Prop where
  alike : a.1.Alike a'.1
  clock : a.2 = a'.2

/-- Runs of branches from states alike end alike. -/
def RunsAlike (run : Branch → Bool → State → Ended) : Prop :=
  ∀ branch cancelled s s', s.Alike s' → (run branch cancelled s).Alike (run branch cancelled s')

section Branch

variable {moves : Moves} {terms : Speculation} {length : Nat}
  {run : Branch → Bool → State → Ended} {run? : Option (Branch → Bool → State → Ended)}
  {branch : Branch} {cancelled : Bool} {now : Moment} {s s' : State}

/-- The two sides of a decision end like those of another one. -/
theorem race_alike (hrun : RunsAlike run) {first second first' second' : State}
    (hf : first.Alike first') (hs : second.Alike second') :
    (race terms run now cancelled first second).Alike
      (race terms run now cancelled first' second') := by
  rw [race, race]
  split
  · have hsecond := hrun ((now.clock, true) :: now.branch) cancelled _ _ hs
    dsimp only
    rw [hsecond.isMatch_eq]
    exact (hrun _ _ _ _ hf).join hsecond
  · have hfirst := hrun ((now.clock, false) :: now.branch) cancelled _ _ hf
    dsimp only
    rw [hfirst.isMatch_eq]
    exact hfirst.join (hrun _ _ _ _ hs)

/-- Steps of the machine that come to the same also do so as steps of a branch. -/
theorem later_alike {x x' : State ⊕ Outcome} (h : Sum.LiftRel State.Alike Outcome.Alike x x')
    (clock : Nat) : Sum.LiftRel Abreast Ended.Alike (later clock x) (later clock x') := by
  cases h with
  | inl h => exact .inl ⟨h, rfl⟩
  | inr h => exact .inr (.of h)

/-- Branches that go on after a decision come to the same, if the first side has left all records of
the decision. -/
theorem afterRace_alike {e e' : Ended} {t t' : Trail} (h : e.Alike e')
    (ht : t.entries = t'.entries) (hown : ∀ u, e.own? = some u → t.entries <+: u.entries)
    (clock : Nat) (choices : List Choice) :
    Sum.LiftRel Abreast Ended.Alike (afterRace clock t choices e)
      (afterRace clock t' choices e') := by
  have hafter {u u' : Trail} (hu : u.entries = u'.entries) (he : e.own? = some u) :
      (t.after u).entries = (t'.after u').entries := by
    have hbegins := hown u he
    rw [Trail.entries_after_of_prefix hbegins, ht]
    rw [ht, hu] at hbegins
    rw [Trail.entries_after_of_prefix hbegins]
  cases h with
  | matched hfound ho => exact .inr (.matched hfound (hafter ho rfl))
  | failed ho => exact later_alike (retreat_alike (hafter ho rfl) choices) clock
  | faulted => exact .inr .faulted
  | unfinished => exact .inr .unfinished

/-- Branches that share a decision come to the same. -/
theorem share_alike (hrun : RunsAlike run) (hholds : RunsHold run) (h : s.Alike s')
    (first second : Nat) (key : Option Key) :
    Sum.LiftRel Abreast Ended.Alike (share terms run now cancelled first second key s)
      (share terms run now cancelled first second key s') := by
  obtain @⟨node, pos, t, t', choices, ht⟩ := h
  have hrecord : (record t key pos).entries = (record t' key pos).entries :=
    entries_record_congr ht key pos
  have hcopy : t.copy.entries = t'.copy.entries := by
    rw [Trail.entries_copy, Trail.entries_copy, ht]
  exact afterRace_alike (race_alike hrun (.mk hrecord) (.mk hcopy)) hrecord
    (fun _ => race_own hholds rfl) now.clock choices

/-- A step of a branch keeps branches abreast, or leads to ends alike. -/
theorem branchStep_alike (hm : ReadsHistory moves) (hrun : ∀ run, run? = some run → RunsAlike run)
    (hholds : ∀ run, run? = some run → RunsHold run) {a a' : State × Nat} (h : Abreast a a') :
    Sum.LiftRel Abreast Ended.Alike (branchStep moves terms length run? branch cancelled a)
      (branchStep moves terms length run? branch cancelled a') := by
  obtain ⟨s, clock⟩ := a
  obtain ⟨s', clock'⟩ := a'
  obtain ⟨halike, hclock⟩ := h
  obtain rfl : clock = clock' := hclock
  obtain @⟨node, pos, t, t', choices, ht⟩ := halike
  have h : State.Alike ⟨node, pos, t, choices⟩ ⟨node, pos, t', choices⟩ := .mk ht
  have hmove : moves node pos t' = moves node pos t := move_congr hm h
  have hplain (move : Move) := later_alike (act_alike h move) clock
  simp only [branchStep, hmove]
  split
  · exact .inr (.failed ht)
  · cases moves node pos t with
    | choose first second key =>
      cases run? with
      | none => exact hplain _
      | some run =>
        dsimp only
        split
        · exact share_alike (hrun run rfl) (hholds run rfl) h first second key
        · exact hplain _
    | _ => exact hplain _

/-- Branches from states alike end alike. -/
theorem branch_alike (hm : ReadsHistory moves) (hrun : ∀ run, run? = some run → RunsAlike run)
    (hholds : ∀ run, run? = some run → RunsHold run) (rounds : Nat) :
    RunsAlike fun branch cancelled s =>
      endOf (iterate (branchStep moves terms length run? branch cancelled) rounds (s, 0)) := by
  intro branch cancelled s s' h
  have hstart : Abreast (s, 0) (s', 0) := ⟨h, rfl⟩
  have hend := advance_related (fun _ _ => @branchStep_alike moves terms length run? branch
    cancelled hm hrun hholds _ _) (2 ^ rounds - 1) hstart
  change Ended.Alike (endOf (iterate _ rounds (s, 0))) (endOf (iterate _ rounds (s', 0)))
  rw [iterate_eq, iterate_eq]
  generalize advance _ _ (s, 0) = x at hend ⊢
  generalize advance _ _ (s', 0) = x' at hend ⊢
  cases hend with
  | inl _ => exact .unfinished
  | inr he => exact he

end Branch

/-- At each depth to which decisions may still be shared, branches end alike. -/
theorem runBranch_alike {moves : Moves} (hm : ReadsHistory moves) (terms : Speculation)
    (length rounds depth : Nat) : RunsAlike (runBranch moves terms length rounds depth) := by
  induction depth with
  | zero => exact branch_alike hm (by simp) (by simp) rounds
  | succ depth ih =>
    exact branch_alike hm (fun _ hrun => Option.some.inj hrun ▸ ih)
      (fun _ hrun => Option.some.inj hrun ▸ runBranch_holds moves terms length rounds depth) rounds

/-- Searches that share their decisions end alike from states alike. -/
theorem runShared_alike {moves : Moves} (hm : ReadsHistory moves) {s s' : State} (h : s.Alike s')
    (terms : Speculation) (length rounds : Nat) :
    (runShared moves terms length rounds s).Alike (runShared moves terms length rounds s') :=
  runBranch_alike hm terms length rounds maxDepth [] false s s' h

end BacktrackRegex.Search
