import BacktrackRegex.Proofs.Search.Choices
import BacktrackRegex.Search.Speculation

/-!
# What a search leaves of its trail

A search writes to the storage of its trail only behind the records that it began with, since all
choices that it keeps have at least these records. So it is with each branch of a search that shares
its decisions. The first side of a decision works on a fork, over the storage of the branch, and
leaves the records of the fork as they are; the trail of the branch has the same records as before
when it is used again. The second side writes to a storage of its own.
-/

namespace BacktrackRegex.Search

/-- The trail of a search that has ended begins with some records, if there is one. -/
inductive Outcome.Holds (es : List Entry) : Outcome → Prop where
  | matched {t} (h : es <+: t.entries) : Holds es (.matched t)
  | failed {t} (h : es <+: t.entries) : Holds es (.failed t)
  | faulted {fault} : Holds es (.faulted fault)
  | unfinished : Holds es .unfinished

/-- The trail of a match or a failure begins with the records that are held. -/
theorem Outcome.Holds.entries {es : List Entry} {o : Outcome} (h : o.Holds es) {t : Trail}
    (ht : o = .matched t ∨ o = .failed t) : es <+: t.entries := by
  cases h with
  | matched h | failed h =>
    rcases ht with ht | ht <;> cases ht
    exact h
  | faulted | unfinished => rcases ht with ht | ht <;> cases ht

/-- The trail of a branch that has ended begins with some records, and so does that of the match, if
there is one. -/
inductive Ended.Holds (es : List Entry) : Ended → Prop where
  | matched {found own} (hf : es <+: found.entries) (ho : es <+: own.entries) :
      Holds es (.matched found own)
  | failed {own} (h : es <+: own.entries) : Holds es (.failed own)
  | faulted {fault} : Holds es (.faulted fault)
  | unfinished : Holds es .unfinished

namespace Ended

variable {es : List Entry} {e e' : Ended} {t : Trail}

/-- A branch that comes to an outcome by itself holds what the outcome holds. -/
theorem Holds.of {o : Outcome} (h : o.Holds es) : (Ended.of o).Holds es := by
  cases h with
  | matched h => exact .matched h h
  | failed h => exact .failed h
  | faulted => exact .faulted
  | unfinished => exact .unfinished

/-- The trail of a match begins with the records that are held. -/
theorem Holds.found (h : e.Holds es) (ht : e.found? = some t) : es <+: t.entries := by
  cases h with
  | matched hf _ => exact Option.some.inj ht ▸ hf
  | failed _ | faulted | unfinished => simp [found?, outcome, Outcome.trail?] at ht

/-- What is left of the trail of a branch begins with the records that are held. -/
theorem Holds.own (h : e.Holds es) (ht : e.own? = some t) : es <+: t.entries := by
  cases h with
  | matched _ h | failed h => exact Option.some.inj ht ▸ h
  | faulted | unfinished => simp [own?] at ht

/-- Both sides of a decision leave what the first one leaves. -/
theorem own?_of_join (h : (e.join e').own? = some t) : e.own? = some t := by
  cases e <;> cases e' <;> simp_all [join, own?]

/-- What both sides of a decision find, one of them has found. -/
theorem found?_of_join (h : (e.join e').found? = some t) :
    e.found? = some t ∨ e'.found? = some t := by
  cases e <;> cases e' <;> simp_all [join, found?, outcome, Outcome.trail?]

end Ended

/-! ## Steps of the machine -/

section Machine

variable {es : List Entry} {s : State}

/-- A move keeps the records that a search holds, also where the search ends. -/
theorem holds_act (h : s.Holds es []) (move : Move) :
    (act move s).elim (State.Holds es []) (Outcome.Holds es) := by
  cases ha : act move s with
  | inl s' => exact h.of_effect (effect_of_act ha) List.nil_suffix
  | inr outcome =>
    obtain ⟨node, pos, trail, choices⟩ := s
    cases move with
    | accept =>
      obtain rfl := Sum.inr.inj ha
      exact .matched (h.records.trans (prefix_record trail (some (.group 0)) pos))
    | reject =>
      rw [act, retreat.eq_def] at ha
      split at ha
      · obtain rfl := Sum.inr.inj ha
        exact .failed h.records
      · split at ha
        · simp at ha
        · obtain rfl := Sum.inr.inj ha
          exact .faulted
    | fail _ =>
      obtain rfl := Sum.inr.inj ha
      exact .faulted
    | goto _ _ | mark _ _ | choose _ _ _ => simp [act] at ha

/-- A search holds the records that it begins with. -/
theorem run_holds (moves : Moves) (rounds : Nat) (h : s.Holds es []) :
    (run moves rounds s).Holds es := by
  have hstep (s : State) (h : s.Holds es []) :
      (step moves s).elim (State.Holds es []) (Outcome.Holds es) := holds_act h _
  have hend := advance_elim hstep (2 ^ rounds - 1) h
  rw [run, iterate_eq]
  generalize advance (step moves) _ s = x at hend ⊢
  cases x with
  | inl _ => exact .unfinished
  | inr _ => exact hend

end Machine

/-! ## Branches -/

/-- Runs of branches hold the records that they begin with. -/
def RunsHold (run : Branch → Bool → State → Ended) : Prop :=
  ∀ branch cancelled es s, s.Holds es [] → (run branch cancelled s).Holds es

section Branch

variable {moves : Moves} {terms : Speculation} {length : Nat}
  {run : Branch → Bool → State → Ended} {run? : Option (Branch → Bool → State → Ended)}
  {branch : Branch} {cancelled : Bool} {es : List Entry} {now : Moment} {s : State}

/-- Both sides of a decision are run, each under some flag, and joined. -/
theorem exists_race_eq (terms : Speculation) (run : Branch → Bool → State → Ended) (now : Moment)
    (cancelled : Bool) (first second : State) : ∃ branch cancelled' branch' cancelled'',
      race terms run now cancelled first second =
        (run branch cancelled' first).join (run branch' cancelled'' second) := by
  rw [race]
  split
  · exact ⟨_, _, _, _, rfl⟩
  · exact ⟨_, _, _, _, rfl⟩

/-- The first side of a decision leaves the records that it begins with. -/
theorem race_own (hrun : RunsHold run) {first second : State} (hf : first.choices = []) {t : Trail}
    (ht : (race terms run now cancelled first second).own? = some t) :
    first.trail.entries <+: t.entries := by
  obtain ⟨branch, cancelled', branch', cancelled'', he⟩ :=
    exists_race_eq terms run now cancelled first second
  rw [he] at ht
  have hstart : first.Holds first.trail.entries [] := hf ▸ .start first
  exact (hrun branch cancelled' _ first hstart).own (Ended.own?_of_join ht)

/-- The match of a decision holds what both sides hold. -/
theorem race_found (hrun : RunsHold run) {first second : State} (hf : first.Holds es [])
    (hs : second.Holds es []) {t : Trail}
    (ht : (race terms run now cancelled first second).found? = some t) : es <+: t.entries := by
  obtain ⟨branch, cancelled', branch', cancelled'', he⟩ :=
    exists_race_eq terms run now cancelled first second
  rw [he] at ht
  rcases Ended.found?_of_join ht with ht | ht
  · exact (hrun branch cancelled' es first hf).found ht
  · exact (hrun branch' cancelled'' es second hs).found ht

/-- What a step of the machine holds, it holds as a step of a branch. -/
theorem later_holds {x : State ⊕ Outcome} (h : x.elim (State.Holds es []) (Outcome.Holds es))
    (clock : Nat) : (later clock x).elim (fun a => a.1.Holds es []) (Ended.Holds es) := by
  cases x with
  | inl s => exact h
  | inr outcome => exact .of h

/-- A branch that goes on after a decision holds what it held there, if the match of a side holds
it, too, and the first side has left all records of the decision. -/
theorem afterRace_holds {ended : Ended} {trail : Trail}
    (h : State.Holds es [] ⟨s.node, s.pos, trail, s.choices⟩)
    (hfound : ∀ t, ended.found? = some t → es <+: t.entries)
    (hown : ∀ t, ended.own? = some t → trail.entries <+: t.entries) (clock : Nat) :
    (afterRace clock trail s.choices ended).elim (fun a => a.1.Holds es []) (Ended.Holds es) := by
  have hafter {fork : Trail} (hfork : ended.own? = some fork) :
      es <+: (trail.after fork).entries := by
    rw [Trail.entries_after_of_prefix (hown fork hfork)]
    exact h.records
  cases ended with
  | matched found fork => exact Ended.Holds.matched (hfound found rfl) (hafter rfl)
  | failed fork =>
    have hback : State.Holds es [] ⟨s.node, s.pos, trail.after fork, s.choices⟩ :=
      ⟨hafter rfl, h.choices⟩
    exact later_holds (holds_act hback .reject) clock
  | faulted _ => exact Ended.Holds.faulted
  | unfinished => exact Ended.Holds.unfinished

/-- A branch that shares a decision keeps the records that it holds. -/
theorem share_holds (hrun : RunsHold run) (h : s.Holds es []) (first second : Nat)
    (key : Option Key) : (share terms run now cancelled first second key s).elim
      (fun a => a.1.Holds es []) (Ended.Holds es) := by
  have hrecords : es <+: (record s.trail key s.pos).entries :=
    h.records.trans (prefix_record s.trail key s.pos)
  have hcopied : es <+: s.trail.copy.entries := by
    rw [s.trail.entries_copy]
    exact h.records
  have hdecision : State.Holds es [] ⟨s.node, s.pos, record s.trail key s.pos, s.choices⟩ :=
    ⟨hrecords, h.choices⟩
  refine afterRace_holds hdecision ?_ ?_ now.clock
  · exact fun t => race_found hrun ⟨hrecords, [], rfl, by simp⟩ ⟨hcopied, [], rfl, by simp⟩
  · exact fun t => race_own hrun rfl

/-- A branch gives up because it was cancelled, or makes the step of the machine, or shares a
decision. -/
theorem branchStep_cases (s : State) (clock : Nat) :
    let next := branchStep moves terms length run? branch cancelled (s, clock)
    (cancelled = true ∧ next = .inr (.failed s.trail)) ∨ next = later clock (step moves s) ∨
      ∃ first second key run, moves s.node s.pos s.trail = .choose first second key ∧
        run? = some run ∧ next = share terms run ⟨branch, clock⟩ cancelled first second key s := by
  intro next
  have hnext : next = branchStep moves terms length run? branch cancelled (s, clock) := rfl
  simp only [branchStep] at hnext
  split at hnext
  · next hc => exact Or.inl ⟨(Bool.and_eq_true_iff.mp hc).1, hnext⟩
  · right
    split at hnext
    · next hm =>
      split at hnext
      · exact Or.inr ⟨_, _, _, _, hm, rfl, hnext⟩
      · exact Or.inl (by rw [hnext, step, hm])
    · exact Or.inl hnext

/-- A branch keeps the records that it holds, whatever its next step is. -/
theorem branchStep_holds (hrun : ∀ run, run? = some run → RunsHold run) {a : State × Nat}
    (h : a.1.Holds es []) : (branchStep moves terms length run? branch cancelled a).elim
      (fun a => a.1.Holds es []) (Ended.Holds es) := by
  obtain ⟨s, clock⟩ := a
  rcases @branchStep_cases moves terms length run? branch cancelled s clock with
    ⟨-, he⟩ | he | ⟨first, second, key, run, -, hr, he⟩
  · rw [he]
    exact .of (.failed h.records)
  · rw [he]
    exact later_holds (holds_act h _) clock
  · rw [he]
    exact share_holds (hrun run hr) h first second key

/-- A branch holds the records that it begins with. -/
theorem branch_holds (hrun : ∀ run, run? = some run → RunsHold run) (rounds : Nat) :
    RunsHold fun branch cancelled s =>
      endOf (iterate (branchStep moves terms length run? branch cancelled) rounds (s, 0)) := by
  intro branch cancelled es s h
  have hend := advance_elim (s := (s, 0)) (P := fun a => a.1.Holds es [])
    (fun a ha => @branchStep_holds moves terms length run? branch cancelled es hrun a ha)
    (2 ^ rounds - 1) h
  change Ended.Holds es (endOf (iterate _ rounds (s, 0)))
  rw [iterate_eq]
  generalize advance _ _ _ = x at hend ⊢
  cases x with
  | inl _ => exact .unfinished
  | inr _ => exact hend

end Branch

/-- At each depth to which decisions may still be shared, and whether they were cancelled or not,
branches hold the records that they begin with. -/
theorem runBranch_holds (moves : Moves) (terms : Speculation) (length rounds depth : Nat) :
    RunsHold (runBranch moves terms length rounds depth) := by
  induction depth with
  | zero => exact branch_holds (by simp) rounds
  | succ depth ih => exact branch_holds (fun _ hrun => Option.some.inj hrun ▸ ih) rounds

/-- A search that shares its decisions holds the records that it begins with. -/
theorem runShared_holds (moves : Moves) (terms : Speculation) (length rounds : Nat) {s : State}
    {es : List Entry} (h : s.Holds es []) : (runShared moves terms length rounds s).Holds es :=
  runBranch_holds moves terms length rounds maxDepth [] false es s h

end BacktrackRegex.Search
