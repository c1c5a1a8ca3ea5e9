import BacktrackRegex.Search.Machine

/-!
# Speculative searches

At a decision a search may hand the second node to an idle worker, which takes it up on a copy of
the records while the search itself goes on with the first one, on a fork of its trail. The match of
the first side is preferred, and it cancels the second side. If any match will do, a match of the
second side cancels the first one too. A cancelled branch gives up without a match as soon as it
notices.

The fork of the first side writes to the storage of the search. If neither side matches, the search
goes on over that storage as the fork has left it, and a match that a side has found is handed on
while the trail of the search itself stays at the decision. A search therefore ends with two trails:
that of the match, if there is one, and its own.

A schedule stands for everything that depends on the workers: which decisions find one idle, which
side of a shared decision ends first, and when a cancelled branch notices. The machine below follows
any schedule. Shared decisions nest up to a fixed depth, and the recursion is on what is left of it.
-/

namespace BacktrackRegex.Search

/-- Which match of several a search has to find. -/
inductive Priority where
  /-- Any of them. -/
  | any
  /-- The one that a search without workers finds. -/
  | sequential
  deriving DecidableEq, Repr

/-- A branch of a speculative search: for each shared decision that it lies in, the innermost first,
the step at which the decision was shared and whether the branch is its second side. -/
abbrev Branch := List (Nat × Bool)

/-- A step of a branch. -/
structure Moment where
  branch : Branch
  clock : Nat
  deriving DecidableEq, Repr

/-- The behaviour of the workers during a search. -/
structure Schedule where
  /-- Whether a worker is idle for a decision. -/
  idle : Moment → Bool
  /-- Whether the second side of a shared decision ends before the first one. -/
  secondEndsFirst : Moment → Bool
  /-- Whether a cancelled branch notices it at this step. -/
  notices : Moment → Bool

namespace Schedule

/-- There are no workers. -/
def alone : Schedule :=
  ⟨fun _ => false, fun _ => false, fun _ => false⟩

/-- There is always an idle worker, the first side of each shared decision ends first, and a
cancelled branch notices it at once. -/
def eager : Schedule :=
  ⟨fun _ => true, fun _ => false, fun _ => true⟩

end Schedule

/-- The terms on which decisions are shared. -/
structure Speculation where
  priority : Priority
  /-- Decisions with fewer bytes to come are not shared. -/
  threshold : Nat
  schedule : Schedule

/-- The depth to which shared decisions nest. -/
def maxDepth : Nat := 32

/-- How a branch of a search ends. Its own trail is the one that it was given, as the branch has
left it. -/
inductive Ended where
  /-- The whole pattern matched; `found` holds its groups. Another branch may have found it. -/
  | matched (found own : Trail)
  /-- No path led to success, or the branch gave up. -/
  | failed (own : Trail)
  /-- The branch could not go on. -/
  | faulted (fault : Fault)
  /-- The branch did not end within its bound. -/
  | unfinished
  deriving DecidableEq, Repr

namespace Ended

/-- The end of a branch that comes to an outcome by itself. -/
def of : Outcome → Ended
  | .matched trail => matched trail trail
  | .failed trail => failed trail
  | .faulted fault => faulted fault
  | .unfinished => unfinished

/-- What a branch comes to. -/
def outcome : Ended → Outcome
  | matched found _ => .matched found
  | failed own => .failed own
  | faulted fault => .faulted fault
  | unfinished => .unfinished

/-- The trail of a match. -/
def found? (ended : Ended) : Option Trail :=
  ended.outcome.trail?

/-- What is left of the trail of the branch. -/
def own? : Ended → Option Trail
  | matched _ own | failed own => some own
  | faulted _ | unfinished => none

/-- How both sides of a shared decision end together, over the storage of the first one. Its match
is preferred. Both sides are waited for, so neither goes on where the other one cannot. -/
def join : Ended → Ended → Ended
  | faulted fault, _ | _, faulted fault => faulted fault
  | unfinished, _ | _, unfinished => unfinished
  | failed own, matched found _ => matched found own
  | first, _ => first

end Ended

/-- Evaluates both sides of a shared decision to their ends. The side that ends first is not
cancelled by the other one. A match of the first side cancels the second one, and a match of the
second side cancels the first one if any match will do. -/
def race (terms : Speculation) (run : Branch → Bool → State → Ended) (now : Moment)
    (cancelled : Bool) (first second : State) : Ended :=
  let runFirst := run ((now.clock, false) :: now.branch)
  let runSecond := run ((now.clock, true) :: now.branch)
  if terms.schedule.secondEndsFirst now then
    let second := runSecond cancelled second
    let hurried := second.outcome.isMatch && terms.priority == .any
    (runFirst (cancelled || hurried) first).join second
  else
    let first := runFirst cancelled first
    first.join (runSecond (cancelled || first.outcome.isMatch) second)

/-- What a step of the machine comes to, as a step of a branch. -/
@[inline] def later (clock : Nat) : State ⊕ Outcome → (State × Nat) ⊕ Ended
  | .inl s => .inl (s, clock + 1)
  | .inr outcome => .inr (.of outcome)

/-- What a branch comes to when both sides of a decision have ended, and its trail was `trail` at
the decision. If neither side matches, it goes back to its newest choice. In any case the first side
has worked on the storage of the trail. -/
def afterRace (clock : Nat) (trail : Trail) (choices : List Choice) :
    Ended → (State × Nat) ⊕ Ended
  | .matched found fork => .inr (.matched found (trail.after fork))
  | .failed fork => later clock (retreat (trail.after fork) choices)
  | .faulted fault => .inr (.faulted fault)
  | .unfinished => .inr .unfinished

/-- Shares a decision. The first side works on a fork of the trail, under whose path the place may
be recorded, and the second one on a copy of the trail without that record. -/
def share (terms : Speculation) (run : Branch → Bool → State → Ended) (now : Moment)
    (cancelled : Bool) (first second : Nat) (key : Option Key) (s : State) :
    (State × Nat) ⊕ Ended :=
  let trail := record s.trail key s.pos
  afterRace now.clock trail s.choices
    (race terms run now cancelled ⟨first, s.pos, trail.fork, []⟩ ⟨second, s.pos, s.trail.copy, []⟩)

/-- Makes a step of a branch of a search of `length` bytes. A decision is shared by `run?` if that
is given, a worker is idle and enough of the text is to come. -/
def branchStep (moves : Moves) (terms : Speculation) (length : Nat)
    (run? : Option (Branch → Bool → State → Ended)) (branch : Branch) (cancelled : Bool) :
    State × Nat → (State × Nat) ⊕ Ended
  | (s, clock) =>
    let now : Moment := ⟨branch, clock⟩
    if cancelled && terms.schedule.notices now then .inr (.failed s.trail)
    else
      match moves s.node s.pos s.trail, run? with
      | .choose first second key, some run =>
        if terms.threshold ≤ length - s.pos && terms.schedule.idle now then
          share terms run now cancelled first second key s
        else later clock (act (.choose first second key) s)
      | move, _ => later clock (act move s)

/-- The end of a branch after an iteration of its steps. -/
def endOf : (State × Nat) ⊕ Ended → Ended
  | .inl _ => .unfinished
  | .inr ended => ended

/-- Runs a branch in which decisions may still be shared to the given depth. -/
def runBranch (moves : Moves) (terms : Speculation) (length rounds : Nat) :
    Nat → Branch → Bool → State → Ended
  | 0, branch, cancelled, s =>
    endOf (iterate (branchStep moves terms length none branch cancelled) rounds (s, 0))
  | depth + 1, branch, cancelled, s =>
    let run := runBranch moves terms length rounds depth
    endOf (iterate (branchStep moves terms length (some run) branch cancelled) rounds (s, 0))

/-- Runs a speculative search from a state. -/
def runShared (moves : Moves) (terms : Speculation) (length rounds : Nat) (s : State) : Ended :=
  runBranch moves terms length rounds maxDepth [] false s

end BacktrackRegex.Search
