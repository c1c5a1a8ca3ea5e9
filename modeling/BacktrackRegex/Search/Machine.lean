import BacktrackRegex.Search.Iteration
import BacktrackRegex.Trail

/-!
# The backtracking machine

The machine follows the preferred node at each decision and keeps the other one as a choice,
together with the place and the length of the trail. Where a node does not match, it goes back to
the newest choice and cuts the trail to the length it had there. The choices form a stack of their
own, so the depth of a search is not bounded by any call stack.

What the nodes do is given from outside, by a function from a node, a place and the trail to a move.
-/

namespace BacktrackRegex.Search

/-- What a node does at a place. -/
inductive Move where
  /-- The match is complete. -/
  | accept
  /-- The node matches, and the search goes on at another node and place. -/
  | goto (node pos : Nat)
  /-- The place is recorded, and the search goes on at another node. -/
  | mark (key : Key) (node : Nat)
  /-- The search goes on at `first`, under whose path the place may be recorded, and may come back
  for `second`. -/
  | choose (first second : Nat) (key : Option Key)
  /-- The node does not match. -/
  | reject
  /-- The search cannot go on. -/
  | fail (fault : Fault)
  deriving DecidableEq, Repr

/-- What each node does at each place, given the trail that leads there. -/
abbrev Moves := Nat → Nat → Trail → Move

/-- A node and a place where a search can be taken up again. -/
structure Choice where
  node : Nat
  pos : Nat
  /-- The length of the trail when the choice was kept. -/
  top : Nat
  deriving DecidableEq, Repr

/-- The state of a search. -/
structure State where
  node : Nat
  pos : Nat
  trail : Trail
  /-- The choices that are left, the newest first. -/
  choices : List Choice
  deriving DecidableEq, Repr

/-- How a search ends. -/
inductive Outcome where
  /-- The whole pattern matched; the trail holds its groups. -/
  | matched (trail : Trail)
  /-- No path led to success. -/
  | failed (trail : Trail)
  /-- The search could not go on. -/
  | faulted (fault : Fault)
  /-- The search did not end within its bound. -/
  | unfinished
  deriving DecidableEq, Repr

namespace Outcome

/-- The trail of a match. -/
def trail? : Outcome → Option Trail
  | .matched trail => some trail
  | _ => none

/-- Whether there was a match. -/
def isMatch (o : Outcome) : Bool :=
  o.trail?.isSome

end Outcome

/-- Goes back to the newest choice, if there is one. -/
@[inline] def retreat (trail : Trail) : List Choice → State ⊕ Outcome
  | [] => .inr (.failed trail)
  | choice :: choices =>
    match trail.cut choice.top with
    | .ok trail => .inl ⟨choice.node, choice.pos, trail, choices⟩
    | .error fault => .inr (.faulted fault)

/-- A trail with the place recorded under a key, if there is a key. -/
@[inline] def record (trail : Trail) (key : Option Key) (pos : Nat) : Trail :=
  match key with
  | some key => trail.push key pos
  | none => trail

/-- The state after a move of the current node, or the end of the search. -/
@[inline] def act (move : Move) : State → State ⊕ Outcome
  | ⟨_, pos, trail, choices⟩ =>
    match move with
    | .accept => .inr (.matched (trail.push (.group 0) pos))
    | .goto node pos => .inl ⟨node, pos, trail, choices⟩
    | .mark key node => .inl ⟨node, pos, trail.push key pos, choices⟩
    | .choose first second key =>
      let top := trail.top
      .inl ⟨first, pos, record trail key pos, ⟨second, pos, top⟩ :: choices⟩
    | .reject => retreat trail choices
    | .fail fault => .inr (.faulted fault)

/-- Makes the move of the current node. -/
@[inline] def step (moves : Moves) (s : State) : State ⊕ Outcome :=
  act (moves s.node s.pos s.trail) s

/-- The outcome of an iteration. -/
def outcomeOf {σ : Type} : σ ⊕ Outcome → Outcome
  | .inl _ => .unfinished
  | .inr outcome => outcome

/-- Runs the machine from a state, for at most `2 ^ rounds - 1` steps. -/
@[specialize] def run (moves : Moves) (rounds : Nat) (s : State) : Outcome :=
  outcomeOf (iterate (step moves) rounds s)

/-- A number of rounds that is enough for `nodes` nodes and a text of `length` bytes. A path visits
each place once, takes each guarded loop at a place at most once, and between two loops meets no
node twice; the whole search is a binary tree of such paths. -/
def roundsFor (nodes length : Nat) : Nat :=
  (length + 1) * ((nodes + 1) * (nodes + 1)) + 1

end BacktrackRegex.Search
