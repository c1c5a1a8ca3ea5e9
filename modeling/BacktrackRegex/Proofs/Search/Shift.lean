import BacktrackRegex.Proofs.Search.Exhaustion

/-!
# Searches further on

A search may be repeated further on, with every place shifted by the same number of bytes. Records,
spans, spots and moves are shifted along with it. Where each spot makes the shifted move of the spot
that it was shifted from, its paths are the shifted ones, and so is what is found on them: lookups
compare places with each other only, and shifting keeps which of them are equal.
-/

namespace BacktrackRegex

/-- The record of a place `n` bytes further on. -/
def Entry.shift (n : Nat) (e : Entry) : Entry :=
  ⟨e.key, n + e.pos⟩

/-- The span `n` bytes further on. -/
def Span.shift (n : Nat) (s : Span) : Span :=
  ⟨n + s.start, n + s.stop⟩

namespace History

/-- The records of the places `n` bytes further on. -/
def shift (n : Nat) (h : History) : History :=
  h.map (Entry.shift n)

/-- The shifted records hold the shifted places. -/
theorem places_shift (key : Key) (n : Nat) (h : History) :
    places key (shift n h) = (places key h).map (n + ·) := by
  induction h with
  | nil => rfl
  | cons e h ih =>
    rw [shift, List.map_cons, ← shift, places, places, ih]
    change (if e.key = key then _ else _) = _
    split <;> rfl

/-- Noting and shifting may change places. -/
theorem shift_noted (key : Option Key) (n pos : Nat) (h : History) :
    shift n (noted key pos h) = noted key (n + pos) (shift n h) := by
  cases key <;> rfl

end History

/-- Shifted places tell the shifted span, or the same fault. -/
theorem latestSpan_shift (group n : Nat) (ps : List Nat) :
    latestSpan group (ps.map (n + ·)) = (latestSpan group ps).map (Option.map (Span.shift n)) := by
  match ps with
  | [] => rfl
  | [_] => rfl
  | _ :: _ :: _ => rfl

namespace Trail

open History

variable {t t' : Trail} {n : Nat}

/-- A trail of shifted records looks up the shifted place. -/
theorem find?_shift (h : t'.history = shift n t.history) (key : Key) :
    t'.find? key = (t.find? key).map (n + ·) := by
  rw [find?_eq, find?_eq, h, places_shift, List.head?_map]

/-- A trail of shifted records has the shifted span of each group, or the same fault. -/
theorem captured_shift (h : t'.history = shift n t.history) (group : Nat) :
    t'.captured group = (t.captured group).map (Option.map (Span.shift n)) := by
  rw [captured_eq, captured_eq, h, places_shift, latestSpan_shift]

end Trail

namespace Search

open History

/-- The move of a spot `n` bytes further on. -/
def Move.shift (n : Nat) : Move → Move
  | .goto node pos => .goto node (n + pos)
  | move => move

/-- The spot `n` bytes further on. -/
def Spot.shift (n : Nat) (s : Spot) : Spot :=
  ⟨s.node, n + s.pos, History.shift n s.history⟩

/-- Each spot further on makes the shifted move. -/
def Moves.ShiftsTo (n : Nat) (moves moves' : Moves) : Prop :=
  ∀ s : Spot, (s.shift n).move moves' = (s.move moves).shift n

/-- What is found further on is what is found here, with every record shifted, on as many paths. -/
theorem Exhausts.shift {n : Nat} {moves moves' : Moves} (hm : moves.ShiftsTo n moves') {s : Spot}
    {found : Option History} {k : Nat} (h : Exhausts moves s found k) :
    Exhausts moves' (s.shift n) (found.map (History.shift n)) k := by
  have hmove {s : Spot} {m : Move} (h : s.move moves = m) :
      (s.shift n).move moves' = m.shift n := h ▸ hm s
  induction h with
  | accept h => exact .accept (hmove h)
  | goto h _ ih => exact .goto (hmove h) ih
  | mark h _ ih => exact .mark (hmove h) ih
  | choose h _ _ ihf ihs =>
    rw [Spot.shift, shift_noted] at ihf
    rw [Option.map_or]
    exact .choose (hmove h) ihf ihs
  | reject h => exact .reject (hmove h)

end Search

end BacktrackRegex
