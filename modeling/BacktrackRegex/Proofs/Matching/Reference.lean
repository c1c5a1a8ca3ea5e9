import BacktrackRegex.Proofs.Program.Layout
import BacktrackRegex.Text.Offset

/-!
# The reference matcher

The reference matcher follows the tree of a pattern and is given what comes after it as a
continuation. It tries the ways in which a pattern matches one after the other, and takes the first
one with which the continuation succeeds. Items come one after the other, and options from left to
right. Copies of a repetition that are not mandatory are nested, and each tries one more copy before
it stops.

A loop tries one more iteration before it stops, unless its latest iteration began at the same
place. Each copy of a loop in an unrolled repetition is a loop of its own. The number of iterations
of a loop is bounded by the length of the text, which no run of the matcher notices.
-/

namespace BacktrackRegex

/-- What a match has come to. -/
structure Progress where
  /-- Where the match stands. -/
  pos : Nat
  /-- The latest completed spans of the groups. -/
  spans : Nat → Option Span
  /-- Where the latest iterations of the loops began. -/
  begun : Occurrence → Option Nat

namespace Progress

/-- Nothing was matched yet. -/
def initial (pos : Nat) : Progress :=
  ⟨pos, fun _ => none, fun _ => none⟩

/-- The match stands at another place. -/
def moveTo (c : Progress) (pos : Nat) : Progress :=
  { c with pos }

/-- A group that began at `start` is completed. -/
def close (c : Progress) (group start : Nat) : Progress :=
  { c with spans := fun i => if i = group then some ⟨start, c.pos⟩ else c.spans i }

/-- A loop begins an iteration. -/
def iterate (c : Progress) (o : Occurrence) : Progress :=
  { c with begun := fun o' => if o' = o then some c.pos else c.begun o' }

end Progress

/-- What comes after a part: whether it succeeds, and what the match has come to then. -/
abbrev Continuation := Progress → Option Progress

namespace Pattern

/-- The end of the character that begins at a place, if it has a property. -/
def charStop? (text : String) (accepts : Char → Bool) (pos : Nat) : Option Nat :=
  match Text.charAt? text pos with
  | some ch => if accepts ch then some (pos + ch.utf8Size) else none
  | none => none

/-- Where a pattern without patterns inside it stops to match; none if it does not match. -/
def stop? (text : String) (c : Progress) : Pattern → Option Nat
  | .literal s =>
    if Text.occursAt text c.pos s then some (c.pos + s.utf8ByteSize) else none
  | .anyChar => charStop? text (· != '\n') c.pos
  | .charClass cls => charStop? text cls.accepts c.pos
  | .backReference i =>
    match c.spans i with
    | some span =>
      if Text.sameBytes text c.pos text span.start (span.stop - span.start) then
        some (c.pos + (span.stop - span.start))
      else none
    | none => none
  | .textStart => if c.pos = 0 then some c.pos else none
  | .textEnd => if c.pos = text.utf8ByteSize then some c.pos else none
  | _ => none

/-- Tries `n` copies, each before the one after it. -/
def tryCopies (body : Occurrence → Continuation → Continuation) :
    Nat → Occurrence → Continuation → Continuation
  | 0, _, k => k
  | n + 1, o, k => tryCopies body n (.rest :: o) (body (.first :: o) k)

/-- Tries up to `n` nested copies, each of them before stopping. -/
def tryOptionals (body : Occurrence → Continuation → Continuation) :
    Nat → Occurrence → Continuation → Continuation
  | 0, _, k => k
  | n + 1, o, k => fun c =>
    (body (.first :: o) (tryOptionals body n (.rest :: o) k) c).or (k c)

/-- Tries up to `n` iterations, each of them before stopping. None begins where the latest one
began. -/
def tryLoop (body : Occurrence → Continuation → Continuation) (o : Occurrence) (k : Continuation) :
    Nat → Continuation
  | 0 => k
  | n + 1 => fun c =>
    if c.begun o = some c.pos then k c
    else (body (.first :: o) (tryLoop body o k n) (c.iterate o)).or (k c)

mutual
/-- Tries the ways in which a pattern matches, each followed by a continuation. -/
def tryMatch (text : String) : Pattern → Occurrence → Continuation → Continuation
  | .sequence ps, o, k => tryItems text ps o k
  | .alternation ps, o, k => tryOptions text ps o k
  | .repetition p min none, o, k =>
    tryCopies (tryMatch text p) min (.rest :: o)
      (tryLoop (tryMatch text p) (.first :: o) k (text.utf8ByteSize + 1))
  | .repetition p min (some max), o, k =>
    tryCopies (tryMatch text p) min (.rest :: o)
      (tryOptionals (tryMatch text p) (max - min) (.first :: o) k)
  | .capture i p, o, k => fun c =>
    tryMatch text p (.first :: o) (fun c' => k (c'.close i c.pos)) c
  | p, _, k => fun c => (p.stop? text c).bind fun pos => k (c.moveTo pos)

/-- Tries the ways in which the items of a sequence match one after the other. -/
def tryItems (text : String) : List Pattern → Occurrence → Continuation → Continuation
  | [], _, k => k
  | p :: ps, o, k => tryMatch text p (.first :: o) (tryItems text ps (.rest :: o) k)

/-- Tries the ways in which the options of an alternation match, from left to right. -/
def tryOptions (text : String) : List Pattern → Occurrence → Continuation → Continuation
  | [], _, _ => fun _ => none
  | p :: ps, o, k => fun c =>
    (tryMatch text p (.first :: o) k c).or (tryOptions text ps (.rest :: o) k c)
end

/-- The first match that begins at a place, which completes group 0. -/
def firstMatch? (text : String) (p : Pattern) (start : Nat) : Option Progress :=
  tryMatch text p [] (fun c => some (c.close 0 start)) (.initial start)

end Pattern

namespace Part

open Pattern

/-- Tries the ways in which a part matches, each followed by a continuation. -/
def tries (text : String) : Part → Occurrence → Continuation → Continuation
  | .one p => tryMatch text p
  | .items ps => tryItems text ps
  | .options ps => tryOptions text ps
  | .copies p n => tryCopies (tryMatch text p) n
  | .optionals p n => tryOptionals (tryMatch text p) n
  | .loop p => fun o k => tryLoop (tryMatch text p) o k (text.utf8ByteSize + 1)

variable {text : String}

/-- A pattern without patterns inside it is left at the place where it stops to match. -/
theorem tries_leaf {p : Pattern} (hp : p.isLeaf = true) (o : Occurrence) (k : Continuation)
    (c : Progress) :
    (Part.one p).tries text o k c = (p.stop? text c).bind fun pos => k (c.moveTo pos) := by
  cases p with
  | sequence _ | alternation _ | repetition _ _ _ | capture _ _ => simp [isLeaf] at hp
  | _ => rfl

/-- A repetition tries its mandatory copies in front of the other ones. -/
theorem tries_repetition (p : Pattern) (min : Nat) (max : Option Nat) (o : Occurrence)
    (k : Continuation) :
    (Part.one (.repetition p min max)).tries text o k =
      (Part.copies p min).tries text (.rest :: o)
        ((more p min max).tries text (.first :: o) k) := by
  cases max <;> simp only [tries, tryMatch, more]

/-- Options are tried from left to right. -/
theorem tries_option (p : Pattern) (ps : List Pattern) (o : Occurrence) (k : Continuation)
    (c : Progress) :
    (Part.options (p :: ps)).tries text o k c =
      ((Part.one p).tries text (.first :: o) k c).or
        ((Part.options ps).tries text (.rest :: o) k c) :=
  rfl

/-- Optional copies are tried before stopping. -/
theorem tries_optional (p : Pattern) (n : Nat) (o : Occurrence) (k : Continuation)
    (c : Progress) :
    (Part.optionals p (n + 1)).tries text o k c =
      ((Part.one p).tries text (.first :: o)
        ((Part.optionals p n).tries text (.rest :: o) k) c).or (k c) :=
  rfl

end Part

end BacktrackRegex
