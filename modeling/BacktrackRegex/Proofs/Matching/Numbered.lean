import BacktrackRegex.Proofs.Matching.Reference
import BacktrackRegex.Proofs.Program.Compilation

/-!
# The matcher with numbered loops

The occurrence of a loop is its way from the root of the unrolled pattern, and a rewriting that
moves a loop changes it. Here loops go by numbers instead, in the order in which they stand in the
unrolled pattern. Rewritings that keep this order keep the numbers.

The matcher with numbered loops finds the match of the reference matcher, with its end and spans.
Each loop of a part is known by its occurrence to the one and by its number to the other.
-/

namespace BacktrackRegex

/-- What a match has come to, with numbers for the loops. -/
structure Stage where
  /-- Where the match stands. -/
  pos : Nat
  /-- The latest completed spans of the groups. -/
  spans : Nat → Option Span
  /-- Where the latest iterations of the loops began. -/
  begun : Nat → Option Nat

namespace Stage

/-- Nothing was matched yet. -/
def initial (pos : Nat) : Stage :=
  ⟨pos, fun _ => none, fun _ => none⟩

/-- The match stands at another place. -/
def moveTo (d : Stage) (pos : Nat) : Stage :=
  { d with pos }

/-- A group that began at `start` is completed. -/
def close (d : Stage) (group start : Nat) : Stage :=
  { d with spans := fun i => if i = group then some ⟨start, d.pos⟩ else d.spans i }

/-- A loop begins an iteration. -/
def iterate (d : Stage) (loop : Nat) : Stage :=
  { d with begun := fun i => if i = loop then some d.pos else d.begun i }

/-- The match without its loops. -/
def withoutLoops (d : Stage) : Progress :=
  ⟨d.pos, d.spans, fun _ => none⟩

/-- What a match has found. -/
def found (d : Stage) : Nat × (Nat → Option Span) :=
  (d.pos, d.spans)

end Stage

/-- What a match has found. -/
def Progress.found (c : Progress) : Nat × (Nat → Option Span) :=
  (c.pos, c.spans)

/-- A matcher with numbered loops, which is given what comes after it. -/
abbrev Stager := (Stage → Option Stage) → Stage → Option Stage

namespace Pattern

/-- Tries `n` copies with `width` loops each, the last of which has the first loops. -/
def numberedCopies (body : Nat → Stager) (width : Nat) : Nat → Nat → Stager
  | 0, _, k => k
  | n + 1, a, k => numberedCopies body width n (a + width) (body a k)

/-- Tries up to `n` nested copies with `width` loops each, each of them before stopping. -/
def numberedOptionals (body : Nat → Stager) (width : Nat) : Nat → Nat → Stager
  | 0, _, k => k
  | n + 1, a, k => fun d =>
    (body a (numberedOptionals body width n (a + width) k) d).or (k d)

/-- Tries up to `n` iterations of the loop after the first `a` ones, each of them before
stopping. -/
def numberedLoop (body : Nat → Stager) (a : Nat) (k : Stage → Option Stage) :
    Nat → Stage → Option Stage
  | 0 => k
  | n + 1 => fun d =>
    if d.begun (a + 1) = some d.pos then k d
    else (body (a + 1) (numberedLoop body a k n) (d.iterate (a + 1))).or (k d)

mutual
/-- The number of loops of a pattern when its repetitions are unrolled. -/
def loopCount : Pattern → Nat
  | .sequence ps => loopCounts ps
  | .alternation ps => loopCounts ps
  | .repetition p min none => 1 + loopCount p + min * loopCount p
  | .repetition p min (some max) => (max - min) * loopCount p + min * loopCount p
  | .capture _ p => loopCount p
  | _ => 0

/-- The number of loops of the patterns of a list. -/
def loopCounts : List Pattern → Nat
  | [] => 0
  | p :: ps => loopCount p + loopCounts ps
end

mutual
/-- Tries the ways in which a pattern matches whose loops come after the first `a` ones. -/
def numberedMatch (text : String) : Pattern → Nat → Stager
  | .sequence ps, a, k => numberedItems text ps a k
  | .alternation ps, a, k => numberedOptions text ps a k
  | .repetition p min none, a, k =>
    numberedCopies (numberedMatch text p) p.loopCount min (a + (1 + p.loopCount))
      (numberedLoop (numberedMatch text p) a k (text.utf8ByteSize + 1))
  | .repetition p min (some max), a, k =>
    numberedCopies (numberedMatch text p) p.loopCount min (a + (max - min) * p.loopCount)
      (numberedOptionals (numberedMatch text p) p.loopCount (max - min) a k)
  | .capture i p, a, k => fun d => numberedMatch text p a (fun d' => k (d'.close i d.pos)) d
  | p, _, k => fun d => (p.stop? text d.withoutLoops).bind fun pos => k (d.moveTo pos)

/-- Tries the ways in which the items of a sequence match one after the other. -/
def numberedItems (text : String) : List Pattern → Nat → Stager
  | [], _, k => k
  | p :: ps, a, k => numberedMatch text p a (numberedItems text ps (a + p.loopCount) k)

/-- Tries the ways in which the options of an alternation match, from left to right. -/
def numberedOptions (text : String) : List Pattern → Nat → Stager
  | [], _, _ => fun _ => none
  | p :: ps, a, k => fun d =>
    (numberedMatch text p a k d).or (numberedOptions text ps (a + p.loopCount) k d)
end

/-- Where a pattern stops to match does not depend on loops. -/
theorem stop?_congr {text : String} {c c' : Progress} (hpos : c.pos = c'.pos)
    (hspans : c.spans = c'.spans) (p : Pattern) : p.stop? text c = p.stop? text c' := by
  obtain ⟨pos, spans, begun⟩ := c
  obtain rfl : pos = c'.pos := hpos
  obtain rfl : spans = c'.spans := hspans
  cases p <;> rfl

end Pattern

namespace Part

open Pattern

/-- The number of loops of a part. -/
def loopCount : Part → Nat
  | .one p => p.loopCount
  | .items ps => loopCounts ps
  | .options ps => loopCounts ps
  | .copies p n => n * p.loopCount
  | .optionals p n => n * p.loopCount
  | .loop p => 1 + p.loopCount

/-- Tries the ways in which a part matches whose loops come after the first `a` ones. -/
def numbered (text : String) : Part → Nat → Stager
  | .one p => numberedMatch text p
  | .items ps => numberedItems text ps
  | .options ps => numberedOptions text ps
  | .copies p n => numberedCopies (numberedMatch text p) p.loopCount n
  | .optionals p n => numberedOptionals (numberedMatch text p) p.loopCount n
  | .loop p => fun a k => numberedLoop (numberedMatch text p) a k (text.utf8ByteSize + 1)

/-- The loops of a repetition are those of its two parts. -/
theorem loopCount_repetition (p : Pattern) (min : Nat) (max : Option Nat) :
    (Part.one (.repetition p min max)).loopCount =
      (more p min max).loopCount + (Part.copies p min).loopCount := by
  cases max <;> simp only [loopCount, Pattern.loopCount, more]

/-- A repetition tries its mandatory copies in front of the other ones. -/
theorem numbered_repetition (text : String) (p : Pattern) (min : Nat) (max : Option Nat) (a : Nat)
    (k : Stage → Option Stage) :
    (Part.one (.repetition p min max)).numbered text a k =
      (Part.copies p min).numbered text (a + (more p min max).loopCount)
        ((more p min max).numbered text a k) := by
  cases max <;> simp only [numbered, numberedMatch, more, loopCount]

/-- A pattern without patterns inside it is left at the place where it stops to match. -/
theorem numbered_leaf {text : String} {p : Pattern} (hp : p.isLeaf = true) (a : Nat)
    (k : Stage → Option Stage) (d : Stage) :
    (Part.one p).numbered text a k d =
      (p.stop? text d.withoutLoops).bind fun pos => k (d.moveTo pos) := by
  cases p with
  | sequence _ | alternation _ | repetition _ _ _ | capture _ _ => simp [isLeaf] at hp
  | _ => rfl

end Part

/-! ## Numbers for occurrences -/

/-- The numbers tell of the loops what the occurrences tell. -/
structure Stage.Renames (kinds : LoopKinds) (c : Progress) (d : Stage) : Prop where
  pos : d.pos = c.pos
  spans : d.spans = c.spans
  begun : ∀ o i, kinds o = some (.guarded i) → d.begun i = c.begun o

/-- The continuations find the same. -/
def Continuation.Agrees (kinds : LoopKinds) (k : Continuation) (k' : Stage → Option Stage) : Prop :=
  ∀ c d, d.Renames kinds c → (k' d).map Stage.found = (k c).map Progress.found

/-- The matchers find the same with continuations that do, however many other loops are numbered. -/
def Stager.Follows (kinds : LoopKinds) (m' : Stager) (m : Continuation → Continuation) : Prop :=
  ∀ kinds' : LoopKinds, (∀ o kind, kinds o = some kind → kinds' o = some kind) → kinds'.Unique →
    ∀ k k', Continuation.Agrees kinds' k k' → Continuation.Agrees kinds' (m k) (m' k')

namespace Stage.Renames

variable {kinds : LoopKinds} {c c' : Progress} {d d' : Stage}

/-- Both stand at another place. -/
theorem moveTo (h : d.Renames kinds c) (pos : Nat) : (d.moveTo pos).Renames kinds (c.moveTo pos) :=
  ⟨rfl, h.spans, h.begun⟩

/-- Both complete a group. -/
theorem close (h : d.Renames kinds c) (h' : d'.Renames kinds c') (i : Nat) :
    (d'.close i d.pos).Renames kinds (c'.close i c.pos) := by
  refine ⟨h'.pos, ?_, h'.begun⟩
  simp only [Stage.close, Progress.close, h.pos, h'.pos, h'.spans]

/-- Both begin an iteration. -/
theorem iterate (h : d.Renames kinds c) (hu : kinds.Unique) {o : Occurrence} {i : Nat}
    (hi : kinds o = some (.guarded i)) : (d.iterate i).Renames kinds (c.iterate o) := by
  refine ⟨h.pos, h.spans, fun o' i' hi' => ?_⟩
  by_cases he : o' = o
  · subst he
    obtain rfl : i = i' := by simpa using hi.symm.trans hi'
    simp only [Stage.iterate, Progress.iterate, if_true, h.pos]
  · have hne : i' ≠ i := by
      rintro rfl
      exact he (hu o' o i' hi' hi)
    simp only [Stage.iterate, Progress.iterate, hne, he, ite_false]
    exact h.begun o' i' hi'

end Stage.Renames

namespace Continuation.Agrees

variable {kinds : LoopKinds} {k l : Continuation} {k' l' : Stage → Option Stage}

/-- One after the other is tried on both sides. -/
theorem or (h : Agrees kinds k k') (hl : Agrees kinds l l') :
    Agrees kinds (fun c => (k c).or (l c)) (fun d => (k' d).or (l' d)) := by
  intro c d hd
  rw [Option.map_or, Option.map_or, h c d hd, hl c d hd]

end Continuation.Agrees

namespace Stager.Follows

variable {kinds kinds' : LoopKinds} {m n : Continuation → Continuation} {m' n' : Stager}

/-- More loops may be numbered. -/
theorem mono (h : Follows kinds m' m) (hle : ∀ o kind, kinds o = some kind → kinds' o = some kind) :
    Follows kinds' m' m :=
  fun kinds'' hle' hu => h kinds'' (fun o kind hk => hle' o kind (hle o kind hk)) hu

/-- The loops of two parts can be numbered together. -/
theorem both {t t' : Turn} (hne : t ≠ t') {o : Occurrence} {a b c : Nat}
    (hm : ∃ kinds : LoopKinds, kinds.Within (t :: o) a b ∧ Follows kinds m' m)
    (hn : ∃ kinds : LoopKinds, kinds.Within (t' :: o) b c ∧ Follows kinds n' n) :
    ∃ kinds : LoopKinds, kinds.Within o a c ∧ Follows kinds m' m ∧ Follows kinds n' n := by
  obtain ⟨kinds, hw, hm⟩ := hm
  obtain ⟨kinds', hw', hn⟩ := hn
  exact ⟨kinds.union kinds', hw.union hw', hm.mono (LoopKinds.Within.left kinds kinds'),
    hn.mono (LoopKinds.Within.right hne hw hw')⟩

/-- What comes after each other on one side does so on the other. -/
theorem seq (hm : Follows kinds m' m) (hn : Follows kinds n' n) :
    Follows kinds (fun k => m' (n' k)) (fun k => m (n k)) :=
  fun kinds' hle hu k k' hk => hm kinds' hle hu _ _ (hn kinds' hle hu k k' hk)

/-- Iterations of loops follow each other if their bodies do. -/
theorem loop {body : Occurrence → Continuation → Continuation} {body' : Nat → Stager}
    {o : Occurrence} {a : Nat} (hi : kinds o = some (.guarded (a + 1)))
    (hbody : Follows kinds (body' (a + 1)) (body (.first :: o))) (n : Nat) :
    Follows kinds (fun k => Pattern.numberedLoop body' a k n)
      (fun k => Pattern.tryLoop body o k n) := by
  intro kinds' hle hu k k' hk
  induction n with
  | zero => exact hk
  | succ n ih =>
    intro c d hd
    have hbegun : d.begun (a + 1) = some d.pos ↔ c.begun o = some c.pos := by
      rw [hd.begun o (a + 1) (hle o _ hi), hd.pos]
    simp only [Pattern.numberedLoop, Pattern.tryLoop, hbegun]
    split
    · exact hk c d hd
    · rw [Option.map_or, Option.map_or, hk c d hd,
        hbody kinds' hle hu _ _ ih _ _ (hd.iterate hu (hle o _ hi))]

end Stager.Follows

/-- For the loops of a part at an occurrence there are numbers with which it finds the same. -/
def Part.Renumbers (text : String) (part : Part) : Prop :=
  ∀ o a, ∃ kinds : LoopKinds, kinds.Within o a (a + part.loopCount) ∧
    Stager.Follows kinds (part.numbered text a) (part.tries text o)

/-- The loops of all parts can be numbered. -/
theorem Part.renumbers (text : String) (part : Part) : part.Renumbers text := by
  induction part using Part.induct with
  | leaf p hp =>
    intro o a
    refine ⟨.none, ?_, fun kinds' _ _ k k' hk c d hd => ?_⟩
    · have hcount : (Part.one p).loopCount = 0 := by
        cases p with
        | sequence _ | alternation _ | repetition _ _ _ | capture _ _ => simp [Pattern.isLeaf] at hp
        | _ => rfl
      rw [hcount]
      exact .none o a
    · rw [tries_leaf hp, numbered_leaf hp,
        Pattern.stop?_congr (hd.pos : d.withoutLoops.pos = c.pos) hd.spans]
      cases p.stop? text c with
      | none => rfl
      | some pos => exact hk _ _ (hd.moveTo pos)
  | sequence ps ih => exact ih
  | alternation ps ih => exact ih
  | repetition p min max ihmore ihcopies =>
    intro o a
    obtain ⟨kinds, hw, hmore, hcopies⟩ := Stager.Follows.both (by decide)
      (ihmore (.first :: o) a) (ihcopies (.rest :: o) (a + (more p min max).loopCount))
    refine ⟨kinds, by rwa [loopCount_repetition, ← Nat.add_assoc], ?_⟩
    intro kinds' hle hu k k' hk
    rw [tries_repetition, numbered_repetition]
    exact hcopies.seq hmore kinds' hle hu k k' hk
  | capture i p ih =>
    intro o a
    obtain ⟨kinds, hw, h⟩ := ih (.first :: o) a
    refine ⟨kinds, hw.of_turn, fun kinds' hle hu k k' hk c d hd => ?_⟩
    exact h kinds' hle hu _ _ (fun c' d' hd' => hk _ _ (hd.close hd' i)) c d hd
  | noItems => exact fun o a => ⟨.none, .none o a, fun _ _ _ _ _ hk => hk⟩
  | item p ps ihp ihps =>
    intro o a
    obtain ⟨kinds, hw, hp, hps⟩ := Stager.Follows.both (by decide)
      (ihp (.first :: o) a) (ihps (.rest :: o) (a + p.loopCount))
    exact ⟨kinds, by rwa [Nat.add_assoc] at hw, hp.seq hps⟩
  | noOptions => exact fun o a => ⟨.none, .none o a, fun _ _ _ _ _ _ _ _ _ => rfl⟩
  | option p ps ihp ihps =>
    intro o a
    obtain ⟨kinds, hw, hp, hps⟩ := Stager.Follows.both (by decide)
      (ihp (.first :: o) a) (ihps (.rest :: o) (a + p.loopCount))
    refine ⟨kinds, by rwa [Nat.add_assoc] at hw, fun kinds' hle hu k k' hk => ?_⟩
    exact (hp kinds' hle hu k k' hk).or (hps kinds' hle hu k k' hk)
  | noCopies p =>
    intro o a
    refine ⟨.none, ?_, fun _ _ _ _ _ hk => hk⟩
    rw [loopCount, Nat.zero_mul]
    exact .none o a
  | copy p n ihp ihn =>
    intro o a
    obtain ⟨kinds, hw, hp, hn⟩ := Stager.Follows.both (by decide)
      (ihp (.first :: o) a) (ihn (.rest :: o) (a + p.loopCount))
    refine ⟨kinds, ?_, hn.seq hp⟩
    rwa [loopCount, Nat.succ_mul, Nat.add_comm (n * _), ← Nat.add_assoc]
  | noOptionals p =>
    intro o a
    refine ⟨.none, ?_, fun _ _ _ _ _ hk => hk⟩
    rw [loopCount, Nat.zero_mul]
    exact .none o a
  | optional p n ihp ihn =>
    intro o a
    obtain ⟨kinds, hw, hp, hn⟩ := Stager.Follows.both (by decide)
      (ihp (.first :: o) a) (ihn (.rest :: o) (a + p.loopCount))
    refine ⟨kinds, ?_, fun kinds' hle hu k k' hk => ?_⟩
    · rwa [loopCount, Nat.succ_mul, Nat.add_comm (n * _), ← Nat.add_assoc]
    · exact (hp.seq hn kinds' hle hu k k' hk).or hk
  | loop p ih =>
    intro o a
    obtain ⟨kinds, hw, h⟩ := ih (.first :: o) (a + 1)
    refine ⟨kinds.insert o (.guarded (a + 1)), ?_, ?_⟩
    · rw [loopCount, ← Nat.add_assoc]
      refine hw.insert (Nat.le_succ a) fun i hi => ?_
      obtain rfl := LoopKind.guarded.inj hi
      exact ⟨Nat.lt_succ_self a, Nat.le_refl _⟩
    · exact Stager.Follows.loop (if_pos rfl) (h.mono (hw.inserted _)) _

namespace Pattern

/-- The first match that begins at a place, found with numbered loops. -/
def numberedFirst? (text : String) (p : Pattern) (start : Nat) : Option Stage :=
  numberedMatch text p 0 (fun d => some (d.close 0 start)) (.initial start)

/-- The first match that is found with numbered loops is that of the reference matcher. -/
theorem found_numberedFirst? (text : String) (p : Pattern) (start : Nat) :
    (p.numberedFirst? text start).map Stage.found =
      (p.firstMatch? text start).map Progress.found := by
  obtain ⟨kinds, hw, h⟩ := Part.renumbers text (.one p) [] 0
  refine h kinds (fun _ _ hk => hk) hw.unique _ _ (fun c d hd => ?_) (.initial start)
    (.initial start) ⟨rfl, rfl, fun _ _ _ => rfl⟩
  simp only [Option.map_some, Stage.found, Stage.close, Progress.found, Progress.close, hd.pos,
    hd.spans]

end Pattern

end BacktrackRegex
