import BacktrackRegex.Proofs.Matching.Reference
import BacktrackRegex.Proofs.Text.Piece

/-!
# What parts do to a match

A part takes a match from a boundary of the text to a boundary that is not before it, and the groups
it completes span pieces of what was matched. It changes what is known of the loops at its own
occurrence and below it only. A continuation therefore matters for what a part may lead to only, and
a loop never uses up the number of iterations that it is given.
-/

namespace BacktrackRegex

open Text

namespace Progress

/-- A match that began at `origin` has come to a boundary, and the groups span pieces of it. -/
structure Valid (text : String) (origin : Nat) (c : Progress) : Prop where
  boundary : isBoundary text c.pos = true
  le : origin ≤ c.pos
  spans : ∀ i span, c.spans i = some span → origin ≤ span.start ∧ span.start ≤ span.stop ∧
    span.stop ≤ c.pos ∧ isBoundary text span.start = true ∧ isBoundary text span.stop = true

/-- The latest iterations of some of the loops below an occurrence began before the place. -/
def Past (loops : Occurrence → Prop) (o : Occurrence) (c : Progress) : Prop :=
  ∀ o', o <:+ o' → loops o' → ∀ q, c.begun o' = some q → q < c.pos

/-- A part at an occurrence may take the match from `c` to `c'`. -/
structure Keeps (text : String) (origin : Nat) (loops : Occurrence → Prop) (o : Occurrence)
    (c c' : Progress) : Prop where
  valid : c'.Valid text origin
  past : c'.Past loops o
  le : c.pos ≤ c'.pos
  same : ∀ o', ¬ o <:+ o' → c'.begun o' = c.begun o'

variable {text : String} {origin pos : Nat} {loops : Occurrence → Prop} {o : Occurrence}
  {t : Turn} {c c' c'' : Progress}

/-- A match that has just begun is valid. -/
theorem valid_initial {start : Nat} (h : isBoundary text start = true) :
    (initial start).Valid text start :=
  ⟨h, Nat.le_refl start, by simp [initial]⟩

/-- No loop has begun an iteration yet. -/
theorem past_initial (loops : Occurrence → Prop) (o : Occurrence) (start : Nat) :
    (initial start).Past loops o := by
  simp [Past, initial]

/-- Nothing is asked of no loops. -/
theorem past_none (o : Occurrence) (c : Progress) : c.Past (fun _ => False) o :=
  fun _ _ h => h.elim

/-- The loops below a turn lie below the occurrence. -/
theorem Past.turn (h : c.Past loops o) (t : Turn) : c.Past loops (t :: o) :=
  fun o' ho => h o' ((List.suffix_cons t o).trans ho)

/-- A match that goes on to a later boundary stays valid. -/
theorem Valid.moveTo (h : c.Valid text origin) (hb : isBoundary text pos = true)
    (hle : c.pos ≤ pos) : (c.moveTo pos).Valid text origin where
  boundary := hb
  le := Nat.le_trans h.le hle
  spans i span hs := by
    obtain ⟨h₁, h₂, h₃, h₄⟩ := h.spans i span hs
    exact ⟨h₁, h₂, Nat.le_trans h₃ hle, h₄⟩

/-- A group that begins and ends at places of the match spans a piece of it. -/
theorem Valid.close (h : c.Valid text origin) (h' : c'.Valid text origin) (hle : c.pos ≤ c'.pos)
    (i : Nat) : (c'.close i c.pos).Valid text origin where
  boundary := h'.boundary
  le := h'.le
  spans j span hs := by
    simp only [Progress.close] at hs
    split at hs
    · obtain rfl := Option.some.inj hs
      exact ⟨h.le, hle, Nat.le_refl _, h.boundary, h'.boundary⟩
    · exact h'.spans j span hs

/-- The start of an iteration changes no span. -/
theorem Valid.iterate (h : c.Valid text origin) (o : Occurrence) :
    (c.iterate o).Valid text origin :=
  ⟨h.boundary, h.le, h.spans⟩

/-- An occurrence does not lie below one of its turns. -/
theorem not_suffix_self (t : Turn) (o : Occurrence) : ¬ t :: o <:+ o := fun h => by
  have := h.length_le
  rw [List.length_cons] at this
  omega

/-- The start of an iteration is noted for the loop itself, not for those in its body. -/
theorem Past.iterate (h : c.Past loops o) (t : Turn) : (c.iterate o).Past loops (t :: o) := by
  intro o' ho hl q hq
  have hne : o' ≠ o := by
    rintro rfl
    exact not_suffix_self t _ ho
  rw [Progress.iterate] at hq
  simp only [hne, ite_false] at hq
  exact h.turn t o' ho hl q hq

namespace Keeps

/-- A part may leave the match as it is. -/
theorem refl (hv : c.Valid text origin) (hp : c.Past loops o) : Keeps text origin loops o c c :=
  ⟨hv, hp, Nat.le_refl _, fun _ _ => rfl⟩

theorem trans (h : Keeps text origin loops o c c') (h' : Keeps text origin loops o c' c'') :
    Keeps text origin loops o c c'' :=
  ⟨h'.valid, h'.past, Nat.le_trans h.le h'.le, fun o' ho => (h'.same o' ho).trans (h.same o' ho)⟩

/-- What a part at a turn does is done at the occurrence. -/
theorem of_turn (hp : c.Past loops o) (h : Keeps text origin loops (t :: o) c c') :
    Keeps text origin loops o c c' := by
  refine ⟨h.valid, fun o' ho hl q hq => ?_, h.le, fun o' ho => h.same o' fun ht => ?_⟩
  · by_cases ht : t :: o <:+ o'
    · exact h.past o' ht hl q hq
    · rw [h.same o' ht] at hq
      exact Nat.lt_of_lt_of_le (hp o' ho hl q hq) h.le
  · exact ho ((List.suffix_cons t o).trans ht)

/-- A part may take the match to a later boundary. -/
theorem moveTo (hv : c.Valid text origin) (hp : c.Past loops o)
    (hb : isBoundary text pos = true) (hle : c.pos ≤ pos) :
    Keeps text origin loops o c (c.moveTo pos) :=
  ⟨hv.moveTo hb hle, fun o' ho hl q hq => Nat.lt_of_lt_of_le (hp o' ho hl q hq) hle, hle,
    fun _ _ => rfl⟩

/-- A part may complete a group that began with it. -/
theorem close (hv : c.Valid text origin) (h : Keeps text origin loops o c c') (i : Nat) :
    Keeps text origin loops o c (c'.close i c.pos) :=
  ⟨hv.close h.valid h.le i, h.past, h.le, h.same⟩

/-- The body of a loop leaves the start of the iteration as it is. -/
theorem begun_eq (h : Keeps text origin loops (t :: o) (c.iterate o) c') :
    c'.begun o = some c.pos := by
  rw [h.same o (not_suffix_self t o)]
  simp [Progress.iterate]

/-- A loop may take the match where an iteration of its body takes it. -/
theorem of_iterate (hp : c.Past loops o) (h : Keeps text origin loops (t :: o) (c.iterate o) c')
    (hl : loops o → c.pos < c'.pos) : Keeps text origin loops o c c' := by
  have hsame {o' : Occurrence} (hne : o' ≠ o) (ht : ¬ t :: o <:+ o') :
      c'.begun o' = c.begun o' := by
    rw [h.same o' ht]
    simp [Progress.iterate, hne]
  refine ⟨h.valid, fun o' ho hl' q hq => ?_, h.le, fun o' ho => hsame ?_ fun ht => ?_⟩
  · by_cases he : o' = o
    · subst he
      obtain rfl := Option.some.inj (h.begun_eq.symm.trans hq)
      exact hl hl'
    · by_cases ht : t :: o <:+ o'
      · exact h.past o' ht hl' q hq
      · rw [hsame he ht] at hq
        exact Nat.lt_of_lt_of_le (hp o' ho hl' q hq) h.le
  · rintro rfl
    exact ho List.suffix_rfl
  · exact ho ((List.suffix_cons t o).trans ht)

end Keeps

end Progress

/-! ## Patterns without patterns inside them -/

namespace Pattern

variable {text : String} {origin pos : Nat} {c : Progress}

/-- A character is a piece of the text, and takes at least one byte. -/
theorem charStop?_spec {accepts : Char → Bool} {i : Nat}
    (h : charStop? text accepts i = some pos) : isBoundary text pos = true ∧ i + 1 ≤ pos := by
  rw [charStop?] at h
  split at h
  · next ch hc =>
    split at h
    · obtain rfl := Option.some.inj h
      exact ⟨(charAt?_eq_some_iff.mp hc).right, by have := ch.utf8Size_pos; omega⟩
    · simp at h
  · simp at h

/-- A valid match goes on to a later boundary. -/
theorem stop?_spec {p : Pattern} (hv : c.Valid text origin) (h : p.stop? text c = some pos) :
    isBoundary text pos = true ∧ c.pos ≤ pos := by
  cases p with
  | literal s =>
    rw [stop?] at h
    split at h
    · next ho =>
      obtain rfl := Option.some.inj h
      exact ⟨((occursAt_iff hv.boundary).mp ho).right, Nat.le_add_right _ _⟩
    · simp at h
  | anyChar | charClass _ =>
    obtain ⟨hb, hle⟩ := charStop?_spec h
    exact ⟨hb, by omega⟩
  | backReference i =>
    rw [stop?] at h
    split at h
    · next span hspan =>
      split at h
      · next hsame =>
        obtain rfl := Option.some.inj h
        obtain ⟨-, hle, -, hb, hb'⟩ := hv.spans i span hspan
        obtain ⟨s, hs⟩ := exists_spells hb hb' hle
        have ho := (occursAt_iff hv.boundary).mp ((sameBytes_of_spells hs).mp hsame)
        obtain ⟨-, -, -, -, he⟩ := hs
        exact ⟨by rw [he, Nat.add_sub_cancel_left]; exact ho.right, Nat.le_add_right _ _⟩
      · simp at h
    · simp at h
  | textStart | textEnd =>
    rw [stop?] at h
    split at h
    · obtain rfl := Option.some.inj h
      exact ⟨hv.boundary, Nat.le_refl _⟩
    · simp at h
  | _ => simp [stop?] at h

/-- A node of a program takes at least as many bytes as it needs for itself. -/
theorem stop?_width {p : Pattern} {next width : Nat} {op : Op}
    (hp : p.leafOp? next = some (op, width)) (h : p.stop? text c = some pos) :
    c.pos + width ≤ pos := by
  cases p with
  | literal s =>
    rw [leafOp?] at hp
    rw [stop?] at h
    split at hp
    · simp at hp
    · split at h
      · obtain ⟨-, rfl⟩ := Prod.mk.inj (Option.some.inj hp)
        exact Nat.le_of_eq (Option.some.inj h)
      · simp at h
  | anyChar | charClass _ =>
    obtain ⟨-, rfl⟩ := Prod.mk.inj (Option.some.inj hp)
    exact (charStop?_spec h).2
  | backReference i =>
    obtain ⟨-, rfl⟩ := Prod.mk.inj (Option.some.inj hp)
    rw [stop?] at h
    split at h
    · split at h
      · obtain rfl := Option.some.inj h
        exact Nat.le_add_right _ _
      · simp at h
    · simp at h
  | textStart | textEnd =>
    obtain ⟨-, rfl⟩ := Prod.mk.inj (Option.some.inj hp)
    rw [stop?] at h
    split at h
    · exact Nat.le_of_eq (Option.some.inj h)
    · simp at h
  | _ => simp [leafOp?] at hp

/-- A pattern that cannot match the empty text goes on. -/
theorem stop?_lt {p : Pattern} (hn : p.isNullable = false) (h : p.stop? text c = some pos) :
    c.pos < pos := by
  cases p with
  | literal s =>
    have hs : s.isEmpty = false := by simpa [isNullable] using hn
    have hop : (literal s).leafOp? 0 = some (.literal s 0, s.utf8ByteSize) := by
      rw [leafOp?, hs]
      rfl
    have hw := stop?_width hop h
    have : s.utf8ByteSize ≠ 0 := by simpa [String.isEmpty] using hs
    omega
  | anyChar | charClass _ => exact (charStop?_spec h).2
  | backReference _ | textStart | textEnd => simp [isNullable] at hn
  | _ => simp [stop?] at h

end Pattern

end BacktrackRegex
