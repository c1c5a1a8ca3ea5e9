import BacktrackRegex.Proofs.Pattern.Expressible

/-!
# Patterns that are read are orderly

A pattern that is read has its capture groups numbered from 1 on in the order in which they are
opened, and no more of them than allowed. Its back-references have an index from 1 to 9 and stand
outside their own groups, its repetitions have bounds in order, its alternations have options, and
its classes are masks or lists of ranges that neither overlap nor touch. Simplification keeps a
pattern orderly, and keeps its landmarks.
-/

namespace BacktrackRegex.Pattern

/-- Whether the pattern, inside some capture groups, is no back-reference into one of them or beyond
a single digit, no repetition with fewer copies at most than at least, no alternation without
options, and no class but a mask or a canonical range set. -/
def isOrderly (enclosing : List Nat) : Pattern → Bool
  | .alternation options => !options.isEmpty
  | .repetition _ min max => inOrder min max
  | .backReference i => 1 ≤ i && i ≤ 9 && !enclosing.contains i
  | .charClass cls => decide cls.Canonical
  | _ => true

/-- The capture groups of a pattern have the indices from 1 on, at most `limit`, and all patterns
inside it are in order. -/
structure Orderly (limit : Nat) (p : Pattern) : Prop where
  captures : captures p = List.range' 1 p.groupCount
  groupCount_le : p.groupCount ≤ limit
  everywhere : p.everywhere isOrderly [] = true

/-- Being in order does not depend on what simplification changes. -/
theorem stable_isOrderly : Stable isOrderly :=
  ⟨fun _ _ => rfl, fun _ _ => rfl, fun _ _ => Or.inl rfl, fun _ _ _ _ _ => rfl,
    fun _ _ _ _ => rfl⟩

/-- A proper and expressible pattern is in order. That group 0 lies around it keeps its
back-references from being 0. -/
theorem isOrderly_of_isProper {enclosing : List Nat} {p : Pattern}
    (hproper : p.isProper (enclosing ++ [0]) = true) (hexpressible : p.isExpressible = true) :
    p.isOrderly enclosing = true := by
  cases p with
  | backReference i =>
    simp only [isProper, List.contains_append, Bool.not_or, Bool.and_eq_true] at hproper
    simp only [isExpressible, decide_eq_true_eq] at hexpressible
    have hzero : i ≠ 0 := by simpa using hproper.2
    simp only [isOrderly, Bool.and_eq_true, decide_eq_true_eq]
    exact ⟨⟨Nat.one_le_iff_ne_zero.mpr hzero, hexpressible⟩, hproper.1⟩
  | alternation _ | repetition _ _ _ => exact hproper
  | charClass _ => exact hexpressible
  | _ => rfl

/-- Simplification keeps a pattern orderly. -/
theorem Orderly.simplify {limit : Nat} {p : Pattern} (h : p.Orderly limit) :
    p.simplify.Orderly limit where
  captures := by rw [captures_simplify, groupCount_simplify, h.captures]
  groupCount_le := by rw [groupCount_simplify]; exact h.groupCount_le
  everywhere := stable_isOrderly.everywhere_simplify p [] h.everywhere

/-- All patterns inside a pattern that is read are in order. -/
theorem everywhere_isOrderly_of_read {limit : Nat} {text : String} {p : Pattern}
    (h : read limit text = .ok p) : p.everywhere isOrderly [] = true := by
  refine everywhere_of_both (R := fun around _ enclosing => around = enclosing ++ [0])
    (fun i _ _ _ he => congrArg (i :: ·) he) ?_ p [0] [] [] rfl (isWellFormed_of_read h)
    (isExpressible_of_read h [])
  rintro _ _ enclosing q rfl hproper hexpressible
  exact isOrderly_of_isProper hproper hexpressible

/-- A pattern that is read is orderly. Simplified, it still is, with the same capture groups,
back-references and anchors in the same order and nesting. -/
theorem orderly_of_read {limit : Nat} {text : String} {p : Pattern}
    (h : read limit text = .ok p) :
    p.Orderly limit ∧ p.simplify.Orderly limit ∧ p.simplify.landmarks = p.landmarks := by
  obtain ⟨hcaptures, hlimit⟩ := captures_of_read h
  have hp : p.Orderly limit := ⟨hcaptures, hlimit, everywhere_isOrderly_of_read h⟩
  exact ⟨hp, hp.simplify, landmarks_simplify p⟩

/-- A reference to a group that does not exist, options that are opened, a class that becomes a
literal, and an empty literal before an anchor. -/
theorem orderly_of_read_landmarks :
    ∃ p, read 2 "^((?:a|(?:[b]|\\3))[^c-e]{2,3})\\1((?:)$)" = .ok p ∧ p.Orderly 2 ∧
      p.simplify.Orderly 2 ∧ p.simplify.landmarks = [.textStart, .groupStart 1, .backReference 3,
        .groupEnd 1, .backReference 1, .groupStart 2, .textEnd, .groupEnd 2] := by
  have h : (read 2 "^((?:a|(?:[b]|\\3))[^c-e]{2,3})\\1((?:)$)").toOption.map landmarks =
      some [.textStart, .groupStart 1, .backReference 3, .groupEnd 1, .backReference 1,
        .groupStart 2, .textEnd, .groupEnd 2] := by
    decide +kernel
  obtain ⟨p, hp, hlandmarks⟩ := Option.map_eq_some_iff.mp h
  have hread := read_eq_ok_iff.mpr hp
  obtain ⟨horderly, hsimplified, hkept⟩ := orderly_of_read hread
  exact ⟨p, hread, horderly, hsimplified, hkept.trans hlandmarks⟩

end BacktrackRegex.Pattern
