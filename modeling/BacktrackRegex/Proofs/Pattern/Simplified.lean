import BacktrackRegex.Pattern.Simplify
import BacktrackRegex.Proofs.Pattern.Part

/-!
# Simplification keeps local tests

Simplification rearranges the items of sequences and the options of alternations, and makes new
literals. A test that accepts all literals, sequences and alternations with options, and that does
not look into the bodies of groups and repetitions, therefore accepts everything in a simplified
pattern if it does so in the pattern.
-/

namespace BacktrackRegex.Pattern

/-- A test that does not depend on what simplification changes. -/
structure Stable (test : List Nat → Pattern → Bool) : Prop where
  literal : ∀ groups s, test groups (.literal s) = true
  sequence : ∀ groups ps, test groups (.sequence ps) = true
  alternation : ∀ groups ps, test groups (.alternation ps) = !ps.isEmpty ∨
    test groups (.alternation ps) = true
  repetition : ∀ groups p q min max,
    test groups (.repetition p min max) = test groups (.repetition q min max)
  capture : ∀ groups i p q, test groups (.capture i p) = test groups (.capture i q)

variable {test : List Nat → Pattern → Bool} {enclosing : List Nat}

/-- The patterns of a list are simplified one by one. -/
theorem simplifyAll_eq_map (ps : List Pattern) : simplifyAll ps = ps.map simplify := by
  induction ps with
  | nil => rfl
  | cons p ps ih => rw [simplifyAll, ih, List.map_cons]

/-- A test accepts everything in a list if it does so in its patterns. -/
theorem everywhereIn_iff {ps : List Pattern} :
    everywhereIn test enclosing ps = true ↔ ∀ p ∈ ps, p.everywhere test enclosing = true := by
  induction ps with
  | nil => simp [everywhereIn]
  | cons p ps ih => simp [everywhereIn, ih]

/-- The items of a pattern are accepted with it. -/
theorem everywhere_items {p : Pattern} (h : p.everywhere test enclosing = true) :
    ∀ q ∈ p.items, q.everywhere test enclosing = true := by
  cases p with
  | sequence ps =>
    simp only [everywhere, Bool.and_eq_true] at h
    exact everywhereIn_iff.mp h.2
  | _ => simpa [items] using h

/-- The options of a pattern are accepted with it. -/
theorem everywhere_options {p : Pattern} (h : p.everywhere test enclosing = true) :
    ∀ q ∈ p.options, q.everywhere test enclosing = true := by
  cases p with
  | alternation ps =>
    simp only [everywhere, Bool.and_eq_true] at h
    exact everywhereIn_iff.mp h.2
  | _ => simpa [options] using h

/-- What holds of all literals and of some items holds of them when they are joined. -/
theorem forall_mem_joinLiterals {P : Pattern → Prop} {ps : List Pattern}
    (hliteral : ∀ s, P (.literal s)) (h : ∀ p ∈ ps, P p) : ∀ p ∈ joinLiterals ps, P p := by
  induction ps with
  | nil => simp [joinLiterals]
  | cons p ps ih =>
    obtain ⟨hp, hps⟩ := List.forall_mem_cons.mp h
    have hrest := ih hps
    rw [joinLiterals, List.foldr_cons, ← joinLiterals, joinInFront.eq_def]
    split
    · next s t rest he =>
      rw [he] at hrest
      exact List.forall_mem_cons.mpr ⟨hliteral _, (List.forall_mem_cons.mp hrest).2⟩
    · exact List.forall_mem_cons.mpr ⟨hp, hrest⟩

namespace Stable

/-- The test accepts everything in a literal. -/
theorem everywhere_literal (ht : Stable test) (s : String) :
    (Pattern.literal s).everywhere test enclosing = true := by
  simp only [everywhere]
  exact ht.literal _ _

/-- Joining literals makes a literal. -/
theorem everywhere_joinLiterals (ht : Stable test) {ps : List Pattern}
    (h : ∀ p ∈ ps, p.everywhere test enclosing = true) :
    ∀ p ∈ joinLiterals ps, p.everywhere test enclosing = true :=
  forall_mem_joinLiterals ht.everywhere_literal h

/-- The sequence of accepted items is accepted. -/
theorem everywhere_collapseItems (ht : Stable test) {ps : List Pattern}
    (h : ∀ p ∈ ps, p.everywhere test enclosing = true) :
    (collapseItems ps).everywhere test enclosing = true := by
  rw [collapseItems.eq_def]
  split
  · exact ht.everywhere_literal _
  · exact h _ List.mem_cons_self
  · simp only [everywhere, Bool.and_eq_true]
    exact ⟨ht.sequence _ _, everywhereIn_iff.mpr h⟩

/-- The alternation of accepted options is accepted. -/
theorem everywhere_collapseOptions (ht : Stable test) {ps : List Pattern}
    (h : ∀ p ∈ ps, p.everywhere test enclosing = true) :
    (collapseOptions ps).everywhere test enclosing = true := by
  rw [collapseOptions.eq_def]
  split
  · exact ht.everywhere_literal _
  · exact h _ List.mem_cons_self
  · next hne _ =>
    simp only [everywhere, Bool.and_eq_true]
    refine ⟨?_, everywhereIn_iff.mpr h⟩
    rcases ht.alternation enclosing ps with he | he
    · rw [he]
      simpa using hne
    · exact he

mutual
/-- The test accepts everything in a simplified pattern. -/
theorem everywhere_simplify (ht : Stable test) : ∀ (p : Pattern) (enclosing : List Nat),
    p.everywhere test enclosing = true → p.simplify.everywhere test enclosing = true
  | .sequence ps, enclosing, h => by
    simp only [everywhere, Bool.and_eq_true] at h
    rw [simplify]
    refine ht.everywhere_collapseItems (ht.everywhere_joinLiterals fun q hq => ?_)
    obtain ⟨p, hp, hq⟩ := List.mem_flatMap.mp hq
    exact everywhere_items (ht.everywhere_simplifyAll ps enclosing h.2 p hp) q hq
  | .alternation ps, enclosing, h => by
    simp only [everywhere, Bool.and_eq_true] at h
    rw [simplify]
    refine ht.everywhere_collapseOptions fun q hq => ?_
    obtain ⟨p, hp, hq⟩ := List.mem_flatMap.mp hq
    exact everywhere_options (ht.everywhere_simplifyAll ps enclosing h.2 p hp) q hq
  | .repetition p min max, enclosing, h => by
    simp only [everywhere, Bool.and_eq_true] at h
    simp only [simplify, everywhere, Bool.and_eq_true]
    exact ⟨ht.repetition _ p _ _ _ ▸ h.1, ht.everywhere_simplify p enclosing h.2⟩
  | .capture i p, enclosing, h => by
    simp only [everywhere, Bool.and_eq_true] at h
    simp only [simplify, everywhere, Bool.and_eq_true]
    exact ⟨ht.capture _ _ p _ ▸ h.1, ht.everywhere_simplify p (i :: enclosing) h.2⟩
  | .charClass cls, enclosing, h => by
    rw [simplify]
    split
    · exact ht.everywhere_literal _
    · exact h
  | .literal _, _, h | .anyChar, _, h | .backReference _, _, h | .textStart, _, h
  | .textEnd, _, h => by
    simpa only [simplify] using h

/-- The test accepts everything in the simplified patterns of a list. -/
theorem everywhere_simplifyAll (ht : Stable test) : ∀ (ps : List Pattern) (enclosing : List Nat),
    everywhereIn test enclosing ps = true →
      ∀ p ∈ simplifyAll ps, p.everywhere test enclosing = true
  | [], _, _, p, hp => by simp [simplifyAll] at hp
  | q :: ps, enclosing, h, p, hp => by
    simp only [everywhereIn, Bool.and_eq_true] at h
    rw [simplifyAll] at hp
    rcases List.mem_cons.mp hp with rfl | hp
    · exact ht.everywhere_simplify q enclosing h.1
    · exact ht.everywhere_simplifyAll ps enclosing h.2 p hp
end

end Stable

/-- Being proper does not depend on what simplification changes. -/
theorem stable_isProper : Stable isProper :=
  ⟨fun _ _ => rfl, fun _ _ => rfl, fun _ _ => Or.inl rfl, fun _ _ _ _ _ => rfl,
    fun _ _ _ _ => rfl⟩

/-- Having an option does not depend on what simplification changes. -/
theorem stable_hasOption : Stable fun _ => hasOption :=
  ⟨fun _ _ => rfl, fun _ _ => rfl, fun _ _ => Or.inl rfl, fun _ _ _ _ _ => rfl,
    fun _ _ _ _ => rfl⟩

/-- Being no back-reference does not depend on what simplification changes. -/
theorem stable_isNoReference : Stable fun _ => isNoReference :=
  ⟨fun _ _ => rfl, fun _ _ => rfl, fun _ _ => Or.inr rfl, fun _ _ _ _ _ => rfl,
    fun _ _ _ _ => rfl⟩

/-- Simplified patterns are well-formed. -/
theorem isWellFormed_simplify {p : Pattern} (h : p.isWellFormed enclosing = true) :
    p.simplify.isWellFormed enclosing = true :=
  stable_isProper.everywhere_simplify p enclosing h

/-- The alternations of simplified patterns have options. -/
theorem hasOptions_simplify {p : Pattern} (h : p.hasOptions = true) :
    p.simplify.hasOptions = true :=
  stable_hasOption.everywhere_simplify p [] h

/-- Simplification makes no back-references. -/
theorem isReferenceFree_simplify {p : Pattern} (h : p.isReferenceFree = true) :
    p.simplify.isReferenceFree = true :=
  stable_isNoReference.everywhere_simplify p [] h

end BacktrackRegex.Pattern
