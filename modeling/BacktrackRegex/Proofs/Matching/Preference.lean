import BacktrackRegex.Proofs.CharClass.Single
import BacktrackRegex.Proofs.Matching.Numbered
import BacktrackRegex.Proofs.Matching.Simplified

/-!
# Simplification keeps the first match

Opening sequences and alternations, joining literals and replacing classes of a single character
changes neither the order in which the ways to match are tried nor the order of the loops. With
numbered loops a simplified pattern therefore tries the same as the pattern, so that the first match
is the same, with all spans.
-/

namespace BacktrackRegex.Pattern

open Text

variable {text : String}

/-! ## Loops -/

/-- The loops of two lists of patterns follow each other. -/
theorem loopCounts_append (ps qs : List Pattern) :
    loopCounts (ps ++ qs) = loopCounts ps + loopCounts qs := by
  induction ps with
  | nil => simp [loopCounts]
  | cons p ps ih => rw [List.cons_append, loopCounts, loopCounts, ih, Nat.add_assoc]

/-- A pattern has the loops of its items. -/
theorem loopCounts_items (p : Pattern) : loopCounts p.items = p.loopCount := by
  cases p with
  | sequence ps => rw [items, loopCount]
  | _ => simp [items, loopCounts]

/-- A pattern has the loops of its options. -/
theorem loopCounts_options (p : Pattern) : loopCounts p.options = p.loopCount := by
  cases p with
  | alternation ps => rw [options, loopCount]
  | _ => simp [options, loopCounts]

/-- Opening patterns keeps the loops if it keeps those of each pattern. -/
theorem loopCounts_flatMap {parts : Pattern → List Pattern}
    (hparts : ∀ p, loopCounts (parts p) = p.loopCount) (ps : List Pattern) :
    loopCounts (ps.flatMap parts) = loopCounts ps := by
  induction ps with
  | nil => rfl
  | cons p ps ih => rw [List.flatMap_cons, loopCounts_append, hparts, ih, loopCounts]

/-- Literals have no loops. -/
theorem loopCounts_joinLiterals (ps : List Pattern) :
    loopCounts (joinLiterals ps) = loopCounts ps := by
  induction ps with
  | nil => rfl
  | cons p ps ih =>
    rw [joinLiterals, List.foldr_cons, ← joinLiterals, joinInFront.eq_def]
    split
    · next s t rest he =>
      rw [he] at ih
      simp only [loopCounts, loopCount] at ih ⊢
      omega
    · rw [loopCounts, loopCounts, ih]

/-- The sequence of some items has their loops. -/
theorem loopCount_collapseItems (ps : List Pattern) :
    (collapseItems ps).loopCount = loopCounts ps := by
  rw [collapseItems.eq_def]
  split <;> simp [loopCount, loopCounts]

/-- The alternation of some options has their loops. -/
theorem loopCount_collapseOptions (ps : List Pattern) :
    (collapseOptions ps).loopCount = loopCounts ps := by
  rw [collapseOptions.eq_def]
  split <;> simp [loopCount, loopCounts]

mutual
/-- Simplification keeps the loops. -/
theorem loopCount_simplify : ∀ p : Pattern, p.simplify.loopCount = p.loopCount
  | .sequence ps => by
    rw [simplify, loopCount_collapseItems, loopCounts_joinLiterals,
      loopCounts_flatMap loopCounts_items, loopCounts_simplifyAll ps, loopCount]
  | .alternation ps => by
    rw [simplify, loopCount_collapseOptions, loopCounts_flatMap loopCounts_options,
      loopCounts_simplifyAll ps, loopCount]
  | .repetition p min none => by
    rw [simplify, loopCount, loopCount, loopCount_simplify p]
  | .repetition p min (some max) => by
    rw [simplify, loopCount, loopCount, loopCount_simplify p]
  | .capture i p => by
    rw [simplify, loopCount, loopCount, loopCount_simplify p]
  | .charClass cls => by
    rw [simplify]
    split <;> rfl
  | .literal _ | .anyChar | .backReference _ | .textStart | .textEnd => by
    simp only [simplify]

/-- Simplification keeps the loops of the patterns of a list. -/
theorem loopCounts_simplifyAll : ∀ ps : List Pattern,
    loopCounts (simplifyAll ps) = loopCounts ps
  | [] => by rw [simplifyAll]
  | p :: ps => by
    rw [simplifyAll, loopCounts, loopCounts, loopCount_simplify p, loopCounts_simplifyAll ps]
end

/-! ## Ways to match -/

/-- Items are tried in two parts. -/
theorem numberedItems_append (ps qs : List Pattern) (a : Nat) (k : Stage → Option Stage) :
    numberedItems text (ps ++ qs) a k =
      numberedItems text ps a (numberedItems text qs (a + loopCounts ps) k) := by
  induction ps generalizing a with
  | nil => rfl
  | cons p ps ih =>
    rw [List.cons_append, numberedItems, numberedItems, ih, loopCounts, Nat.add_assoc]

/-- Options are tried in two parts. -/
theorem numberedOptions_append (ps qs : List Pattern) (a : Nat) (k : Stage → Option Stage)
    (d : Stage) :
    numberedOptions text (ps ++ qs) a k d =
      (numberedOptions text ps a k d).or (numberedOptions text qs (a + loopCounts ps) k d) := by
  induction ps generalizing a with
  | nil => rfl
  | cons p ps ih =>
    simp only [List.cons_append, numberedOptions, ih, loopCounts, Option.or_assoc, Nat.add_assoc]

/-- A pattern tries what its items try. -/
theorem numberedItems_items (p : Pattern) (a : Nat) (k : Stage → Option Stage) :
    numberedItems text p.items a k = numberedMatch text p a k := by
  cases p with
  | sequence ps => rw [items, numberedMatch]
  | _ => simp only [items, numberedItems]

/-- A pattern tries what its options try. -/
theorem numberedOptions_options (p : Pattern) (a : Nat) (k : Stage → Option Stage) :
    numberedOptions text p.options a k = numberedMatch text p a k := by
  funext d
  cases p with
  | alternation ps => rw [options, numberedMatch]
  | _ => simp only [options, numberedOptions, Option.or_none]

/-- Opening the sequences among items changes nothing. -/
theorem numberedItems_flatMap (ps : List Pattern) (a : Nat) (k : Stage → Option Stage) :
    numberedItems text (ps.flatMap items) a k = numberedItems text ps a k := by
  induction ps generalizing a with
  | nil => rfl
  | cons p ps ih =>
    rw [List.flatMap_cons, numberedItems_append, numberedItems_items, loopCounts_items, ih,
      numberedItems]

/-- Opening the alternations among options changes nothing. -/
theorem numberedOptions_flatMap (ps : List Pattern) (a : Nat) (k : Stage → Option Stage) :
    numberedOptions text (ps.flatMap options) a k = numberedOptions text ps a k := by
  funext d
  induction ps generalizing a with
  | nil => rfl
  | cons p ps ih =>
    rw [List.flatMap_cons, numberedOptions_append, numberedOptions_options, loopCounts_options, ih,
      numberedOptions]

/-- Two literals match one after the other where the joined one matches. -/
theorem numberedMatch_append (s t : String) (a b : Nat) (k : Stage → Option Stage) :
    numberedMatch text (.literal (s ++ t)) a k =
      numberedMatch text (.literal s) a (numberedMatch text (.literal t) b k) := by
  funext d
  simp only [numberedMatch, stop?, Stage.withoutLoops, occursAt_append_iff]
  by_cases hs : occursAt text d.pos s = true
  · by_cases ht : occursAt text (d.pos + s.utf8ByteSize) t = true
    · simp [hs, ht, Stage.moveTo, Nat.add_assoc]
    · simp [hs, ht, Stage.moveTo]
  · simp [hs]

/-- Joining neighbouring literals changes nothing. -/
theorem numberedItems_joinLiterals (ps : List Pattern) (a : Nat) (k : Stage → Option Stage) :
    numberedItems text (joinLiterals ps) a k = numberedItems text ps a k := by
  induction ps generalizing a with
  | nil => rfl
  | cons p ps ih =>
    rw [joinLiterals, List.foldr_cons, ← joinLiterals, joinInFront.eq_def]
    split
    · next s t rest he =>
      have ih := ih a
      rw [he, numberedItems] at ih
      rw [numberedItems, numberedItems, numberedMatch_append s t a a]
      exact congrArg _ ih
    · rw [numberedItems, numberedItems, ih]

/-- An empty literal only goes on. -/
theorem numberedMatch_empty (a : Nat) (k : Stage → Option Stage) :
    numberedMatch text (.literal "") a k = k := by
  funext d
  simp only [numberedMatch, stop?]
  rfl

/-- The sequence of some items tries what the items try. -/
theorem numberedMatch_collapseItems (ps : List Pattern) (a : Nat) (k : Stage → Option Stage) :
    numberedMatch text (collapseItems ps) a k = numberedItems text ps a k := by
  rw [collapseItems.eq_def]
  split
  · rw [numberedMatch_empty, numberedItems]
  · simp only [numberedItems]
  · rw [numberedMatch]

/-- The alternation of some options tries what the options try. -/
theorem numberedMatch_collapseOptions {ps : List Pattern} (hne : ps ≠ []) (a : Nat)
    (k : Stage → Option Stage) :
    numberedMatch text (collapseOptions ps) a k = numberedOptions text ps a k := by
  funext d
  rw [collapseOptions.eq_def]
  split
  · exact absurd rfl hne
  · simp only [numberedOptions, Option.or_none]
  · rw [numberedMatch]

/-- A class of a single character matches where this character does as a literal. -/
theorem stop?_singleton {cls : CharClass} {ch : Char} (h : cls.single? = some ch) (c : Progress) :
    (literal (String.singleton ch)).stop? text c = (charClass cls).stop? text c := by
  have hsize : (String.singleton ch).utf8ByteSize = ch.utf8Size := by simp
  simp only [stop?, charStop?, occursAt_singleton_iff, hsize]
  cases charAt? text c.pos with
  | none => simp
  | some ch' =>
    simp only [Option.some.injEq, CharClass.accepts_iff_of_single? h]
    by_cases he : ch' = ch
    · rw [if_pos he, if_pos he, he]
    · rw [if_neg he, if_neg he]

mutual
/-- A simplified pattern tries what the pattern tries. -/
theorem numberedMatch_simplify : ∀ (p : Pattern) {enclosing : List Nat},
    p.everywhere (fun _ => hasOption) enclosing = true →
      numberedMatch text p.simplify = numberedMatch text p
  | .sequence ps, enclosing, h => by
    simp only [everywhere, Bool.and_eq_true] at h
    funext a k
    rw [simplify, numberedMatch_collapseItems, numberedItems_joinLiterals, numberedItems_flatMap,
      numberedItems_simplifyAll ps h.2, numberedMatch]
  | .alternation ps, enclosing, h => by
    simp only [everywhere, Bool.and_eq_true] at h
    have hne : ps ≠ [] := by simpa [hasOption] using h.1
    funext a k
    rw [simplify, numberedMatch_collapseOptions (flatMap_options_ne_nil hne h.2),
      numberedOptions_flatMap, numberedOptions_simplifyAll ps h.2, numberedMatch]
  | .repetition p min none, enclosing, h => by
    simp only [everywhere, Bool.and_eq_true] at h
    funext a k
    rw [simplify, numberedMatch, numberedMatch, numberedMatch_simplify p h.2, loopCount_simplify]
  | .repetition p min (some max), enclosing, h => by
    simp only [everywhere, Bool.and_eq_true] at h
    funext a k
    rw [simplify, numberedMatch, numberedMatch, numberedMatch_simplify p h.2, loopCount_simplify]
  | .capture i p, enclosing, h => by
    simp only [everywhere, Bool.and_eq_true] at h
    funext a k
    rw [simplify, numberedMatch, numberedMatch, numberedMatch_simplify p h.2]
  | .charClass cls, enclosing, h => by
    rw [simplify]
    split
    · next ch hch =>
      funext a k d
      simp only [numberedMatch, stop?_singleton hch]
    · rfl
  | .literal _, _, _ | .anyChar, _, _ | .backReference _, _, _ | .textStart, _, _
  | .textEnd, _, _ => by
    simp only [simplify]

/-- Simplified items try what the items try. -/
theorem numberedItems_simplifyAll : ∀ (ps : List Pattern) {enclosing : List Nat},
    everywhereIn (fun _ => hasOption) enclosing ps = true →
      numberedItems text (simplifyAll ps) = numberedItems text ps
  | [], _, _ => by rw [simplifyAll]
  | p :: ps, enclosing, h => by
    simp only [everywhereIn, Bool.and_eq_true] at h
    funext a k
    rw [simplifyAll, numberedItems, numberedItems, numberedMatch_simplify p h.1,
      numberedItems_simplifyAll ps h.2, loopCount_simplify]

/-- Simplified options try what the options try. -/
theorem numberedOptions_simplifyAll : ∀ (ps : List Pattern) {enclosing : List Nat},
    everywhereIn (fun _ => hasOption) enclosing ps = true →
      numberedOptions text (simplifyAll ps) = numberedOptions text ps
  | [], _, _ => by rw [simplifyAll]
  | p :: ps, enclosing, h => by
    simp only [everywhereIn, Bool.and_eq_true] at h
    funext a k d
    simp only [simplifyAll, numberedOptions, numberedMatch_simplify p h.1,
      numberedOptions_simplifyAll ps h.2, loopCount_simplify]
end

/-- The first match of a simplified pattern is that of the pattern, with the same spans. -/
theorem found_firstMatch?_simplify {p : Pattern} (h : p.hasOptions = true) (text : String)
    (start : Nat) :
    (p.simplify.firstMatch? text start).map Progress.found =
      (p.firstMatch? text start).map Progress.found := by
  rw [← found_numberedFirst?, ← found_numberedFirst?, numberedFirst?, numberedFirst?,
    numberedMatch_simplify p h]

end BacktrackRegex.Pattern
