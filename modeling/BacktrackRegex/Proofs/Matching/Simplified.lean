import BacktrackRegex.Proofs.CharClass.Single
import BacktrackRegex.Proofs.Matching.Relation
import BacktrackRegex.Proofs.Pattern.Simplified

/-!
# Simplification keeps the match relation

A simplified pattern matches the same pieces of a text as the pattern. Only an alternation without
options would match something after simplification that it does not match before.
-/

namespace BacktrackRegex

open Text

namespace Text.Spells

variable {text s t : String} {i j : Nat}

/-- The empty piece lies between a boundary and itself. -/
theorem empty_iff (hb : isBoundary text i = true) : Spells text i j "" ↔ i = j := by
  constructor
  · rintro ⟨_, _, _, _, rfl⟩
    simp
  · rintro rfl
    obtain ⟨before, after, he, hi⟩ := isBoundary_iff.mp hb
    exact ⟨before, after, by simpa using he, hi, by simp⟩

/-- A piece that is put together consists of two pieces that follow each other. -/
theorem append_iff : Spells text i j (s ++ t) ↔ ∃ l, Spells text i l s ∧ Spells text l j t := by
  constructor
  · rintro ⟨before, after, he, rfl, rfl⟩
    refine ⟨before.utf8ByteSize + s.utf8ByteSize, ⟨before, t ++ after, ?_, rfl, rfl⟩,
      before ++ s, after, ?_, by simp, ?_⟩
    · rw [he]
      simp only [String.append_assoc]
    · rw [he]
      simp only [String.append_assoc]
    · rw [String.utf8ByteSize_append, Nat.add_assoc]
  · rintro ⟨l, ⟨before, after, he, rfl, rfl⟩, ht⟩
    obtain rfl : j = before.utf8ByteSize + s.utf8ByteSize + t.utf8ByteSize := by
      obtain ⟨_, _, _, _, hj⟩ := ht
      exact hj
    have hoccurs := occursAt_iff_bytes.mp ((occursAt_iff ht.left).mpr ht)
    rw [he, ← String.utf8ByteSize_append, drop_bytes_append] at hoccurs
    obtain ⟨rest, rfl⟩ := exists_append_of_bytes_prefix hoccurs
    refine ⟨before, rest, ?_, rfl, ?_⟩
    · rw [he]
      simp only [String.append_assoc]
    · rw [String.utf8ByteSize_append, Nat.add_assoc]

end Text.Spells

namespace Chain

variable {P : Nat → Prop} {R R' : Nat → Nat → Prop}

/-- A chain keeps what each of its steps keeps. -/
theorem keeps (hP : ∀ i j, P i → R i j → P j) {n i j : Nat} (h : Chain R n i j) (hi : P i) :
    P j := by
  induction h with
  | nil => exact hi
  | cons h _ ih => exact ih (hP _ _ hi h)

/-- A step can be replaced in a chain if it agrees with another one wherever the chain comes. -/
theorem replace (hP : ∀ i j, P i → R i j → P j) (hR : ∀ i j, P i → R i j → R' i j) {n i j : Nat}
    (h : Chain R n i j) (hi : P i) : Chain R' n i j := by
  induction h with
  | nil => exact .nil _
  | cons h _ ih => exact .cons (hR _ _ hi h) (ih (hP _ _ hi h))

end Chain

namespace Pattern

variable {text : String} {i j : Nat}

mutual
/-- A piece that is matched ends at a boundary if it begins at one. -/
theorem isBoundary_of_matches : ∀ (p : Pattern) {i j : Nat}, isBoundary text i = true →
    p.Matches text i j → isBoundary text j = true
  | .literal s, i, j, hb, h => by
    rw [Matches] at h
    exact h.right
  | .sequence ps, i, j, hb, h => by
    rw [Matches] at h
    exact isBoundary_of_matchesAll ps hb h
  | .alternation ps, i, j, hb, h => by
    rw [Matches] at h
    exact isBoundary_of_matchesSome ps hb h
  | .repetition p min max, i, j, hb, h => by
    rw [Matches] at h
    obtain ⟨n, -, -, hc⟩ := h
    exact hc.keeps (fun i j hb h => isBoundary_of_matches p hb h) hb
  | .capture _ p, i, j, hb, h => by
    rw [Matches] at h
    exact isBoundary_of_matches p hb h
  | .anyChar, i, j, hb, h | .charClass _, i, j, hb, h => by
    rw [Matches] at h
    obtain ⟨_, _, hs⟩ := h
    exact hs.right
  | .textStart, i, j, hb, h | .textEnd, i, j, hb, h => by
    rw [Matches] at h
    exact h.1 ▸ hb
  | .backReference _, i, j, hb, h => by
    rw [Matches] at h
    exact h.elim

/-- The items of a sequence end at a boundary if they begin at one. -/
theorem isBoundary_of_matchesAll : ∀ (ps : List Pattern) {i j : Nat}, isBoundary text i = true →
    MatchesAll text ps i j → isBoundary text j = true
  | [], i, j, hb, h => by
    rw [MatchesAll] at h
    exact h ▸ hb
  | p :: ps, i, j, hb, h => by
    rw [MatchesAll] at h
    obtain ⟨l, hm, hms⟩ := h
    exact isBoundary_of_matchesAll ps (isBoundary_of_matches p hb hm) hms

/-- The options of an alternation end at a boundary if they begin at one. -/
theorem isBoundary_of_matchesSome : ∀ (ps : List Pattern) {i j : Nat}, isBoundary text i = true →
    MatchesSome text ps i j → isBoundary text j = true
  | [], i, j, hb, h => by
    rw [MatchesSome] at h
    exact h.elim
  | p :: ps, i, j, hb, h => by
    rw [MatchesSome] at h
    rcases h with h | h
    · exact isBoundary_of_matches p hb h
    · exact isBoundary_of_matchesSome ps hb h
end

/-! ## Items and options -/

/-- Items can be matched in two parts. -/
theorem matchesAll_append {ps qs : List Pattern} :
    MatchesAll text (ps ++ qs) i j ↔ ∃ l, MatchesAll text ps i l ∧ MatchesAll text qs l j := by
  induction ps generalizing i with
  | nil => simp [MatchesAll]
  | cons p ps ih =>
    simp only [List.cons_append, MatchesAll, ih]
    constructor
    · rintro ⟨l, hm, l', hms, hms'⟩
      exact ⟨l', ⟨l, hm, hms⟩, hms'⟩
    · rintro ⟨l', ⟨l, hm, hms⟩, hms'⟩
      exact ⟨l, hm, l', hms, hms'⟩

/-- Options can be chosen in two parts. -/
theorem matchesSome_append {ps qs : List Pattern} :
    MatchesSome text (ps ++ qs) i j ↔ MatchesSome text ps i j ∨ MatchesSome text qs i j := by
  induction ps with
  | nil => simp [MatchesSome]
  | cons p ps ih => simp only [List.cons_append, MatchesSome, ih, or_assoc]

/-- A pattern matches what its items match. -/
theorem matchesAll_items (p : Pattern) : MatchesAll text p.items i j ↔ p.Matches text i j := by
  cases p with
  | sequence ps => rw [items, Matches]
  | _ => simp [items, MatchesAll]

/-- A pattern matches what one of its options matches. -/
theorem matchesSome_options (p : Pattern) :
    MatchesSome text p.options i j ↔ p.Matches text i j := by
  cases p with
  | alternation ps => rw [options, Matches]
  | _ => simp [options, MatchesSome]

/-- Opening the sequences among items changes nothing. -/
theorem matchesAll_flatMap_items {ps : List Pattern} :
    MatchesAll text (ps.flatMap items) i j ↔ MatchesAll text ps i j := by
  induction ps generalizing i with
  | nil => rfl
  | cons p ps ih =>
    simp only [List.flatMap_cons, matchesAll_append, matchesAll_items, MatchesAll, ih]

/-- Opening the alternations among options changes nothing. -/
theorem matchesSome_flatMap_options {ps : List Pattern} :
    MatchesSome text (ps.flatMap options) i j ↔ MatchesSome text ps i j := by
  induction ps with
  | nil => rfl
  | cons p ps ih =>
    simp only [List.flatMap_cons, matchesSome_append, matchesSome_options, MatchesSome, ih]

/-- Joining neighbouring literals changes nothing. -/
theorem matchesAll_joinLiterals {ps : List Pattern} :
    MatchesAll text (joinLiterals ps) i j ↔ MatchesAll text ps i j := by
  induction ps generalizing i with
  | nil => rfl
  | cons p ps ih =>
    rw [joinLiterals, List.foldr_cons, ← joinLiterals, joinInFront.eq_def]
    split
    · next s t rest he =>
      rw [he] at ih
      simp only [MatchesAll, ← ih, Matches, Spells.append_iff]
      constructor
      · rintro ⟨l', ⟨l, hs, ht⟩, hms⟩
        exact ⟨l, hs, l', ht, hms⟩
      · rintro ⟨l, hs, l', ht, hms⟩
        exact ⟨l', ⟨l, hs, ht⟩, hms⟩
    · simp only [MatchesAll, ih]

/-- The sequence of some items matches what the items match. -/
theorem matches_collapseItems {ps : List Pattern} (hb : isBoundary text i = true) :
    (collapseItems ps).Matches text i j ↔ MatchesAll text ps i j := by
  rw [collapseItems.eq_def]
  split
  · rw [Matches, MatchesAll, Spells.empty_iff hb]
  · simp [MatchesAll]
  · rw [Matches]

/-- The alternation of some options matches what one of them matches. -/
theorem matches_collapseOptions {ps : List Pattern} (hne : ps ≠ []) :
    (collapseOptions ps).Matches text i j ↔ MatchesSome text ps i j := by
  rw [collapseOptions.eq_def]
  split
  · exact absurd rfl hne
  · simp [MatchesSome]
  · rw [Matches]

/-! ## Simplified patterns -/

/-- Simplification leaves no alternation without options. -/
theorem flatMap_options_ne_nil {ps : List Pattern} {enclosing : List Nat} (hne : ps ≠ [])
    (h : everywhereIn (fun _ => hasOption) enclosing ps = true) :
    (simplifyAll ps).flatMap options ≠ [] := by
  cases ps with
  | nil => exact absurd rfl hne
  | cons p ps =>
    simp only [everywhereIn, Bool.and_eq_true] at h
    have hp := stable_hasOption.everywhere_simplify p enclosing h.1
    rw [simplifyAll, List.flatMap_cons]
    intro he
    have ho : p.simplify.options = [] := (List.append_eq_nil_iff.mp he).1
    cases hs : p.simplify with
    | alternation qs =>
      simp only [hs, everywhere, Bool.and_eq_true, hasOption, options] at hp ho
      simp [ho] at hp
    | _ => simp [hs, options] at ho

mutual
/-- A simplified pattern matches the same pieces as the pattern. -/
theorem matches_simplify : ∀ (p : Pattern) {enclosing : List Nat},
    p.everywhere (fun _ => hasOption) enclosing = true → ∀ {i j : Nat},
      isBoundary text i = true → (p.simplify.Matches text i j ↔ p.Matches text i j)
  | .sequence ps, enclosing, h, i, j, hb => by
    simp only [everywhere, Bool.and_eq_true] at h
    rw [simplify, matches_collapseItems hb, matchesAll_joinLiterals, matchesAll_flatMap_items,
      Matches, matchesAll_simplifyAll ps h.2 hb]
  | .alternation ps, enclosing, h, i, j, hb => by
    simp only [everywhere, Bool.and_eq_true] at h
    have hne : ps ≠ [] := by simpa [hasOption] using h.1
    rw [simplify, matches_collapseOptions (flatMap_options_ne_nil hne h.2),
      matchesSome_flatMap_options, Matches, matchesSome_simplifyAll ps h.2 hb]
  | .repetition p min max, enclosing, h, i, j, hb => by
    simp only [everywhere, Bool.and_eq_true] at h
    have hchain (n : Nat) :
        Chain (p.simplify.Matches text) n i j ↔ Chain (p.Matches text) n i j := by
      constructor
      · intro hc
        exact hc.replace (fun i j hb hm => isBoundary_of_matches _ hb hm)
          (fun i j hb hm => (matches_simplify p h.2 hb).mp hm) hb
      · intro hc
        exact hc.replace (fun i j hb hm => isBoundary_of_matches _ hb hm)
          (fun i j hb hm => (matches_simplify p h.2 hb).mpr hm) hb
    simp only [simplify, Matches, hchain]
  | .capture k p, enclosing, h, i, j, hb => by
    simp only [everywhere, Bool.and_eq_true] at h
    rw [simplify, Matches, Matches, matches_simplify p h.2 hb]
  | .charClass cls, enclosing, h, i, j, hb => by
    rw [simplify]
    split
    · next ch hch =>
      simp only [Matches, CharClass.accepts_iff_of_single? hch, exists_eq_left]
    · rfl
  | .literal _, _, _, _, _, _ | .anyChar, _, _, _, _, _ | .backReference _, _, _, _, _, _
  | .textStart, _, _, _, _, _ | .textEnd, _, _, _, _, _ => by
    simp only [simplify]

/-- Simplified items match the same pieces as the items. -/
theorem matchesAll_simplifyAll : ∀ (ps : List Pattern) {enclosing : List Nat},
    everywhereIn (fun _ => hasOption) enclosing ps = true → ∀ {i j : Nat},
      isBoundary text i = true → (MatchesAll text (simplifyAll ps) i j ↔ MatchesAll text ps i j)
  | [], _, _, _, _, _ => by rw [simplifyAll]
  | p :: ps, enclosing, h, i, j, hb => by
    simp only [everywhereIn, Bool.and_eq_true] at h
    rw [simplifyAll, MatchesAll, MatchesAll]
    constructor
    · rintro ⟨l, hm, hms⟩
      have hm := (matches_simplify p h.1 hb).mp hm
      exact ⟨l, hm, (matchesAll_simplifyAll ps h.2 (isBoundary_of_matches p hb hm)).mp hms⟩
    · rintro ⟨l, hm, hms⟩
      exact ⟨l, (matches_simplify p h.1 hb).mpr hm,
        (matchesAll_simplifyAll ps h.2 (isBoundary_of_matches p hb hm)).mpr hms⟩

/-- Simplified options match the same pieces as the options. -/
theorem matchesSome_simplifyAll : ∀ (ps : List Pattern) {enclosing : List Nat},
    everywhereIn (fun _ => hasOption) enclosing ps = true → ∀ {i j : Nat},
      isBoundary text i = true → (MatchesSome text (simplifyAll ps) i j ↔ MatchesSome text ps i j)
  | [], _, _, _, _, _ => by rw [simplifyAll]
  | p :: ps, enclosing, h, i, j, hb => by
    simp only [everywhereIn, Bool.and_eq_true] at h
    rw [simplifyAll, MatchesSome, MatchesSome, matches_simplify p h.1 hb,
      matchesSome_simplifyAll ps h.2 hb]
end

end Pattern

end BacktrackRegex
