import BacktrackRegex.Proofs.CodePoint.Coalesced

/-!
# Overlapping ranges

Ranges of stride one may overlap. They are joined where they do, unless a list has a larger stride
anywhere: then it is only sorted. In either case a set holds nothing but the code points of its
ranges. It holds all of them, except those for which a range begins behind the lower bound of the
range that they belong to and ends before them: bisection takes such a range as a sign that
everything in front of it ends below the code point.
-/

namespace BacktrackRegex

namespace CodeRange

/-- Two ranges have stride one, or no code point lies between the bounds of both. -/
def Compatible (r s : CodeRange) : Prop :=
  (r.isUnit = true ∧ s.isUnit = true) ∨ r.Apart s

/-- Being compatible does not depend on the order of the ranges. -/
theorem Compatible.symm {r s : CodeRange} (h : r.Compatible s) : s.Compatible r :=
  h.imp And.symm Or.symm

/-- A range begins before another one and holds a code point behind it. -/
structure Surrounds (r s : CodeRange) (c : Nat) : Prop where
  lo_lt : r.lo < s.lo
  hi_lt : s.hi < c
  contains : r.contains c = true

variable {r s : CodeRange} {c : Nat}

/-- Compatible ranges with a common code point between their bounds have stride one, if their bounds
are not the same ones. -/
theorem Compatible.isUnit (h : r.Compatible s) {x : Nat} (hr : r.lo ≤ x ∧ x ≤ r.hi)
    (hs : s.lo ≤ x ∧ x ≤ s.hi) : r.isUnit = true ∧ s.isUnit = true := by
  refine h.resolve_right fun happ => ?_
  rw [Apart] at happ
  omega

/-- Of compatible ranges in order, the first one ends below what the second one ends below, unless
it surrounds it. -/
theorem Compatible.hi_lt (h : r.Compatible s) (hle : precedes r s = true) (hs : s.IsBounded)
    (hc : s.hi < c) (hsurrounds : ¬ r.Surrounds s c) : r.hi < c := by
  refine Nat.lt_of_not_le fun hreach => hsurrounds ?_
  have hmax := r.hi_le
  rw [precedes_iff] at hle
  rw [IsBounded] at hs
  have hlt : r.lo < s.lo := by omega
  obtain ⟨hunit, -⟩ := h.isUnit (x := s.lo) (by omega) (by omega)
  exact ⟨hlt, hc, (contains_iff_of_isUnit hunit).mpr (by omega)⟩

/-- Of compatible ranges in order, the first one holds what the second one holds, unless it ends
below it. -/
theorem Compatible.contains (h : r.Compatible s) (hle : precedes r s = true)
    (hc : s.contains c = true) (hreach : c ≤ r.hi) : r.contains c = true := by
  obtain ⟨hlo, hhi, -⟩ := contains_iff.mp hc
  have hfirst : r.lo ≤ c := Nat.le_trans (RangeSet.lo_le_of_precedes hle) hlo
  obtain ⟨hunit, -⟩ := h.isUnit ⟨hfirst, hreach⟩ ⟨hlo, hhi⟩
  exact (contains_iff_of_isUnit hunit).mpr ⟨hfirst, hreach⟩

end CodeRange

namespace RangeSet

variable {rs : List CodeRange}

/-- Sorting compatible ranges is enough for a code point that is not behind a surrounded range. -/
theorem contains_mergeSort (hbounded : ∀ r ∈ rs, r.IsBounded)
    (hcompatible : rs.Pairwise CodeRange.Compatible) {c : Nat}
    (hc : ∀ r ∈ rs, ∀ s ∈ rs, ¬ r.Surrounds s c) :
    contains ⟨rs.mergeSort CodeRange.precedes⟩ c = true ↔ ∃ r ∈ rs, r.contains c = true := by
  have hcompatible : (rs.mergeSort CodeRange.precedes).Pairwise CodeRange.Compatible :=
    (List.mergeSort_perm rs _).symm.pairwise hcompatible CodeRange.Compatible.symm
  have hsorted := List.Pairwise.and pairwise_mergeSort_precedes hcompatible
  rw [contains_iff_of_pairwise]
  · simp only [List.mem_mergeSort]
  · refine hsorted.imp_of_mem ?_
    rintro r s hr hs ⟨hle, hcomp⟩ hsc
    have hr := List.mem_mergeSort.mp hr
    have hs := List.mem_mergeSort.mp hs
    exact hcomp.hi_lt hle (hbounded s hs) hsc (hc r hr s hs)
  · exact hsorted.imp fun h => h.2.contains h.1

/-- A set of compatible ranges in any order holds nothing that none of the ranges holds. If all of
them have stride one, or if no range surrounds another one in front of a code point, it also holds
the code point whenever one of the ranges does. -/
theorem contains_ofRanges_of_compatible (hbounded : ∀ r ∈ rs, r.IsBounded)
    (hcompatible : rs.Pairwise CodeRange.Compatible) (c : Nat) :
    ((ofRanges rs).contains c = true → ∃ r ∈ rs, r.contains c = true) ∧
    ((∀ r ∈ rs, r.isUnit = true) ∨ (∀ r ∈ rs, ∀ s ∈ rs, ¬ r.Surrounds s c) →
      ((ofRanges rs).contains c = true ↔ ∃ r ∈ rs, r.contains c = true)) := by
  by_cases hunit : ∀ r ∈ rs, r.isUnit = true
  · have h := (coalesced_ofRanges hunit hbounded).2 c
    exact ⟨h.mp, fun _ => h⟩
  · rw [ofRanges_of_not_isUnit hunit]
    refine ⟨fun hc => ?_, fun h => ?_⟩
    · obtain ⟨r, hr, hrc⟩ := exists_mem_of_contains hc
      exact ⟨r, List.mem_mergeSort.mp hr, hrc⟩
    · exact contains_mergeSort hbounded hcompatible (h.resolve_left hunit)

/-- A range that surrounds another one in front of a code point loses this code point as soon as a
range with a larger stride follows. -/
theorem contains_ofRanges_of_surrounds {r s t : CodeRange} {c : Nat} (h : r.Surrounds s c)
    (hs : s.lo ≤ s.hi) (hbeyond : c < t.lo) (ht : t.lo ≤ t.hi) (hstride : t.isUnit = false) :
    (ofRanges [r, s, t]).contains c = false := by
  have hlo := h.lo_lt
  have hhi := h.hi_lt
  have hsorted : [r, s, t].Pairwise fun r s => CodeRange.precedes r s = true := by
    simp only [List.pairwise_cons, List.mem_cons, List.not_mem_nil, or_false, forall_eq_or_imp,
      forall_eq, CodeRange.precedes_iff, false_imp_iff, implies_true, List.Pairwise.nil, and_true]
    omega
  have hmixed : ¬ ∀ q ∈ [r, s, t], q.isUnit = true := fun hall => by
    have := hall t (by simp)
    simp [hstride] at this
  have hreach : ¬ t.hi < c := by omega
  have hplace : bisect (endsBelow ⟨[r, s, t]⟩ c) 0 3 = 2 := by
    simp [bisect, endsBelow, hhi, hreach]
  rw [ofRanges_of_sorted hsorted hmixed]
  refine Bool.eq_false_iff.mpr fun hc => ?_
  obtain ⟨q, hq, hqc⟩ := contains_iff_getElem?.mp hc
  obtain rfl : t = q := Option.some.inj ((congrArg _ hplace).symm.trans hq)
  exact Nat.not_lt.mpr (CodeRange.contains_iff.mp hqc).1 hbeyond

/-- A range of stride one with another one inside it, and a range of stride two beyond them. -/
def nestedAndEven : List CodeRange :=
  [.between 0 100, .between 50 60, .stepping 200 210 2]

/-- These ranges are compatible. -/
theorem compatible_nestedAndEven : nestedAndEven.Pairwise CodeRange.Compatible := by
  simp [nestedAndEven, CodeRange.Compatible, CodeRange.Apart, CodeRange.between,
    CodeRange.stepping, CodeRange.isUnit, maxCodePoint]

/-- The first of these ranges surrounds the second one in front of 70, which the set does not hold
although the first range does. -/
theorem not_contains_surrounded :
    (∀ r ∈ nestedAndEven, r.lo ≤ r.hi) ∧ nestedAndEven.Pairwise CodeRange.Compatible ∧
    (∃ r ∈ nestedAndEven, r.contains 70 = true) ∧
    (ofRanges nestedAndEven).contains 70 = false := by
  have hsurrounds : (CodeRange.between 0 100).Surrounds (.between 50 60) 70 :=
    ⟨by decide, by decide, by decide⟩
  exact ⟨by decide, compatible_nestedAndEven, by decide,
    contains_ofRanges_of_surrounds hsurrounds (by decide) (by decide) (by decide) (by decide)⟩

/-- Where the first range does not surround the second one, the set holds what the ranges hold. -/
theorem contains_ofRanges_nestedAndEven :
    (∀ r ∈ nestedAndEven, r.IsBounded) ∧ nestedAndEven.Pairwise CodeRange.Compatible ∧
    (ofRanges nestedAndEven).contains 55 = true ∧ (ofRanges nestedAndEven).contains 208 = true ∧
    (ofRanges nestedAndEven).contains 209 = false := by
  have hbounded : ∀ r ∈ nestedAndEven, r.IsBounded := by
    simp [nestedAndEven, CodeRange.between, CodeRange.isBounded_stepping]
  have hfree {c : Nat} (hc : c ≤ 60 ∨ 100 < c) :
      ∀ r ∈ nestedAndEven, ∀ s ∈ nestedAndEven, ¬ r.Surrounds s c := by
    rintro r hr s hs ⟨hlo, hhi, hmem⟩
    obtain ⟨-, hreach, -⟩ := CodeRange.contains_iff.mp hmem
    simp only [nestedAndEven, List.mem_cons, List.not_mem_nil, or_false] at hr hs
    rcases hr with rfl | rfl | rfl <;> rcases hs with rfl | rfl | rfl <;>
      simp only [CodeRange.between, CodeRange.stepping, maxCodePoint] at hlo hhi hreach <;> omega
  have h c := contains_ofRanges_of_compatible hbounded compatible_nestedAndEven c
  refine ⟨hbounded, compatible_nestedAndEven, ?_, ?_, ?_⟩
  · exact ((h 55).2 (Or.inr (hfree (by decide)))).mpr (by decide)
  · exact ((h 208).2 (Or.inr (hfree (by decide)))).mpr (by decide)
  · exact Bool.eq_false_iff.mpr fun hc => absurd ((h 209).1 hc) (by decide)

end RangeSet

end BacktrackRegex
