import BacktrackRegex.Proofs.CharClass.Algebra
import BacktrackRegex.Proofs.CharClass.Single
import Mathlib.Data.List.Pairwise

/-!
# What is read off the bounds of a range set

Whether a set is empty, its last code point, its only code point and its mask are read off the
bounds of ranges. Nothing that is read off them hides a code point: none lies beyond the last one,
and a single code point and a mask are those of the set. But the upper bound of a range need not lie
on its stride. Everything agrees with the code points of the set if and only if its last upper bound
is one of them.
-/

namespace BacktrackRegex

namespace RangeSet

/-- What is read off the bounds of a set tells which code points it holds. -/
structure Faithful (s : RangeSet) : Prop where
  isEmpty : s.isEmpty = true ↔ ∀ c, s.contains c = false
  max? : ∀ m, s.max? = some m ↔ s.contains m = true ∧ ∀ c, s.contains c = true → c ≤ m
  single? : ∀ x, s.single? = some x ↔ ∀ c, s.contains c = true ↔ c = x
  isSome_mask : (AsciiMask.ofRangeSet? s).isSome = true ↔ ∀ c, s.contains c = true → c < 128
  mask : ∀ mask, AsciiMask.ofRangeSet? s = some mask → ∀ c, mask.contains c = s.contains c

/-- A set has a last upper bound if it holds anything. -/
theorem exists_max?_of_contains {s : RangeSet} {c : Nat} (hc : s.contains c = true) :
    ∃ m, s.max? = some m := by
  obtain ⟨r, hr, -⟩ := exists_mem_of_contains hc
  rw [max?, List.getLast?_eq_some_getLast (List.ne_nil_of_mem hr)]
  exact ⟨_, rfl⟩

/-- A set has a mask if its last upper bound, if any, is below 128. -/
theorem isSome_ofRangeSet?_iff {s : RangeSet} :
    (AsciiMask.ofRangeSet? s).isSome = true ↔ ∀ m, s.max? = some m → m < 128 := by
  rw [AsciiMask.ofRangeSet?]
  cases s.max? <;> simp

namespace Ordered

variable {s : RangeSet} (h : s.Ordered)
include h

/-- No code point of an ordered set lies beyond the upper bound of its last range. -/
theorem le_of_contains {m c : Nat} (hm : s.max? = some m) (hc : s.contains c = true) : c ≤ m := by
  obtain ⟨r, hr, hrc⟩ := h.contains_iff.mp hc
  exact Nat.le_trans (CodeRange.contains_iff.mp hrc).2.1 (h.hi_le hm r hr)

/-- An ordered set that has a mask holds ASCII code points only. -/
theorem lt_of_isSome_ofRangeSet? (hmask : (AsciiMask.ofRangeSet? s).isSome = true) {c : Nat}
    (hc : s.contains c = true) : c < 128 := by
  obtain ⟨m, hm⟩ := exists_max?_of_contains hc
  exact Nat.lt_of_le_of_lt (h.le_of_contains hm hc) (isSome_ofRangeSet?_iff.mp hmask m hm)

variable (hle : ∀ r ∈ s.ranges, r.lo ≤ r.hi)
include hle

/-- A set holds the lower bounds of its ranges. -/
theorem contains_lo {r : CodeRange} (hr : r ∈ s.ranges) : s.contains r.lo = true :=
  h.contains_iff.mpr ⟨r, hr, CodeRange.contains_iff.mpr ⟨Nat.le_refl _, hle r hr, by simp⟩⟩

/-- A set has no ranges if it holds nothing. -/
theorem isEmpty_iff : s.isEmpty = true ↔ ∀ c, s.contains c = false := by
  rw [isEmpty, List.isEmpty_iff, List.eq_nil_iff_forall_not_mem]
  constructor
  · intro hnone c
    refine Bool.eq_false_iff.mpr fun hc => ?_
    obtain ⟨r, hr, -⟩ := h.contains_iff.mp hc
    exact hnone r hr
  · intro hnone r hr
    exact Bool.eq_false_iff.mp (hnone r.lo) (h.contains_lo hle hr)

/-- A set that holds a single code point consists of one range, which begins with it. -/
theorem exists_ranges_eq_singleton {x : Nat} (hx : ∀ c, s.contains c = true ↔ c = x) :
    ∃ r, s.ranges = [r] ∧ r.lo = x := by
  have hlo : ∀ r ∈ s.ranges, r.lo = x := fun r hr => (hx r.lo).mp (h.contains_lo hle hr)
  have hbefore := h.before
  obtain ⟨q, hq, -⟩ := h.contains_iff.mp ((hx x).mpr rfl)
  generalize s.ranges = ranges at hle hlo hbefore hq
  match ranges with
  | [] => exact absurd hq List.not_mem_nil
  | [r] => exact ⟨r, rfl, hlo r List.mem_cons_self⟩
  | r :: r' :: rest =>
    have hgap := ((List.pairwise_cons.mp hbefore).1 r' List.mem_cons_self).hi_lt
    have hr := hlo r List.mem_cons_self
    have hr' := hlo r' (List.mem_cons_of_mem r List.mem_cons_self)
    have hrle := hle r List.mem_cons_self
    omega

/-- What is read off the bounds of a set tells everything if the set holds its last upper bound. -/
theorem faithful_iff : s.Faithful ↔ ∀ m, s.max? = some m → s.contains m = true := by
  refine ⟨fun hs m hm => ((hs.max? m).mp hm).1, fun hlast => ?_⟩
  refine ⟨h.isEmpty_iff hle, fun m => ⟨fun hm => ?_, ?_⟩,
    fun x => ⟨contains_of_single?, fun hx => ?_⟩,
    ⟨fun hmask c => h.lt_of_isSome_ofRangeSet? hmask, fun hascii => ?_⟩,
    fun mask => AsciiMask.contains_of_ofRangeSet? h⟩
  · exact ⟨hlast m hm, fun c => h.le_of_contains hm⟩
  · rintro ⟨hm, hgreatest⟩
    obtain ⟨m', hm'⟩ := exists_max?_of_contains hm
    rw [hm', Nat.le_antisymm (hgreatest m' (hlast m' hm')) (h.le_of_contains hm' hm)]
  · obtain ⟨r, hs, hlo⟩ := h.exists_ranges_eq_singleton hle hx
    have hhi : r.hi = x := (hx r.hi).mp (hlast r.hi (by simp [max?, hs]))
    rw [single?.eq_def, hs]
    exact (if_pos (hlo.trans hhi.symm)).trans (congrArg some hlo)
  · exact isSome_ofRangeSet?_iff.mpr fun m hm => hascii m (hlast m hm)

end Ordered

section OfRanges

variable {rs : List CodeRange}

/-- Of ranges that are apart, only one has a code point between its bounds. -/
theorem eq_of_apart (hapart : rs.Pairwise CodeRange.Apart) {r q : CodeRange} (hr : r ∈ rs)
    (hq : q ∈ rs) {c : Nat} (hrc : r.lo ≤ c ∧ c ≤ r.hi) (hqc : q.lo ≤ c ∧ c ≤ q.hi) : r = q := by
  by_contra hne
  have : Std.Symm CodeRange.Apart := ⟨fun _ _ => Or.symm⟩
  have happ := hapart.forall hr hq hne
  rw [CodeRange.Apart] at happ
  omega

/-- The upper bounds of a set are some of those that it is made from. -/
theorem exists_hi_eq_of_mem_ofRanges {r : CodeRange} (hr : r ∈ (ofRanges rs).ranges) :
    ∃ q ∈ rs, q.hi = r.hi := by
  by_cases hunit : ∀ r ∈ rs, r.isUnit = true
  · rw [ofRanges_of_isUnit hunit] at hr
    refine forall_mem_coalesce (P := fun r => ∃ q ∈ rs, q.hi = r.hi) ?_
      (fun q hq => ⟨q, List.mem_mergeSort.mp hq, rfl⟩) r hr
    rintro r s ⟨q, hq, he⟩ ⟨q', hq', he'⟩
    rcases Nat.le_total r.hi s.hi with hrs | hsr
    · exact ⟨q', hq', he'.trans (Nat.max_eq_right hrs).symm⟩
    · exact ⟨q, hq, he.trans (Nat.max_eq_left hsr).symm⟩
  · rw [ofRanges_of_not_isUnit hunit] at hr
    exact ⟨r, List.mem_mergeSort.mp hr, rfl⟩

variable (hle : ∀ r ∈ rs, r.lo ≤ r.hi) (hapart : rs.Pairwise CodeRange.Apart)
include hle

/-- The ranges of a set have their bounds in order if those that it is made from have. -/
theorem lo_le_of_mem_ofRanges : ∀ r ∈ (ofRanges rs).ranges, r.lo ≤ r.hi := by
  by_cases hunit : ∀ r ∈ rs, r.isUnit = true
  · exact (canonical_ofRanges hunit hle).lo_le
  · rw [ofRanges_of_not_isUnit hunit]
    exact fun r hr => hle r (List.mem_mergeSort.mp hr)

/-- The ranges that a set is made from reach no further than those of the set. -/
theorem exists_hi_le_of_mem {q : CodeRange} (hq : q ∈ rs) :
    ∃ r ∈ (ofRanges rs).ranges, q.hi ≤ r.hi := by
  by_cases hunit : ∀ r ∈ rs, r.isUnit = true
  · obtain ⟨hcoalesced, hmem⟩ := coalesced_ofRanges hunit fun r hr => Or.inl (hle r hr)
    have hhi : q.contains q.hi = true :=
      (CodeRange.contains_iff_of_isUnit (hunit q hq)).mpr ⟨hle q hq, Nat.le_refl _⟩
    obtain ⟨r, hr, hrhi⟩ := hcoalesced.ordered.contains_iff.mp ((hmem q.hi).mpr ⟨q, hq, hhi⟩)
    exact ⟨r, hr, (CodeRange.contains_iff.mp hrhi).2.1⟩
  · rw [ofRanges_of_not_isUnit hunit]
    exact ⟨q, List.mem_mergeSort.mpr hq, Nat.le_refl _⟩

include hapart

/-- The last upper bound of a set is the greatest one of those that it is made from. -/
theorem max?_ofRanges_iff {m : Nat} :
    (ofRanges rs).max? = some m ↔ (∃ q ∈ rs, q.hi = m) ∧ ∀ q ∈ rs, q.hi ≤ m := by
  obtain ⟨hordered, -⟩ := ordered_ofRanges (fun r hr => Or.inl (hle r hr)) hapart
  have hgreatest {m : Nat} (hm : (ofRanges rs).max? = some m) :
      (∃ q ∈ rs, q.hi = m) ∧ ∀ q ∈ rs, q.hi ≤ m := by
    obtain ⟨last, hlast, rfl⟩ := Option.map_eq_some_iff.mp hm
    refine ⟨exists_hi_eq_of_mem_ofRanges (List.mem_of_getLast? hlast), fun q hq => ?_⟩
    obtain ⟨r, hr, hqr⟩ := exists_hi_le_of_mem hle hq
    exact Nat.le_trans hqr (hordered.hi_le hm r hr)
  refine ⟨hgreatest, ?_⟩
  rintro ⟨⟨q, hq, rfl⟩, hupper⟩
  obtain ⟨r, hr, -⟩ := exists_hi_le_of_mem hle hq
  obtain ⟨m', hm'⟩ := exists_max?_of_contains
    (hordered.contains_lo (lo_le_of_mem_ofRanges hle) hr)
  obtain ⟨⟨q', hq', rfl⟩, hupper'⟩ := hgreatest hm'
  rw [hm', Nat.le_antisymm (hupper q' hq') (hupper' q hq)]

/-- For a set made from ranges of any stride that are apart from one another, the last upper bound
is one of theirs, nothing read off the bounds hides a code point, and it tells everything if and
only if the range that ends last holds its upper bound. -/
theorem faithful_ofRanges_iff :
    ((ofRanges rs).isEmpty = true ↔ ∀ c, (ofRanges rs).contains c = false) ∧
    (∀ m, (ofRanges rs).max? = some m →
      (∃ r ∈ rs, r.hi = m) ∧ ∀ c, (ofRanges rs).contains c = true → c ≤ m) ∧
    (∀ x, (ofRanges rs).single? = some x → ∀ c, (ofRanges rs).contains c = true ↔ c = x) ∧
    (∀ mask, AsciiMask.ofRangeSet? (ofRanges rs) = some mask →
      ∀ c, mask.contains c = (ofRanges rs).contains c ∧
        ((ofRanges rs).contains c = true → c < 128)) ∧
    ((ofRanges rs).Faithful ↔
      ∀ r ∈ rs, (∀ q ∈ rs, q.hi ≤ r.hi) → r.contains r.hi = true) := by
  obtain ⟨hordered, hmem⟩ := ordered_ofRanges (fun r hr => Or.inl (hle r hr)) hapart
  refine ⟨hordered.isEmpty_iff (lo_le_of_mem_ofRanges hle), fun m hm => ⟨?_, ?_⟩,
    fun x => contains_of_single?, fun mask hmask c => ⟨?_, ?_⟩, ?_⟩
  · exact ((max?_ofRanges_iff hle hapart).mp hm).1
  · exact fun c => hordered.le_of_contains hm
  · exact AsciiMask.contains_of_ofRangeSet? hordered hmask c
  · exact hordered.lt_of_isSome_ofRangeSet? (by rw [hmask]; rfl)
  · rw [hordered.faithful_iff (lo_le_of_mem_ofRanges hle)]
    constructor
    · intro hlast r hr hgreatest
      have hhi := hlast r.hi ((max?_ofRanges_iff hle hapart).mpr ⟨⟨r, hr, rfl⟩, hgreatest⟩)
      obtain ⟨q, hq, hqr⟩ := (hmem r.hi).mp hhi
      have hq' := CodeRange.contains_iff.mp hqr
      have hsame : q = r := eq_of_apart hapart hq hr ⟨hq'.1, hq'.2.1⟩ ⟨hle r hr, Nat.le_refl _⟩
      exact hsame ▸ hqr
    · intro hlast m hm
      obtain ⟨⟨r, hr, rfl⟩, hgreatest⟩ := (max?_ofRanges_iff hle hapart).mp hm
      exact (hmem r.hi).mpr ⟨r, hr, hlast r hr hgreatest⟩

end OfRanges

/-- Where the upper bound is not on the stride, the last code point is not in the set, and neither
the only code point nor the mask of a set is found that has one. -/
theorem not_faithful_off_stride :
    ((ofRanges [.stepping 0 11 2]).max? = some 11 ∧
      (ofRanges [.stepping 0 11 2]).contains 11 = false) ∧
    ((∀ c, (ofRanges [.stepping 5 6 2]).contains c = true ↔ c = 5) ∧
      (ofRanges [.stepping 5 6 2]).single? = none) ∧
    ((∀ c, (ofRanges [.stepping 0 128 100]).contains c = true → c < 128) ∧
      AsciiMask.ofRangeSet? (ofRanges [.stepping 0 128 100]) = none) := by
  simp only [ofRanges_singleton, contains_singleton]
  refine ⟨⟨rfl, rfl⟩, ⟨fun c => ?_, rfl⟩, fun c hc => ?_, rfl⟩
  · rw [CodeRange.contains_iff]
    change 5 ≤ c ∧ c ≤ 6 ∧ (c - 5) % 2 = 0 ↔ c = 5
    omega
  · have hc : 0 ≤ c ∧ c ≤ 128 ∧ (c - 0) % 100 = 0 := CodeRange.contains_iff.mp hc
    omega

/-- Every third code point from 100 to 109 and every second one up to 6: the last upper bound is
held, and is the last code point. -/
theorem faithful_thirds_and_evens :
    (∀ r ∈ [CodeRange.stepping 100 109 3, .stepping 0 6 2], r.lo ≤ r.hi) ∧
    [CodeRange.stepping 100 109 3, .stepping 0 6 2].Pairwise CodeRange.Apart ∧
    (ofRanges [.stepping 100 109 3, .stepping 0 6 2]).Faithful ∧
    (ofRanges [.stepping 100 109 3, .stepping 0 6 2]).max? = some 109 := by
  have hle : ∀ r ∈ [CodeRange.stepping 100 109 3, .stepping 0 6 2], r.lo ≤ r.hi := by decide
  have hapart : [CodeRange.stepping 100 109 3, .stepping 0 6 2].Pairwise CodeRange.Apart := by
    simp [CodeRange.Apart, CodeRange.stepping, maxCodePoint]
  obtain ⟨-, -, -, -, hfaithful⟩ := faithful_ofRanges_iff hle hapart
  refine ⟨hle, hapart, hfaithful.mpr fun r hr hgreatest => ?_,
    (max?_ofRanges_iff hle hapart).mpr ⟨by decide, by decide⟩⟩
  simp only [List.mem_cons, List.not_mem_nil, or_false] at hr
  rcases hr with rfl | rfl
  · rfl
  · exact absurd (hgreatest _ List.mem_cons_self) (by decide)

end RangeSet

end BacktrackRegex
