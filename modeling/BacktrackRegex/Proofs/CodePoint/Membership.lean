import BacktrackRegex.CodePoint.RangeSet

/-!
# Membership in a sorted list of ranges

Bisection finds the place where a test that holds on an initial segment stops to hold. If the ranges
that end below a code point are an initial segment of a list, the first range that can hold the code
point stands at the place it finds. On a list in which every range ends before the next one begins,
this is so for all code points, and no other range can hold them.
-/

namespace BacktrackRegex

namespace CodeRange

/-- A range ends before a later one of a list begins, with at least `gap` code points between
them. -/
structure Before (gap : Nat) (r s : CodeRange) : Prop where
  lo_le : r.lo ≤ s.lo
  hi_lt : r.hi + gap < s.lo
  hi_le : r.hi ≤ s.hi

/-- A smaller gap is part of a larger one. -/
theorem Before.of_le {g k : Nat} {r s : CodeRange} (h : Before g r s) (hk : k ≤ g) :
    Before k r s :=
  ⟨h.lo_le, Nat.lt_of_le_of_lt (Nat.add_le_add_left hk _) h.hi_lt, h.hi_le⟩

/-- A code point belongs to a range if it lies whole strides above the lower bound and not beyond
the upper one. -/
theorem contains_iff {r : CodeRange} {c : Nat} :
    r.contains c = true ↔ r.lo ≤ c ∧ c ≤ r.hi ∧ (c - r.lo) % r.stride = 0 := by
  simp [contains, and_assoc]

/-- A range of stride one holds everything between its bounds. -/
theorem contains_iff_of_isUnit {r : CodeRange} (hr : r.isUnit = true) {c : Nat} :
    r.contains c = true ↔ r.lo ≤ c ∧ c ≤ r.hi := by
  have h1 : r.stride = 1 := by simpa [isUnit] using hr
  simp [contains_iff, h1, Nat.mod_one]

/-- Ranges are in order if the first one begins earlier, or at the same place and ends no later. -/
theorem precedes_iff {r s : CodeRange} :
    precedes r s = true ↔ r.lo < s.lo ∨ r.lo = s.lo ∧ r.hi ≤ s.hi := by
  simp only [precedes, Bool.or_eq_true, Bool.and_eq_true, decide_eq_true_eq, beq_iff_eq]

end CodeRange

namespace RangeSet

/-- Bisection finds the end of the initial segment on which a test holds, given that it ends among
the candidates. -/
theorem lt_bisect_iff {below : Nat → Bool}
    (hdown : ∀ i j, i ≤ j → below j = true → below i = true) {base size : Nat}
    (hlow : ∀ i < base, below i = true) (hhigh : ∀ i, base + size ≤ i → below i = false) (i : Nat) :
    i < bisect below base size ↔ below i = true := by
  induction size using Nat.strongRecOn generalizing base with
  | ind size ih =>
    rw [bisect]
    split
    · next hsize =>
      split
      · next hb =>
        refine ⟨fun hi => hdown i base (Nat.le_of_lt_succ hi) hb,
          fun hi => Nat.lt_of_not_le fun hle => ?_⟩
        rw [hhigh i (by omega)] at hi
        exact Bool.false_ne_true hi
      · next hb =>
        exact ⟨hlow i, fun hi => Nat.lt_of_not_le fun hle => hb (hdown base i hle hi)⟩
    · next hsize =>
      apply ih _ (by omega)
      · intro j hj
        split at hj
        · next hm => exact hdown j _ (Nat.le_of_lt hj) hm
        · exact hlow j hj
      · intro j hj
        split at hj
        · exact hhigh j (by omega)
        · next hm =>
          exact Bool.eq_false_iff.mpr fun hb => hm (hdown _ j (by omega) hb)

/-- Whether the range at a place ends below a code point. -/
def endsBelow (s : RangeSet) (c i : Nat) : Bool :=
  s.ranges[i]?.any fun r => r.hi < c

variable {s : RangeSet} {c : Nat}

/-- A range ends below a code point if its upper bound is smaller. -/
theorem endsBelow_iff {i : Nat} :
    s.endsBelow c i = true ↔ ∃ r, s.ranges[i]? = some r ∧ r.hi < c := by
  simp only [endsBelow, Option.any_eq_true, decide_eq_true_eq]

/-- The test of the bisection is whether the range at a place ends below the code point. -/
theorem endsBelow_eq (s : RangeSet) (c : Nat) : (fun i => match s.ranges[i]? with
    | some r => decide (CodeRange.hi r < c)
    | none => false) = s.endsBelow c := by
  funext i
  rw [endsBelow]
  cases s.ranges[i]? <;> rfl

/-- A set holds a code point if the range that bisection finds holds it. -/
theorem contains_iff_getElem? : s.contains c = true ↔
    ∃ r, s.ranges[bisect (s.endsBelow c) 0 s.ranges.length]? = some r ∧ r.contains c = true := by
  rw [contains, ← endsBelow_eq]
  split
  · next r hr =>
    refine ⟨fun h => ⟨r, hr, h⟩, ?_⟩
    rintro ⟨q, hq, h⟩
    exact Option.some.inj (hr.symm.trans hq) ▸ h
  · next hr =>
    refine ⟨fun h => absurd h Bool.false_ne_true, ?_⟩
    rintro ⟨q, hq, -⟩
    exact absurd (hr.symm.trans hq) (Option.some_ne_none q).symm

/-- What holds between ranges and later ones holds between those at two places. -/
theorem rel_of_getElem? {R : CodeRange → CodeRange → Prop} {i j : Nat} {r q : CodeRange}
    (hs : s.ranges.Pairwise R) (hij : i < j) (hr : s.ranges[i]? = some r)
    (hq : s.ranges[j]? = some q) : R r q := by
  obtain ⟨hi, rfl⟩ := List.getElem?_eq_some_iff.mp hr
  obtain ⟨hj, rfl⟩ := List.getElem?_eq_some_iff.mp hq
  exact List.pairwise_iff_getElem.mp hs i j hi hj hij

/-- If ranges end below a code point when a later one does, those that do are an initial segment. -/
theorem endsBelow_of_le (hs : s.ranges.Pairwise fun r q => q.hi < c → r.hi < c) {i j : Nat}
    (hij : i ≤ j) (h : s.endsBelow c j = true) : s.endsBelow c i = true := by
  obtain hlt | rfl := Nat.lt_or_eq_of_le hij
  · obtain ⟨q, hq, hqc⟩ := endsBelow_iff.mp h
    have hr := List.getElem?_eq_getElem (Nat.lt_trans hlt (List.getElem?_eq_some_iff.mp hq).1)
    exact endsBelow_iff.mpr ⟨_, hr, rel_of_getElem? hs hlt hr hq hqc⟩
  · exact h

/-- A code point of a set belongs to one of its ranges, whatever these are. -/
theorem exists_mem_of_contains (h : s.contains c = true) :
    ∃ r ∈ s.ranges, r.contains c = true := by
  obtain ⟨r, hr, hc⟩ := contains_iff_getElem?.mp h
  exact ⟨r, List.mem_of_getElem? hr, hc⟩

/-- A code point belongs to a set if it belongs to one of the ranges, given that ranges end below it
when a later one does, and hold it when a later one does unless they end below it. -/
theorem contains_iff_of_pairwise (hbelow : s.ranges.Pairwise fun r q => q.hi < c → r.hi < c)
    (hfirst : s.ranges.Pairwise fun r q => q.contains c = true → c ≤ r.hi → r.contains c = true) :
    s.contains c = true ↔ ∃ r ∈ s.ranges, r.contains c = true := by
  refine ⟨exists_mem_of_contains, ?_⟩
  rintro ⟨q, hq, hc⟩
  have hhigh (i : Nat) (hi : 0 + s.ranges.length ≤ i) : s.endsBelow c i = false := by
    rw [endsBelow, List.getElem?_eq_none (by omega), Option.any_none]
  have hplace := lt_bisect_iff (fun i j => endsBelow_of_le hbelow)
    (fun i hi => absurd hi (Nat.not_lt_zero i)) hhigh
  rw [contains_iff_getElem?]
  generalize bisect (s.endsBelow c) 0 s.ranges.length = k at hplace ⊢
  obtain ⟨j, hj⟩ := List.mem_iff_getElem?.mp hq
  obtain ⟨hlo, hhi, -⟩ := CodeRange.contains_iff.mp hc
  have hkj : k ≤ j := Nat.le_of_not_lt fun hlt => by
    obtain ⟨q', hq', hqc⟩ := endsBelow_iff.mp ((hplace j).mp hlt)
    obtain rfl := Option.some.inj (hj.symm.trans hq')
    omega
  obtain hlt | rfl := Nat.lt_or_eq_of_le hkj
  · have hk := Nat.lt_trans hlt (List.getElem?_eq_some_iff.mp hj).1
    have hr := List.getElem?_eq_getElem hk
    have hreach : c ≤ s.ranges[k].hi := Nat.le_of_not_lt fun hrc =>
      Nat.lt_irrefl k ((hplace k).mpr (endsBelow_iff.mpr ⟨_, hr, hrc⟩))
    exact ⟨_, hr, rel_of_getElem? hfirst hlt hr hj hc hreach⟩
  · exact ⟨q, hj, hc⟩

/-- A code point belongs to a set of ranges each of which ends before the next one begins if it
belongs to one of the ranges. -/
theorem contains_iff_of_before (hs : s.ranges.Pairwise (CodeRange.Before 0)) :
    s.contains c = true ↔ ∃ r ∈ s.ranges, r.contains c = true := by
  refine contains_iff_of_pairwise (hs.imp fun hb hqc => Nat.lt_of_le_of_lt hb.hi_le hqc)
    (hs.imp fun {r q} hb hqc hrc => ?_)
  have hlo := (CodeRange.contains_iff.mp hqc).1
  have hgap := hb.hi_lt
  omega

/-- The set of a single range holds what the range holds. -/
theorem contains_singleton (r : CodeRange) (c : Nat) : contains ⟨[r]⟩ c = r.contains c := by
  rw [Bool.eq_iff_iff, contains_iff_of_before (List.pairwise_singleton _ _)]
  simp only [List.mem_singleton, exists_eq_left]

end RangeSet

end BacktrackRegex
