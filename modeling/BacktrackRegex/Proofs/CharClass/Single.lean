import BacktrackRegex.CharClass.Basic

/-!
# Classes of a single character

A class that consists of a single character accepts this character and no other one.
-/

namespace BacktrackRegex

/-- The character with a code point has this code point. -/
theorem toNat_of_charOfCodePoint? {x : Nat} {ch : Char} (h : charOfCodePoint? x = some ch) :
    ch.toNat = x := by
  rw [charOfCodePoint?] at h
  split at h
  · next hv =>
    obtain rfl := Option.some.inj h
    rw [Char.ofNat, dif_pos hv]
    rfl
  · simp at h

/-- A set whose only range begins and ends with a code point holds nothing else. -/
theorem RangeSet.contains_of_single? {s : RangeSet} {x : Nat} (h : s.single? = some x) (c : Nat) :
    s.contains c = true ↔ c = x := by
  obtain ⟨ranges⟩ := s
  rw [single?.eq_def] at h
  split at h
  · next r hr =>
    split at h
    · next he =>
      obtain rfl := Option.some.inj h
      obtain rfl : ranges = [r] := hr
      rw [contains, bisect]
      by_cases hc : r.hi < c
      · have hne : c ≠ r.lo := by omega
        simp [hc, hne]
      · simp only [List.length_singleton, Nat.le_refl, ite_true, List.getElem?_cons_zero, hc,
          decide_false, Bool.false_eq_true, ite_false, CodeRange.contains, Bool.and_eq_true,
          decide_eq_true_eq, beq_iff_eq]
        constructor
        · omega
        · rintro rfl
          simp [he]
    · simp at h
  · simp at h

namespace AsciiMask

variable {m : AsciiMask}

/-- The ASCII members of a mask are the code points that its bits tell. -/
theorem mem_asciiMembers {c : Nat} :
    c ∈ m.asciiMembers ↔ c < 128 ∧ m.bits.getLsbD c = true := by
  rw [asciiMembers, List.mem_filter, List.mem_range]

/-- A mask with a single ASCII member and nothing beyond holds nothing else. -/
theorem contains_of_single? {x : Nat} (hb : m.beyond = false) (hcount : m.count = 1)
    (h : m.asciiRanges.single? = some x) (c : Nat) : m.contains c = true ↔ c = x := by
  obtain ⟨y, hy⟩ := List.length_eq_one_iff.mp hcount
  have hlt : y < 128 := (mem_asciiMembers.mp (hy ▸ List.mem_singleton_self y)).1
  have hmax : min y maxCodePoint = y := Nat.min_eq_left (by unfold maxCodePoint; omega)
  obtain rfl : y = x := by
    simpa [asciiRanges, hy, RangeSet.ofRanges, RangeSet.coalesce, RangeSet.coalesceFrom,
      RangeSet.single?, CodeRange.between, CodeRange.stepping, CodeRange.isUnit, hmax] using h
  have hmem : c < 128 ∧ m.bits.getLsbD c = true ↔ c = y := by
    rw [← mem_asciiMembers, hy, List.mem_singleton]
  rw [contains, ← hmem]
  split
  · next hc => simp [hc]
  · next hc => simp [hc, hb]

end AsciiMask

/-- A class that consists of a single character accepts no other one. -/
theorem CharClass.accepts_iff_of_single? {cls : CharClass} {ch : Char}
    (h : cls.single? = some ch) (c : Char) : cls.accepts c = true ↔ c = ch := by
  have heq {x : Nat} (hx : charOfCodePoint? x = some ch) : c.toNat = x ↔ c = ch := by
    rw [← toNat_of_charOfCodePoint? hx]
    exact Char.toNat_inj
  rw [single?.eq_def] at h
  rw [accepts]
  split at h
  · split at h
    · next mask hm =>
      obtain ⟨x, hx, hch⟩ := Option.bind_eq_some_iff.mp h
      simp only [Bool.and_eq_true, Bool.not_eq_true', beq_iff_eq] at hm
      rw [contains, mask.contains_of_single? hm.1 hm.2 hx, heq hch]
    · simp at h
  · next set =>
    obtain ⟨x, hx, hch⟩ := Option.bind_eq_some_iff.mp h
    rw [contains, set.contains_of_single? hx, heq hch]
  · simp at h

end BacktrackRegex
