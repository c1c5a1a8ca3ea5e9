import BacktrackRegex.Proofs.CodePoint.Coalesced

/-!
# Range sets as a Boolean algebra

A canonical range set is determined by its code points: its first range begins at the least of them
and ends before the first gap, and so on. Whatever unions and complements make of ranges of stride
one is canonical, so the laws of sets of code points hold as equations between lists of ranges.
Intersections, which no class needs, are the other side of the laws about complements.
-/

namespace BacktrackRegex

namespace CodeRange

/-- The code points that lie between the bounds of both of two ranges, if there are any. -/
def overlap? (r q : CodeRange) : Option CodeRange :=
  if max r.lo q.lo ≤ min r.hi q.hi then some (between (max r.lo q.lo) (min r.hi q.hi)) else none

/-- A range of stride one between two code points. -/
def IsSpan (r : CodeRange) : Prop :=
  ∃ a b, a ≤ maxCodePoint ∧ b ≤ maxCodePoint ∧ r = between a b

/-- A range between code points has stride one and its bounds in order. -/
theorem IsSpan.isUnit_and_le {r : CodeRange} (h : r.IsSpan) : r.isUnit = true ∧ r.lo ≤ r.hi := by
  obtain ⟨a, b, ha, hb, rfl⟩ := h
  refine ⟨rfl, ?_⟩
  rw [between, stepping]
  dsimp only
  omega

/-- A range of stride one with its bounds in order lies between two code points. -/
theorem isSpan_of_le {r : CodeRange} (hr : r.isUnit = true) (hle : r.lo ≤ r.hi) : r.IsSpan := by
  obtain ⟨lo, hi, stride, hmax, _⟩ := r
  obtain rfl : stride = 1 := by simpa [isUnit] using hr
  refine ⟨lo, hi, Nat.le_trans hle hmax, hmax, ?_⟩
  simp only [between, stepping, Nat.min_eq_left hle, Nat.max_eq_right hle, Nat.min_eq_left hmax,
    Nat.max_self]

/-- The overlap of two ranges holds what both of them hold. -/
theorem contains_overlap? {r q : CodeRange} {c : Nat} (hr : r.isUnit = true)
    (hq : q.isUnit = true) :
    (∃ o ∈ r.overlap? q, o.contains c = true) ↔ r.contains c = true ∧ q.contains c = true := by
  have hmax := r.hi_le
  rw [contains_iff_of_isUnit hr, contains_iff_of_isUnit hq, overlap?]
  split
  · next hle =>
    simp only [Option.mem_def, Option.some.injEq, exists_eq_left']
    rw [contains_iff_of_isUnit rfl, between, stepping]
    dsimp only
    omega
  · next hlt =>
    simp only [Option.mem_def, reduceCtorEq, false_and, exists_false, false_iff]
    omega

/-- The overlap of two ranges of stride one lies between two code points. -/
theorem isSpan_of_mem_overlap? {r q o : CodeRange} (h : o ∈ r.overlap? q) : o.IsSpan := by
  rw [overlap?] at h
  split at h
  · next hle =>
    obtain rfl := Option.some.inj h
    have hmax := r.hi_le
    exact ⟨_, _, by omega, by omega, rfl⟩
  · simp at h

end CodeRange

namespace RangeSet

variable {s t u : RangeSet} {r q : CodeRange} {rs qs : List CodeRange}

/-! ## Sets are determined by their code points -/

/-- A canonical set holds the code points between the bounds of its ranges. -/
theorem Canonical.contains_iff (h : s.Canonical) {c : Nat} :
    s.contains c = true ↔ ∃ r ∈ s.ranges, r.lo ≤ c ∧ c ≤ r.hi := by
  rw [h.ordered.contains_iff]
  refine exists_congr fun r => and_congr_right fun hr => ?_
  exact CodeRange.contains_iff_of_isUnit (h.isUnit r hr)

/-- A canonical set holds no number past the last code point. -/
theorem Canonical.le_maxCodePoint (h : s.Canonical) {c : Nat} (hc : s.contains c = true) :
    c ≤ maxCodePoint := by
  obtain ⟨r, -, -, hhi⟩ := h.contains_iff.mp hc
  exact Nat.le_trans hhi r.hi_le

/-- What comes after the first range of a canonical set is canonical. -/
theorem Canonical.tail (h : Canonical ⟨r :: rs⟩) : Canonical ⟨rs⟩ where
  toCoalesced := h.toCoalesced.tail.1
  lo_le := (List.forall_mem_cons.mp h.lo_le).2

/-- After the first range of a canonical set there is a gap. -/
theorem Canonical.gap_of_contains_tail (h : Canonical ⟨r :: rs⟩) {c : Nat}
    (hc : contains ⟨rs⟩ c = true) : r.hi + 1 < c := by
  obtain ⟨q, hq, hlo, -⟩ := h.tail.contains_iff.mp hc
  exact Nat.lt_of_lt_of_le ((List.pairwise_cons.mp h.before).1 q hq).hi_lt hlo

/-- A canonical set holds what its first range holds, and what the set of the other ones holds. -/
theorem Canonical.contains_cons (h : Canonical ⟨r :: rs⟩) {c : Nat} :
    contains ⟨r :: rs⟩ c = true ↔ r.lo ≤ c ∧ c ≤ r.hi ∨ contains ⟨rs⟩ c = true := by
  rw [h.contains_iff, h.tail.contains_iff]
  simp only [List.mem_cons, exists_eq_or_imp]

/-- A canonical set with more code points begins no later, and its first range reaches as far if it
begins with the same code point. -/
theorem Canonical.first_le (hs : Canonical ⟨r :: rs⟩) (ht : Canonical ⟨q :: qs⟩)
    (h : ∀ c, contains ⟨r :: rs⟩ c = true → contains ⟨q :: qs⟩ c = true) :
    q.lo ≤ r.lo ∧ (q.lo = r.lo → r.hi ≤ q.hi) := by
  have hr := hs.lo_le r List.mem_cons_self
  have hq := ht.lo_le q List.mem_cons_self
  have hmem (c : Nat) (hlo : r.lo ≤ c) (hhi : c ≤ r.hi) :
      q.lo ≤ c ∧ c ≤ q.hi ∨ q.hi + 1 < c := by
    have hc := h c (hs.contains_cons.mpr (Or.inl ⟨hlo, hhi⟩))
    exact (ht.contains_cons.mp hc).imp_right ht.gap_of_contains_tail
  constructor
  · have := hmem r.lo (Nat.le_refl _) hr
    omega
  · intro hlo
    refine Nat.le_of_not_lt fun hlt => ?_
    have hgap := hmem (q.hi + 1) (by omega) (by omega)
    omega

/-- Ranges of stride one with the same bounds are equal. -/
theorem range_ext (hr : r.isUnit = true) (hq : q.isUnit = true) (hlo : r.lo = q.lo)
    (hhi : r.hi = q.hi) : r = q := by
  obtain ⟨lo, hi, stride, _, _⟩ := r
  obtain ⟨lo', hi', stride', _, _⟩ := q
  obtain rfl : stride = 1 := by simpa [CodeRange.isUnit] using hr
  obtain rfl : stride' = 1 := by simpa [CodeRange.isUnit] using hq
  obtain rfl : lo = lo' := hlo
  obtain rfl : hi = hi' := hhi
  rfl

/-- Canonical lists of ranges with the same code points are equal. -/
theorem Canonical.ranges_ext (hs : Canonical ⟨rs⟩) (ht : Canonical ⟨qs⟩)
    (h : ∀ c, contains ⟨rs⟩ c = true ↔ contains ⟨qs⟩ c = true) : rs = qs := by
  induction rs generalizing qs with
  | nil =>
    cases qs with
    | nil => rfl
    | cons q qs =>
      have hq := ht.lo_le q List.mem_cons_self
      have hc := (h q.lo).mpr (ht.contains_cons.mpr (Or.inl ⟨Nat.le_refl _, hq⟩))
      obtain ⟨_, hmem, -⟩ := hs.contains_iff.mp hc
      exact absurd hmem List.not_mem_nil
  | cons r rs ih =>
    have hr := hs.lo_le r List.mem_cons_self
    cases qs with
    | nil =>
      have hc := (h r.lo).mp (hs.contains_cons.mpr (Or.inl ⟨Nat.le_refl _, hr⟩))
      obtain ⟨_, hmem, -⟩ := ht.contains_iff.mp hc
      exact absurd hmem List.not_mem_nil
    | cons q qs =>
      obtain ⟨hlo, hhi⟩ := hs.first_le ht fun c => (h c).mp
      obtain ⟨hlo', hhi'⟩ := ht.first_le hs fun c => (h c).mpr
      have hlo := Nat.le_antisymm hlo' hlo
      have hhi := Nat.le_antisymm (hhi hlo.symm) (hhi' hlo)
      obtain rfl := range_ext (hs.isUnit r List.mem_cons_self) (ht.isUnit q List.mem_cons_self)
        hlo hhi
      refine congrArg (r :: ·) (ih hs.tail ht.tail fun c => ?_)
      have hc := h c
      rw [hs.contains_cons, ht.contains_cons] at hc
      constructor
      · intro hrs
        have := hs.gap_of_contains_tail hrs
        exact (hc.mp (Or.inr hrs)).resolve_left fun hin => by omega
      · intro hqs
        have := ht.gap_of_contains_tail hqs
        exact (hc.mpr (Or.inr hqs)).resolve_left fun hin => by omega

/-- Canonical sets with the same code points are equal. -/
theorem Canonical.ext (hs : s.Canonical) (ht : t.Canonical)
    (h : ∀ c ≤ maxCodePoint, s.contains c = t.contains c) : s = t := by
  obtain ⟨rs⟩ := s
  obtain ⟨qs⟩ := t
  refine congrArg RangeSet.mk (hs.ranges_ext ht fun c => ?_)
  constructor
  · intro hc
    rwa [← h c (hs.le_maxCodePoint hc)]
  · intro hc
    rwa [h c (ht.le_maxCodePoint hc)]

/-- Canonical sets are equal if and only if they hold the same code points. -/
theorem Canonical.eq_iff (hs : s.Canonical) (ht : t.Canonical) :
    s = t ↔ ∀ c ≤ maxCodePoint, s.contains c = t.contains c :=
  ⟨fun h _ _ => h ▸ rfl, hs.ext ht⟩

/-! ## The operations -/

/-- The code points of both of two sets. -/
def inter (s t : RangeSet) : RangeSet :=
  ofRanges (s.ranges.flatMap fun r => t.ranges.filterMap r.overlap?)

/-- Sorting and joining ranges between code points makes a canonical set of what they hold. -/
theorem canonical_ofRanges_of_isSpan (h : ∀ r ∈ rs, r.IsSpan) :
    (ofRanges rs).Canonical ∧
      ∀ c, (ofRanges rs).contains c = true ↔ ∃ r ∈ rs, r.contains c = true := by
  have hunit := fun r hr => (h r hr).isUnit_and_le.1
  have hle := fun r hr => (h r hr).isUnit_and_le.2
  exact ⟨canonical_ofRanges hunit hle,
    (coalesced_ofRanges hunit fun r hr => Or.inl (hle r hr)).2⟩

/-- The union of canonical sets holds what one of them holds. -/
theorem Canonical.contains_union (hs : s.Canonical) (ht : t.Canonical) (c : Nat) :
    (s.union t).contains c = (s.contains c || t.contains c) := by
  rw [Bool.eq_iff_iff, Bool.or_eq_true]
  exact (hs.toCoalesced.union ht.toCoalesced).2 c

/-- The intersection of canonical sets is canonical and holds what both of them hold. -/
theorem Canonical.inter (hs : s.Canonical) (ht : t.Canonical) :
    (s.inter t).Canonical ∧ ∀ c, (s.inter t).contains c = (s.contains c && t.contains c) := by
  have hspan : ∀ o ∈ s.ranges.flatMap fun r => t.ranges.filterMap r.overlap?, o.IsSpan := by
    intro o ho
    obtain ⟨r, -, ho⟩ := List.mem_flatMap.mp ho
    obtain ⟨q, -, ho⟩ := List.mem_filterMap.mp ho
    exact CodeRange.isSpan_of_mem_overlap? ho
  obtain ⟨hcanonical, hmem⟩ := canonical_ofRanges_of_isSpan hspan
  refine ⟨hcanonical, fun c => ?_⟩
  rw [Bool.eq_iff_iff, Bool.and_eq_true, hs.ordered.contains_iff, ht.ordered.contains_iff]
  refine (hmem c).trans ?_
  constructor
  · rintro ⟨o, ho, hc⟩
    obtain ⟨r, hr, ho⟩ := List.mem_flatMap.mp ho
    obtain ⟨q, hq, ho⟩ := List.mem_filterMap.mp ho
    obtain ⟨hrc, hqc⟩ :=
      (CodeRange.contains_overlap? (hs.isUnit r hr) (ht.isUnit q hq)).mp ⟨o, ho, hc⟩
    exact ⟨⟨r, hr, hrc⟩, ⟨q, hq, hqc⟩⟩
  · rintro ⟨⟨r, hr, hrc⟩, ⟨q, hq, hqc⟩⟩
    obtain ⟨o, ho, hc⟩ :=
      (CodeRange.contains_overlap? (hs.isUnit r hr) (ht.isUnit q hq)).mpr ⟨hrc, hqc⟩
    exact ⟨o, List.mem_flatMap.mpr ⟨r, hr, List.mem_filterMap.mpr ⟨q, hq, ho⟩⟩, hc⟩

/-- Two canonical sets are complements of each other. -/
structure Opposite (s t : RangeSet) : Prop where
  left : s.Canonical
  right : t.Canonical
  contains : ∀ c ≤ maxCodePoint, t.contains c = !s.contains c

/-- A canonical set has a complement, which is opposite to it. -/
theorem Canonical.exists_opposite (hs : s.Canonical) :
    ∃ t, s.complement? = some t ∧ s.Opposite t := by
  obtain ⟨t, hst, ht, hmem⟩ := hs.toCoalesced.complement
  exact ⟨t, hst, hs, ht, hmem⟩

/-- What is opposite to a set is its complement. -/
theorem Opposite.complement? (h : s.Opposite t) : s.complement? = some t := by
  obtain ⟨u, hu, hopposite⟩ := h.left.exists_opposite
  rw [hu, hopposite.right.ext h.right]
  intro c hc
  rw [hopposite.contains c hc, h.contains c hc]

/-- Being opposite goes both ways. -/
theorem Opposite.symm (h : s.Opposite t) : t.Opposite s where
  left := h.right
  right := h.left
  contains := fun c hc => by rw [h.contains c hc, Bool.not_not]

/-- The complement of a union is the intersection of the complements. -/
theorem Opposite.union {s' t' : RangeSet} (hs : s.Opposite s') (ht : t.Opposite t') :
    (s.union t).Opposite (s'.inter t') where
  left := hs.left.union ht.left
  right := (hs.right.inter ht.right).1
  contains := by
    intro c hc
    rw [(hs.right.inter ht.right).2, hs.left.contains_union ht.left, hs.contains c hc,
      ht.contains c hc, Bool.not_or]

/-- The complement of an intersection is the union of the complements. -/
theorem Opposite.inter {s' t' : RangeSet} (hs : s.Opposite s') (ht : t.Opposite t') :
    (s.inter t).Opposite (s'.union t') :=
  (hs.symm.union ht.symm).symm

/-! ## Laws -/

/-- Sets made from ranges between code points by sorting and joining, unions and complements. -/
inductive Built : RangeSet → Prop where
  | ofRanges {rs : List CodeRange} (h : ∀ r ∈ rs, r.IsSpan) : Built (ofRanges rs)
  | union {s t : RangeSet} (hs : Built s) (ht : Built t) : Built (s.union t)
  | complement {s t : RangeSet} (hs : Built s) (ht : s.complement? = some t) : Built t

/-- Whatever is built is canonical. -/
theorem Built.canonical (h : s.Built) : s.Canonical := by
  induction h with
  | ofRanges h => exact (canonical_ofRanges_of_isSpan h).1
  | union _ _ hs ht => exact hs.union ht
  | complement _ ht hs =>
    obtain ⟨t', ht', hopposite⟩ := hs.exists_opposite
    obtain rfl := Option.some.inj (ht.symm.trans ht')
    exact hopposite.right

/-- The canonical sets are those that are built: each one is the set of its own ranges. -/
theorem built_iff_canonical : s.Built ↔ s.Canonical := by
  refine ⟨Built.canonical, fun h => ?_⟩
  have hspan : ∀ r ∈ s.ranges, r.IsSpan := fun r hr =>
    CodeRange.isSpan_of_le (h.isUnit r hr) (h.lo_le r hr)
  obtain ⟨hcanonical, hmem⟩ := canonical_ofRanges_of_isSpan hspan
  have hself : ofRanges s.ranges = s := hcanonical.ext h fun c _ => by
    rw [Bool.eq_iff_iff, hmem, h.ordered.contains_iff]
  exact hself ▸ .ofRanges hspan

/-- Unions may be taken in any grouping. -/
theorem Canonical.union_assoc (hs : s.Canonical) (ht : t.Canonical) (hu : u.Canonical) :
    (s.union t).union u = s.union (t.union u) := by
  apply ((hs.union ht).union hu).ext (hs.union (ht.union hu))
  intro c _
  rw [(hs.union ht).contains_union hu, hs.contains_union ht, hs.contains_union (ht.union hu),
    ht.contains_union hu, Bool.or_assoc]

/-- Unions may be taken in any order. -/
theorem Canonical.union_comm (hs : s.Canonical) (ht : t.Canonical) : s.union t = t.union s := by
  apply (hs.union ht).ext (ht.union hs)
  intro c _
  rw [hs.contains_union ht, ht.contains_union hs, Bool.or_comm]

/-- The union of a set with itself is the set. -/
theorem Canonical.union_self (hs : s.Canonical) : s.union s = s := by
  apply (hs.union hs).ext hs
  intro c _
  rw [hs.contains_union hs, Bool.or_self]

/-- Sets that are built from ranges of stride one are canonical, the operations hold the code points
that they should, and a set is determined by its code points. So unions are associative, commutative
and idempotent, complements are involutive and turn unions and intersections into each other, all as
equations between lists of ranges, and comparing these lists decides whether two sets hold the same
code points. -/
theorem Built.boolean_laws (hs : s.Built) (ht : t.Built) (hu : u.Built) :
    (s.Canonical ∧
      (∀ rs : List CodeRange, (∀ r ∈ rs, r.IsSpan) →
        ∀ c, (RangeSet.ofRanges rs).contains c = true ↔ ∃ r ∈ rs, r.contains c = true) ∧
      (∀ c, (s.union t).contains c = true ↔ s.contains c = true ∨ t.contains c = true) ∧
      (∀ c, (s.inter t).contains c = true ↔ s.contains c = true ∧ t.contains c = true)) ∧
    ((∀ v w : RangeSet, v.Canonical → w.Canonical →
        (∀ c ≤ maxCodePoint, v.contains c = w.contains c) → v = w) ∧
      ((s == t) = true ↔ ∀ c ≤ maxCodePoint, s.contains c = t.contains c)) ∧
    ((s.union t).union u = s.union (t.union u) ∧ s.union t = t.union s ∧ s.union s = s) ∧
    ∃ s' t', s.complement? = some s' ∧ t.complement? = some t' ∧
      (∀ c, s'.contains c = true ↔ c ≤ maxCodePoint ∧ ¬ s.contains c = true) ∧
      s'.complement? = some s ∧
      (s.union t).complement? = some (s'.inter t') ∧
      (s.inter t).complement? = some (s'.union t') := by
  have hs := hs.canonical
  have ht := ht.canonical
  have hu := hu.canonical
  obtain ⟨s', hs', hopposite⟩ := hs.exists_opposite
  obtain ⟨t', ht', hopposite'⟩ := ht.exists_opposite
  refine ⟨⟨hs, fun rs hrs => (canonical_ofRanges_of_isSpan hrs).2, fun c => ?_, fun c => ?_⟩,
    ⟨fun v w hv hw => hv.ext hw, beq_iff_eq.trans (hs.eq_iff ht)⟩,
    ⟨hs.union_assoc ht hu, hs.union_comm ht, hs.union_self⟩,
    s', t', hs', ht', fun c => ⟨fun hc => ?_, fun hc => ?_⟩, hopposite.symm.complement?,
    (hopposite.union hopposite').complement?, (hopposite.inter hopposite').complement?⟩
  · rw [hs.contains_union ht, Bool.or_eq_true]
  · rw [(hs.inter ht).2, Bool.and_eq_true]
  · have hmax := hopposite.right.le_maxCodePoint hc
    rw [hopposite.contains c hmax] at hc
    exact ⟨hmax, by simpa using hc⟩
  · rw [hopposite.contains c hc.1]
    simpa using hc.2

/-- The code points from 97 to 130, from two ranges that overlap and come in descending order. -/
def letters : RangeSet :=
  .ofRanges [.between 110 130, .between 122 97]

/-- Ranges that overlap and come in descending order are joined to a single one. -/
theorem letters_eq : letters = ⟨[.between 97 130]⟩ := by
  have hspan : ∀ r ∈ [CodeRange.between 110 130, .between 122 97], r.IsSpan :=
    List.forall_mem_cons.mpr ⟨⟨110, 130, by decide, by decide, rfl⟩,
      List.forall_mem_singleton.mpr ⟨122, 97, by decide, by decide, rfl⟩⟩
  obtain ⟨hcanonical, hmem⟩ := canonical_ofRanges_of_isSpan hspan
  have hsingle : Canonical ⟨[.between 97 130]⟩ := canonical_singleton rfl (by decide)
  apply hcanonical.ext hsingle
  intro c hc
  rw [Bool.eq_iff_iff, hmem, hsingle.ordered.contains_iff]
  simp only [List.mem_cons, List.not_mem_nil, or_false, exists_eq_or_imp, exists_eq_left,
    CodeRange.contains_between hc]
  omega

/-- The letters are built, being canonical. -/
theorem built_letters : letters.Built :=
  built_iff_canonical.mpr (letters_eq ▸ canonical_singleton rfl (by decide))

/-- The ten digits. -/
def digits : RangeSet :=
  .ofRanges [.between 48 57]

/-- Overlapping ranges and digits are built, their unions in either order are the same list, and the
complement of the union is the intersection of the complements. -/
theorem boolean_laws_letters :
    letters.Built ∧ digits.Built ∧ letters = ⟨[.between 97 130]⟩ ∧
    letters.union digits = digits.union letters ∧
    ∃ s' t', letters.complement? = some s' ∧ digits.complement? = some t' ∧
      s'.complement? = some letters ∧
      (letters.union digits).complement? = some (s'.inter t') := by
  have hdigits : digits.Built :=
    .ofRanges (List.forall_mem_singleton.mpr ⟨48, 57, by decide, by decide, rfl⟩)
  obtain ⟨-, -, ⟨-, hcomm, -⟩, s', t', hs, ht, -, hback, hunion, -⟩ :=
    Built.boolean_laws built_letters hdigits hdigits
  exact ⟨built_letters, hdigits, letters_eq, hcomm, s', t', hs, ht, hback, hunion⟩

end RangeSet

end BacktrackRegex
