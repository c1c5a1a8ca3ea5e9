import BacktrackRegex.Proofs.CodePoint.Membership

/-!
# Coalesced range sets

Sorting and joining turn ranges of stride one into a list with a gap after every range but the last,
which holds the same code points. Unions and complements of such sets are such sets again. A set
with larger strides is only sorted, which is enough for bisection if its ranges are apart.
-/

namespace BacktrackRegex

namespace CodeRange

/-- The bounds are in order, or both lie past the last code point and the range was cut there. -/
def IsBounded (r : CodeRange) : Prop :=
  r.lo ≤ r.hi ∨ r.hi = maxCodePoint

/-- Two ranges have no code point between the bounds of both. -/
def Apart (r s : CodeRange) : Prop :=
  r.hi < s.lo ∨ s.hi < r.lo

/-- Whatever its bounds and stride, a range between two bounds is bounded. -/
theorem isBounded_stepping (a b stride : Nat) : (stepping a b stride).IsBounded := by
  rw [IsBounded, stepping]
  dsimp only
  omega

/-- The range between two code points is theirs and everything in between. -/
theorem contains_between {a b c : Nat} (hc : c ≤ maxCodePoint) :
    (between a b).contains c = true ↔ min a b ≤ c ∧ c ≤ max a b := by
  rw [contains_iff_of_isUnit rfl, between, stepping]
  dsimp only
  omega

/-- A range widened to one that begins right after it or earlier holds what the two hold. -/
theorem contains_reaching {r s : CodeRange} {c : Nat} (hr : r.isUnit = true) (hs : s.isUnit = true)
    (hle : r.lo ≤ s.lo) (htouch : s.lo ≤ r.hi + 1) :
    (r.reaching s).contains c = true ↔ r.contains c = true ∨ s.contains c = true := by
  rw [contains_iff_of_isUnit hr, contains_iff_of_isUnit hs,
    contains_iff_of_isUnit (show (r.reaching s).isUnit = true from hr), reaching]
  dsimp only
  omega

/-- Widening keeps the bounds of a range in order. -/
theorem IsBounded.reaching {r s : CodeRange} (hr : r.IsBounded) : (r.reaching s).IsBounded := by
  have := s.hi_le
  have := r.hi_le
  rw [IsBounded, CodeRange.reaching] at *
  dsimp only
  omega

end CodeRange

namespace RangeSet

/-- Ranges of stride one with at least one code point between each and the next. -/
structure Coalesced (s : RangeSet) : Prop where
  isUnit : ∀ r ∈ s.ranges, r.isUnit = true
  isBounded : ∀ r ∈ s.ranges, r.IsBounded
  before : s.ranges.Pairwise (CodeRange.Before 1)

/-- A set as sorting and joining leave it. -/
structure Ordered (s : RangeSet) : Prop where
  before : s.ranges.Pairwise (CodeRange.Before 0)
  coalesced : s.isUnit = true → s.Coalesced

/-- A coalesced set consists of ranges of stride one. -/
theorem Coalesced.isUnit_eq {s : RangeSet} (h : s.Coalesced) : s.isUnit = true :=
  List.all_eq_true.mpr h.isUnit

/-- A coalesced set is ordered. -/
theorem Coalesced.ordered {s : RangeSet} (h : s.Coalesced) : s.Ordered :=
  ⟨h.before.imp fun hb => hb.of_le (Nat.zero_le 1), fun _ => h⟩

/-- A code point belongs to an ordered set if it belongs to one of its ranges. -/
theorem Ordered.contains_iff {s : RangeSet} (h : s.Ordered) {c : Nat} :
    s.contains c = true ↔ ∃ r ∈ s.ranges, r.contains c = true :=
  contains_iff_of_before h.before

/-! ## Joining -/

section Coalesce

variable {current : CodeRange} {rs : List CodeRange}

/-- What holds of the given ranges and is kept by widening holds of the joined ranges. -/
theorem forall_mem_coalesceFrom {P : CodeRange → Prop}
    (hP : ∀ r s, P r → P s → P (r.reaching s)) (hcurrent : P current) (hrs : ∀ r ∈ rs, P r) :
    ∀ r ∈ coalesceFrom current rs, P r := by
  induction rs generalizing current with
  | nil => simpa [coalesceFrom] using hcurrent
  | cons q rest ih =>
    have hq := hrs q List.mem_cons_self
    have hrest := fun r hr => hrs r (List.mem_cons_of_mem q hr)
    rw [coalesceFrom]
    split
    · exact ih (hP _ _ hcurrent hq) hrest
    · exact List.forall_mem_cons.mpr ⟨hcurrent, ih hq hrest⟩

/-- What holds of the ranges of a list and is kept by widening holds of the joined ranges. -/
theorem forall_mem_coalesce {P : CodeRange → Prop}
    (hP : ∀ r s, P r → P s → P (r.reaching s)) (hrs : ∀ r ∈ rs, P r) : ∀ r ∈ coalesce rs, P r := by
  cases rs with
  | nil => simp [coalesce]
  | cons r rest =>
    obtain ⟨hr, hrest⟩ := List.forall_mem_cons.mp hrs
    exact forall_mem_coalesceFrom hP hr hrest

/-- Joining begins with the lower bound of the range it starts from. -/
theorem lo_le_of_mem_coalesceFrom (hle : ∀ r ∈ rs, current.lo ≤ r.lo) :
    ∀ r ∈ coalesceFrom current rs, current.lo ≤ r.lo :=
  forall_mem_coalesceFrom (P := fun r => current.lo ≤ r.lo) (fun _ _ hr _ => hr) (Nat.le_refl _) hle

/-- Joining changes no membership. -/
theorem exists_mem_coalesceFrom {c : Nat} (hunit : ∀ r ∈ current :: rs, r.isUnit = true)
    (hsorted : (current :: rs).Pairwise fun r s => r.lo ≤ s.lo) :
    (∃ r ∈ coalesceFrom current rs, r.contains c = true) ↔
      ∃ r ∈ current :: rs, r.contains c = true := by
  induction rs generalizing current with
  | nil => simp [coalesceFrom]
  | cons q rest ih =>
    have hcurrent := hunit current List.mem_cons_self
    have hrest := fun r hr => hunit r (List.mem_cons_of_mem current hr)
    obtain ⟨hle, hsorted⟩ := List.pairwise_cons.mp hsorted
    rw [coalesceFrom]
    split
    · next htouch =>
      have hwide : (current.reaching q).isUnit = true := hcurrent
      rw [ih (List.forall_mem_cons.mpr ⟨hwide, (List.forall_mem_cons.mp hrest).2⟩)
        (List.pairwise_cons.mpr ⟨fun r hr => hle r (List.mem_cons_of_mem q hr), hsorted.of_cons⟩)]
      simp only [List.mem_cons, exists_eq_or_imp]
      rw [CodeRange.contains_reaching hcurrent (hrest q List.mem_cons_self)
        (hle q List.mem_cons_self) htouch, or_assoc]
    · simp only [List.mem_cons, exists_eq_or_imp, ih hrest hsorted]

/-- Joining leaves a gap after every range. -/
theorem pairwise_coalesceFrom (hbounded : ∀ r ∈ current :: rs, r.IsBounded)
    (hsorted : (current :: rs).Pairwise fun r s => r.lo ≤ s.lo) :
    (coalesceFrom current rs).Pairwise (CodeRange.Before 1) := by
  induction rs generalizing current with
  | nil => exact List.pairwise_singleton _ _
  | cons q rest ih =>
    obtain ⟨hcurrent, hrest⟩ := List.forall_mem_cons.mp hbounded
    obtain ⟨hle, hsorted⟩ := List.pairwise_cons.mp hsorted
    obtain ⟨hq, hqrest⟩ := List.forall_mem_cons.mp hrest
    rw [coalesceFrom]
    split
    · exact ih (List.forall_mem_cons.mpr ⟨hcurrent.reaching, hqrest⟩)
        (List.pairwise_cons.mpr ⟨fun r hr => hle r (List.mem_cons_of_mem q hr), hsorted.of_cons⟩)
    · next htouch =>
      refine List.pairwise_cons.mpr ⟨fun r hr => ?_, ih hrest hsorted⟩
      have hcq := hle q List.mem_cons_self
      have hlo := lo_le_of_mem_coalesceFrom (List.pairwise_cons.mp hsorted).1 r hr
      have hr' := forall_mem_coalesceFrom (fun _ _ h _ => h.reaching) hq hqrest r hr
      have hmax := current.hi_le
      rw [CodeRange.IsBounded] at hcurrent hr'
      exact ⟨by omega, by omega, by omega⟩

/-- Where there is a gap after every range, there is nothing to join. -/
theorem coalesce_of_before (h : rs.Pairwise (CodeRange.Before 1)) : coalesce rs = rs := by
  have hfrom {current : CodeRange} {rs : List CodeRange}
      (h : (current :: rs).Pairwise (CodeRange.Before 1)) :
      coalesceFrom current rs = current :: rs := by
    induction rs generalizing current with
    | nil => rfl
    | cons q rest ih =>
      obtain ⟨hcurrent, hrest⟩ := List.pairwise_cons.mp h
      have hgap := (hcurrent q List.mem_cons_self).hi_lt
      rw [coalesceFrom, if_neg (Nat.not_le.mpr hgap), ih hrest]
  cases rs with
  | nil => rfl
  | cons r rest => exact hfrom h

/-- Joining the ranges of a sorted list makes a coalesced set of the same code points. -/
theorem coalesced_coalesce (hunit : ∀ r ∈ rs, r.isUnit = true)
    (hbounded : ∀ r ∈ rs, r.IsBounded) (hsorted : rs.Pairwise fun r s => r.lo ≤ s.lo) :
    Coalesced ⟨coalesce rs⟩ ∧
      ∀ c, contains ⟨coalesce rs⟩ c = true ↔ ∃ r ∈ rs, r.contains c = true := by
  suffices h : (coalesce rs).Pairwise (CodeRange.Before 1) ∧
      ∀ c, (∃ r ∈ coalesce rs, r.contains c = true) ↔ ∃ r ∈ rs, r.contains c = true by
    have hcoalesced : Coalesced ⟨coalesce rs⟩ :=
      ⟨forall_mem_coalesce (fun _ _ hr _ => hr) hunit,
        forall_mem_coalesce (fun _ _ hr _ => hr.reaching) hbounded, h.1⟩
    exact ⟨hcoalesced, fun c => hcoalesced.ordered.contains_iff.trans (h.2 c)⟩
  cases rs with
  | nil => exact ⟨List.Pairwise.nil, fun c => Iff.rfl⟩
  | cons r rest =>
    exact ⟨pairwise_coalesceFrom hbounded hsorted, fun c => exists_mem_coalesceFrom hunit hsorted⟩

end Coalesce

/-! ## Sorting -/

section OfRanges

variable {rs : List CodeRange}

/-- Ranges are sorted by lower and then by upper bound. -/
theorem pairwise_mergeSort_precedes :
    (rs.mergeSort CodeRange.precedes).Pairwise fun r s => CodeRange.precedes r s = true := by
  apply List.pairwise_mergeSort
  · intro r s t
    simp only [CodeRange.precedes_iff]
    omega
  · intro r s
    simp only [Bool.or_eq_true, CodeRange.precedes_iff]
    omega

/-- Of sorted ranges none begins before an earlier one. -/
theorem lo_le_of_precedes {r s : CodeRange} (h : CodeRange.precedes r s = true) : r.lo ≤ s.lo := by
  rw [CodeRange.precedes_iff] at h
  omega

/-- Sorting is enough for ranges that are apart from one another. -/
theorem before_mergeSort (hbounded : ∀ r ∈ rs, r.IsBounded) (hapart : rs.Pairwise CodeRange.Apart) :
    (rs.mergeSort CodeRange.precedes).Pairwise (CodeRange.Before 0) := by
  have hapart' : (rs.mergeSort CodeRange.precedes).Pairwise CodeRange.Apart :=
    (List.mergeSort_perm rs _).symm.pairwise hapart Or.symm
  refine (List.Pairwise.and pairwise_mergeSort_precedes hapart').imp_of_mem ?_
  rintro r s hr hs ⟨hle, happ⟩
  have hr := hbounded r (List.mem_mergeSort.mp hr)
  have hs := hbounded s (List.mem_mergeSort.mp hs)
  have hle := lo_le_of_precedes hle
  have hmax := r.hi_le
  rw [CodeRange.IsBounded] at hr hs
  rw [CodeRange.Apart] at happ
  exact ⟨hle, by omega, by omega⟩

/-- Ranges of stride one are joined. -/
theorem ofRanges_of_isUnit (hunit : ∀ r ∈ rs, r.isUnit = true) :
    ofRanges rs = ⟨coalesce (rs.mergeSort CodeRange.precedes)⟩ :=
  if_pos (List.all_eq_true.mpr fun r hr => hunit r (List.mem_mergeSort.mp hr))

/-- Sorting and joining ranges of stride one makes a coalesced set of the same code points. -/
theorem coalesced_ofRanges (hunit : ∀ r ∈ rs, r.isUnit = true) (hbounded : ∀ r ∈ rs, r.IsBounded) :
    (ofRanges rs).Coalesced ∧
      ∀ c, (ofRanges rs).contains c = true ↔ ∃ r ∈ rs, r.contains c = true := by
  have h := coalesced_coalesce (fun r hr => hunit r (List.mem_mergeSort.mp hr))
    (fun r hr => hbounded r (List.mem_mergeSort.mp hr))
    (pairwise_mergeSort_precedes.imp lo_le_of_precedes)
  simp only [List.mem_mergeSort] at h
  rwa [ofRanges_of_isUnit hunit]

/-- With a larger stride anywhere, the set is the list in order. -/
theorem ofRanges_of_not_isUnit (h : ¬ ∀ r ∈ rs, r.isUnit = true) :
    ofRanges rs = ⟨rs.mergeSort CodeRange.precedes⟩ :=
  if_neg fun hall => h fun r hr => List.all_eq_true.mp hall r (List.mem_mergeSort.mpr hr)

/-- With a larger stride anywhere, the set is the list as it stands if this is in order. -/
theorem ofRanges_of_sorted (hsorted : rs.Pairwise fun r s => CodeRange.precedes r s = true)
    (h : ¬ ∀ r ∈ rs, r.isUnit = true) : ofRanges rs = ⟨rs⟩ := by
  rw [ofRanges_of_not_isUnit h, List.mergeSort_of_pairwise hsorted]

/-- The set of a single range is the range as it stands. -/
theorem ofRanges_singleton (r : CodeRange) : ofRanges [r] = ⟨[r]⟩ := by
  simp [ofRanges, coalesce, coalesceFrom]

/-- Ranges of any stride that are apart from one another make an ordered set of the same code
points. -/
theorem ordered_ofRanges (hbounded : ∀ r ∈ rs, r.IsBounded) (hapart : rs.Pairwise CodeRange.Apart) :
    (ofRanges rs).Ordered ∧
      ∀ c, (ofRanges rs).contains c = true ↔ ∃ r ∈ rs, r.contains c = true := by
  by_cases hunit : ∀ r ∈ rs, r.isUnit = true
  · have h := coalesced_ofRanges hunit hbounded
    exact ⟨h.1.ordered, h.2⟩
  · have hord : Ordered ⟨rs.mergeSort CodeRange.precedes⟩ :=
      ⟨before_mergeSort hbounded hapart, fun h => absurd
        (fun r hr => List.all_eq_true.mp h r (List.mem_mergeSort.mpr hr)) hunit⟩
    rw [ofRanges_of_not_isUnit hunit]
    exact ⟨hord, fun c => by simp only [hord.contains_iff, List.mem_mergeSort]⟩

end OfRanges

/-! ## Unions -/

/-- The union of two coalesced sets is coalesced and holds the code points of both. -/
theorem Coalesced.union {s t : RangeSet} (hs : s.Coalesced) (ht : t.Coalesced) :
    (s.union t).Coalesced ∧
      ∀ c, (s.union t).contains c = true ↔ s.contains c = true ∨ t.contains c = true := by
  have hlo {u : RangeSet} (hu : u.Coalesced) :
      u.ranges.Pairwise fun r q => decide (r.lo ≤ q.lo) = true :=
    hu.before.imp fun hb => decide_eq_true hb.lo_le
  have hsorted := List.pairwise_merge (by simpa using fun _ _ _ => Nat.le_trans)
    (by simpa using fun r q : CodeRange => Nat.le_total r.lo q.lo) _ _ (hlo hs) (hlo ht)
  have h := coalesced_coalesce
    (fun r hr => (List.mem_merge.mp hr).elim (hs.isUnit r) (ht.isUnit r))
    (fun r hr => (List.mem_merge.mp hr).elim (hs.isBounded r) (ht.isBounded r))
    (hsorted.imp of_decide_eq_true)
  refine ⟨h.1, fun c => (h.2 c).trans ?_⟩
  simp only [List.mem_merge, hs.ordered.contains_iff, ht.ordered.contains_iff, or_and_right,
    exists_or]

/-! ## Ranges with their bounds in order -/

/-- A coalesced set whose ranges hold at least their bounds. -/
structure Canonical (s : RangeSet) : Prop extends Coalesced s where
  lo_le : ∀ r ∈ s.ranges, r.lo ≤ r.hi

/-- Joining keeps the bounds of ranges in order. -/
theorem lo_le_of_mem_coalesce {rs : List CodeRange} (h : ∀ r ∈ rs, r.lo ≤ r.hi) :
    ∀ r ∈ coalesce rs, r.lo ≤ r.hi :=
  forall_mem_coalesce (P := fun r => r.lo ≤ r.hi)
    (fun r s hr _ => Nat.le_trans hr (Nat.le_max_left r.hi s.hi)) h

/-- The set of a single range of stride one with its bounds in order is canonical. -/
theorem canonical_singleton {r : CodeRange} (hr : r.isUnit = true) (hle : r.lo ≤ r.hi) :
    Canonical ⟨[r]⟩ where
  isUnit := List.forall_mem_singleton.mpr hr
  isBounded := List.forall_mem_singleton.mpr (Or.inl hle)
  before := List.pairwise_singleton _ _
  lo_le := List.forall_mem_singleton.mpr hle

/-- The union of canonical sets is canonical. -/
theorem Canonical.union {s t : RangeSet} (hs : s.Canonical) (ht : t.Canonical) :
    (s.union t).Canonical where
  toCoalesced := (hs.toCoalesced.union ht.toCoalesced).1
  lo_le := lo_le_of_mem_coalesce fun r hr => (List.mem_merge.mp hr).elim (hs.lo_le r) (ht.lo_le r)

/-- A canonical set of ranges of stride one. -/
theorem canonical_ofRanges {rs : List CodeRange} (hunit : ∀ r ∈ rs, r.isUnit = true)
    (hle : ∀ r ∈ rs, r.lo ≤ r.hi) : (ofRanges rs).Canonical where
  toCoalesced := (coalesced_ofRanges hunit fun r hr => Or.inl (hle r hr)).1
  lo_le := by
    rw [ofRanges_of_isUnit hunit]
    exact lo_le_of_mem_coalesce fun r hr => hle r (List.mem_mergeSort.mp hr)

/-! ## Complements -/

section Gaps

variable {rs : List CodeRange} {start : Nat} {r g : CodeRange}

/-- The gap in front of a range, if there is one, reaches from the start to the range. -/
theorem mem_gap : g ∈ (if start < r.lo then [CodeRange.between start (r.lo - 1)] else []) ↔
    start < r.lo ∧ g = CodeRange.between start (r.lo - 1) := by
  split <;> simp [*]

/-- The gaps of a list go on after its first range. -/
theorem mem_gapsFrom_cons : g ∈ gapsFrom start (r :: rs) ↔
    start < r.lo ∧ g = CodeRange.between start (r.lo - 1) ∨
      r.hi + 1 ≤ maxCodePoint ∧ g ∈ gapsFrom (r.hi + 1) rs := by
  rw [gapsFrom]
  split
  · next h => rw [List.mem_append, mem_gap, and_iff_right h]
  · next h => rw [mem_gap, iff_self_or]; exact fun hc => absurd hc.1 h

/-- A range between bounds in the right order has these bounds, except that it is cut at the last
code point. -/
theorem bounds_between {a b : Nat} (h : a ≤ b) :
    (CodeRange.between a b).lo = a ∧ (CodeRange.between a b).hi = min b maxCodePoint := by
  rw [CodeRange.between, CodeRange.stepping]
  dsimp only
  omega

/-- What comes after the first range of a coalesced set is coalesced, and lies beyond it. -/
theorem Coalesced.tail (h : Coalesced ⟨r :: rs⟩) :
    Coalesced ⟨rs⟩ ∧ ∀ q ∈ rs, r.hi + 1 ≤ q.lo := by
  obtain ⟨hbefore, hrest⟩ := List.pairwise_cons.mp h.before
  exact ⟨⟨(List.forall_mem_cons.mp h.isUnit).2, (List.forall_mem_cons.mp h.isBounded).2, hrest⟩,
    fun q hq => Nat.le_of_lt (hbefore q hq).hi_lt⟩

/-- Gaps are ranges of stride one with their bounds in order, and none begins before the start. -/
theorem mem_gapsFrom (hs : Coalesced ⟨rs⟩) (hstart : start ≤ maxCodePoint)
    (hle : ∀ r ∈ rs, start ≤ r.lo) :
    ∀ g ∈ gapsFrom start rs, start ≤ g.lo ∧ g.lo ≤ g.hi ∧ g.isUnit = true := by
  induction rs generalizing start with
  | nil =>
    obtain ⟨hlo, hhi⟩ := bounds_between hstart
    simp only [gapsFrom, List.mem_singleton, forall_eq, hlo, hhi]
    exact ⟨Nat.le_refl _, by omega, rfl⟩
  | cons r rest ih =>
    intro g hg
    have hlo := hle r List.mem_cons_self
    have hr := hs.isBounded r List.mem_cons_self
    obtain ⟨hlt, rfl⟩ | ⟨hnext, hg⟩ := mem_gapsFrom_cons.mp hg
    · obtain ⟨hlo, hhi⟩ := bounds_between (Nat.le_sub_one_of_lt hlt)
      exact ⟨by omega, by omega, rfl⟩
    · obtain ⟨hfirst, hg⟩ := ih hs.tail.1 hnext hs.tail.2 g hg
      rw [CodeRange.IsBounded] at hr
      exact ⟨by omega, hg⟩

/-- Between two gaps lies a range, which holds at least one code point. -/
theorem pairwise_gapsFrom (hs : Coalesced ⟨rs⟩) (hle : ∀ r ∈ rs, start ≤ r.lo) :
    (gapsFrom start rs).Pairwise (CodeRange.Before 1) := by
  induction rs generalizing start with
  | nil => exact List.pairwise_singleton _ _
  | cons r rest ih =>
    have hr := hs.isBounded r List.mem_cons_self
    rw [gapsFrom]
    split
    · next hnext =>
      refine List.pairwise_append.mpr ⟨?_, ih hs.tail.1 hs.tail.2, fun g hg q hq => ?_⟩
      · split
        · exact List.pairwise_singleton _ _
        · exact List.Pairwise.nil
      · obtain ⟨hlt, rfl⟩ := mem_gap.mp hg
        obtain ⟨hlo, hhi⟩ := bounds_between (Nat.le_sub_one_of_lt hlt)
        obtain ⟨hfirst, hq, -⟩ := mem_gapsFrom hs.tail.1 hnext hs.tail.2 q hq
        rw [CodeRange.IsBounded] at hr
        exact ⟨by omega, by omega, by omega⟩
    · split
      · exact List.pairwise_singleton _ _
      · exact List.Pairwise.nil

/-- The gaps from a start on hold the code points from there on that the ranges do not hold. -/
theorem exists_mem_gapsFrom (hs : Coalesced ⟨rs⟩) (hstart : start ≤ maxCodePoint)
    (hle : ∀ r ∈ rs, start ≤ r.lo) {c : Nat} (hc : c ≤ maxCodePoint) :
    (∃ g ∈ gapsFrom start rs, g.contains c = true) ↔
      start ≤ c ∧ ∀ r ∈ rs, ¬ r.contains c = true := by
  induction rs generalizing start with
  | nil =>
    simp only [gapsFrom, List.mem_singleton, exists_eq_left, CodeRange.contains_between hc,
      List.not_mem_nil, false_imp_iff, implies_true, and_true]
    omega
  | cons r rest ih =>
    have hlo := hle r List.mem_cons_self
    have hr := hs.isBounded r List.mem_cons_self
    have hrc := CodeRange.contains_iff_of_isUnit (hs.isUnit r List.mem_cons_self) (c := c)
    have hbeyond (hcr : c ≤ r.hi) : ∀ q ∈ rest, ¬ q.contains c = true := fun q hq hqc => by
      have := hs.tail.2 q hq
      have := CodeRange.contains_iff.mp hqc
      omega
    rw [CodeRange.IsBounded] at hr
    simp only [mem_gapsFrom_cons, or_and_right, exists_or, and_assoc, exists_and_left,
      exists_eq_left, CodeRange.contains_between hc, List.forall_mem_cons, hrc]
    constructor
    · rintro (⟨hlt, hmin, hmax⟩ | ⟨hnext, hg⟩)
      · exact ⟨by omega, by omega, hbeyond (by omega)⟩
      · obtain ⟨hfirst, hrest⟩ := (ih hs.tail.1 hnext hs.tail.2).mp hg
        exact ⟨by omega, by omega, hrest⟩
    · rintro ⟨hfirst, hout, hrest⟩
      by_cases hcr : c < r.lo
      · exact Or.inl ⟨by omega, by omega, by omega⟩
      · have hnext : r.hi + 1 ≤ maxCodePoint := by omega
        exact Or.inr ⟨hnext, (ih hs.tail.1 hnext hs.tail.2).mpr ⟨by omega, hrest⟩⟩

end Gaps

/-- The complement of a coalesced set is canonical and holds the other code points. -/
theorem Coalesced.complement {s : RangeSet} (h : s.Coalesced) :
    ∃ t : RangeSet, s.complement? = some t ∧ t.Canonical ∧
      ∀ c ≤ maxCodePoint, t.contains c = !s.contains c := by
  have hle : ∀ r ∈ s.ranges, 0 ≤ r.lo := fun r _ => Nat.zero_le r.lo
  have hmem := mem_gapsFrom h (Nat.zero_le maxCodePoint) hle
  have ht : Canonical ⟨gapsFrom 0 s.ranges⟩ := {
    isUnit := fun g hg => (hmem g hg).2.2
    isBounded := fun g hg => Or.inl (hmem g hg).2.1
    before := pairwise_gapsFrom h hle
    lo_le := fun g hg => (hmem g hg).2.1 }
  refine ⟨_, if_pos h.isUnit_eq, ht, fun c hc => ?_⟩
  rw [Bool.eq_iff_iff, ht.ordered.contains_iff, Bool.not_eq_true', ← Bool.not_eq_true,
    h.ordered.contains_iff, exists_mem_gapsFrom h (Nat.zero_le maxCodePoint) hle hc]
  simp

end RangeSet

end BacktrackRegex
