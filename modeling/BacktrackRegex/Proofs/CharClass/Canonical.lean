import BacktrackRegex.Pattern.Reader
import BacktrackRegex.Proofs.CharClass.Algebra
import BacktrackRegex.Proofs.CharClass.Single

/-!
# The classes of bracket expressions

What stands between brackets is a list of ranges of characters. Its class is a mask that differs in
some ASCII character from what lies beyond, or else a canonical range set. Where the ranges are
already apart, the set lists them as they are written.
-/

namespace BacktrackRegex

instance (gap : Nat) (r s : CodeRange) : Decidable (CodeRange.Before gap r s) :=
  decidable_of_iff (r.lo ≤ s.lo ∧ r.hi + gap < s.lo ∧ r.hi ≤ s.hi)
    ⟨fun ⟨hlo, hlt, hhi⟩ => ⟨hlo, hlt, hhi⟩, fun h => ⟨h.lo_le, h.hi_lt, h.hi_le⟩⟩

instance (s : RangeSet) : Decidable s.Canonical :=
  decidable_of_iff ((∀ r ∈ s.ranges, r.isUnit = true) ∧ (∀ r ∈ s.ranges, r.lo ≤ r.hi) ∧
      s.ranges.Pairwise (CodeRange.Before 1))
    ⟨fun ⟨hunit, hle, hbefore⟩ => ⟨⟨hunit, fun r hr => Or.inl (hle r hr), hbefore⟩, hle⟩,
      fun h => ⟨h.isUnit, h.lo_le, h.before⟩⟩

/-- No character has a code point past the last one. -/
theorem toNat_le_maxCodePoint (c : Char) : c.toNat ≤ maxCodePoint := by
  have h : c.toNat.isValidChar := c.valid
  rw [Nat.isValidChar] at h
  rw [maxCodePoint]
  omega

/-- A code point that has a character is the code point of this character. -/
theorem charOfCodePoint?_of_isSome {c : Nat} (h : (charOfCodePoint? c).isSome = true) :
    charOfCodePoint? c = some (Char.ofNat c) := by
  rw [charOfCodePoint?] at h ⊢
  split at h
  · next hc => exact if_pos hc
  · simp at h

namespace RangeSet

/-- The characters between two are a canonical set. -/
theorem canonical_ofChars (a b : Char) : (ofChars a b).Canonical := by
  have ha := toNat_le_maxCodePoint a
  have hb := toNat_le_maxCodePoint b
  refine canonical_singleton rfl ?_
  rw [CodeRange.between, CodeRange.stepping]
  dsimp only
  omega

/-- Uniting canonical sets one after the other makes a canonical set. -/
theorem canonical_foldl_union {s : RangeSet} {ss : List RangeSet} (hs : s.Canonical)
    (h : ∀ t ∈ ss, t.Canonical) : (ss.foldl union s).Canonical := by
  induction ss generalizing s with
  | nil => exact hs
  | cons t ss ih =>
    obtain ⟨ht, hss⟩ := List.forall_mem_cons.mp h
    exact ih (hs.union ht) hss

/-- Whether the bounds of all ranges are characters. -/
def hasCharBounds (s : RangeSet) : Bool :=
  s.ranges.all fun r => (charOfCodePoint? r.lo).isSome && (charOfCodePoint? r.hi).isSome

/-- A range of stride one between two characters is the set of the characters between them. -/
theorem ofChars_of_bounds {r : CodeRange} {a b : Char} (hr : r.isUnit = true) (hle : r.lo ≤ r.hi)
    (ha : charOfCodePoint? r.lo = some a) (hb : charOfCodePoint? r.hi = some b) :
    ofChars a b = ⟨[r]⟩ := by
  obtain ⟨lo, hi, stride, hmax, _⟩ := r
  obtain rfl : stride = 1 := by simpa [CodeRange.isUnit] using hr
  obtain rfl := toNat_of_charOfCodePoint? ha
  obtain rfl := toNat_of_charOfCodePoint? hb
  simp only [ofChars, CodeRange.between, CodeRange.stepping, Nat.min_eq_left hle,
    Nat.max_eq_right hle, Nat.min_eq_left hmax, Nat.max_self]

/-- Uniting a set with a range beyond it lists the range at the end. -/
theorem union_singleton {rs : List CodeRange} {r : CodeRange}
    (h : (rs ++ [r]).Pairwise (CodeRange.Before 1)) : union ⟨rs⟩ ⟨[r]⟩ = ⟨rs ++ [r]⟩ := by
  have hmerge : rs.merge [r] (fun q s => q.lo ≤ s.lo) = rs ++ [r] :=
    List.merge_of_le fun q s hq hs =>
      decide_eq_true ((List.pairwise_append.mp h).2.2 q hq s hs).lo_le
  rw [union, hmerge, coalesce_of_before h]

/-- Uniting ranges that are apart one after the other lists them. -/
theorem foldl_union_singletons (front rs : List CodeRange)
    (h : (front ++ rs).Pairwise (CodeRange.Before 1)) :
    (rs.map fun r => ⟨[r]⟩).foldl union ⟨front⟩ = ⟨front ++ rs⟩ := by
  induction rs generalizing front with
  | nil => rw [List.append_nil]; rfl
  | cons r rs ih =>
    have hassoc : front ++ r :: rs = front ++ [r] ++ rs := by simp
    rw [hassoc] at h ⊢
    rw [List.map_cons, List.foldl_cons, union_singleton (List.pairwise_append.mp h).1, ih _ h]

end RangeSet

/-- The mask of a range set holds nothing beyond the ASCII characters. -/
theorem AsciiMask.beyond_of_ofRangeSet? {s : RangeSet} {m : AsciiMask}
    (h : ofRangeSet? s = some m) : m.beyond = false := by
  rw [ofRangeSet?] at h
  split at h
  · simp at h
  · exact Option.some.inj h ▸ rfl

namespace AsciiMask

variable {m : AsciiMask} {c : Nat}

/-- The ranges of a mask are canonical. -/
theorem canonical_asciiRanges (m : AsciiMask) : m.asciiRanges.Canonical := by
  refine RangeSet.canonical_ofRanges (List.forall_mem_map.mpr fun c _ => rfl)
    (List.forall_mem_map.mpr fun c hc => ?_)
  have hlt := (mem_asciiMembers.mp hc).1
  have hmax : maxCodePoint = 0x10FFFF := rfl
  rw [CodeRange.between, CodeRange.stepping]
  dsimp only
  omega

/-- The ranges of a mask hold its ASCII characters. -/
theorem contains_asciiRanges :
    m.asciiRanges.contains c = true ↔ c < 128 ∧ m.bits.getLsbD c = true := by
  have hmax : maxCodePoint = 0x10FFFF := rfl
  have hsingle (d : Nat) (hd : d < 128) : (CodeRange.between d d).contains c = true ↔ c = d := by
    rw [CodeRange.contains_iff_of_isUnit rfl, CodeRange.between, CodeRange.stepping]
    dsimp only
    omega
  have hunit : ∀ r ∈ m.asciiMembers.map fun c => CodeRange.between c c, r.isUnit = true :=
    List.forall_mem_map.mpr fun c _ => rfl
  have hbounded : ∀ r ∈ m.asciiMembers.map fun c => CodeRange.between c c, r.IsBounded :=
    List.forall_mem_map.mpr fun c _ => CodeRange.isBounded_stepping c c 1
  rw [asciiRanges, (RangeSet.coalesced_ofRanges hunit hbounded).2]
  constructor
  · rintro ⟨r, hr, hc⟩
    obtain ⟨d, hd, rfl⟩ := List.mem_map.mp hr
    obtain rfl := (hsingle d (mem_asciiMembers.mp hd).1).mp hc
    exact mem_asciiMembers.mp hd
  · intro h
    exact ⟨_, List.mem_map.mpr ⟨c, mem_asciiMembers.mpr h, rfl⟩, (hsingle c h.1).mpr rfl⟩

/-- The ranges of a mask lie below the first code point beyond it. -/
theorem hi_lt_of_mem_asciiRanges {r : CodeRange} (h : r ∈ m.asciiRanges.ranges) : r.hi < 128 := by
  have hs := m.canonical_asciiRanges
  have hhi : m.asciiRanges.contains r.hi = true := by
    rw [hs.ordered.contains_iff]
    exact ⟨r, h, (CodeRange.contains_iff_of_isUnit (hs.isUnit r h)).mpr
      ⟨hs.lo_le r h, Nat.le_refl _⟩⟩
  exact (contains_asciiRanges.mp hhi).1

/-- The mask of the ranges of a mask is this mask, if it holds nothing beyond them. -/
theorem ofRangeSet?_asciiRanges (h : m.beyond = false) : ofRangeSet? m.asciiRanges = some m := by
  have hlt : ¬ m.asciiRanges.max?.any (128 ≤ ·) = true := by
    rw [Option.any_eq_true]
    rintro ⟨_, hmax, hle⟩
    obtain ⟨r, hr, rfl⟩ := Option.map_eq_some_iff.mp hmax
    have := hi_lt_of_mem_asciiRanges (List.mem_of_getLast? hr)
    exact absurd (of_decide_eq_true hle) (by omega)
  have hbits : (bitsOf fun c => m.asciiRanges.ranges.any (·.contains c)) = m.bits := by
    refine BitVec.eq_of_getLsbD_eq fun c hc => ?_
    rw [getLsbD_bitsOf, decide_eq_true hc, Bool.true_and, Bool.eq_iff_iff, List.any_eq_true,
      ← m.canonical_asciiRanges.ordered.contains_iff, contains_asciiRanges, and_iff_right hc]
  rw [ofRangeSet?, if_neg hlt, hbits, ← h]

end AsciiMask

namespace CharClass

/-- The classes of bracket expressions. -/
inductive Canonical : CharClass → Prop where
  | ascii {m : AsciiMask} (h : ∃ c < 128, m.contains c = !m.beyond) : Canonical (.ascii m)
  | ranges {s : RangeSet} (h : s.Canonical) : Canonical (.ranges s)

instance : (C : CharClass) → Decidable C.Canonical
  | .ascii m =>
    decidable_of_iff (∃ c < 128, m.contains c = !m.beyond) ⟨.ascii, fun | .ascii h => h⟩
  | .ranges s => decidable_of_iff s.Canonical ⟨.ranges, fun | .ranges h => h⟩
  | .complement _ => .isFalse nofun
  | .union _ => .isFalse nofun

/-- Merging range sets of stride one makes the set of their union. -/
theorem merge_map_ranges {s : RangeSet} {ss : List RangeSet} (h : ∀ t ∈ s :: ss, t.isUnit = true) :
    merge ((s :: ss).map .ranges) = .ranges (ss.foldl RangeSet.union s) := by
  have hunit {ts : List RangeSet} (h : ∀ t ∈ ts, t.isUnit = true) :
      (ts.map CharClass.ranges).flatMap members = ts.map .ranges ∧
        (ts.map CharClass.ranges).filterMap unitSet? = ts ∧
          (ts.map CharClass.ranges).filter (fun C => C.unitSet?.isNone) = [] := by
    induction ts with
    | nil => exact ⟨rfl, rfl, rfl⟩
    | cons t ts ih =>
      obtain ⟨ht, hts⟩ := List.forall_mem_cons.mp h
      obtain ⟨hflat, hsets, hothers⟩ := ih hts
      have hset : (CharClass.ranges t).unitSet? = some t := if_pos ht
      refine ⟨?_, ?_, ?_⟩
      · rw [List.map_cons, List.flatMap_cons, hflat, members, List.singleton_append]
        exact fun ms he => CharClass.noConfusion he
      · rw [List.map_cons, List.filterMap_cons, hset, hsets]
      · rw [List.map_cons, List.filter_cons, hset, hothers]
        rfl
  obtain ⟨hflat, hsets, hothers⟩ := hunit h
  rw [merge, hflat, hsets, hothers]
  rfl

/-- A narrowed range set is canonical. -/
theorem canonical_narrow {s : RangeSet} (hs : s.Canonical) : Canonical (narrow (.ranges s)) := by
  rw [narrow]
  split
  · next m hm =>
    split
    · exact .ranges hs
    · next hne =>
      have hcontains := AsciiMask.contains_of_ofRangeSet? hs.ordered hm
      have hbeyond : m.beyond = false := AsciiMask.beyond_of_ofRangeSet? hm
      obtain ⟨r, hr⟩ := List.exists_mem_of_ne_nil s.ranges (by simpa [RangeSet.isEmpty] using hne)
      have hlo : m.contains r.lo = true := by
        rw [hcontains, hs.ordered.contains_iff]
        exact ⟨r, hr, (CodeRange.contains_iff_of_isUnit (hs.isUnit r hr)).mpr
          ⟨Nat.le_refl _, hs.lo_le r hr⟩⟩
      refine .ascii ⟨r.lo, ?_, by rw [hlo, hbeyond]; rfl⟩
      rw [AsciiMask.contains] at hlo
      split at hlo
      · assumption
      · rw [hbeyond] at hlo
        exact absurd hlo Bool.false_ne_true
  · exact .ranges hs

/-- A range set that reaches beyond the ASCII characters is not narrowed. -/
theorem narrow_of_le_max {s : RangeSet} (h : s.max?.any (128 ≤ ·) = true) :
    narrow (.ranges s) = .ranges s := by
  rw [narrow, AsciiMask.ofRangeSet?, if_pos h]

/-- The ranges of a mask of ASCII characters are narrowed to the mask. -/
theorem narrow_asciiRanges {m : AsciiMask} (hbeyond : m.beyond = false)
    (hne : m.asciiRanges.ranges ≠ []) : narrow (.ranges m.asciiRanges) = .ascii m := by
  rw [narrow, AsciiMask.ofRangeSet?_asciiRanges hbeyond]
  exact if_neg (by simpa [RangeSet.isEmpty] using hne)

/-- The complement of a canonical class is canonical. -/
theorem Canonical.negate {C : CharClass} (h : C.Canonical) : C.negate.Canonical := by
  cases h with
  | @ascii m h =>
    obtain ⟨c, hc, he⟩ := h
    exact .ascii ⟨c, hc, by rw [m.contains_negate, he]; rfl⟩
  | ranges hs =>
    obtain ⟨t, ht, hcanonical, -⟩ := hs.complement
    rw [CharClass.negate, ht]
    exact .ranges hcanonical

end CharClass

namespace Pattern

/-- The class of a list of ranges of characters is their merged class, narrowed and perhaps
negated. -/
theorem classOfItems_eq (negated : Bool) (items : List (Char × Char)) :
    classOfItems negated items =
      let merged := CharClass.merge (items.map fun item => .ranges (.ofChars item.1 item.2))
      if negated then merged.narrow.negate else merged.narrow :=
  rfl

/-- The class of a list of ranges of characters is canonical. -/
theorem canonical_classOfItems (negated : Bool) (items : List (Char × Char)) :
    (classOfItems negated items).Canonical := by
  have hmerge : ∃ s : RangeSet, s.Canonical ∧
      CharClass.merge (items.map fun item => .ranges (.ofChars item.1 item.2)) = .ranges s := by
    cases items with
    | nil => exact ⟨.empty, ⟨RangeSet.coalesced_empty, by simp [RangeSet.empty]⟩, rfl⟩
    | cons item items =>
      have hall : ∀ t ∈ (item :: items).map fun item => RangeSet.ofChars item.1 item.2,
          t.Canonical :=
        List.forall_mem_map.mpr fun item _ => RangeSet.canonical_ofChars item.1 item.2
      obtain ⟨hfirst, hrest⟩ := List.forall_mem_cons.mp hall
      refine ⟨_, RangeSet.canonical_foldl_union hfirst hrest, ?_⟩
      rw [← CharClass.merge_map_ranges fun t ht => (hall t ht).isUnit_eq]
      exact congrArg CharClass.merge (List.map_map (l := item :: items)).symm
  obtain ⟨s, hs, hmerge⟩ := hmerge
  have hnarrow := CharClass.canonical_narrow hs
  rw [classOfItems_eq, hmerge]
  split
  · exact hnarrow.negate
  · exact hnarrow

/-- The ranges of a set as ranges of characters. -/
def itemsOf (s : RangeSet) : List (Char × Char) :=
  s.ranges.map fun r => (Char.ofNat r.lo, Char.ofNat r.hi)

/-- Ranges that are apart are written one by one: their class is the narrowed set, or its
complement. -/
theorem classOfItems_itemsOf (negated : Bool) {s : RangeSet} (hs : s.Canonical)
    (hchars : s.hasCharBounds = true) (hne : s.ranges ≠ []) :
    classOfItems negated (itemsOf s) =
      if negated then (CharClass.ranges s).narrow.negate else (CharClass.ranges s).narrow := by
  have hitems : (itemsOf s).map (fun item => CharClass.ranges (.ofChars item.1 item.2)) =
      (s.ranges.map fun r => (⟨[r]⟩ : RangeSet)).map .ranges := by
    rw [itemsOf, List.map_map, List.map_map]
    refine List.map_congr_left fun r hr => congrArg CharClass.ranges ?_
    have hbounds := List.all_eq_true.mp hchars r hr
    rw [Bool.and_eq_true] at hbounds
    exact RangeSet.ofChars_of_bounds (hs.isUnit r hr) (hs.lo_le r hr)
      (charOfCodePoint?_of_isSome hbounds.1) (charOfCodePoint?_of_isSome hbounds.2)
  have hmerge : CharClass.merge ((s.ranges.map fun r => (⟨[r]⟩ : RangeSet)).map .ranges) =
      .ranges s := by
    obtain ⟨rs⟩ := s
    obtain ⟨r, rs, rfl⟩ := List.exists_cons_of_ne_nil hne
    have hunit : ∀ t ∈ (r :: rs).map fun r => (⟨[r]⟩ : RangeSet), t.isUnit = true :=
      List.forall_mem_map.mpr fun q hq => by simpa [RangeSet.isUnit] using hs.isUnit q hq
    rw [List.map_cons, CharClass.merge_map_ranges hunit,
      RangeSet.foldl_union_singletons [r] rs hs.before]
    rfl
  rw [classOfItems_eq, hitems, hmerge]

end Pattern

end BacktrackRegex
