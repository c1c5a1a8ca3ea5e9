import BacktrackRegex.CharClass.Basic
import BacktrackRegex.Proofs.CodePoint.Coalesced

/-!
# Character classes as an algebra of sets

However a class is built from masks and range sets by complements, unions and narrowing, each of
these operations acts on its code points as it should. What carries this is that range sets stay
ordered, those of stride one coalesced, and that unions stay flat.
-/

namespace BacktrackRegex

namespace RangeSet

variable {s : RangeSet}

/-- No range of an ordered set reaches beyond the last one. -/
theorem Ordered.hi_le (h : s.Ordered) {m : Nat} (hm : s.max? = some m) :
    ∀ r ∈ s.ranges, r.hi ≤ m := by
  obtain ⟨last, hlast, rfl⟩ := Option.map_eq_some_iff.mp hm
  obtain ⟨front, hfront⟩ := List.getLast?_eq_some_iff.mp hlast
  intro r hr
  have hbefore := h.before
  rw [hfront] at hr hbefore
  obtain hr | hr := List.mem_append.mp hr
  · exact ((List.pairwise_append.mp hbefore).2.2 r hr last (List.mem_singleton_self last)).hi_le
  · exact List.mem_singleton.mp hr ▸ Nat.le_refl r.hi

/-- A set of no ranges is coalesced. -/
theorem coalesced_empty : empty.Coalesced :=
  ⟨fun _ hr => absurd hr List.not_mem_nil, fun _ hr => absurd hr List.not_mem_nil,
    List.Pairwise.nil⟩

end RangeSet

namespace AsciiMask

/-- The complement of a mask holds the other code points. -/
theorem contains_negate (m : AsciiMask) (c : Nat) : m.negate.contains c = !m.contains c := by
  rw [contains, contains, negate]
  split
  · next hc => rw [BitVec.getLsbD_not, decide_eq_true hc, Bool.true_and]
  · rfl

/-- The mask of an ordered range set holds the same code points. -/
theorem contains_of_ofRangeSet? {s : RangeSet} {m : AsciiMask} (hs : s.Ordered)
    (h : ofRangeSet? s = some m) (c : Nat) : m.contains c = s.contains c := by
  rw [ofRangeSet?] at h
  split at h
  · simp at h
  · next hmax =>
    obtain rfl := Option.some.inj h
    rw [Bool.eq_iff_iff, hs.contains_iff, contains, getLsbD_bitsOf]
    split
    · next hc => rw [decide_eq_true hc, Bool.true_and, List.any_eq_true]
    · next hc =>
      simp only [Bool.false_eq_true, false_iff, not_exists, not_and]
      intro r hr hrc
      have hmax? : s.max? = some (s.ranges.getLast (List.ne_nil_of_mem hr)).hi := by
        rw [RangeSet.max?, List.getLast?_eq_some_getLast, Option.map_some]
      have hle := hs.hi_le hmax? r hr
      have hc' := CodeRange.contains_iff.mp hrc
      rw [hmax?, Option.any_some, decide_eq_true_eq] at hmax
      omega

end AsciiMask

namespace CharClass

variable {C : CharClass} {Cs : List CharClass} {c : Nat}

/-- Whether a class is a union. -/
def isUnion : CharClass → Bool
  | .union _ => true
  | _ => false

/-- Classes built from the words of masks and from ranges, which have stride one or are apart, by
complements, unions and narrowing. -/
inductive Built : CharClass → Prop where
  | ofWords (lo hi : UInt64) (beyond : Bool) : Built (.ascii (.ofWords lo hi beyond))
  | ofUnitRanges (bounds : List (Nat × Nat)) :
    Built (.ranges (.ofRanges (bounds.map fun b => .between b.1 b.2)))
  | ofApartRanges {rs : List CodeRange} (hr : ∀ r ∈ rs, ∃ a b stride, r = .stepping a b stride)
    (hapart : rs.Pairwise CodeRange.Apart) : Built (.ranges (.ofRanges rs))
  | negate {C : CharClass} (h : Built C) : Built C.negate
  | merge {Cs : List CharClass} (h : ∀ C ∈ Cs, Built C) : Built (CharClass.merge Cs)
  | narrow {C : CharClass} (h : Built C) : Built C.narrow

/-- The members of the class are not unions, and at most one of them is a range set of stride
one. -/
structure IsFlat (C : CharClass) : Prop where
  not_isUnion : ∀ m ∈ C.members, m.isUnion = false
  unitSets_le : (C.members.filterMap unitSet?).length ≤ 1

/-- Range sets are ordered and unions are flat, throughout a class. -/
inductive Kept : CharClass → Prop where
  | ascii (m : AsciiMask) : Kept (.ascii m)
  | ranges {s : RangeSet} (h : s.Ordered) : Kept (.ranges s)
  | complement {C : CharClass} (h : Kept C) : Kept (.complement C)
  | union {Cs : List CharClass} (h : ∀ C ∈ Cs, Kept C) (hflat : IsFlat (.union Cs)) :
    Kept (.union Cs)

/-- A class that is no union is its only member. -/
theorem members_of_not_isUnion (h : C.isUnion = false) : C.members = [C] := by
  cases C with
  | union ms => simp [isUnion] at h
  | _ => rfl

/-- A class that is no union is flat. -/
theorem isFlat_of_not_isUnion (h : C.isUnion = false) : C.IsFlat := by
  refine ⟨?_, ?_⟩ <;> rw [members_of_not_isUnion h]
  · simpa using h
  · exact List.length_filterMap_le _ _

/-- A class whose parts are kept is flat. -/
theorem Kept.isFlat (h : C.Kept) : C.IsFlat := by
  cases h with
  | union _ hflat => exact hflat
  | _ => exact isFlat_of_not_isUnion rfl

/-- The members of a class are kept with it. -/
theorem Kept.members (h : C.Kept) : ∀ m ∈ C.members, m.Kept := by
  cases h with
  | union h => exact h
  | ascii m => exact List.forall_mem_singleton.mpr (.ascii m)
  | ranges h => exact List.forall_mem_singleton.mpr (.ranges h)
  | complement h => exact List.forall_mem_singleton.mpr (.complement h)

/-- One of some classes holds a code point if a class of the list does. -/
theorem anyContains_iff : anyContains Cs c = true ↔ ∃ C ∈ Cs, C.contains c = true := by
  induction Cs with
  | nil => simp [anyContains]
  | cons C Cs ih => simp [anyContains, ih]

/-- A class holds what its members hold. -/
theorem contains_iff_members : C.contains c = true ↔ ∃ m ∈ C.members, m.contains c = true := by
  cases C with
  | union ms => rw [contains, anyContains_iff, members]
  | _ => simp [members]

/-- The range set of a class of ranges of stride one is the class. -/
theorem unitSet?_eq_some {s : RangeSet} :
    C.unitSet? = some s ↔ C = .ranges s ∧ s.isUnit = true := by
  cases C with
  | ranges t =>
    rw [unitSet?, CharClass.ranges.injEq]
    split
    · next h => simp only [Option.some.injEq]; exact ⟨fun he => ⟨he, he ▸ h⟩, And.left⟩
    · next h => simp only [reduceCtorEq, false_iff]; exact fun ⟨he, hs⟩ => h (he ▸ hs)
  | _ => simp [unitSet?]

/-- An ordered range set is complemented to a canonical one if its stride is one, and else its
complement is written as such. -/
theorem negate_ranges {s : RangeSet} (hs : s.Ordered) :
    (∃ t : RangeSet, negate (.ranges s) = .ranges t ∧ t.Canonical ∧
      ∀ c ≤ maxCodePoint, t.contains c = !s.contains c) ∨
    negate (.ranges s) = .complement (.ranges s) := by
  by_cases hunit : s.isUnit = true
  · obtain ⟨t, ht, hcanonical, hmem⟩ := (hs.coalesced hunit).complement
    exact Or.inl ⟨t, by rw [negate, ht], hcanonical, hmem⟩
  · exact Or.inr (by rw [negate, RangeSet.complement?, if_neg hunit])

/-- The complement of a kept class is kept. -/
theorem Kept.negate (h : C.Kept) : C.negate.Kept := by
  cases h with
  | ascii m => exact .ascii m.negate
  | complement h => exact h
  | union h hflat => exact .complement (.union h hflat)
  | ranges hs =>
    obtain ⟨t, ht, hcanonical, -⟩ | h := negate_ranges hs
    · exact ht ▸ .ranges hcanonical.ordered
    · exact h ▸ .complement (.ranges hs)

/-- The complement of a kept class holds the other code points. -/
theorem contains_negate (h : C.Kept) (hc : c ≤ maxCodePoint) :
    C.negate.contains c = !C.contains c := by
  cases h with
  | ascii m => exact m.contains_negate c
  | complement h => rw [CharClass.negate, contains, Bool.not_not]
  | union h hflat => rw [CharClass.negate, contains]
  | ranges hs =>
    obtain ⟨t, ht, -, hmem⟩ | h := negate_ranges hs
    · rw [ht, contains, contains, hmem c hc]
    · simp only [h, contains]

/-- Narrowing keeps a class kept. -/
theorem Kept.narrow (h : C.Kept) : C.narrow.Kept := by
  rw [CharClass.narrow.eq_def]
  split
  · split
    · split
      · exact h
      · exact .ascii _
    · exact h
  · exact h

/-- Narrowing changes no membership. -/
theorem contains_narrow (h : C.Kept) : C.narrow.contains c = C.contains c := by
  cases h with
  | ranges hs =>
    rw [CharClass.narrow]
    split
    · next m hm =>
      split
      · rfl
      · rw [contains, contains, AsciiMask.contains_of_ofRangeSet? hs hm]
    · rfl
  | _ => rfl

section Merge

/-- Uniting coalesced sets one after the other makes a coalesced set of the code points of all. -/
theorem coalesced_foldl_union {ss : List RangeSet} {s : RangeSet} (hs : s.Coalesced)
    (h : ∀ t ∈ ss, t.Coalesced) : (ss.foldl RangeSet.union s).Coalesced ∧
      ∀ c, (ss.foldl RangeSet.union s).contains c = true ↔
        ∃ t ∈ s :: ss, t.contains c = true := by
  induction ss generalizing s with
  | nil => exact ⟨hs, fun c => by simp⟩
  | cons t ss ih =>
    obtain ⟨ht, hss⟩ := List.forall_mem_cons.mp h
    obtain ⟨hunion, hmem⟩ := hs.union ht
    refine (ih hunion hss).imp_right fun hfold c => (hfold c).trans ?_
    simp only [List.mem_cons, exists_eq_or_imp, hmem, or_assoc]

/-- The union of a list of coalesced sets is coalesced and holds the code points of all. -/
theorem coalesced_unite {ss : List RangeSet} (h : ∀ s ∈ ss, s.Coalesced) :
    (∀ s ∈ unite ss, s.Coalesced) ∧
      ((∃ s ∈ unite ss, s.contains c = true) ↔ ∃ s ∈ ss, s.contains c = true) := by
  cases ss with
  | nil => simp [unite]
  | cons s ss =>
    obtain ⟨hs, hss⟩ := List.forall_mem_cons.mp h
    obtain ⟨hfold, hmem⟩ := coalesced_foldl_union hs hss
    simpa only [unite, Option.mem_some, forall_eq', exists_eq_left'] using ⟨hfold, hmem c⟩

/-- The class of a list of classes holds what they hold. -/
theorem contains_ofMembers : (ofMembers Cs).contains c = true ↔ ∃ C ∈ Cs, C.contains c = true := by
  rw [ofMembers.eq_def]
  split
  · rw [contains, RangeSet.coalesced_empty.ordered.contains_iff]
    simp [RangeSet.empty]
  · simp
  · rw [contains, anyContains_iff]

/-- The class of a list of kept classes is kept, if they are no unions and at most one of them is a
range set of stride one. -/
theorem kept_ofMembers (h : ∀ C ∈ Cs, C.Kept) (hunion : ∀ C ∈ Cs, C.isUnion = false)
    (hle : (Cs.filterMap unitSet?).length ≤ 1) : (ofMembers Cs).Kept := by
  rw [ofMembers.eq_def]
  split
  · exact .ranges RangeSet.coalesced_empty.ordered
  · exact h _ (List.mem_singleton_self _)
  · exact .union h ⟨hunion, hle⟩

/-- Kept classes have kept members, which are no unions. -/
theorem kept_of_mem_flatMap (h : ∀ C ∈ Cs, C.Kept) :
    ∀ m ∈ Cs.flatMap members, m.Kept ∧ m.isUnion = false := by
  intro m hm
  obtain ⟨C, hC, hm⟩ := List.mem_flatMap.mp hm
  exact ⟨(h C hC).members m hm, (h C hC).isFlat.not_isUnion m hm⟩

/-- The range sets of stride one among kept classes are coalesced. -/
theorem coalesced_of_mem_filterMap {ms : List CharClass} (h : ∀ m ∈ ms, m.Kept) :
    ∀ s ∈ ms.filterMap unitSet?, s.Coalesced := by
  intro s hs
  obtain ⟨m, hm, he⟩ := List.mem_filterMap.mp hs
  obtain ⟨rfl, hunit⟩ := unitSet?_eq_some.mp he
  cases h _ hm with
  | ranges hs => exact hs.coalesced hunit

/-- Merging kept classes makes a class of the code points of all of them. -/
theorem contains_merge (h : ∀ C ∈ Cs, C.Kept) :
    (merge Cs).contains c = true ↔ ∃ C ∈ Cs, C.contains c = true := by
  have hflat := kept_of_mem_flatMap h
  have hopen : (∃ m ∈ Cs.flatMap members, m.contains c = true) ↔
      ∃ C ∈ Cs, C.contains c = true := by
    simp only [List.mem_flatMap]
    constructor
    · rintro ⟨m, ⟨C, hC, hm⟩, hc⟩
      exact ⟨C, hC, contains_iff_members.mpr ⟨m, hm, hc⟩⟩
    · rintro ⟨C, hC, hc⟩
      obtain ⟨m, hm, hc⟩ := contains_iff_members.mp hc
      exact ⟨m, ⟨C, hC, hm⟩, hc⟩
  rw [merge, contains_ofMembers, ← hopen]
  generalize Cs.flatMap members = flat at hflat ⊢
  have hunite := (coalesced_unite (c := c)
    (coalesced_of_mem_filterMap fun m hm => (hflat m hm).1)).2
  simp only [List.mem_append, Option.mem_toList, Option.map_eq_some_iff, List.mem_filter,
    Option.isNone_iff_eq_none]
  constructor
  · rintro ⟨m, ⟨s, hs, rfl⟩ | ⟨hm, -⟩, hc⟩
    · obtain ⟨t, ht, hct⟩ := hunite.mp ⟨s, hs, hc⟩
      obtain ⟨m, hm, he⟩ := List.mem_filterMap.mp ht
      exact ⟨m, hm, (unitSet?_eq_some.mp he).1 ▸ hct⟩
    · exact ⟨m, hm, hc⟩
  · rintro ⟨m, hm, hc⟩
    cases hu : m.unitSet? with
    | none => exact ⟨m, Or.inr ⟨hm, hu⟩, hc⟩
    | some t =>
      have hct : t.contains c = true := by rwa [(unitSet?_eq_some.mp hu).1, contains] at hc
      obtain ⟨s, hs, hcs⟩ := hunite.mpr ⟨t, List.mem_filterMap.mpr ⟨m, hm, hu⟩, hct⟩
      exact ⟨.ranges s, Or.inl ⟨s, hs, rfl⟩, hcs⟩

/-- Merging kept classes makes a kept class: unions are opened, and at most one range set of stride
one is left. -/
theorem Kept.merge (h : ∀ C ∈ Cs, C.Kept) : (CharClass.merge Cs).Kept := by
  have hflat := kept_of_mem_flatMap h
  rw [CharClass.merge]
  generalize Cs.flatMap CharClass.members = flat at hflat ⊢
  have hunite := (coalesced_unite (c := 0)
    (coalesced_of_mem_filterMap fun m hm => (hflat m hm).1)).1
  generalize unite (flat.filterMap unitSet?) = united at hunite
  have hothers : (flat.filter fun m => m.unitSet?.isNone).filterMap unitSet? = [] := by
    simp only [List.filterMap_eq_nil_iff, List.mem_filter, Option.isNone_iff_eq_none]
    exact fun m hm => hm.2
  have hmem : ∀ m ∈ (united.map CharClass.ranges).toList ++
      flat.filter fun m => m.unitSet?.isNone, m.Kept ∧ m.isUnion = false := by
    simp only [List.mem_append, Option.mem_toList, Option.map_eq_some_iff]
    rintro m (⟨s, hs, rfl⟩ | hm)
    · exact ⟨.ranges (hunite s hs).ordered, rfl⟩
    · exact hflat m (List.mem_filter.mp hm).1
  refine kept_ofMembers (fun m hm => (hmem m hm).1) (fun m hm => (hmem m hm).2) ?_
  rw [List.filterMap_append, hothers, List.append_nil]
  exact Nat.le_trans (List.length_filterMap_le _ _) Option.length_toList_le

end Merge

/-- Whatever is built from masks and ranges is kept. -/
theorem Built.kept (h : C.Built) : C.Kept := by
  induction h with
  | ofWords lo hi beyond => exact .ascii _
  | ofUnitRanges bounds =>
    have hmem {P : CodeRange → Prop} (hP : ∀ a b, P (.between a b)) :
        ∀ r ∈ bounds.map fun b => CodeRange.between b.1 b.2, P r :=
      List.forall_mem_map.mpr fun b _ => hP b.1 b.2
    exact .ranges (RangeSet.coalesced_ofRanges (hmem fun _ _ => rfl)
      (hmem fun a b => CodeRange.isBounded_stepping a b 1)).1.ordered
  | ofApartRanges hr hapart =>
    refine .ranges (RangeSet.ordered_ofRanges (fun r hmem => ?_) hapart).1
    obtain ⟨a, b, stride, rfl⟩ := hr r hmem
    exact CodeRange.isBounded_stepping a b stride
  | negate _ ih => exact ih.negate
  | merge _ ih => exact Kept.merge ih
  | narrow _ ih => exact ih.narrow

/-- On built classes the operations act as the operations on sets of code points: `negate` holds the
other code points, `merge` those of all classes of the list, and `narrow` the same ones. No class
they make has a union, or two range sets of stride one, as members. -/
theorem Built.contains_operations (hC : C.Built) (hCs : ∀ D ∈ Cs, D.Built)
    (hc : c ≤ maxCodePoint) :
    (C.negate.contains c = !C.contains c) ∧
    ((CharClass.merge Cs).contains c = true ↔ ∃ D ∈ Cs, D.contains c = true) ∧
    C.narrow.contains c = C.contains c ∧
    C.IsFlat ∧ C.negate.IsFlat ∧ (CharClass.merge Cs).IsFlat ∧ C.narrow.IsFlat :=
  have hCs := fun D hD => (hCs D hD).kept
  ⟨contains_negate hC.kept hc, contains_merge hCs, contains_narrow hC.kept, hC.kept.isFlat,
    hC.kept.negate.isFlat, (Kept.merge hCs).isFlat, hC.kept.narrow.isFlat⟩

/-- The digits, every tenth code point from 1000 to 2000 and all of them from 2500 to 3000. -/
def digitsAndTenths : CharClass :=
  merge [.ascii (.ofWords 0x03FF000000000000 0 false),
    .ranges (.ofRanges [.stepping 1000 2000 10, .stepping 3000 2500 1])]

/-- A union of a mask and of ranges with different strides, its complement, and both together. -/
theorem contains_operations_digitsAndTenths :
    (digitsAndTenths.negate.contains 1005 = !digitsAndTenths.contains 1005) ∧
    ((merge [digitsAndTenths.negate, digitsAndTenths]).contains 1005 = true ↔
      ∃ D ∈ [digitsAndTenths.negate, digitsAndTenths], D.contains 1005 = true) ∧
    digitsAndTenths.narrow.contains 1005 = digitsAndTenths.contains 1005 ∧
    digitsAndTenths.IsFlat ∧ digitsAndTenths.negate.IsFlat ∧
    (merge [digitsAndTenths.negate, digitsAndTenths]).IsFlat ∧ digitsAndTenths.narrow.IsFlat := by
  have hC : digitsAndTenths.Built := by
    refine .merge (List.forall_mem_cons.mpr ⟨.ofWords _ _ _, List.forall_mem_singleton.mpr ?_⟩)
    refine .ofApartRanges (List.forall_mem_cons.mpr ⟨⟨_, _, _, rfl⟩,
      List.forall_mem_singleton.mpr ⟨_, _, _, rfl⟩⟩) ?_
    exact List.pairwise_cons.mpr
      ⟨List.forall_mem_singleton.mpr (Or.inl (by decide)), List.pairwise_singleton _ _⟩
  have hCs := List.forall_mem_cons.mpr ⟨hC.negate, List.forall_mem_singleton.mpr hC⟩
  exact Built.contains_operations hC hCs (by decide)

end CharClass

end BacktrackRegex
