import BacktrackRegex.Proofs.CharClass.Canonical
import BacktrackRegex.Proofs.Pattern.Acceptance
import BacktrackRegex.Proofs.Pattern.Landmarks
import BacktrackRegex.Proofs.Pattern.Simplified

/-!
# What patterns that are read consist of

The capture groups of a pattern that is read have the indices from 1 on, in the order of their
opening parentheses. Its back-references have a single digit, the bounds of its repetitions are
below two to the power 32, and its classes are those of bracket expressions. Simplification keeps
all of this.
-/

namespace BacktrackRegex.Pattern

/-! ## Capture groups -/

mutual
/-- The indices of the capture groups in the order of their opening parentheses. -/
def captures : Pattern → List Nat
  | .sequence ps => capturesIn ps
  | .alternation ps => capturesIn ps
  | .repetition p _ _ => captures p
  | .capture i p => i :: captures p
  | _ => []

/-- The indices of the capture groups of patterns one after the other. -/
def capturesIn : List Pattern → List Nat
  | [] => []
  | p :: ps => captures p ++ capturesIn ps
end

variable {ps qs : List Pattern}

/-- The capture groups of two lists come one after the other. -/
@[simp] theorem capturesIn_append (ps qs : List Pattern) :
    capturesIn (ps ++ qs) = capturesIn ps ++ capturesIn qs := by
  induction ps with
  | nil => rfl
  | cons p ps ih => rw [List.cons_append, capturesIn, capturesIn, ih, List.append_assoc]

/-- A list of a single pattern has the capture groups of the pattern. -/
@[simp] theorem capturesIn_singleton (p : Pattern) : capturesIn [p] = captures p :=
  List.append_nil (captures p)

/-- A pattern without patterns inside it has no capture groups. -/
theorem captures_of_isLeaf {p : Pattern} (h : p.isLeaf = true) : captures p = [] := by
  cases p with
  | sequence _ | alternation _ | repetition _ _ _ | capture _ _ => simp [isLeaf] at h
  | _ => simp only [captures]

/-- A sequence has the capture groups of its items. -/
@[simp] theorem captures_ofItems (ps : List Pattern) : captures (ofItems ps) = capturesIn ps := by
  rcases Grammar.ofItems_cases ps with ⟨p, rfl, h⟩ | ⟨-, h⟩
  · rw [h, capturesIn_singleton]
  · rw [h, captures]

/-- An alternation has the capture groups of its options. -/
@[simp] theorem captures_ofOptions (ps : List Pattern) :
    captures (ofOptions ps) = capturesIn ps := by
  rcases Grammar.ofOptions_cases ps with ⟨p, rfl, h⟩ | ⟨-, h⟩
  · rw [h, capturesIn_singleton]
  · rw [h, captures]

mutual
/-- There are as many indices as capture groups. -/
theorem length_captures : ∀ p : Pattern, (captures p).length = p.groupCount
  | .sequence ps => by rw [captures, groupCount, length_capturesIn ps]
  | .alternation ps => by rw [captures, groupCount, length_capturesIn ps]
  | .repetition p _ _ => by rw [captures, groupCount, length_captures p]
  | .capture _ p => by rw [captures, groupCount, List.length_cons, length_captures p, Nat.add_comm]
  | .literal _ | .anyChar | .backReference _ | .textStart | .textEnd | .charClass _ => by
    simp only [captures, groupCount, List.length_nil]

/-- There are as many indices as capture groups of a list. -/
theorem length_capturesIn : ∀ ps : List Pattern, (capturesIn ps).length = groupCounts ps
  | [] => rfl
  | p :: ps => by
    rw [capturesIn, groupCounts, List.length_append, length_captures p, length_capturesIn ps]
end

/-- The group that begins at a landmark. -/
def Landmark.started? : Landmark → Option Nat
  | .groupStart i => some i
  | _ => none

mutual
/-- The capture groups are those that begin at the landmarks. -/
theorem captures_eq : ∀ p : Pattern, captures p = (landmarks p).filterMap Landmark.started?
  | .sequence ps => by rw [captures, landmarks, capturesIn_eq ps]
  | .alternation ps => by rw [captures, landmarks, capturesIn_eq ps]
  | .repetition p _ _ => by rw [captures, landmarks, captures_eq p]
  | .capture _ p => by
    rw [captures, landmarks, captures_eq p]
    simp [Landmark.started?]
  | .literal _ | .anyChar | .backReference _ | .textStart | .textEnd | .charClass _ => by
    simp [captures, landmarks, Landmark.started?]

/-- The capture groups of a list are those that begin at its landmarks. -/
theorem capturesIn_eq : ∀ ps : List Pattern,
    capturesIn ps = (landmarksIn ps).filterMap Landmark.started?
  | [] => rfl
  | p :: ps => by
    rw [capturesIn, landmarksIn, List.filterMap_append, captures_eq p, capturesIn_eq ps]
end

/-- Simplification keeps the capture groups and their order. -/
theorem captures_simplify (p : Pattern) : captures p.simplify = captures p := by
  rw [captures_eq, landmarks_simplify, captures_eq]

/-- Simplification keeps the number of capture groups. -/
theorem groupCount_simplify (p : Pattern) : p.simplify.groupCount = p.groupCount := by
  rw [← length_captures, captures_simplify, length_captures]

/-! ## References, bounds and classes -/

/-- Whether a back-reference has a single digit, the bounds of a repetition are below two to the
power 32, and a class is one of a bracket expression. -/
def isExpressible : Pattern → Bool
  | .backReference i => i ≤ 9
  | .repetition _ min max => min < 0x100000000 && max.all (· < 0x100000000)
  | .charClass cls => decide cls.Canonical
  | _ => true

/-- Being expressible does not depend on what simplification changes. -/
theorem stable_isExpressible : Stable fun _ => isExpressible :=
  ⟨fun _ _ => rfl, fun _ _ => rfl, fun _ _ => Or.inr rfl, fun _ _ _ _ _ => rfl,
    fun _ _ _ _ => rfl⟩

namespace Grammar

variable {limit : Nat} {enclosing : List Nat} {s t u : Place}

/-- Patterns between two places have the groups that are opened there, in order, and are
expressible. -/
structure Numbered (limit : Nat) (s : Place) (ps : List Pattern) (t : Place) : Prop where
  captures : capturesIn ps = List.range' (s.groups + 1) (t.groups - s.groups)
  le : s.groups ≤ t.groups
  le_limit : s.groups ≤ limit → t.groups ≤ limit
  expressible : ∀ p ∈ ps, ∀ enclosing, p.everywhere (fun _ => isExpressible) enclosing = true

namespace Numbered

/-- Nothing has no groups. -/
theorem nil (s : Place) : Numbered limit s [] s where
  captures := by rw [Nat.sub_self]; rfl
  le := Nat.le_refl _
  le_limit := id
  expressible := fun _ hp => absurd hp List.not_mem_nil

/-- Patterns one after the other are numbered one after the other. -/
theorem append (h : Numbered limit s ps t) (h' : Numbered limit t qs u) :
    Numbered limit s (ps ++ qs) u where
  captures := by
    have hle := h.le
    have hle' := h'.le
    have hstart : t.groups + 1 = s.groups + 1 + (t.groups - s.groups) := by omega
    have hsum : t.groups - s.groups + (u.groups - t.groups) = u.groups - s.groups := by omega
    rw [capturesIn_append, h.captures, h'.captures, hstart, List.range'_append_1, hsum]
  le := Nat.le_trans h.le h'.le
  le_limit := fun hs => h'.le_limit (h.le_limit hs)
  expressible := fun p hp => (List.mem_append.mp hp).elim (h.expressible p) (h'.expressible p)

/-- A sequence is numbered as its items are. -/
theorem ofItems (h : Numbered limit s ps t) : Numbered limit s [ofItems ps] t where
  captures := by rw [capturesIn_singleton, captures_ofItems, h.captures]
  le := h.le
  le_limit := h.le_limit
  expressible := List.forall_mem_singleton.mpr fun enclosing => by
    rcases ofItems_cases ps with ⟨p, rfl, htree⟩ | ⟨-, htree⟩
    · rw [htree]
      exact h.expressible _ List.mem_cons_self enclosing
    · simp only [htree, everywhere, isExpressible, Bool.true_and]
      exact everywhereIn_iff.mpr fun p hp => h.expressible p hp enclosing

/-- An alternation is numbered as its options are. -/
theorem ofOptions (h : Numbered limit s ps t) : Numbered limit s [ofOptions ps] t where
  captures := by rw [capturesIn_singleton, captures_ofOptions, h.captures]
  le := h.le
  le_limit := h.le_limit
  expressible := List.forall_mem_singleton.mpr fun enclosing => by
    rcases ofOptions_cases ps with ⟨p, rfl, htree⟩ | ⟨-, htree⟩
    · rw [htree]
      exact h.expressible _ List.mem_cons_self enclosing
    · simp only [htree, everywhere, isExpressible, Bool.true_and]
      exact everywhereIn_iff.mpr fun p hp => h.expressible p hp enclosing

/-- What matters of places is the number of opened groups. -/
theorem congr {s' t' : Place} (h : Numbered limit s ps t) (hs : s.groups = s'.groups)
    (ht : t.groups = t'.groups) : Numbered limit s' ps t' :=
  ⟨hs ▸ ht ▸ h.captures, hs ▸ ht ▸ h.le, hs ▸ ht ▸ h.le_limit, h.expressible⟩

/-- A capture group has the next index, and its body the ones after it. -/
theorem capture {g : Nat} {cs : List Char} {p : Pattern} (hlimit : g < limit)
    (h : Numbered limit ⟨cs, g + 1⟩ [p] t) : Numbered limit ⟨cs, g⟩ [.capture (g + 1) p] t where
  captures := by
    have hle : g + 1 ≤ t.groups := h.le
    have hcount : t.groups - g = t.groups - (g + 1) + 1 := by omega
    have hcaptures := h.captures
    rw [capturesIn_singleton] at hcaptures ⊢
    rw [Pattern.captures, hcaptures, hcount, List.range'_succ]
  le := Nat.le_of_succ_le h.le
  le_limit := fun _ => h.le_limit hlimit
  expressible := List.forall_mem_singleton.mpr fun enclosing => by
    simp only [everywhere, isExpressible, Bool.true_and]
    exact h.expressible p List.mem_cons_self ((g + 1) :: enclosing)

/-- A repetition is numbered as its body is. -/
theorem repetition {p : Pattern} {min : Nat} {max : Option Nat} (h : Numbered limit s [p] t)
    (hmin : min < 0x100000000) (hmax : ∀ n ∈ max, n < 0x100000000) :
    Numbered limit s [.repetition p min max] t where
  captures := by
    have hcaptures := h.captures
    rw [capturesIn_singleton] at hcaptures ⊢
    rw [Pattern.captures, hcaptures]
  le := h.le
  le_limit := h.le_limit
  expressible := List.forall_mem_singleton.mpr fun enclosing => by
    simp only [everywhere, isExpressible, Bool.and_eq_true, decide_eq_true_eq]
    refine ⟨⟨hmin, ?_⟩, h.expressible p List.mem_cons_self enclosing⟩
    cases max with
    | none => rfl
    | some n => exact decide_eq_true (hmax n rfl)

/-- A quantified atom is numbered as the atom is. -/
theorem quantified {a p : Pattern} {cs ds : List Char} {g : Nat} (h : Numbered limit s [a] ⟨cs, g⟩)
    (hquant : Quantified a cs p ds) : Numbered limit s [p] ⟨ds, g⟩ := by
  refine congr (s := s) (t := ⟨cs, g⟩) ?_ rfl rfl
  cases hquant with
  | none => exact h
  | star => exact h.repetition (by decide) (by simp)
  | plus => exact h.repetition (by decide) (by simp)
  | option => exact h.repetition (by decide) (by simp)
  | exactly hm => exact h.repetition hm.lt (by simpa using hm.lt)
  | atLeast hm => exact h.repetition hm.lt (by simp)
  | between hm hn => exact h.repetition hm.lt (by simpa using hn.lt)

end Numbered

/-- A class of a bracket expression is canonical. -/
theorem Bracket.canonical {cs rest : List Char} {cls : CharClass} (h : Bracket cs cls rest) :
    cls.Canonical := by
  cases h with
  | plain => exact canonical_classOfItems _ _
  | negated => exact canonical_classOfItems _ _

/-- The value of a digit is at most nine. -/
theorem le_nine_of_isDigit {d : Char} (h : d.isDigit = true) : d.toNat - '0'.toNat ≤ 9 := by
  simp only [Char.isDigit, Bool.and_eq_true, decide_eq_true_eq] at h
  have hhi : d.toNat ≤ 57 := h.2
  have hzero : '0'.toNat = 48 := rfl
  omega

/-- An atom that is not a group has no patterns inside it and is expressible. -/
theorem Leaf.isExpressible {cs rest : List Char} {a : Pattern} (h : Leaf enclosing cs a rest) :
    a.isLeaf = true ∧ a.isExpressible = true := by
  cases h with
  | backReference hd => exact ⟨rfl, decide_eq_true (le_nine_of_isDigit hd)⟩
  | charClass h => exact ⟨rfl, decide_eq_true h.canonical⟩
  | _ => exact ⟨rfl, rfl⟩

/-- An atom that is not a group opens none. -/
theorem Leaf.numbered {cs rest : List Char} {g : Nat} {a : Pattern} (h : Leaf enclosing cs a rest) :
    Numbered limit ⟨cs, g⟩ [a] ⟨rest, g⟩ where
  captures := by
    rw [capturesIn_singleton, captures_of_isLeaf h.isExpressible.1, Nat.sub_self]
    rfl
  le := Nat.le_refl _
  le_limit := id
  expressible := List.forall_mem_singleton.mpr fun _ =>
    (everywhere_leaf h.isExpressible.1).trans h.isExpressible.2

/-- The patterns of an alternation are numbered, since each way to form a phrase keeps them so. -/
theorem Alternation.numbered (h : Alternation limit enclosing s ps t) : Numbered limit s ps t :=
  @Alternation.rec limit (fun _ s ps t _ => Numbered limit s ps t)
    (fun _ s ps t _ => Numbered limit s ps t) (fun _ s a t _ => Numbered limit s [a] t)
    (fun _ ih => ih.ofItems)
    (fun _ _ ih ihmore => ih.ofItems.append (ihmore.congr rfl rfl))
    (Numbered.nil _)
    (fun _ hquant _ ihatom ihmore => (ihatom.quantified hquant).append ihmore)
    (fun h => h.numbered)
    (fun _ ih => ih.ofOptions.congr rfl rfl)
    (fun hlimit _ _ ih => (Numbered.capture hlimit ih.ofOptions).congr rfl rfl)
    enclosing s ps t h

end Grammar

/-- The capture groups of a pattern that is read have the indices from 1 on. -/
theorem captures_of_read {limit : Nat} {text : String} {p : Pattern} (h : read limit text = .ok p) :
    captures p = List.range' 1 p.groupCount ∧ p.groupCount ≤ limit := by
  obtain ⟨ps, groups, halternation, rfl⟩ := Grammar.derives_of_read h
  have hnumbered := halternation.numbered.ofOptions
  have hcaptures : captures (ofOptions ps) = List.range' 1 groups := by
    rw [← capturesIn_singleton, hnumbered.captures]
    rfl
  have hcount : (ofOptions ps).groupCount = groups := by
    rw [← length_captures, hcaptures, List.length_range']
  rw [hcount]
  exact ⟨hcaptures, hnumbered.le_limit (Nat.zero_le limit)⟩

/-- Patterns that are read are expressible. -/
theorem isExpressible_of_read {limit : Nat} {text : String} {p : Pattern}
    (h : read limit text = .ok p) (enclosing : List Nat) :
    p.everywhere (fun _ => isExpressible) enclosing = true := by
  obtain ⟨ps, groups, halternation, rfl⟩ := Grammar.derives_of_read h
  exact halternation.numbered.ofOptions.expressible _ List.mem_cons_self enclosing

end BacktrackRegex.Pattern
