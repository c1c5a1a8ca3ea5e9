import BacktrackRegex.CharClass.Spelling
import BacktrackRegex.Proofs.CharClass.Canonical
import BacktrackRegex.Proofs.Pattern.Grammar
import BacktrackRegex.Proofs.Text.Numeral

/-!
# Spelled classes are classes

Between brackets the spelling of a class stands for the class itself, if patterns can say it: the
bounds of its ranges have to be characters, and ranges that reach no further than the ASCII
characters have to be given by a mask.
-/

namespace BacktrackRegex

open Pattern.Grammar

/-! ## Characters -/

/-- After a backslash, the octal digits of a control stand for it. -/
theorem escaped_digits {c : Char} (h : isControl c = true) (rest : List Char) :
    Escaped (Text.digits 8 3 c.toNat ++ rest) c rest := by
  have hlt : c.toNat < 256 := by
    simp only [isControl, Bool.or_eq_true, Bool.and_eq_true, decide_eq_true_eq] at h
    omega
  have hdigit : ∀ k < 8, octalDigits[k]? = some k.digitChar := by decide
  have hvalue : c.toNat / 64 * 64 + c.toNat / 8 % 8 * 8 + c.toNat % 8 = c.toNat := by omega
  have hescaped : Escaped ((c.toNat / 64).digitChar :: (c.toNat / 8 % 8).digitChar ::
      (c.toNat % 8).digitChar :: rest)
      (Char.ofNat (c.toNat / 64 * 64 + c.toNat / 8 % 8 * 8 + c.toNat % 8)) rest :=
    .octal (hdigit _ (by omega)) (hdigit _ (by omega)) (hdigit _ (by omega)) (by omega)
  rw [hvalue, Char.ofNat_toNat] at hescaped
  rw [Text.digits_eight hlt]
  exact hescaped

/-- The code point of a character, spelled in a class, stands for the character. -/
theorem classChar_spellCodePoint {n : Nat} {c : Char} (h : charOfCodePoint? n = some c)
    (rest : List Char) : ClassChar (spellCodePoint n ++ rest) c rest := by
  simp only [spellCodePoint, h]
  split
  · next hmeta =>
    refine .escaped (.punctuation ?_)
    simp only [isClassMeta, Bool.or_eq_true, beq_iff_eq] at hmeta
    obtain (((rfl | rfl) | rfl) | rfl) | rfl := hmeta <;> decide
  · next hmeta =>
    split
    · next hcontrol =>
      obtain rfl := toNat_of_charOfCodePoint? h
      exact .escaped (escaped_digits hcontrol rest)
    · exact .plain (by rintro rfl; exact hmeta rfl)

/-- A spelled code point begins with none of the characters that have a meaning in a class, except
the backslash. -/
theorem head?_spellCodePoint (n : Nat) (rest : List Char) :
    ∀ d ∈ (spellCodePoint n ++ rest).head?, d ∉ [']', '-', '^'] := by
  have hbackslash {d : Char} {tail : List Char} (h : d ∈ ('\\' :: tail).head?) :
      d ∉ [']', '-', '^'] := by
    obtain rfl := Option.some.inj h
    decide
  intro d hd
  rw [spellCodePoint.eq_def] at hd
  split at hd
  · split at hd
    · exact hbackslash hd
    · next hmeta =>
      split at hd
      · exact hbackslash hd
      · obtain rfl := Option.some.inj hd
        intro hmem
        simp only [List.mem_cons, List.not_mem_nil, or_false] at hmem
        obtain rfl | rfl | rfl := hmem <;> exact hmeta rfl
  · exact hbackslash hd

/-- A spelled range begins with none of the characters that have a meaning in a class, except the
backslash. -/
theorem CodeRange.head?_spell (r : CodeRange) (rest : List Char) :
    ∀ d ∈ (r.spell ++ rest).head?, d ∉ [']', '-', '^'] := by
  rw [spell, List.append_assoc, List.append_assoc]
  exact head?_spellCodePoint r.lo _

/-! ## Ranges -/

variable {rest : List Char}

/-- A range of characters, spelled in front of other members, is a member. -/
theorem members_spell_cons {r : CodeRange} {a b : Char} {after : List Char}
    {items : List (Char × Char)} (hr : r.isUnit = true) (hle : r.lo ≤ r.hi)
    (ha : charOfCodePoint? r.lo = some a) (hb : charOfCodePoint? r.hi = some b)
    (hhyphen : after.head? ≠ some '-') (hmore : Members after items rest) :
    Members (r.spell ++ after) ((a, b) :: items) rest := by
  have hstride : ¬ 1 < r.stride := by
    rw [CodeRange.isUnit, beq_iff_eq] at hr
    omega
  have hfirst : (r.spell ++ after).head? ≠ some ']' :=
    fun hc => absurd (r.head?_spell after ']' hc) (by decide)
  simp only [CodeRange.spell, if_neg hstride, List.append_nil, List.append_assoc] at hfirst ⊢
  split
  · next hlt =>
    have hupper : (spellCodePoint r.hi ++ after).head? ≠ some ']' :=
      fun hc => absurd (head?_spellCodePoint r.hi after ']' hc) (by decide)
    have hab : a ≤ b := by
      rw [← toNat_of_charOfCodePoint? ha, ← toNat_of_charOfCodePoint? hb] at hle
      exact hle
    rw [if_pos hlt] at hfirst
    exact .range hfirst (classChar_spellCodePoint ha _) hupper (classChar_spellCodePoint hb after)
      hab hmore
  · next hge =>
    rw [if_neg hge] at hfirst
    obtain rfl : a = b :=
      Option.some.inj (ha.symm.trans ((congrArg _ (by omega : r.lo = r.hi)).trans hb))
    exact .single hfirst (classChar_spellCodePoint ha _) hhyphen hmore

/-- Up to the closing bracket, the spelling of ranges begins with the bracket only if there are
none, and with no hyphen or caret. -/
theorem head?_flatMap_spell (rs : List CodeRange) (rest : List Char) :
    ∀ d ∈ (rs.flatMap CodeRange.spell ++ ']' :: rest).head?,
      d ≠ '-' ∧ d ≠ '^' ∧ (rs ≠ [] → d ≠ ']') := by
  intro d hd
  cases rs with
  | nil =>
    obtain rfl := Option.some.inj hd
    exact ⟨by decide, by decide, fun h => absurd rfl h⟩
  | cons r rs =>
    rw [List.flatMap_cons, List.append_assoc] at hd
    have hne := r.head?_spell _ d hd
    simp only [List.mem_cons, List.not_mem_nil, or_false, not_or] at hne
    exact ⟨hne.2.1, hne.2.2, fun _ => hne.1⟩

/-- The spelling of a set of characters lists its ranges. -/
theorem members_spell {s : RangeSet} (hs : s.Canonical) (hchars : s.hasCharBounds = true) :
    Members (s.spell ++ ']' :: rest) (Pattern.itemsOf s) rest := by
  obtain ⟨rs⟩ := s
  rw [RangeSet.spell, Pattern.itemsOf]
  have hunit := hs.isUnit
  have hle := hs.lo_le
  clear hs
  induction rs with
  | nil => exact .close
  | cons r rs ih =>
    rw [RangeSet.hasCharBounds, List.all_cons, Bool.and_eq_true, Bool.and_eq_true] at hchars
    obtain ⟨hr, hrs⟩ := List.forall_mem_cons.mp hunit
    obtain ⟨hrle, hrsle⟩ := List.forall_mem_cons.mp hle
    have hhyphen : (rs.flatMap CodeRange.spell ++ ']' :: rest).head? ≠ some '-' :=
      fun hc => (head?_flatMap_spell rs rest '-' hc).1 rfl
    rw [List.flatMap_cons, List.append_assoc]
    exact members_spell_cons hr hrle (charOfCodePoint?_of_isSome hchars.1.1)
      (charOfCodePoint?_of_isSome hchars.1.2) hhyphen (ih hchars.2 hrs hrsle)

/-! ## Classes -/

/-- The spelling of ranges before a closing bracket begins no class with a member of its own. -/
theorem leading_spell (rest : List Char) {s : RangeSet} (hne : s.ranges ≠ []) :
    Leading (s.spell ++ ']' :: rest) [] (s.spell ++ ']' :: rest) ∧
      (s.spell ++ ']' :: rest).head? ≠ some '^' := by
  have hhead := head?_flatMap_spell s.ranges rest
  exact ⟨.none (fun hc => (hhead _ hc).2.2 hne rfl) fun hc => (hhead _ hc).1 rfl,
    fun hc => (hhead _ hc).2.1 rfl⟩

/-- A set of characters, spelled between brackets, is narrowed. -/
theorem bracket_spell_plain (rest : List Char) {s : RangeSet} (hs : s.Canonical)
    (hchars : s.hasCharBounds = true) (hne : s.ranges ≠ []) :
    Bracket (s.spell ++ ']' :: rest) (CharClass.ranges s).narrow rest := by
  have hclass := Pattern.classOfItems_itemsOf false hs hchars hne
  obtain ⟨hleading, hcaret⟩ := leading_spell rest hne
  have hbracket := Bracket.plain hcaret hleading (members_spell hs hchars)
  rwa [List.nil_append, hclass] at hbracket

/-- A set of characters, spelled between brackets after a caret, is narrowed and negated. -/
theorem bracket_spell_negated (rest : List Char) {s : RangeSet} (hs : s.Canonical)
    (hchars : s.hasCharBounds = true) (hne : s.ranges ≠ []) :
    Bracket ('^' :: s.spell ++ ']' :: rest) (CharClass.ranges s).narrow.negate rest := by
  have hclass := Pattern.classOfItems_itemsOf true hs hchars hne
  have hbracket := Bracket.negated (leading_spell rest hne).1 (members_spell hs hchars)
  rwa [List.nil_append, hclass] at hbracket

namespace AsciiMask

/-- The complement of the complement of a mask is the mask. -/
theorem negate_negate (m : AsciiMask) : m.negate.negate = m := by
  simp only [negate, BitVec.not_not, Bool.not_not]

/-- The bounds of the ranges of a mask are characters. -/
theorem hasCharBounds_asciiRanges (m : AsciiMask) : m.asciiRanges.hasCharBounds = true := by
  have hchar {c : Nat} (h : c < 128) : (charOfCodePoint? c).isSome = true := by
    rw [charOfCodePoint?, if_pos (Or.inl (by omega))]
    rfl
  refine List.all_eq_true.mpr fun r hr => ?_
  have hhi := hi_lt_of_mem_asciiRanges hr
  have hlo := m.canonical_asciiRanges.lo_le r hr
  rw [hchar hhi, hchar (Nat.lt_of_le_of_lt hlo hhi)]
  rfl

/-- A mask with an ASCII character has a range. -/
theorem asciiRanges_ne_nil {m : AsciiMask} {c : Nat} (hc : c < 128)
    (h : m.contains c = true) : m.asciiRanges.ranges ≠ [] := by
  rw [contains, if_pos hc] at h
  have hcontains := contains_asciiRanges.mpr ⟨hc, h⟩
  rw [m.canonical_asciiRanges.ordered.contains_iff] at hcontains
  obtain ⟨r, hr, -⟩ := hcontains
  exact List.ne_nil_of_mem hr

end AsciiMask

namespace CharClass

/-- Whether patterns can say the class: its ranges reach beyond the ASCII characters, and have
characters for bounds. -/
def isSpellable : CharClass → Bool
  | .ranges s => s.hasCharBounds && s.max?.any (128 ≤ ·)
  | _ => true

/-- A class of a bracket expression, spelled between brackets, is the class. -/
theorem Canonical.bracket_spell {C : CharClass} (h : C.Canonical) (hspell : C.isSpellable = true) :
    Bracket (C.spell ++ ']' :: rest) C rest := by
  cases h with
  | @ascii m h =>
    obtain ⟨c, hc, he⟩ := h
    rw [spell, AsciiMask.spell]
    split
    · next hbeyond =>
      have hne := AsciiMask.asciiRanges_ne_nil hc
        (by rw [m.contains_negate, he, hbeyond]; rfl : m.negate.contains c = true)
      have hbracket := bracket_spell_negated rest m.negate.canonical_asciiRanges
        m.negate.hasCharBounds_asciiRanges hne
      rwa [narrow_asciiRanges (by rw [AsciiMask.negate, hbeyond]; rfl) hne, CharClass.negate,
        m.negate_negate] at hbracket
    · next hbeyond =>
      rw [Bool.not_eq_true] at hbeyond
      have hne := AsciiMask.asciiRanges_ne_nil hc (by rw [he, hbeyond]; rfl)
      have hbracket := bracket_spell_plain rest m.canonical_asciiRanges
        m.hasCharBounds_asciiRanges hne
      rwa [narrow_asciiRanges hbeyond hne] at hbracket
  | @ranges s hs =>
    rw [isSpellable, Bool.and_eq_true] at hspell
    have hne : s.ranges ≠ [] := by
      intro he
      simp [RangeSet.max?, he] at hspell
    have hbracket := bracket_spell_plain rest hs hspell.1 hne
    rwa [narrow_of_le_max hspell.2] at hbracket

end CharClass

end BacktrackRegex
