import BacktrackRegex.Proofs.CodePoint.Laws
import BacktrackRegex.Proofs.Pattern.Acceptance
import BacktrackRegex.Proofs.Pattern.Spelled

/-!
# Leaves are read back

Spelling a pattern without parts and reading the spelling is the identity. A literal is read one
character at a time, and simplification joins what was read. A class comes back as the mask or the
list of ranges that it was, whatever follows the closing bracket: a set of ranges loses nothing when
its ranges are read as separate members, and it is narrowed to a mask again if it had been one.
-/

namespace BacktrackRegex

namespace CharClass

variable {s : RangeSet} {C : CharClass}

/-- The classes that are made of a set of ranges: the narrowed set, and the negation of its mask. -/
inductive Narrows (s : RangeSet) : CharClass → Prop where
  | narrow : Narrows s (CharClass.ranges s).narrow
  | negate {m : AsciiMask} (h : (CharClass.ranges s).narrow.negate = .ascii m) :
    Narrows s (.ascii m)

/-- A class that is made of a canonical set is canonical. -/
theorem Narrows.canonical (h : Narrows s C) (hs : s.Canonical) : C.Canonical := by
  have hnarrow := canonical_narrow hs
  cases h with
  | narrow => exact hnarrow
  | negate h => exact h ▸ hnarrow.negate

/-- A set of ranges between characters that is not narrowed to a mask reaches beyond the ASCII
characters, so patterns can say it. -/
theorem isSpellable_narrow (hne : s.ranges ≠ []) (hchars : s.hasCharBounds = true) :
    (CharClass.ranges s).narrow.isSpellable = true := by
  by_cases hmax : s.max?.any (128 ≤ ·) = true
  · rw [narrow_of_le_max hmax, isSpellable, hchars, hmax, Bool.and_self]
  · have hempty : ¬ s.isEmpty = true := by simpa [RangeSet.isEmpty] using hne
    rw [narrow, AsciiMask.ofRangeSet?, if_neg hmax]
    dsimp only
    rw [if_neg hempty, isSpellable]
    exact fun _ he => CharClass.noConfusion he

/-- Patterns can say the classes that are made of a set of ranges between characters. -/
theorem Narrows.isSpellable (h : Narrows s C) (hne : s.ranges ≠ [])
    (hchars : s.hasCharBounds = true) : C.isSpellable = true := by
  cases h with
  | narrow => exact isSpellable_narrow hne hchars
  | negate =>
    unfold CharClass.isSpellable
    split
    · next he => exact CharClass.noConfusion he
    · rfl

end CharClass

namespace Pattern.Grammar

variable {limit : Nat} {cls : CharClass}

/-- A spelled literal is read as a pattern that simplifies to the literal. -/
theorem read_render_literal (limit : Nat) (s : String) :
    ∃ p, read limit (Pattern.literal s).render = .ok p ∧ p.simplify = .literal s := by
  obtain ⟨qs, hrun⟩ := exists_isRun_literal limit [] 0 s
  have halternation := Alternation.one (hrun.whole noDigit_nil)
  rw [List.append_nil, ← String.toList_ofList (l := spellLiteral s)] at halternation
  refine ⟨ofItems qs, ?_, hrun.simplify⟩
  rw [render, spell]
  exact read_of_derives ⟨_, _, halternation, rfl⟩

/-- A class that stands between the brackets of a text is what the text is read as. -/
theorem read_brackets (h : Bracket (cls.spell ++ [']']) cls []) :
    read limit ("[" ++ cls.render ++ "]") = .ok (.charClass cls) := by
  have htext : ("[" ++ cls.render ++ "]").toList = '[' :: (cls.spell ++ [']']) := by
    simp [CharClass.render]
  apply read_of_derives
  refine ⟨[.charClass cls], 0, ?_, rfl⟩
  rw [htext]
  exact .one (.cons (.leaf (.charClass h)) .none .nil)

/-- Every literal is read back from its spelling, up to simplification. Every class that is made of
a set of ranges between characters is read back exactly from its spelling between brackets, both as
a whole text and in front of any text. -/
theorem read_render_leaf (limit : Nat) :
    (∀ s : String, ∃ p, read limit (Pattern.literal s).render = .ok p ∧
      p.simplify = .literal s) ∧
    ∀ (s : RangeSet) (C : CharClass), s.Built → s.ranges ≠ [] → s.hasCharBounds = true →
      CharClass.Narrows s C →
        read limit ("[" ++ C.render ++ "]") = .ok (.charClass C) ∧
        ∀ (start : Cursor) (rest : List Char), start.rest = '[' :: (C.spell ++ ']' :: rest) →
          ∃ r, readClass start = .ok r ∧ r.value = .charClass C ∧ r.next.rest = rest := by
  refine ⟨read_render_literal limit, ?_⟩
  intro s C hs hne hchars hC
  have hbracket (rest : List Char) : Bracket (C.spell ++ ']' :: rest) C rest :=
    (hC.canonical hs.canonical).bracket_spell (hC.isSpellable hne hchars)
  constructor
  · exact read_brackets (hbracket [])
  · intro start rest hstart
    obtain ⟨r, hr, hvalue, hplace⟩ := reads_class (hbracket rest) hstart
    exact ⟨r, hr, hvalue, (Place.mk.inj hplace).1⟩

/-- A literal with a control and a parenthesis is read back, and so is a range that ends with a
control, even in front of a digit. -/
theorem read_render_leaf_controls :
    (∃ p, read 255 (Pattern.literal "a\t(").render = .ok p ∧ p.simplify = .literal "a\t(") ∧
    (CharClass.ranges RangeSet.letters).narrow.render = "a-\\202" ∧
    read 255 "[a-\\202]" = .ok (.charClass (CharClass.ranges RangeSet.letters).narrow) ∧
    ∃ r, readClass ⟨"[a-\\202]7".toList, 3, 0⟩ = .ok r ∧
      r.value = .charClass (CharClass.ranges RangeSet.letters).narrow ∧ r.next.rest = ['7'] := by
  have hrender : (CharClass.ranges RangeSet.letters).narrow.render = "a-\\202" := by
    rw [RangeSet.letters_eq]
    decide +kernel
  have hspell : (CharClass.ranges RangeSet.letters).narrow.spell = "a-\\202".toList := by
    rw [← hrender, CharClass.render, String.toList_ofList]
  obtain ⟨hliteral, hclass⟩ := read_render_leaf 255
  obtain ⟨hread, hnext⟩ := hclass RangeSet.letters _ RangeSet.built_letters
    (by rw [RangeSet.letters_eq]; decide) (by rw [RangeSet.letters_eq]; decide) .narrow
  rw [hrender] at hread
  rw [hspell] at hnext
  exact ⟨hliteral _, hrender, hread, hnext _ ['7'] rfl⟩

end Pattern.Grammar

end BacktrackRegex
