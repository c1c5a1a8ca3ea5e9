import BacktrackRegex.Proofs.CharClass.Canonical
import BacktrackRegex.Proofs.Pattern.Acceptance
import Mathlib.Data.List.Basic

/-!
# What bracket expressions accept

A bracket expression lists characters and ranges, and its class accepts the characters that they
cover, or the others after a caret. The class is built in between by merging the ranges in the order
in which they are written, narrowing them to a mask and complementing the mask or the range set;
none of that is visible in what it accepts, whether or not the characters are ASCII.

What is listed is determined by the text. So is whether the list ends at all: one that goes on to
the end of the text can be told by ending it there.
-/

namespace BacktrackRegex.Pattern.Grammar

variable {cs ds rest rest' : List Char} {items items' : List (Char × Char)} {c : Char}

/-! ## What is written between brackets -/

/-- Whether the text after an opening bracket begins with a caret. -/
def isNegated (cs : List Char) : Bool :=
  cs.head? == some '^'

/-- The text after an opening bracket without its caret. -/
def bracketBody (cs : List Char) : List Char :=
  if isNegated cs then cs.drop 1 else cs

/-- The text after an opening bracket lists some characters and ranges up to the closing bracket,
after which `rest` is left. -/
def Lists (cs : List Char) (items : List (Char × Char)) (rest : List Char) : Prop :=
  ∃ leading more ds, Leading (bracketBody cs) leading ds ∧ Members ds more rest ∧
    items = leading ++ more

/-- Some ranges cover the characters from the lower to the upper bound of one of them. -/
def covers (items : List (Char × Char)) (c : Char) : Bool :=
  items.any fun item => item.1 ≤ c && c ≤ item.2

/-- What is covered lies between the bounds of a range. -/
theorem covers_iff : covers items c = true ↔ ∃ item ∈ items, item.1 ≤ c ∧ c ≤ item.2 := by
  simp only [covers, List.any_eq_true, Bool.and_eq_true, decide_eq_true_eq]

/-- A reader returns only one value and stops at only one place. -/
theorem Reads.unique {α : Type} {bound : Nat} {result : Except SyntaxError (Reading α bound)}
    {a b : α} {p q : Place} (h : Reads result a p) (h' : Reads result b q) : a = b ∧ p = q := by
  obtain ⟨r, hr, rfl, rfl⟩ := h
  obtain ⟨r', hr', rfl, rfl⟩ := h'
  obtain rfl := Except.ok.inj (hr.symm.trans hr')
  exact ⟨rfl, rfl⟩

/-- The members of a class are no choice: the reader finds the only ones. -/
theorem Members.unique (h : Members cs items rest) (h' : Members cs items' rest') :
    items = items' ∧ rest = rest' := by
  obtain ⟨hitems, hplace⟩ :=
    (reads_members 0 ⟨cs, 0, 0⟩ h).unique (reads_members 0 ⟨cs, 0, 0⟩ h')
  exact ⟨hitems, (Place.mk.inj hplace).1⟩

/-- What is listed after an opening bracket is no choice. -/
theorem Lists.unique (h : Lists cs items rest) (h' : Lists cs items' rest') :
    items = items' ∧ rest = rest' := by
  obtain ⟨leading, more, ds, hleading, hmore, rfl⟩ := h
  obtain ⟨leading', more', ds', hleading', hmore', rfl⟩ := h'
  obtain ⟨rfl, rfl⟩ := hleading.unique hleading'
  obtain ⟨rfl, rfl⟩ := hmore.unique hmore'
  exact ⟨rfl, rfl⟩

/-- The ranges of a class have their bounds in order. -/
theorem Members.le (h : Members cs items rest) : ∀ item ∈ items, item.1 ≤ item.2 := by
  induction h with
  | close =>
    intro item hitem
    cases hitem
  | single _ _ _ _ ih => exact List.forall_mem_cons.mpr ⟨Char.le_refl _, ih⟩
  | hyphen =>
    exact List.forall_mem_cons.mpr
      ⟨Char.le_refl _, List.forall_mem_singleton.mpr (Char.le_refl _)⟩
  | range _ _ _ _ hle _ ih => exact List.forall_mem_cons.mpr ⟨hle, ih⟩

/-- A leading member is a single character. -/
theorem Leading.le {leading : List (Char × Char)} {ds : List Char} (h : Leading cs leading ds) :
    ∀ item ∈ leading, item.1 ≤ item.2 := by
  cases h with
  | literal => exact List.forall_mem_singleton.mpr (Char.le_refl _)
  | none =>
    intro item hitem
    cases hitem

/-- What is listed after an opening bracket has its bounds in order. -/
theorem Lists.le (h : Lists cs items rest) : ∀ item ∈ items, item.1 ≤ item.2 := by
  obtain ⟨leading, more, ds, hleading, hmore, rfl⟩ := h
  intro item hitem
  rcases List.mem_append.mp hitem with hitem | hitem
  · exact hleading.le item hitem
  · exact hmore.le item hitem

/-- A class is the class of what is listed after its opening bracket. -/
theorem bracket_iff_lists {cls : CharClass} :
    Bracket cs cls rest ↔
      ∃ items, Lists cs items rest ∧ cls = classOfItems (isNegated cs) items := by
  constructor
  · intro h
    obtain ⟨leading, more, ds, hleading, hmore, hcls⟩ := h.exists_members
    exact ⟨leading ++ more, ⟨leading, more, ds, hleading, hmore, rfl⟩, hcls⟩
  · rintro ⟨_, ⟨leading, more, ds, hleading, hmore, rfl⟩, rfl⟩
    exact bracket_of_members rfl hleading hmore

/-! ## Classes that never close -/

/-- The members of a class go on to the end of the text, where one more bracket would end them. -/
def RunsOut (cs : List Char) : Prop :=
  ∃ items, Members (cs ++ [']']) items []

/-- A class that never closes: no closing bracket ends it, and its members go on to the end of the
text. -/
structure Unclosed (cs : List Char) : Prop where
  not_lists : ∀ items rest, ¬ Lists cs items rest
  runs_out : ∃ leading ds, Leading (bracketBody cs) leading ds ∧ RunsOut ds

/-- A character of a class is written in front of the rest. -/
theorem ClassChar.exists_append (h : ClassChar cs c rest) : ∃ lower, cs = lower ++ rest := by
  cases h with
  | plain => exact ⟨[_], rfl⟩
  | escaped h =>
    cases h with
    | punctuation => exact ⟨['\\', _], rfl⟩
    | control => exact ⟨['\\', _], rfl⟩
    | null => exact ⟨['\\', '0'], rfl⟩
    | octal => exact ⟨['\\', _, _, _], rfl⟩

/-- Text that goes on with no digit still does so in front of such a text. -/
theorem NoDigit.append {cs ds : List Char} (hcs : NoDigit cs) (hds : NoDigit ds) :
    NoDigit (cs ++ ds) := by
  cases cs with
  | nil => exact hds
  | cons c cs => exact hcs

/-- An escape stays the same in front of more text that does not begin with a digit. -/
theorem Escaped.append (h : Escaped cs c rest) (hds : NoDigit ds) :
    Escaped (cs ++ ds) c (rest ++ ds) := by
  cases h with
  | punctuation h => exact .punctuation h
  | control h => exact .control h
  | null h => exact .null (h.append hds)
  | octal ha hb hc h => exact .octal ha hb hc h

/-- A character of a class stays the same in front of more text that does not begin with a digit. -/
theorem ClassChar.append (h : ClassChar cs c rest) (hds : NoDigit ds) :
    ClassChar (cs ++ ds) c (rest ++ ds) := by
  cases h with
  | plain hc => exact .plain hc
  | escaped h => exact .escaped (h.append hds)

/-- The members of a class stay the same in front of more text that does not begin with a digit. -/
theorem Members.append (h : Members cs items rest) (hds : NoDigit ds) :
    Members (cs ++ ds) items (rest ++ ds) := by
  induction h with
  | close => exact .close
  | single hfirst hc hafter hmore ih =>
    rw [← List.head?_append_of_ne_nil _ hc.ne_nil] at hfirst
    rw [← List.head?_append_of_ne_nil _ hmore.ne_nil] at hafter
    exact .single hfirst (hc.append hds) hafter ih
  | hyphen hfirst hc =>
    rw [← List.head?_append_of_ne_nil _ hc.ne_nil] at hfirst
    exact .hyphen hfirst (hc.append hds)
  | range hfirst hlo hupper hhi hle _ ih =>
    rw [← List.head?_append_of_ne_nil _ hlo.ne_nil] at hfirst
    rw [← List.head?_append_of_ne_nil _ hhi.ne_nil] at hupper
    exact .range hfirst (hlo.append hds) hupper (hhi.append hds) hle ih

/-- A closing bracket is no digit. -/
theorem noDigit_bracket : NoDigit [']'] :=
  noDigit_cons (by decide)

/-- At the end of the text there are no members. -/
theorem runsOut_nil : RunsOut [] :=
  ⟨[], .close⟩

/-- A member in front of members that go on to the end. -/
theorem RunsOut.after_char (hfirst : cs.head? ≠ some ']') (hc : ClassChar cs c rest)
    (hrest : rest.head? ≠ some '-') (h : RunsOut rest) : RunsOut cs := by
  obtain ⟨items, hitems⟩ := h
  rw [← List.head?_append_of_ne_nil _ hc.ne_nil] at hfirst
  refine ⟨_, .single hfirst (hc.append noDigit_bracket) ?_ hitems⟩
  cases rest with
  | nil => decide
  | cons d rest => exact hrest

/-- A member and a hyphen at the end of the text. -/
theorem runsOut_of_hyphen (hfirst : cs.head? ≠ some ']') (hc : ClassChar cs c ['-']) :
    RunsOut cs := by
  rw [← List.head?_append_of_ne_nil _ hc.ne_nil] at hfirst
  exact ⟨_, .hyphen hfirst (hc.append noDigit_bracket)⟩

/-- A range in front of members that go on to the end. -/
theorem RunsOut.after_range {upper : List Char} {lo hi : Char} (hfirst : cs.head? ≠ some ']')
    (hlo : ClassChar cs lo ('-' :: upper)) (hupper : upper.head? ≠ some ']')
    (hhi : ClassChar upper hi rest) (hle : lo ≤ hi) (h : RunsOut rest) : RunsOut cs := by
  obtain ⟨items, hitems⟩ := h
  rw [← List.head?_append_of_ne_nil _ hlo.ne_nil] at hfirst
  rw [← List.head?_append_of_ne_nil _ hhi.ne_nil] at hupper
  exact ⟨_, .range hfirst (hlo.append noDigit_bracket) hupper (hhi.append noDigit_bracket) hle
    hitems⟩

/-- A class whose members go on to the end of the text never closes. -/
theorem unclosed_of_runsOut {leading : List (Char × Char)}
    (hleading : Leading (bracketBody cs) leading ds) (h : RunsOut ds) : Unclosed cs := by
  refine ⟨?_, leading, ds, hleading, h⟩
  intro items rest hlists
  obtain ⟨items', hitems'⟩ := h
  obtain ⟨leading', more, ds', hleading', hmore, -⟩ := hlists
  obtain ⟨-, rfl⟩ := hleading.unique hleading'
  obtain ⟨-, hrest⟩ := hitems'.unique (hmore.append noDigit_bracket)
  exact List.cons_ne_nil _ _ (List.append_eq_nil_iff.mp hrest.symm).2

/-! ## What the class accepts -/

/-- The characters between two in order are those that are neither less than the one nor greater
than the other. -/
theorem contains_ofChars {a b : Char} (hle : a ≤ b) :
    (RangeSet.ofChars a b).contains c.toNat = true ↔ a ≤ c ∧ c ≤ b := by
  have hmax := toNat_le_maxCodePoint c
  have hab : a.toNat ≤ b.toNat := hle
  rw [(RangeSet.canonical_ofChars a b).ordered.contains_iff, RangeSet.ofChars]
  simp only [List.mem_singleton, exists_eq_left]
  rw [CodeRange.contains_between hmax, Nat.min_eq_left hab, Nat.max_eq_right hab]
  exact Iff.rfl

/-- The class of some ranges accepts what they cover, or what they do not cover if it is negated. -/
theorem accepts_classOfItems (negated : Bool) (h : ∀ item ∈ items, item.1 ≤ item.2) :
    (classOfItems negated items).accepts c =
      (if negated then !covers items c else covers items c) := by
  have hkept : ∀ C ∈ items.map fun item => CharClass.ranges (.ofChars item.1 item.2), C.Kept :=
    List.forall_mem_map.mpr fun item _ => .ranges (RangeSet.canonical_ofChars _ _).ordered
  have hmerged := CharClass.Kept.merge hkept
  have hcovers : (CharClass.merge (items.map fun item =>
      .ranges (.ofChars item.1 item.2))).contains c.toNat = covers items c := by
    rw [Bool.eq_iff_iff, CharClass.contains_merge hkept, covers_iff]
    constructor
    · rintro ⟨_, hC, hc⟩
      obtain ⟨item, hitem, rfl⟩ := List.mem_map.mp hC
      exact ⟨item, hitem, (contains_ofChars (h item hitem)).mp hc⟩
    · rintro ⟨item, hitem, hc⟩
      exact ⟨_, List.mem_map.mpr ⟨item, hitem, rfl⟩, (contains_ofChars (h item hitem)).mpr hc⟩
  rw [CharClass.accepts, classOfItems_eq]
  dsimp only
  split
  · rw [CharClass.contains_negate hmerged.narrow (toNat_le_maxCodePoint c),
      CharClass.contains_narrow hmerged, hcovers]
  · rw [CharClass.contains_narrow hmerged, hcovers]

/-- The class that is read from an opening bracket accepts the characters that are written between
the brackets or lie between the bounds of a range that is written there; after a caret, it accepts
the others. What is written is determined by the text: a bracket or hyphen at the beginning and a
hyphen at the end are characters like others, and escapes stand for what they denote. -/
theorem accepts_of_readClass {s : Cursor} {r : Reading Pattern s.left} (hs : s.rest = '[' :: cs)
    (h : readClass s = .ok r) :
    ∃ cls items, r.value = .charClass cls ∧ Lists cs items r.next.rest ∧
      (∀ items' rest, Lists cs items' rest → items' = items ∧ rest = r.next.rest) ∧
      ∀ c, cls.accepts c = (if isNegated cs then !covers items c else covers items c) := by
  have hleaf : Leaf [] s.rest r.value r.next.rest :=
    (leaf_of_readClass (Cursor.peek_of_rest hs) h).1
  rw [hs] at hleaf
  generalize hvalue : r.value = p at hleaf
  cases hleaf with
  | char hspecial => exact absurd hspecial (by decide)
  | @charClass _ _ cls hbracket =>
    obtain ⟨items, hitems, rfl⟩ := bracket_iff_lists.mp hbracket
    exact ⟨_, items, rfl, hitems, fun items' rest h' => h'.unique hitems,
      fun c => accepts_classOfItems (isNegated cs) hitems.le⟩

/-- A negated class of a letter, an accented letter and a hyphen before the closing bracket accepts
none of the three, and does accept another accented letter. -/
theorem accepts_other_accent :
    ∃ r cls, readClass ⟨"[^aé-]x".toList, 0, 0⟩ = .ok r ∧ r.value = .charClass cls ∧
      r.next.rest = ['x'] ∧ cls.accepts 'é' = false ∧ cls.accepts '-' = false ∧
      cls.accepts 'ü' = true := by
  have hlists : Lists "^aé-]x".toList [('a', 'a'), ('é', 'é'), ('-', '-')] ['x'] := by
    refine ⟨[], _, "aé-]x".toList, .none (by decide) (by decide), ?_, rfl⟩
    refine .single (by decide) (.plain (by decide)) (by decide) ?_
    exact .hyphen (by decide) (.plain (by decide))
  obtain ⟨r, hr, -⟩ := reads_class (s := ⟨"[^aé-]x".toList, 0, 0⟩)
    (bracket_iff_lists.mpr ⟨_, hlists, rfl⟩) rfl
  obtain ⟨cls, items, hvalue, -, hunique, haccepts⟩ := accepts_of_readClass rfl hr
  obtain ⟨rfl, hrest⟩ := hunique _ _ hlists
  exact ⟨r, cls, hr, hvalue, hrest.symm, (haccepts 'é').trans (by decide),
    (haccepts '-').trans (by decide), (haccepts 'ü').trans (by decide)⟩

end BacktrackRegex.Pattern.Grammar
