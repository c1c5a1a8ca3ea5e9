import BacktrackRegex.Pattern.Spelling
import BacktrackRegex.Proofs.CharClass.Spelled
import BacktrackRegex.Proofs.Pattern.Expressible
import BacktrackRegex.Proofs.Pattern.NormalForm
import BacktrackRegex.Proofs.Pattern.Reading

/-!
# Spelled patterns are read back

The spelling of a simplified pattern is a pattern again, and simplifies to the same tree, unless
the tree has one of three features that spellings get wrong. A repeated digit that comes directly
after a back-reference is read as part of it. An empty literal among other items has no spelling. A
class may have bounds that are no characters, or ranges of which a mask is read.
-/

namespace BacktrackRegex.Pattern

/-- Whether the pattern is the empty literal. -/
def isEmptyLiteral : Pattern → Bool
  | .literal s => s.isEmpty
  | _ => false

/-- Whether the spelling is a digit and a quantifier. -/
def repeatsDigit : Pattern → Bool
  | .repetition p _ _ => !p.needsGroup && p.startsWithDigit
  | _ => false

/-- Whether a repeated digit comes directly after a back-reference. -/
def hasClash : List Pattern → Bool
  | p :: q :: rest => p.isBackReference && q.repeatsDigit || hasClash (q :: rest)
  | _ => false

/-- Whether the pattern, apart from the patterns inside it, has a spelling of its own. -/
def isSpellable : Pattern → Bool
  | .sequence ps => ps.all (!·.isEmptyLiteral) && !hasClash ps
  | .charClass cls => cls.isSpellable
  | _ => true

/-- Whether all patterns inside the pattern have spellings of their own. -/
def isSpellableThroughout (p : Pattern) : Bool :=
  p.everywhere (fun _ => isSpellable) []

namespace Grammar

/-! ## Characters and quantifiers -/

/-- The spelling of a character of a literal is an atom. -/
theorem leaf_spellChar (enclosing : List Nat) (c : Char) (rest : List Char) :
    Leaf enclosing (spellChar c ++ rest) (.literal (String.singleton c)) rest := by
  rw [spellChar.eq_def]
  split
  · next hmeta =>
    refine .escaped (.punctuation ?_)
    have hall : "$^*()+[]\x7b\x7d|\\.?".toList.all (fun d => decide (IsPunctuation d)) = true := by
      decide
    exact of_decide_eq_true (List.all_eq_true.mp hall c (List.contains_iff_mem.mp hmeta))
  · next hmeta =>
    split
    · exact .escaped (.control (by decide))
    · exact .escaped (.control (by decide))
    · exact .escaped (.control (by decide))
    · split
      · next hcontrol => exact .escaped (escaped_digits hcontrol rest)
      · refine .char (isSpecial_eq_false_iff.mpr ?_)
        simp only [isMeta] at hmeta
        simp_all

/-- The spelling of a character begins with a backslash or is the character. -/
theorem exists_head_spellChar (c : Char) :
    ∃ d tail, spellChar c = d :: tail ∧ (d = '\\' ∨ d = c) := by
  rw [spellChar.eq_def]
  split
  · exact ⟨_, _, rfl, Or.inl rfl⟩
  · split
    · exact ⟨_, _, rfl, Or.inl rfl⟩
    · exact ⟨_, _, rfl, Or.inl rfl⟩
    · exact ⟨_, _, rfl, Or.inl rfl⟩
    · split
      · exact ⟨_, _, rfl, Or.inl rfl⟩
      · exact ⟨_, _, rfl, Or.inr rfl⟩

/-- The decimal numeral of a number below two to the power 32 is a numeral. -/
theorem numeral_decimal {n : Nat} (h : n < 0x100000000) : Numeral (Text.decimal n) n :=
  ⟨Text.decimal_ne_nil n, fun _ hd => Text.isDigit_of_mem_decimal hd,
    (Text.decimalValue_eq _).symm.trans (Text.decimalValue_decimal n), h⟩

/-- The spelling of bounds in order is a quantifier. -/
theorem quantified_spellQuantifier {min : Nat} {max : Option Nat} (horder : inOrder min max = true)
    (hmin : min < 0x100000000) (hmax : max.all (· < 0x100000000) = true) (p : Pattern)
    (rest : List Char) :
    Quantified p (spellQuantifier min max ++ rest) (.repetition p min max) rest := by
  rw [spellQuantifier.eq_def]
  split
  · exact .star
  · exact .plus
  · exact .option
  · simpa using Quantified.atLeast (numeral_decimal hmin)
  · next m n _ =>
    have hn : n < 0x100000000 := of_decide_eq_true hmax
    split
    · next he => simpa [he] using Quantified.exactly (numeral_decimal hn)
    · simpa using Quantified.between (numeral_decimal hmin) (numeral_decimal hn)
        (of_decide_eq_true horder)

/-- A quantifier does not begin with a digit. -/
theorem noDigit_spellQuantifier (min : Nat) (max : Option Nat) (rest : List Char) :
    NoDigit (spellQuantifier min max ++ rest) := by
  rw [spellQuantifier.eq_def]
  split
  · exact noDigit_cons (by decide)
  · exact noDigit_cons (by decide)
  · exact noDigit_cons (by decide)
  · exact noDigit_cons (by decide)
  · split <;> exact noDigit_cons (by decide)

/-! ## Atoms and runs of atoms -/

/-- After `g` groups the text is an atom that simplifies to `p`, unless `p` is a back-reference and
a digit follows. -/
def IsAtom (limit : Nat) (enclosing : List Nat) (g : Nat) (text : List Char) (p : Pattern) : Prop :=
  ∃ q, q.simplify = p ∧ ∀ rest, (p.isBackReference = true → NoDigit rest) →
    Atom limit enclosing ⟨text ++ rest, g⟩ q ⟨rest, g + p.groupCount⟩

/-- After `g` groups the text is a run of items that simplify to `p`, unless `p` is a back-reference
and a digit follows. Among other items they count as the items of `p`. -/
structure IsRun (limit : Nat) (enclosing : List Nat) (g : Nat) (text : List Char) (p : Pattern)
    (qs : List Pattern) : Prop where
  simplify : (ofItems qs).simplify = p
  joined : p.isEmptyLiteral = false → ∀ acc,
    ((simplifyAll qs).flatMap items).foldr joinInFront acc = p.items.foldr joinInFront acc
  sequence : ∀ {rest : List Char} {t : Place} {rs : List Pattern},
    (p.isBackReference = true → NoDigit rest) →
      Sequence limit enclosing ⟨rest, g + p.groupCount⟩ rs t →
        Sequence limit enclosing ⟨text ++ rest, g⟩ (qs ++ rs) t

variable {limit : Nat} {enclosing : List Nat} {g : Nat} {text : List Char} {p : Pattern}
  {ps qs : List Pattern}

/-- At the end there is no digit. -/
theorem noDigit_nil : NoDigit [] :=
  fun _ hd => absurd hd (Option.not_mem_none _)

/-- A closing parenthesis is no digit. -/
theorem noDigit_close (rest : List Char) : NoDigit (')' :: rest) :=
  noDigit_cons (by decide)

/-- A run that ends in front of no digit is a sequence. -/
theorem IsRun.whole (h : IsRun limit enclosing g text p qs) {rest : List Char}
    (hrest : NoDigit rest) :
    Sequence limit enclosing ⟨text ++ rest, g⟩ qs ⟨rest, g + p.groupCount⟩ := by
  have hsequence := h.sequence (fun _ => hrest) .nil
  rwa [List.append_nil] at hsequence

/-- A run of a single item. -/
theorem isRun_singleton {q : Pattern} (hq : q.simplify = p)
    (h : ∀ {rest : List Char} {t : Place} {rs : List Pattern},
      (p.isBackReference = true → NoDigit rest) →
        Sequence limit enclosing ⟨rest, g + p.groupCount⟩ rs t →
          Sequence limit enclosing ⟨text ++ rest, g⟩ (q :: rs) t) :
    IsRun limit enclosing g text p [q] where
  simplify := hq
  joined := fun _ acc => by rw [simplifyAll, simplifyAll, hq, List.flatMap_singleton]
  sequence := h

/-- An atom is a run of a single item. -/
theorem IsAtom.exists_isRun (h : IsAtom limit enclosing g text p) :
    ∃ qs, IsRun limit enclosing g text p qs := by
  obtain ⟨q, hq, hatom⟩ := h
  exact ⟨[q], isRun_singleton hq fun hrest hmore => .cons (hatom _ hrest) .none hmore⟩

/-- An atom with bounds is a run of a single item. -/
theorem IsAtom.exists_isRun_repetition (h : IsAtom limit enclosing g text p) {min : Nat}
    {max : Option Nat} (horder : inOrder min max = true) (hmin : min < 0x100000000)
    (hmax : max.all (· < 0x100000000) = true) :
    ∃ qs, IsRun limit enclosing g (text ++ spellQuantifier min max) (.repetition p min max) qs := by
  obtain ⟨q, hq, hatom⟩ := h
  refine ⟨[.repetition q min max], isRun_singleton (by rw [simplify, hq])
    fun {rest} _ _ _ hmore => ?_⟩
  have hatom := hatom (spellQuantifier min max ++ rest)
    fun _ => noDigit_spellQuantifier min max rest
  rw [List.append_assoc]
  exact .cons hatom (quantified_spellQuantifier horder hmin hmax q rest) hmore

/-- A run in a group without a number is an atom. -/
theorem IsRun.isAtom_grouped (h : IsRun limit enclosing g text p qs) :
    IsAtom limit enclosing g (grouped text) p := by
  refine ⟨ofItems qs, h.simplify, fun rest _ => ?_⟩
  simpa [grouped, ofOptions] using Atom.group (.one (h.whole (noDigit_close rest)))

/-- A run in a capture group is an atom. -/
theorem IsRun.isAtom_capture (hlimit : g < limit)
    (h : IsRun limit ((g + 1) :: enclosing) (g + 1) text p qs) :
    IsAtom limit enclosing g ('(' :: text ++ [')']) (.capture (g + 1) p) := by
  refine ⟨.capture (g + 1) (ofItems qs), by rw [Pattern.simplify, h.simplify], fun rest _ => ?_⟩
  have hsequence := h.whole (noDigit_close rest)
  have hmark : (text ++ ')' :: rest).head? ≠ some '?' := fun hc =>
    absurd (hsequence.noQuantifier (ends_close rest).stops '?' hc) (by decide)
  have hcount : g + 1 + p.groupCount = g + (Pattern.capture (g + 1) p).groupCount := by
    rw [groupCount, Nat.add_assoc]
  simpa [hcount, ofOptions] using Atom.capture hlimit hmark (.one hsequence)

/-- The characters of a literal are a run, which is joined to the literal. -/
theorem exists_isRun_literal (limit : Nat) (enclosing : List Nat) (g : Nat) (s : String) :
    ∃ qs, IsRun limit enclosing g (spellLiteral s) (.literal s) qs := by
  have hitems : (simplifyAll (s.toList.map fun c => .literal (String.singleton c))).flatMap items =
      s.toList.map fun c => .literal (String.singleton c) := by
    rw [simplifyAll_eq_map, List.map_map, flatMap_items_of_not_isSequence]
    · exact List.map_congr_left fun c _ => by simp only [Function.comp_apply, simplify]
    · exact List.forall_mem_map.mpr fun c _ => by
        simp only [Function.comp_apply, simplify, isSequence]
  refine ⟨s.toList.map fun c => .literal (String.singleton c), ?_, fun hne acc => ?_, ?_⟩
  · rw [simplify_ofItems, hitems, joinLiterals]
    by_cases he : s.toList = []
    · have hempty : s = "" := String.toList_eq_nil_iff.mp he
      rw [he]
      exact congrArg Pattern.literal hempty.symm
    · rw [foldr_joinInFront_chars he, String.ofList_toList]
      rfl
  · have he : s.toList ≠ [] := fun he => by
      simp [isEmptyLiteral, String.toList_eq_nil_iff.mp he] at hne
    rw [hitems, foldr_joinInFront_chars he, String.ofList_toList]
    rfl
  · intro rest t rs _ hmore
    rw [spellLiteral]
    generalize s.toList = cs
    induction cs with
    | nil => exact hmore
    | cons c cs ih =>
      rw [List.flatMap_cons, List.append_assoc]
      exact .cons (.leaf (leaf_spellChar enclosing c _)) .none ih

/-- An atom that is not a group opens none. -/
theorem isAtom_of_leaf {a : Pattern} (ha : a.simplify = p) (hcount : p.groupCount = 0)
    (h : ∀ rest, (p.isBackReference = true → NoDigit rest) → Leaf enclosing (text ++ rest) a rest) :
    IsAtom limit enclosing g text p := by
  refine ⟨a, ha, fun rest hrest => ?_⟩
  rw [hcount]
  exact .leaf (h rest hrest)

/-- A literal of a single character is an atom. -/
theorem isAtom_literal {s : String} (h : s.length = 1) :
    IsAtom limit enclosing g (spellLiteral s) (.literal s) := by
  obtain ⟨c, hc⟩ := List.length_eq_one_iff.mp (String.length_toList.trans h)
  have hs : s = String.singleton c := by
    rw [← String.ofList_toList (s := s), hc, String.singleton_eq_ofList]
  have htext : spellLiteral s = spellChar c := by
    rw [spellLiteral, hc, List.flatMap_singleton]
  rw [htext, hs]
  exact isAtom_of_leaf (by simp only [simplify]) (by simp only [groupCount])
    fun rest _ => leaf_spellChar enclosing c rest

/-- A back-reference with a single digit is an atom, unless it lies inside its group. -/
theorem isAtom_backReference {i : Nat} (hi : i ≤ 9) (hopen : i ∉ enclosing ++ [0]) :
    IsAtom limit enclosing g ('\\' :: Text.decimal i) (.backReference i) := by
  simp only [List.mem_append, List.mem_singleton, not_or] at hopen
  have hdigit : ∀ i ≤ 9, i ≠ 0 → i.digitChar.isDigit = true ∧ i.digitChar ≠ '0' ∧
      i.digitChar.toNat - '0'.toNat = i := by decide
  obtain ⟨hd, hzero, hvalue⟩ := hdigit i hi hopen.2
  have hsimplify : (Pattern.backReference i).simplify = .backReference i := by simp only [simplify]
  refine isAtom_of_leaf hsimplify (by simp only [groupCount]) fun rest hrest => ?_
  have hleaf := Leaf.backReference hd hzero (hrest rfl) (hvalue.symm ▸ hopen.1)
  rw [hvalue] at hleaf
  rw [Text.decimal_of_lt (Nat.lt_succ_of_le hi)]
  exact hleaf

/-! ## Items and options -/

/-- What simplification, reading and spelling ask of each pattern inside a pattern. -/
def isReadable (enclosing : List Nat) (p : Pattern) : Bool :=
  isProper enclosing p && (p.isExpressible && (p.isTidy && p.isSpellable))

/-- The spelling of a pattern is a run, and an atom if it needs no group under a quantifier. -/
structure IsSpelled (limit : Nat) (enclosing : List Nat) (g : Nat) (p : Pattern) : Prop where
  atom : p.needsGroup = false → IsAtom limit enclosing g p.spell p
  run : ∃ qs, IsRun limit enclosing g p.spell p qs

/-- An atom is a run as well. -/
theorem IsAtom.isSpelled (h : IsAtom limit enclosing g p.spell p) :
    IsSpelled limit enclosing g p :=
  ⟨fun _ => h, h.exists_isRun⟩

/-- The text is a sequence of items, which are simplified together to the items of `ps`. -/
def AreItems (limit : Nat) (enclosing : List Nat) (g : Nat) (text : List Char) (ps : List Pattern) :
    Prop :=
  ∃ qs, (∀ acc, ((simplifyAll qs).flatMap items).foldr joinInFront acc =
      (ps.flatMap items).foldr joinInFront acc) ∧
    ∀ rest, NoDigit rest →
      Sequence limit enclosing ⟨text ++ rest, g⟩ qs ⟨rest, g + groupCounts ps⟩

/-- The text is an alternation of options, which are simplified to `ps`. -/
def AreOptions (limit : Nat) (enclosing : List Nat) (g : Nat) (text : List Char)
    (ps : List Pattern) : Prop :=
  ∃ qs, simplifyAll qs = ps ∧ ∀ rest,
    Alternation limit enclosing ⟨text ++ ')' :: rest, g⟩ qs ⟨')' :: rest, g + groupCounts ps⟩

/-- Capture groups that are numbered one after the other are so in each part. -/
theorem captures_split (h : captures p ++ capturesIn ps =
      List.range' (g + 1) (p.groupCount + groupCounts ps)) :
    captures p = List.range' (g + 1) p.groupCount ∧
      capturesIn ps = List.range' (g + p.groupCount + 1) (groupCounts ps) := by
  rw [← List.range'_append_1, Nat.add_right_comm g 1] at h
  exact List.append_inj h (by rw [length_captures, List.length_range'])

/-- Apart from repeated digits, what does not begin with a digit is not spelled with one first. -/
theorem noDigit_spell : ∀ {p : Pattern}, p.startsWithDigit = false → p.repeatsDigit = false →
    p.isEmptyLiteral = false → ∀ rest, NoDigit (p.spell ++ rest)
  | .literal s, hdigit, _, hne, rest => by
    obtain ⟨c, cs, hs⟩ := List.exists_cons_of_ne_nil (fun he => by
      simp [isEmptyLiteral, String.toList_eq_nil_iff.mp he] at hne : s.toList ≠ [])
    rw [startsWithDigit, hs, List.head?_cons, Option.any_some] at hdigit
    obtain ⟨d, tail, hd, hc⟩ := exists_head_spellChar c
    rw [spell, spellLiteral, hs, List.flatMap_cons, hd]
    refine noDigit_cons ?_
    obtain rfl | rfl := hc
    · decide
    · rw [hdigit]
      exact Bool.false_ne_true
  | .repetition p min max, _, hrepeats, _, rest => by
    rw [spell]
    split
    · exact noDigit_cons (by decide)
    · next hgroup =>
      rw [Bool.not_eq_true] at hgroup
      rw [repeatsDigit, hgroup, Bool.not_false, Bool.true_and] at hrepeats
      rw [List.append_assoc]
      refine noDigit_spell hrepeats ?_ ?_ _
      · cases p with
        | repetition _ _ _ => simp [needsGroup] at hgroup
        | _ => rfl
      · cases p with
        | literal s =>
          simp only [needsGroup, bne_eq_false_iff_eq] at hgroup
          rw [isEmptyLiteral, String.isEmpty_eq_false_iff]
          rintro rfl
          simp at hgroup
        | _ => rfl
  | .sequence _, _, _, _, _ | .alternation _, _, _, _, _ | .anyChar, _, _, _, _
  | .capture _ _, _, _, _, _ | .backReference _, _, _, _, _ | .textStart, _, _, _, _
  | .textEnd, _, _, _, _ | .charClass _, _, _, _, _ => by
    rw [spell]
    exact noDigit_cons (by decide)

/-- Where no back-reference clashes with the next item, it does so neither with the next one nor
later. -/
theorem of_hasClash_cons (h : hasClash (p :: ps) = false) :
    hasClash ps = false ∧ (p.isBackReference = true → ∀ q ∈ ps.head?, q.repeatsDigit = false) := by
  cases ps with
  | nil => exact ⟨rfl, fun _ _ hq => by simp at hq⟩
  | cons q ps =>
    rw [hasClash, Bool.or_eq_false_iff] at h
    refine ⟨h.2, fun hp q' hq' => ?_⟩
    obtain rfl := Option.some.inj hq'
    simpa [hp] using h.1

/-- After a back-reference no spelled items begin with a digit. -/
theorem noDigit_spellItems (hhead : ∀ q ∈ ps.head?, q.repeatsDigit = false)
    (hne : ∀ p ∈ ps, p.isEmptyLiteral = false) {rest : List Char} (hrest : NoDigit rest) :
    NoDigit (spellItems true ps ++ rest) := by
  cases ps with
  | nil => exact hrest
  | cons p ps =>
    rw [spellItems, Bool.true_and, List.append_assoc]
    split
    · exact noDigit_cons (by decide)
    · next hdigit =>
      exact noDigit_spell (Bool.not_eq_true _ ▸ hdigit) (hhead p rfl) (hne p List.mem_cons_self) _

/-- An item in front of items: after a back-reference it stands in a group if it begins with a
digit. -/
theorem AreItems.cons {after : Bool} (hp : IsSpelled limit enclosing g p)
    (hps : AreItems limit enclosing (g + p.groupCount) (spellItems p.isBackReference ps) ps)
    (hempty : ∀ q ∈ p :: ps, q.isEmptyLiteral = false) (hclash : hasClash (p :: ps) = false) :
    AreItems limit enclosing g (spellItems after (p :: ps)) (p :: ps) := by
  obtain ⟨run, hrun⟩ := hp.run
  obtain ⟨run', hitem⟩ : ∃ run', IsRun limit enclosing g
      (if after && p.startsWithDigit then grouped p.spell else p.spell) p run' := by
    split
    · have hgroup := hrun.isAtom_grouped
      exact hgroup.exists_isRun
    · exact ⟨run, hrun⟩
  obtain ⟨qs, hjoined, hsequence⟩ := hps
  obtain ⟨hne, hempty⟩ := List.forall_mem_cons.mp hempty
  refine ⟨run' ++ qs, fun acc => ?_, fun rest hrest => ?_⟩
  · rw [simplifyAll_eq_map, List.map_append, ← simplifyAll_eq_map, ← simplifyAll_eq_map,
      List.flatMap_append, List.flatMap_cons, List.foldr_append, List.foldr_append, hjoined,
      hitem.joined hne]
  · rw [spellItems, List.append_assoc, groupCounts, ← Nat.add_assoc]
    have hbehind (href : p.isBackReference = true) :
        NoDigit (spellItems p.isBackReference ps ++ rest) := by
      rw [href]
      exact noDigit_spellItems ((of_hasClash_cons hclash).2 href) hempty hrest
    exact hitem.sequence hbehind (hsequence rest hrest)

/-- Items in a group without a number are a sequence. -/
theorem AreItems.isAtom_sequence (h : AreItems limit enclosing g text ps)
    (htidy : (Pattern.sequence ps).isTidy = true) :
    IsAtom limit enclosing g (grouped text) (.sequence ps) := by
  obtain ⟨qs, hjoined, hsequence⟩ := h
  refine ⟨ofItems qs, ?_, fun rest _ => ?_⟩
  · have hflat : ∀ q ∈ ps, q.isSequence = false := not_isSequence_of_mem_items htidy
    rw [simplify_ofItems, joinLiterals, hjoined, flatMap_items_of_not_isSequence hflat]
    exact collapseItems_joinLiterals_items htidy
  · have hsequence := hsequence (')' :: rest) (noDigit_close rest)
    rw [groupCount]
    simpa [grouped, ofOptions] using Atom.group (.one hsequence)

/-- Options in a group without a number are an alternation. -/
theorem AreOptions.isAtom_alternation (h : AreOptions limit enclosing g text ps)
    (htidy : (Pattern.alternation ps).isTidy = true) :
    IsAtom limit enclosing g (grouped text) (.alternation ps) := by
  obtain ⟨qs, hsimplify, halternation⟩ := h
  refine ⟨ofOptions qs, ?_, fun rest _ => ?_⟩
  · have hflat : ∀ q ∈ ps, q.isAlternation = false := not_isAlternation_of_mem_options htidy
    rw [simplify_ofOptions, hsimplify, flatMap_options_of_not_isAlternation hflat]
    exact collapseOptions_options htidy
  · rw [groupCount]
    simpa [grouped] using Atom.group (halternation rest)

/-- A run is an alternation of a single option. -/
theorem IsRun.areOptions (h : IsRun limit enclosing g text p qs) :
    AreOptions limit enclosing g text [p] := by
  refine ⟨[ofItems qs], by rw [simplifyAll, simplifyAll, h.simplify], fun rest => ?_⟩
  exact .one (h.whole (noDigit_close rest))

/-- A run and a bar in front of an alternation. -/
theorem AreOptions.cons {text' : List Char} (hp : IsRun limit enclosing g text p qs)
    (hps : AreOptions limit enclosing (g + p.groupCount) text' ps) :
    AreOptions limit enclosing g (text ++ '|' :: text') (p :: ps) := by
  obtain ⟨qs', hsimplify, halternation⟩ := hps
  refine ⟨ofItems qs :: qs', by rw [simplifyAll, hp.simplify, hsimplify], fun rest => ?_⟩
  have hbar : NoDigit ('|' :: (text' ++ ')' :: rest)) := noDigit_cons (by decide)
  rw [List.append_assoc, groupCounts, ← Nat.add_assoc]
  exact .bar (hp.whole hbar) (halternation rest)

mutual
/-- The spelling of a pattern is a run that simplifies to the pattern, if its capture groups are the
next ones and everything in it can be read. -/
theorem isSpelled (limit : Nat) : ∀ (p : Pattern) (enclosing : List Nat) (g : Nat),
    p.everywhere isReadable (enclosing ++ [0]) = true →
      captures p = List.range' (g + 1) p.groupCount → g + p.groupCount ≤ limit →
        IsSpelled limit enclosing g p
  | .literal s, enclosing, g, _, _, _ => by
    refine ⟨fun h => ?_, ?_⟩
    · rw [spell]
      exact isAtom_literal (by simpa [needsGroup] using h)
    · rw [spell]
      exact exists_isRun_literal limit enclosing g s
  | .sequence ps, enclosing, g, h, hcaptures, hlimit => by
    simp only [everywhere, isReadable, isSpellable, Bool.and_eq_true, List.all_eq_true,
      Bool.not_eq_true'] at h
    obtain ⟨⟨-, -, htidy, hempty, hclash⟩, hall⟩ := h
    have hitems := areItems_spell limit ps false enclosing g hall hcaptures hlimit hempty hclash
    refine IsAtom.isSpelled ?_
    rw [spell]
    exact hitems.isAtom_sequence htidy
  | .alternation ps, enclosing, g, h, hcaptures, hlimit => by
    simp only [everywhere, isReadable, Bool.and_eq_true] at h
    obtain ⟨⟨hproper, -, htidy, -⟩, hall⟩ := h
    have hne : ps ≠ [] := by simpa [isProper] using hproper
    have hoptions := areOptions_spell limit ps enclosing g hne hall hcaptures hlimit
    refine IsAtom.isSpelled ?_
    rw [spell]
    exact hoptions.isAtom_alternation htidy
  | .repetition p min max, enclosing, g, h, hcaptures, hlimit => by
    simp only [everywhere, isReadable, isProper, isExpressible, Bool.and_eq_true,
      decide_eq_true_eq] at h
    obtain ⟨⟨horder, ⟨hmin, hmax⟩, -⟩, hp⟩ := h
    have hp := isSpelled limit p enclosing g hp hcaptures hlimit
    refine ⟨fun h => by simp [needsGroup] at h, ?_⟩
    rw [spell]
    split
    · obtain ⟨qs, hrun⟩ := hp.run
      exact hrun.isAtom_grouped.exists_isRun_repetition horder hmin hmax
    · next hgroup =>
      exact (hp.atom (Bool.not_eq_true _ ▸ hgroup)).exists_isRun_repetition horder hmin hmax
  | .capture i p, enclosing, g, h, hcaptures, hlimit => by
    simp only [everywhere, Bool.and_eq_true] at h
    rw [captures, groupCount, Nat.add_comm 1, List.range'_succ] at hcaptures
    obtain ⟨rfl, hbody⟩ := List.cons.inj hcaptures
    rw [groupCount, ← Nat.add_assoc] at hlimit
    obtain ⟨qs, hrun⟩ := (isSpelled limit p ((g + 1) :: enclosing) (g + 1) h.2 hbody hlimit).run
    refine IsAtom.isSpelled ?_
    rw [spell]
    exact hrun.isAtom_capture (by omega)
  | .backReference i, enclosing, g, h, _, _ => by
    simp only [everywhere, isReadable, isProper, isExpressible, Bool.and_eq_true,
      decide_eq_true_eq] at h
    refine IsAtom.isSpelled ?_
    rw [spell]
    exact isAtom_backReference h.2.1 (by simpa using h.1)
  | .charClass cls, enclosing, g, h, _, _ => by
    simp only [everywhere, isReadable, isExpressible, isTidy, isSpellable, Bool.and_eq_true,
      decide_eq_true_eq, Option.isNone_iff_eq_none] at h
    obtain ⟨-, hcanonical, hsingle, hspellable⟩ := h
    have hsimplify : (Pattern.charClass cls).simplify = .charClass cls := by
      simp only [simplify, hsingle]
    refine IsAtom.isSpelled (isAtom_of_leaf hsimplify (by simp only [groupCount]) fun rest _ => ?_)
    rw [spell, List.append_assoc]
    exact .charClass (hcanonical.bracket_spell hspellable)
  | .anyChar, enclosing, g, _, _, _ =>
    (isAtom_of_leaf (a := .anyChar) (by simp only [simplify]) (by simp only [groupCount])
      fun rest _ => by rw [spell]; exact .anyChar).isSpelled
  | .textStart, enclosing, g, _, _, _ =>
    (isAtom_of_leaf (a := .textStart) (by simp only [simplify]) (by simp only [groupCount])
      fun rest _ => by rw [spell]; exact .textStart).isSpelled
  | .textEnd, enclosing, g, _, _, _ =>
    (isAtom_of_leaf (a := .textEnd) (by simp only [simplify]) (by simp only [groupCount])
      fun rest _ => by rw [spell]; exact .textEnd).isSpelled

/-- The spelled items of a list are a sequence that simplifies to them. -/
theorem areItems_spell (limit : Nat) : ∀ (ps : List Pattern) (after : Bool) (enclosing : List Nat)
    (g : Nat), everywhereIn isReadable (enclosing ++ [0]) ps = true →
      capturesIn ps = List.range' (g + 1) (groupCounts ps) → g + groupCounts ps ≤ limit →
        (∀ p ∈ ps, p.isEmptyLiteral = false) → hasClash ps = false →
          AreItems limit enclosing g (spellItems after ps) ps
  | [], _, _, _, _, _, _, _, _ => ⟨[], fun _ => rfl, fun _ _ => .nil⟩
  | p :: ps, after, enclosing, g, h, hcaptures, hlimit, hempty, hclash => by
    simp only [everywhereIn, Bool.and_eq_true] at h
    obtain ⟨hfirst, hrest⟩ := captures_split hcaptures
    rw [groupCounts, ← Nat.add_assoc] at hlimit
    exact AreItems.cons
      (isSpelled limit p enclosing g h.1 hfirst (Nat.le_trans (Nat.le_add_right _ _) hlimit))
      (areItems_spell limit ps p.isBackReference enclosing (g + p.groupCount) h.2 hrest hlimit
        (List.forall_mem_cons.mp hempty).2 (of_hasClash_cons hclash).1) hempty hclash

/-- The spelled options of a list are an alternation that simplifies to them. -/
theorem areOptions_spell (limit : Nat) : ∀ (ps : List Pattern) (enclosing : List Nat) (g : Nat),
    ps ≠ [] → everywhereIn isReadable (enclosing ++ [0]) ps = true →
      capturesIn ps = List.range' (g + 1) (groupCounts ps) → g + groupCounts ps ≤ limit →
        AreOptions limit enclosing g (spellOptions ps) ps
  | [], _, _, hne, _, _, _ => absurd rfl hne
  | p :: ps, enclosing, g, _, h, hcaptures, hlimit => by
    simp only [everywhereIn, Bool.and_eq_true] at h
    obtain ⟨hfirst, hrest⟩ := captures_split hcaptures
    rw [groupCounts, ← Nat.add_assoc] at hlimit
    obtain ⟨qs, hrun⟩ :=
      (isSpelled limit p enclosing g h.1 hfirst (Nat.le_trans (Nat.le_add_right _ _) hlimit)).run
    cases ps with
    | nil =>
      rw [spellOptions]
      exact hrun.areOptions
    | cons q ps =>
      rw [spellOptions]
      exact AreOptions.cons hrun (areOptions_spell limit (q :: ps) enclosing (g + p.groupCount)
        (List.cons_ne_nil q ps) h.2 hrest hlimit)
end

end Grammar

/-- Everything in a simplified pattern that is read and spellable passes the tests of its parts. -/
theorem everywhere_isReadable_simplify {limit : Nat} {text : String} {p : Pattern}
    (h : read limit text = .ok p) (hspellable : p.simplify.isSpellableThroughout = true) :
    p.simplify.everywhere Grammar.isReadable [0] = true := by
  have hproper := isWellFormed_simplify (isWellFormed_of_read h)
  have hexpressible :=
    stable_isExpressible.everywhere_simplify p [0] (isExpressible_of_read h [0])
  have htidy := everywhere_isTidy_simplify p [0]
  have hspellable' := everywhere_change [0] hspellable
  rw [isWellFormed] at hproper
  unfold Grammar.isReadable
  rw [everywhere_and, everywhere_and, everywhere_and]
  simp only [hproper, hexpressible, htidy, hspellable', Bool.and_self]

/-- A simplified pattern that was read and is spellable is read back from its spelling, up to
simplification. -/
theorem read_render_simplify {limit : Nat} {text : String} {p : Pattern}
    (h : read limit text = .ok p) (hspellable : p.simplify.isSpellableThroughout = true) :
    ∃ q, read limit p.simplify.render = .ok q ∧ q.simplify = p.simplify := by
  obtain ⟨hcaptures, hlimit⟩ := captures_of_read h
  have hcount : p.simplify.groupCount = p.groupCount := by
    rw [← length_captures, captures_simplify, length_captures]
  obtain ⟨qs, hrun⟩ := (Grammar.isSpelled limit p.simplify [] 0
    (everywhere_isReadable_simplify h hspellable)
    (by rw [captures_simplify, hcaptures, hcount])
    (by rw [hcount, Nat.zero_add]; exact hlimit)).run
  refine ⟨ofItems qs, ?_, hrun.simplify⟩
  have halternation := Grammar.Alternation.one (hrun.whole Grammar.noDigit_nil)
  rw [List.append_nil, ← String.toList_ofList (l := p.simplify.spell)] at halternation
  exact Grammar.read_of_derives ⟨_, _, halternation, rfl⟩

/-- A negated class, a back-reference and a literal after it that begins with a digit are read
back. -/
theorem read_render_simplify_classAndReference :
    ∃ p, read 255 "([^a-c]+|x1)\\1(?:2)d?" = .ok p ∧ p.simplify.isSpellableThroughout = true ∧
      ∃ q, read 255 p.simplify.render = .ok q ∧ q.simplify = p.simplify := by
  have h : (read 255 "([^a-c]+|x1)\\1(?:2)d?").toOption.any
      (fun p => p.simplify.isSpellableThroughout) = true := by decide +kernel
  obtain ⟨p, hp, hspellable⟩ := (Option.any_eq_true _ _).mp h
  have hread := read_eq_ok_iff.mpr hp
  exact ⟨p, hread, hspellable, read_render_simplify hread hspellable⟩

/-- Whether a text is read, but its simplified pattern is not read back from its spelling. -/
def isLost (limit : Nat) (text : String) : Bool :=
  (read limit text).toOption.any fun p =>
    (read limit p.simplify.render).toOption.all fun q => q.simplify != p.simplify

/-- A repeated digit after a back-reference, an empty literal in a sequence, and complements that
are sets of ASCII characters, are empty or end at a surrogate, are lost. -/
theorem isLost_unspellable : ["(a)\\1(?:2)*", "(?:).",
    "[^\\200-".push (Char.ofNat maxCodePoint) ++ "]",
    "[^\\000-".push (Char.ofNat maxCodePoint) ++ "]",
    "[^\uE000-\uF8FF]"].all (isLost 255) = true := by
  decide +kernel

end BacktrackRegex.Pattern
