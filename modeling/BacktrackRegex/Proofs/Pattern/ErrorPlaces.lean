import BacktrackRegex.Proofs.Pattern.Brackets
import BacktrackRegex.Proofs.Pattern.Positions

/-!
# Where syntax errors are reported

A text that is not a pattern is refused at a place that shows what is wrong with it. Some errors are
reported where the reader stands and others where the class or group began, so each reader needs to
know that its cursor stands in the text, and the one for back-references that the groups around it
are those that the text has opened there.
-/

namespace BacktrackRegex.Pattern.Grammar

variable {limit : Nat} {text : List Char} {enclosing : List Nat} {s : Cursor} {e : SyntaxError}

/-! ## Places -/

/-- Reading the text leads to a place inside the capture groups `enclosing`: past items and bars,
and through the opening parentheses of groups. -/
inductive Inside (limit : Nat) (text : List Char) : List Nat → Place → Prop where
  | start : Inside limit text [] ⟨text, 0⟩
  | items {enclosing : List Nat} {p q : Place} {ps : List Pattern}
    (hp : Inside limit text enclosing p) (h : Sequence limit enclosing p ps q) :
    Inside limit text enclosing q
  | bar {enclosing : List Nat} {cs : List Char} {g : Nat}
    (hp : Inside limit text enclosing ⟨'|' :: cs, g⟩) : Inside limit text enclosing ⟨cs, g⟩
  | group {enclosing : List Nat} {cs : List Char} {g : Nat}
    (hp : Inside limit text enclosing ⟨'(' :: '?' :: ':' :: cs, g⟩) :
    Inside limit text enclosing ⟨cs, g⟩
  | capture {enclosing : List Nat} {cs : List Char} {g : Nat} (hlimit : g < limit)
    (hmark : cs.head? ≠ some '?') (hp : Inside limit text enclosing ⟨'(' :: cs, g⟩) :
    Inside limit text ((g + 1) :: enclosing) ⟨cs, g + 1⟩

/-- The place between two parts of a text is the one that a cause blames. -/
def Names (limit : Nat) (before after : List Char) : SyntaxCause → Prop
  | .unexpectedMeta c => after.head? = some c
  | .unmatchedOpen => after.head? = some '('
  | .unmatchedClose => after.head? = some ')'
  | .unknownGroup => ['(', '?'] <:+ before ∧ after.head? ≠ some ':'
  | .danglingBackslash => after = ['\\']
  | .unknownEscape c => ['\\', c] <+: after
  | .malformedOctal => ∃ d, d.isDigit = true ∧ ['\\', d] <+: after
  | .referenceInClass => ∃ d, d.isDigit = true ∧ ['\\', d] <+: after
  | .referenceToOpenGroup n => ∃ d, d.isDigit = true ∧ d.toNat - '0'.toNat = n ∧
      ['\\', d] <+: after ∧
      ∃ enclosing g, n ∈ enclosing ∧ Inside limit (before ++ after) enclosing ⟨after, g⟩
  | .malformedRepetition => after.head? = some '{'
  | .invertedRepetition m n => n < m ∧ ∃ ds es cs, Numeral ds m ∧ Numeral es n ∧
      after = '{' :: (ds ++ ',' :: (es ++ '}' :: cs))
  | .unterminatedClass => ∃ cs, after = '[' :: cs ∧ Unclosed cs
  | .invertedRange a b => b < a ∧ ∃ lower rest, lower ++ ['-'] <:+ before ∧
      ClassChar (lower ++ '-' :: after) a ('-' :: after) ∧ ClassChar after b rest
  | .tooManyGroups n => n = limit ∧ after.head? = some '('

/-- An error is reported inside the text, at the place that its cause blames. -/
structure Blames (limit : Nat) (text : List Char) (e : SyntaxError) : Prop where
  le : e.position ≤ text.length
  names : Names limit (text.take e.position) (text.drop e.position) e.cause

/-- A cause that blames the place of a cursor is reported there. -/
theorem blames_here (hs : s.At text) {c : Char} (hc : s.peek 0 = some c) {cause : SyntaxCause}
    (h : Names limit (text.take s.position) s.rest cause) :
    Blames limit text ⟨cause, s.position⟩ where
  le := Nat.le_of_lt (hs.position_lt hc)
  names := hs ▸ h

/-- A reader that goes on with what was read before fails there or later. -/
theorem error_of_bind {ε α β : Type} {first : Except ε α} {rest : α → Except ε β} {e : ε}
    (h : (do rest (← first)) = .error e) :
    first = .error e ∨ ∃ a, first = .ok a ∧ rest a = .error e := by
  cases first with
  | error e' =>
    have hsame : e' = e := Except.error.inj h
    exact Or.inl (congrArg Except.error hsame)
  | ok a => exact Or.inr ⟨a, rfl, h⟩

/-! ## Escapes -/

/-- What can be wrong with the text after a backslash, inside some groups or in a class. -/
inductive EscapeFault : Option (List Nat) → List Char → SyntaxCause → Prop where
  | dangling {scope : Option (List Nat)} : EscapeFault scope [] .danglingBackslash
  | unknown {scope : Option (List Nat)} {c : Char} {cs : List Char} :
    EscapeFault scope (c :: cs) (.unknownEscape c)
  | octal {scope : Option (List Nat)} {d : Char} {cs : List Char} (hd : d.isDigit = true) :
    EscapeFault scope (d :: cs) .malformedOctal
  | inClass {d : Char} {cs : List Char} (hd : d.isDigit = true) :
    EscapeFault none (d :: cs) .referenceInClass
  | toOpenGroup {enclosing : List Nat} {d : Char} {cs : List Char} (hd : d.isDigit = true)
    (hopen : d.toNat - '0'.toNat ∈ enclosing) :
    EscapeFault (some enclosing) (d :: cs) (.referenceToOpenGroup (d.toNat - '0'.toNat))

/-- Digits that are refused are a malformed octal escape or a reference. -/
theorem escapeFault_of_readDigits {scope : Option (List Nat)} {d : Char} {cs : List Char}
    {cause : SyntaxCause} (hd : d.isDigit = true) (h : readDigits scope d cs = .error cause) :
    EscapeFault scope (d :: cs) cause := by
  have halone (h : readDigits.alone scope d = .error cause) :
      EscapeFault scope (d :: cs) cause := by
    rw [readDigits.alone] at h
    split at h
    · cases h
    · dsimp only at h
      split at h
      · exact Except.error.inj h ▸ .inClass hd
      · split at h
        · next hopen => exact Except.error.inj h ▸ .toOpenGroup hd (by simpa using hopen)
        · cases h
  rw [readDigits.eq_def] at h
  split at h
  · split at h
    · split at h
      · cases h
      · exact Except.error.inj h ▸ .octal hd
    · exact halone h
  · exact halone h

/-- What is wrong with an escape that is refused. -/
theorem escapeFault_of_readEscape {scope : Option (List Nat)} {cs : List Char}
    {cause : SyntaxCause} (h : readEscape scope cs = .error cause) :
    EscapeFault scope cs cause := by
  rw [readEscape.eq_def] at h
  split at h
  · exact Except.error.inj h ▸ .dangling
  · split at h
    · cases h
    · split at h
      · cases h
      · split at h
        · next hd => exact escapeFault_of_readDigits hd h
        · exact Except.error.inj h ▸ .unknown

/-- What is wrong with an escape is reported at its backslash. -/
theorem blames_of_escapeFault {scope : Option (List Nat)} {cause : SyntaxCause} (hs : s.At text)
    (hc : s.peek 0 = some '\\') (h : EscapeFault scope (s.skip 1).rest cause)
    (hin : ∀ enclosing ∈ scope, Inside limit text enclosing s.place) :
    Blames limit text ⟨cause, s.position⟩ := by
  apply blames_here hs hc
  have hrest := s.rest_of_peek hc
  generalize (s.skip 1).rest = cs at h hrest
  cases h with
  | dangling => exact hrest
  | unknown => exact ⟨_, hrest.symm⟩
  | octal hd => exact ⟨_, hd, _, hrest.symm⟩
  | inClass hd => exact ⟨_, hd, _, hrest.symm⟩
  | @toOpenGroup enclosing d _ hd hopen =>
    refine ⟨d, hd, rfl, ⟨_, hrest.symm⟩, enclosing, s.groups, hopen, ?_⟩
    rw [hs.take_append]
    exact hin enclosing rfl

/-! ## Classes -/

/-- A character of a class that is refused, not at the end of the text, is an escape, and blamed at
its backslash. -/
theorem blames_of_readClassChar (hs : s.At text) {c : Char} (hc : s.peek 0 = some c)
    (h : readClassChar s = .error e) : Blames limit text e := by
  rw [readClassChar] at h
  split at h
  · next hnone => simp [hc] at hnone
  · next d hd =>
    dsimp only at h
    split at h
    · next hbackslash =>
      rw [hbackslash] at hd
      split at h
      · next cause he =>
        exact Except.error.inj h ▸
          blames_of_escapeFault hs hd (escapeFault_of_readEscape he) (fun _ hne => nomatch hne)
      · next he =>
        have hnoGroups (enclosing : List Nat) : none ≠ some enclosing := by simp
        obtain ⟨_, hx, -⟩ | ⟨_, _, -, -, -, -, -, -, enclosing, hne, -⟩ := readEscape_sound he
        · simp at hx
        · exact absurd hne (hnoGroups enclosing)
      · cases h
    · cases h

/-- Bounds in descending order are blamed at the upper one, after the hyphen. -/
theorem blames_invertedRange {lo : Reading Char s.left} (hs : s.At text)
    (hlo : readClassChar s = .ok lo) (hhyphen : lo.next.peek 0 = some '-')
    {b : Char} {rest : List Char} (hb : ClassChar (lo.next.skip 1).rest b rest)
    (hlt : b < lo.value) :
    Blames limit text ⟨.invertedRange lo.value b, lo.next.position + 1⟩ := by
  have hlower := classChar_of_readClassChar hlo
  have hnext := at_readClassChar hs hlo
  obtain ⟨d, tail, hd⟩ := List.exists_cons_of_ne_nil hb.ne_nil
  obtain ⟨lower, hcs⟩ := hlower.exists_append
  rw [lo.next.rest_of_peek hhyphen] at hlower hcs
  rw [hcs] at hlower
  refine blames_here (hnext.skip 1) (Cursor.peek_of_rest hd) ⟨hlt, lower, rest, ?_, hlower, hb⟩
  rw [List.append_cons] at hcs
  rw [hs.take_eq (hnext.skip 1) hcs]
  exact List.suffix_append _ _

/-- Members of a class that are refused are blamed where one of them is wrong, or they go on to the
end of the text and the class is blamed. -/
theorem blames_of_readClassItems (start : Nat) (s : Cursor) (hs : s.At text)
    (h : readClassItems start s = .error e) :
    Blames limit text e ∨ e = ⟨.unterminatedClass, start⟩ ∧ RunsOut s.rest := by
  rw [readClassItems] at h
  split at h
  · next hnone =>
    rw [s.peek_zero, List.head?_eq_none_iff] at hnone
    exact Or.inr ⟨(Except.error.inj h).symm, hnone ▸ runsOut_nil⟩
  · cases h
  · next c hne hc =>
    have hfirst : s.rest.head? ≠ some ']' := by
      rw [← s.peek_zero, hc]
      exact fun he => hne (Option.some.inj he)
    rcases error_of_bind h with h | ⟨lo, hlo, h⟩
    · exact Or.inl (blames_of_readClassChar hs hc h)
    have hnext := at_readClassChar hs hlo
    have hlower := classChar_of_readClassChar hlo
    have hshort := lo.shorter
    dsimp only at h
    split at h
    · next hhyphen =>
      rw [lo.next.rest_of_peek hhyphen] at hlower
      have hpeek : (lo.next.skip 1).peek 0 = lo.next.peek 1 := lo.next.peek_skip 1 0
      split at h
      · next hnone =>
        rw [← hpeek, Cursor.peek_zero, List.head?_eq_none_iff] at hnone
        exact Or.inr ⟨(Except.error.inj h).symm, runsOut_of_hyphen hfirst (hnone ▸ hlower)⟩
      · cases h
      · next d hne' hd =>
        rw [← hpeek] at hd
        rcases error_of_bind h with h | ⟨hi, hhi, h⟩
        · exact Or.inl (blames_of_readClassChar (hnext.skip 1) hd h)
        have hhigher := classChar_of_readClassChar hhi
        have hshort' := hi.shorter
        have hskip := Cursor.left_skip lo.next 1
        split at h
        · next hlt =>
          cases h
          exact Or.inl (blames_invertedRange hs hlo hhyphen hhigher hlt)
        · next hle =>
          rcases error_of_bind h with h | ⟨more, -, h⟩
          · have hupper : (lo.next.skip 1).rest.head? ≠ some ']' := by
              rw [← Cursor.peek_zero, hd]
              exact fun he => hne' (Option.some.inj he)
            have hmore := blames_of_readClassItems start hi.next
              (at_readClassChar (hnext.skip 1) hhi) h
            exact hmore.imp_right (And.imp_right
              (.after_range hfirst hlower hupper hhigher (Char.not_lt.mp hle)))
          · cases h
    · next hhyphen =>
      rw [lo.next.peek_zero] at hhyphen
      rcases error_of_bind h with h | ⟨more, -, h⟩
      · have hmore := blames_of_readClassItems start lo.next hnext h
        exact hmore.imp_right (And.imp_right (.after_char hfirst hlower hhyphen))
      · cases h
termination_by s.left
decreasing_by all_goals omega

/-- A class that is refused is blamed where one of its members is wrong, or at its opening bracket
if it never closes. -/
theorem blames_of_readClass (hs : s.At text) (hc : s.peek 0 = some '[')
    (h : readClass s = .error e) : Blames limit text e := by
  rcases error_of_bind h with h | ⟨items, -, h⟩
  · rcases blames_of_readClassItems _ _ ((hs.skip _).skip _) h with h | ⟨rfl, hitems⟩
    · exact h
    · refine blames_here hs hc ⟨_, s.rest_of_peek hc, ?_⟩
      have hleading := leading_of_peek (s.skip (if s.peek 1 == some '^' then 2 else 1))
      have hbody : (s.skip (if s.peek 1 == some '^' then 2 else 1)).rest =
          bracketBody (s.skip 1).rest := by
        rw [s.rest_body, bracketBody, isNegated, ← Cursor.peek_zero, Cursor.peek_skip]
      exact unclosed_of_runsOut (hbody ▸ hleading) hitems
  · cases h

/-! ## Atoms and quantifiers -/

/-- An atom that is not a group and is refused is blamed at an escape, in a class or at the
character that is no atom. -/
theorem blames_of_readLeaf (hs : s.At text) (hin : Inside limit text enclosing s.place) {c : Char}
    (hc : s.peek 0 = some c) (h : readLeaf enclosing s c hc = .error e) : Blames limit text e := by
  rw [readLeaf.eq_def] at h
  dsimp only at h
  split at h
  · cases h
  · cases h
  · cases h
  · next hc => exact blames_of_readClass hs hc h
  · next hc =>
    split at h
    · next cause he =>
      cases h
      refine blames_of_escapeFault hs hc (escapeFault_of_readEscape he) fun _ hsome => ?_
      exact Option.some.inj hsome ▸ hin
    · cases h
    · cases h
  · split at h
    · cases h
      exact blames_here hs hc (s.peek_zero.symm.trans hc)
    · cases h

/-- A quantifier that is refused is blamed at its opening brace. -/
theorem blames_of_readQuantifier (hs : s.At text) {atom : Pattern}
    (h : readQuantifier atom s = .error e) : Blames limit text e := by
  rw [readQuantifier.eq_def] at h
  split at h
  · cases h
  · cases h
  · cases h
  · next hc =>
    split at h
    · cases h
      exact blames_here hs hc (s.peek_zero.symm.trans hc)
    · cases h
    · next min max n hb =>
      split at h
      · next hlt =>
        cases h
        obtain ⟨ds, hds, ⟨hmax, -⟩ | ⟨hmax, -⟩ | ⟨es, k, hmax, hes, hcs⟩⟩ := bounds_of_readBounds hb
        · exact absurd (Option.some.inj hmax) (Nat.ne_of_lt hlt)
        · simp at hmax
        · obtain rfl := Option.some.inj hmax
          have hrest := (s.rest_of_peek hc).trans (congrArg _ hcs)
          exact blames_here hs hc ⟨hlt, ds, es, _, hds, hes, hrest⟩
      · cases h
  · cases h

/-- A group without its closing parenthesis is blamed where it began. -/
theorem error_of_readClosing {start : Nat} (h : readClosing start s = .error e) :
    e = ⟨.unmatchedOpen, start⟩ := by
  rw [readClosing.eq_def] at h
  split at h
  · cases h
  · exact (Except.error.inj h).symm

/-! ## Groups -/

/-- Items that are read lead to a place inside the same groups. -/
theorem inside_of_readItems (hs : s.groups ≤ limit) (hin : Inside limit text enclosing s.place)
    {r : Reading (List Pattern) (s.left + 1)} (h : readItems limit enclosing s = .ok r) :
    Inside limit text enclosing r.next.place ∧ r.next.groups ≤ limit := by
  obtain ⟨hsequence, hgroups⟩ := sequence_of_readItems limit enclosing s hs r h
  exact ⟨.items hin hsequence, hgroups⟩

/-- An atom that is read and its quantifier lead to a place inside the same groups. -/
theorem inside_of_atomRead {atom : Reading Pattern s.left}
    {item : Reading Pattern (atom.next.left + 1)} (hs : s.groups ≤ limit)
    (hin : Inside limit text enclosing s.place) (hatom : AtomRead limit enclosing s atom)
    (hitem : readQuantifier atom.value atom.next = .ok item) :
    Inside limit text enclosing item.next.place ∧ item.next.groups ≤ limit := by
  obtain ⟨hplace, hgroups⟩ := atom_of_atomRead hs hatom
  obtain ⟨hquant, hgroups'⟩ := quantified_of_readQuantifier hitem
  have hnext : item.next.place = ⟨item.next.rest, atom.next.groups⟩ := by
    rw [Cursor.place, hgroups']
  rw [hnext, hgroups']
  exact ⟨.items hin (.cons hplace hquant .nil), hgroups⟩

/-- Items that are read stop where an option does. -/
theorem stops_of_readItems (limit : Nat) (enclosing : List Nat) (s : Cursor)
    (r : Reading (List Pattern) (s.left + 1)) (h : readItems limit enclosing s = .ok r) :
    Stops r.next.rest := by
  cases itemsRead_of_readItems h with
  | nil =>
    intro c hc
    rw [← Cursor.peek_zero] at hc
    rw [readItems] at h
    split at h
    · next hnone => simp [hnone] at hc
    · next d hd =>
      obtain rfl := Option.some.inj (hd.symm.trans hc)
      refine Decidable.by_contra fun hother => ?_
      rw [if_neg hother] at h
      dsimp only at h
      split at h
      all_goals
        obtain ⟨_, -, h⟩ := exists_of_bind_eq_ok h
        obtain ⟨_, -, h⟩ := exists_of_bind_eq_ok h
        obtain ⟨_, -, h⟩ := exists_of_bind_eq_ok h
        simp at h
  | @cons atom item more _ _ _ hmore =>
    have hshort := atom.shorter
    have hshort' := item.shorter
    exact stops_of_readItems limit enclosing item.next more hmore
termination_by s.left
decreasing_by all_goals omega

/-- Options that are read stop where an alternation does. -/
theorem ends_of_readOptions (limit : Nat) (enclosing : List Nat) (s : Cursor)
    (r : Reading (List Pattern) (s.left + 1)) (h : readOptions limit enclosing s = .ok r) :
    Ends r.next.rest := by
  cases optionsRead_of_readOptions h with
  | @one first _ hfirst hlast =>
    intro c hc
    refine (stops_of_readItems limit enclosing s first hfirst c hc).resolve_left fun hbar => ?_
    rw [Cursor.peek_zero] at hlast
    exact hlast (hbar ▸ hc)
  | @bar first more _ _ hbar hmore =>
    have hshort := first.shorter
    have hlt := Cursor.lt_left_of_peek hbar
    have hskip := Cursor.left_skip first.next 1
    exact ends_of_readOptions limit enclosing (first.next.skip 1) more hmore
termination_by s.left
decreasing_by all_goals omega

/-- How items are refused: in an atom, at its quantifier or in later items. -/
inductive ItemsRefused (limit : Nat) (enclosing : List Nat) (s : Cursor) (e : SyntaxError) :
    Prop where
  | group (hc : s.peek 0 = some '(') (hleft : 0 < s.left)
    (h : readGroup limit enclosing s hleft = .error e)
  | leaf {c : Char} (hc : s.peek 0 = some c) (h : readLeaf enclosing s c hc = .error e)
  | quantifier {atom : Reading Pattern s.left} (hatom : AtomRead limit enclosing s atom)
    (h : readQuantifier atom.value atom.next = .error e)
  | more {atom : Reading Pattern s.left} {item : Reading Pattern (atom.next.left + 1)}
    (hatom : AtomRead limit enclosing s atom)
    (hitem : readQuantifier atom.value atom.next = .ok item)
    (h : readItems limit enclosing item.next = .error e)

/-- After an atom, items are refused at its quantifier or later. -/
theorem itemsRefused_after {atom : Reading Pattern s.left} (hatom : AtomRead limit enclosing s atom)
    {result : (item : Reading Pattern (atom.next.left + 1)) →
      Reading (List Pattern) (item.next.left + 1) → Reading (List Pattern) (s.left + 1)}
    (h : (do
      let item ← readQuantifier atom.value atom.next
      let more ← readItems limit enclosing item.next
      .ok (result item more)) = .error e) : ItemsRefused limit enclosing s e := by
  rcases error_of_bind h with h | ⟨item, hitem, h⟩
  · exact .quantifier hatom h
  · rcases error_of_bind h with h | ⟨more, -, h⟩
    · exact .more hatom hitem h
    · cases h

/-- Items are refused in one of these ways. -/
theorem itemsRefused_of_readItems (h : readItems limit enclosing s = .error e) :
    ItemsRefused limit enclosing s e := by
  rw [readItems] at h
  split at h
  · cases h
  · next c hc =>
    split at h
    · cases h
    · next hstop =>
      dsimp only at h
      split at h
      · next hparen =>
        subst hparen
        rcases error_of_bind h with h | ⟨atom, hatom, h⟩
        · exact .group hc _ h
        · exact itemsRefused_after (.group hc _ hatom) h
      · next hparen =>
        have hother : c ∉ ['|', ')', '('] := by
          simp only [List.mem_cons, List.not_mem_nil, or_false, not_or]
          exact ⟨fun he => hstop (Or.inl he), fun he => hstop (Or.inr he), hparen⟩
        rcases error_of_bind h with h | ⟨atom, hatom, h⟩
        · exact .leaf hc h
        · exact itemsRefused_after (.leaf hc hother hatom) h

/-- The text after an opening parenthesis begins with what is ahead of the cursor. -/
theorem head?_openGroup (s : Cursor) : s.openGroup.rest.head? = s.peek 1 := by
  rw [← Cursor.peek_zero]
  exact s.peek_skip 1 0

/-- A group of no known kind is blamed after its question mark. -/
theorem blames_unknownGroup (hs : s.At text) (hc : s.peek 0 = some '(')
    (hmark : s.peek 1 = some '?') (hcolon : s.peek 2 ≠ some ':') :
    Blames limit text ⟨.unknownGroup, (s.skip 2).position⟩ := by
  have hrest : s.rest = ['(', '?'] ++ (s.skip 2).rest := by
    rw [s.rest_of_peek hc, (s.skip 1).rest_of_peek ((s.peek_skip 1 0).trans hmark), s.skip_skip 1 1]
    rfl
  refine ⟨hs.position_lt hmark, ?_, ?_⟩
  · rw [hs.take_eq (hs.skip 2) hrest]
    exact List.suffix_append _ _
  · rw [← hs.skip 2, ← Cursor.peek_zero, Cursor.peek_skip]
    exact hcolon

mutual
/-- Options that are refused are blamed in one of them. -/
theorem blames_of_readOptions (limit : Nat) (enclosing : List Nat) (s : Cursor) (hs : s.At text)
    (hgroups : s.groups ≤ limit) (hin : Inside limit text enclosing s.place)
    (h : readOptions limit enclosing s = .error e) : Blames limit text e := by
  rw [readOptions] at h
  rcases error_of_bind h with h | ⟨first, hfirst, h⟩
  · exact blames_of_readItems limit enclosing s hs hgroups hin h
  obtain ⟨hin', hgroups'⟩ := inside_of_readItems hgroups hin hfirst
  have hnext := at_readItems limit enclosing s hs first hfirst
  have hshort := first.shorter
  dsimp only at h
  split at h
  · next hbar =>
    rw [Cursor.place_of_peek hbar] at hin'
    have hlt := Cursor.lt_left_of_peek hbar
    have hskip := Cursor.left_skip first.next 1
    rcases error_of_bind h with h | ⟨more, -, h⟩
    · exact blames_of_readOptions limit enclosing (first.next.skip 1) (hnext.skip 1) hgroups'
        (.bar hin') h
    · cases h
  · cases h
termination_by 3 * s.left + 2
decreasing_by all_goals omega

/-- Items that are refused are blamed in an atom or at its quantifier. -/
theorem blames_of_readItems (limit : Nat) (enclosing : List Nat) (s : Cursor) (hs : s.At text)
    (hgroups : s.groups ≤ limit) (hin : Inside limit text enclosing s.place)
    (h : readItems limit enclosing s = .error e) : Blames limit text e := by
  cases itemsRefused_of_readItems h with
  | group hc hleft h => exact blames_of_readGroup limit enclosing s hs hgroups hin hc hleft h
  | leaf hc h => exact blames_of_readLeaf hs hin hc h
  | quantifier hatom h => exact blames_of_readQuantifier (at_atomRead hs hatom) h
  | @more atom item hatom hitem h =>
    obtain ⟨hin', hgroups'⟩ := inside_of_atomRead hgroups hin hatom hitem
    have hnext := at_readQuantifier (at_atomRead hs hatom) hitem
    have hshort := atom.shorter
    have hshort' := item.shorter
    exact blames_of_readItems limit enclosing item.next hnext hgroups' hin' h
termination_by 3 * s.left + 1
decreasing_by all_goals omega

/-- A group that is refused is blamed inside it or at its opening parenthesis, or after the question
mark if it is of no known kind. -/
theorem blames_of_readGroup (limit : Nat) (enclosing : List Nat) (s : Cursor) (hs : s.At text)
    (hgroups : s.groups ≤ limit) (hin : Inside limit text enclosing s.place)
    (hc : s.peek 0 = some '(') (hleft : 0 < s.left)
    (h : readGroup limit enclosing s hleft = .error e) : Blames limit text e := by
  have hopened : s.rest.head? = some '(' := s.peek_zero.symm.trans hc
  rw [Cursor.place_of_peek hc] at hin
  rw [readGroup] at h
  split at h
  · next hmark =>
    have hrest := (s.skip 1).rest_of_peek ((s.peek_skip 1 0).trans hmark)
    rw [s.skip_skip 1 1] at hrest
    split at h
    · next hcolon =>
      have hskip := Cursor.left_skip s 3
      rw [hrest, (s.skip 2).rest_of_peek ((s.peek_skip 2 0).trans hcolon), s.skip_skip 2 1] at hin
      rcases error_of_bind h with h | ⟨inner, -, h⟩
      · exact blames_of_readOptions limit enclosing (s.skip 3) (hs.skip 3) hgroups (.group hin) h
      · rcases error_of_bind h with h | ⟨closing, -, h⟩
        · obtain rfl := error_of_readClosing h
          exact blames_here hs hc hopened
        · cases h
    · next hcolon =>
      cases h
      exact blames_unknownGroup hs hc hmark hcolon
  · next hmark =>
    split at h
    · cases h
      exact blames_here hs hc ⟨rfl, hopened⟩
    · next hlimit =>
      have hlt : s.groups < limit := Nat.lt_of_le_of_ne hgroups hlimit
      have hopen := Cursor.left_openGroup s
      rcases error_of_bind h with h | ⟨inner, -, h⟩
      · have hinside := Inside.capture hlt (head?_openGroup s ▸ hmark) hin
        exact blames_of_readOptions limit ((s.groups + 1) :: enclosing) s.openGroup hs.openGroup hlt
          hinside h
      · rcases error_of_bind h with h | ⟨closing, -, h⟩
        · obtain rfl := error_of_readClosing h
          exact blames_here hs hc hopened
        · cases h
termination_by 3 * s.left
decreasing_by all_goals omega
end

/-- A text that is refused is blamed inside it, at the place that shows what is wrong: at the
character, parenthesis, brace or bracket that the error speaks of, at the backslash of a bad escape,
after a question mark that makes a group of no known kind, or at the upper bound of a range in
descending order. -/
theorem blames_of_read {text : String} (h : read limit text = .error e) :
    e.position ≤ text.length ∧
      Names limit (text.toList.take e.position) (text.toList.drop e.position) e.cause := by
  have hs : Cursor.At text.toList ⟨text.toList, 0, 0⟩ := rfl
  suffices hblames : Blames limit text.toList e from
    ⟨String.length_toList ▸ hblames.le, hblames.names⟩
  rcases error_of_bind h with h | ⟨options, hoptions, h⟩
  · exact blames_of_readOptions limit [] _ hs (Nat.zero_le limit) .start h
  · split at h
    · cases h
    · next hrest =>
      cases h
      have hends := ends_of_readOptions limit [] _ options hoptions
      rw [List.isEmpty_iff] at hrest
      obtain ⟨c, cs, hcs⟩ := List.exists_cons_of_ne_nil hrest
      obtain rfl := hends c (by rw [hcs]; rfl)
      exact blames_here (at_readOptions limit [] _ hs options hoptions) (Cursor.peek_of_rest hcs)
        (by rw [hcs]; rfl)

/-- A back-reference to a group that is closed is read, and one to a group that is open is blamed at
its backslash. -/
theorem blames_of_read_openGroup :
    read 255 "(a)(b\\1\\2)" = .error ⟨.referenceToOpenGroup 2, 7⟩ ∧ 7 ≤ "(a)(b\\1\\2)".length ∧
      Names 255 "(a)(b\\1".toList "\\2)".toList (.referenceToOpenGroup 2) := by
  have h : (match read 255 "(a)(b\\1\\2)" with | .error e => some e | .ok _ => none) =
      some ⟨.referenceToOpenGroup 2, 7⟩ := by decide +kernel
  split at h
  · next e he =>
    obtain rfl := Option.some.inj h
    exact ⟨he, blames_of_read he⟩
  · cases h

end BacktrackRegex.Pattern.Grammar
