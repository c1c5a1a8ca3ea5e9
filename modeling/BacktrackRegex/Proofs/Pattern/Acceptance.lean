import BacktrackRegex.Proofs.Pattern.Derivation

/-!
# Patterns that are derived are read

Wherever a cursor stands before a phrase of the grammar, the reader of the phrase returns its tree
and stops behind it. Together with the converse this makes the grammar an exact description of the
patterns: a text is read as a tree if and only if it is derived with that tree.
-/

namespace BacktrackRegex.Pattern.Grammar

variable {limit : Nat} {enclosing : List Nat} {s : Cursor}

/-- A reader succeeds with a value and stops at a place. -/
def Reads {α : Type} {bound : Nat} (result : Except SyntaxError (Reading α bound)) (value : α)
    (place : Place) : Prop :=
  ∃ r, result = .ok r ∧ r.value = value ∧ r.next.place = place

/-- A reader goes on with what was read before. -/
theorem exists_of_bind_ok {ε α β : Type} {first : Except ε α} {rest : α → Except ε β}
    {P : β → Prop} {a : α} (h : first = .ok a) (hrest : ∃ b, rest a = .ok b ∧ P b) :
    ∃ b, (do rest (← first)) = .ok b ∧ P b := by
  rw [h]
  exact hrest

/-- Digits are not punctuation and are the letter of no control. -/
theorem not_isEscapable_of_isDigit {d : Char} (h : d.isDigit = true) :
    isEscapable d = false ∧ controlOfLetter? d = none := by
  have hall : ∀ k < 10, isEscapable (Char.ofNat (48 + k)) = false ∧
      controlOfLetter? (Char.ofNat (48 + k)) = none := by decide
  simp only [Char.isDigit, Bool.and_eq_true, decide_eq_true_eq] at h
  have hlo : 48 ≤ d.toNat := h.1
  have hhi : d.toNat ≤ 57 := h.2
  have hd := hall (d.toNat - 48) (by omega)
  rwa [Nat.add_sub_cancel' hlo, Char.ofNat_toNat] at hd

/-- The letters of controls are not punctuation. -/
theorem not_isEscapable_of_controlOfLetter? {c control : Char}
    (h : controlOfLetter? c = some control) : isEscapable c = false := by
  rw [controlOfLetter?.eq_def] at h
  split at h
  · rfl
  · rfl
  · rfl
  · rfl
  · rfl
  · simp at h

/-- Octal digits are digits. -/
theorem isDigit_of_octalDigit {d : Char} {x : Nat} (h : octalDigits[x]? = some d) :
    d.isDigit = true := by
  have hall : octalDigits.all Char.isDigit = true := by decide
  exact List.all_eq_true.mp hall d (List.mem_of_getElem? h)

/-- What stands for a character after a backslash is read as this character. -/
theorem readEscape_of_escaped {e : Option (List Nat)} {cs rest : List Char} {c : Char}
    (h : Escaped cs c rest) : ∃ n, readEscape e cs = .ok (.char c, n) ∧ cs.drop n = rest := by
  cases h with
  | punctuation h => exact ⟨1, by rw [readEscape, if_pos (isEscapable_iff.mpr h)], rfl⟩
  | control h =>
    have hcontrol := controlOfLetter?_eq_some_iff.mpr h
    refine ⟨1, ?_, rfl⟩
    rw [readEscape, not_isEscapable_of_controlOfLetter? hcontrol, hcontrol]
    rfl
  | null h =>
    refine ⟨1, ?_, rfl⟩
    obtain ⟨hescapable, hcontrol⟩ := not_isEscapable_of_isDigit (d := '0') rfl
    rw [readEscape, hescapable, hcontrol]
    exact readDigits_of_noDigit h
  | @octal a b c x y z _ ha hb hc hle =>
    refine ⟨3, ?_, rfl⟩
    have had := isDigit_of_octalDigit ha
    obtain ⟨hescapable, hcontrol⟩ := not_isEscapable_of_isDigit had
    have hchar := octalChar?_eq_some_iff.mpr ⟨x, y, z, ha, hb, hc, hle, rfl⟩
    simp only [readEscape, hescapable, hcontrol, had, readDigits, isDigit_of_octalDigit hb,
      List.head?_cons, Option.bind_some, hchar]
    rfl

/-- A digit after a backslash that no other one follows is read as a reference. -/
theorem readEscape_of_reference {d : Char} {cs : List Char} (hd : d.isDigit = true)
    (hzero : d ≠ '0') (hafter : NoDigit cs) (hopen : d.toNat - '0'.toNat ∉ enclosing) :
    readEscape (some enclosing) (d :: cs) = .ok (.backReference (d.toNat - '0'.toNat), 1) := by
  obtain ⟨hescapable, hcontrol⟩ := not_isEscapable_of_isDigit hd
  simp only [readEscape, hescapable, hcontrol, hd, readDigits_of_noDigit hafter, readDigits.alone,
    hzero, List.contains_eq_mem, decide_eq_false hopen, Bool.false_eq_true, ite_true, ite_false]

/-- A character of a class is read. -/
theorem reads_classChar {cs rest : List Char} {c : Char} (h : ClassChar cs c rest)
    (hs : s.rest = cs) : Reads (readClassChar s) c ⟨rest, s.groups⟩ := by
  cases h with
  | plain hc =>
    have hpeek := Cursor.peek_of_rest hs
    rw [readClassChar]
    split
    · next hnone => simp [hpeek] at hnone
    · next d hd =>
      obtain rfl := Option.some.inj (hpeek.symm.trans hd)
      dsimp only
      rw [if_neg hc]
      exact ⟨_, rfl, rfl, by rw [s.place_skip, hs]; rfl⟩
  | escaped h =>
    have hpeek := Cursor.peek_of_rest hs
    have hrest := Cursor.rest_skip_one hs
    obtain ⟨n, he, rfl⟩ := readEscape_of_escaped (e := none) h
    rw [readClassChar]
    split
    · next hnone => simp [hpeek] at hnone
    · next d hd =>
      obtain rfl := Option.some.inj (hpeek.symm.trans hd)
      dsimp only
      rw [if_pos rfl]
      split
      · next he' => simp [hrest, he] at he'
      · next he' => simp [hrest, he] at he'
      · next c' n' he' =>
        rw [hrest] at he'
        obtain ⟨hc', rfl⟩ := Prod.mk.inj (Except.ok.inj (he.symm.trans he'))
        obtain rfl := Escape.char.inj hc'
        exact ⟨_, rfl, rfl, by rw [s.place_skip, hs]; rfl⟩

/-- A character of a class takes up at least one character. -/
theorem ClassChar.ne_nil {cs rest : List Char} {c : Char} (h : ClassChar cs c rest) : cs ≠ [] := by
  cases h <;> exact List.cons_ne_nil _ _

/-- The members of a class are not nothing: they end with a closing bracket. -/
theorem Members.ne_nil {cs rest : List Char} {items : List (Char × Char)}
    (h : Members cs items rest) : cs ≠ [] := by
  cases h with
  | close => exact List.cons_ne_nil _ _
  | single _ hc => exact hc.ne_nil
  | hyphen _ hc => exact hc.ne_nil
  | range _ hlo => exact hlo.ne_nil

/-- The members of a class are read. -/
theorem reads_members (start : Nat) (s : Cursor) {rest : List Char} {items : List (Char × Char)}
    (h : Members s.rest items rest) : Reads (readClassItems start s) items ⟨rest, s.groups⟩ := by
  rw [readClassItems]
  split
  · next hnone =>
    rw [s.peek_zero, List.head?_eq_none_iff] at hnone
    exact absurd hnone h.ne_nil
  · next hbracket =>
    have hrest := s.rest_of_peek hbracket
    rw [s.peek_zero] at hbracket
    generalize s.rest = cs at h hbracket hrest
    cases h with
    | close =>
      exact ⟨_, rfl, rfl, by rw [Cursor.place, (List.cons.inj hrest).2]; rfl⟩
    | single hfirst => exact absurd hbracket hfirst
    | hyphen hfirst => exact absurd hbracket hfirst
    | range hfirst => exact absurd hbracket hfirst
  · next c hne hc =>
    generalize hcs : s.rest = cs at h
    cases h with
    | close => exact absurd (Option.some.inj (hc.symm.trans (Cursor.peek_of_rest hcs))) hne
    | single hfirst hchar hafter hmore =>
      obtain ⟨lo, hlo, rfl, hplace⟩ := reads_classChar hchar hcs
      obtain ⟨hrest, hgroups⟩ := Place.mk.inj hplace
      have hshort := lo.shorter
      refine exists_of_bind_ok hlo ?_
      dsimp only
      rw [if_neg (by rwa [Cursor.peek_zero, hrest])]
      obtain ⟨more, hread, rfl, hplace'⟩ := reads_members start lo.next (hrest ▸ hmore)
      exact exists_of_bind_ok hread ⟨_, rfl, rfl, by rw [hplace', hgroups]⟩
    | hyphen hfirst hchar =>
      obtain ⟨lo, hlo, rfl, hplace⟩ := reads_classChar hchar hcs
      obtain ⟨hrest, hgroups⟩ := Place.mk.inj hplace
      have hnext := Cursor.rest_skip_one hrest
      have hbracket : lo.next.peek 1 = some ']' :=
        (lo.next.peek_skip 1 0).symm.trans (Cursor.peek_of_rest hnext)
      refine exists_of_bind_ok hlo ?_
      dsimp only
      rw [if_pos (Cursor.peek_of_rest hrest)]
      split
      · next hnone => simp [hbracket] at hnone
      · exact ⟨_, rfl, rfl, by rw [Cursor.place_skip, hrest, hgroups]; rfl⟩
      · next hne' hc' => exact absurd (Option.some.inj (hc'.symm.trans hbracket)) hne'
    | range hfirst hlower hupper hhigher hle hmore =>
      obtain ⟨lo, hlo, rfl, hplace⟩ := reads_classChar hlower hcs
      obtain ⟨hrest, hgroups⟩ := Place.mk.inj hplace
      have hnext := Cursor.rest_skip_one hrest
      obtain ⟨hi, hhi, rfl, hplace'⟩ := reads_classChar hhigher hnext
      obtain ⟨hrest', hgroups'⟩ := Place.mk.inj hplace'
      have hpeek : lo.next.peek 1 = (lo.next.skip 1).rest.head? :=
        (lo.next.peek_skip 1 0).symm.trans (Cursor.peek_zero _)
      have hshort := lo.shorter
      have hshort' := hi.shorter
      have hskip := Cursor.left_skip lo.next 1
      refine exists_of_bind_ok hlo ?_
      dsimp only
      rw [if_pos (Cursor.peek_of_rest hrest)]
      split
      · next hnone =>
        rw [hpeek, hnext, List.head?_eq_none_iff] at hnone
        exact absurd hnone hhigher.ne_nil
      · next hbracket =>
        rw [hpeek, hnext] at hbracket
        exact absurd hbracket hupper
      · refine exists_of_bind_ok hhi ?_
        rw [if_neg (Char.not_lt.mpr hle)]
        obtain ⟨more, hread, rfl, hplace''⟩ := reads_members start hi.next (hrest' ▸ hmore)
        refine exists_of_bind_ok hread ⟨_, rfl, rfl, ?_⟩
        rw [hplace'', hgroups']
        exact congrArg (Place.mk _) hgroups
termination_by s.left
decreasing_by all_goals omega

/-- Whether a class begins with a member is no choice. -/
theorem Leading.unique {cs ds ds' : List Char} {leading leading' : List (Char × Char)}
    (h : Leading cs leading ds) (h' : Leading cs leading' ds') : leading = leading' ∧ ds = ds' := by
  cases h with
  | literal hc =>
    cases h' with
    | literal => exact ⟨rfl, rfl⟩
    | none hbracket hhyphen => simp_all
  | none hbracket hhyphen =>
    cases h' with
    | literal hc => simp_all
    | none => exact ⟨rfl, rfl⟩

/-- A class has a caret, a leading member and other members. -/
theorem Bracket.exists_members {cs rest : List Char} {cls : CharClass} (h : Bracket cs cls rest) :
    ∃ leading items ds, Leading (if cs.head? == some '^' then cs.drop 1 else cs) leading ds ∧
      Members ds items rest ∧ cls = classOfItems (cs.head? == some '^') (leading ++ items) := by
  cases h with
  | plain hcaret hleading hitems =>
    rw [beq_false_of_ne hcaret]
    exact ⟨_, _, _, hleading, hitems, rfl⟩
  | negated hleading hitems => exact ⟨_, _, _, hleading, hitems, rfl⟩

/-- A class is read. -/
theorem reads_class {cs rest : List Char} {cls : CharClass} (h : Bracket cs cls rest)
    (hs : s.rest = '[' :: cs) : Reads (readClass s) (.charClass cls) ⟨rest, s.groups⟩ := by
  obtain ⟨leading, items, ds, hleading, hitems, rfl⟩ := h.exists_members
  obtain rfl := Cursor.rest_skip_one hs
  have hcaret : s.peek 1 = (s.skip 1).rest.head? :=
    (s.peek_skip 1 0).symm.trans (Cursor.peek_zero _)
  rw [← hcaret] at hleading ⊢
  rw [← s.rest_body] at hleading
  obtain ⟨rfl, rfl⟩ := (leading_of_peek _).unique hleading
  obtain ⟨r, hr, rfl, hplace⟩ := reads_members s.position _ hitems
  exact exists_of_bind_ok hr ⟨_, rfl, rfl, hplace⟩

/-- An atom that is not a group is read. -/
theorem reads_leaf {c : Char} (hc : s.peek 0 = some c) {cs rest : List Char} {a : Pattern}
    (h : Leaf enclosing cs a rest) (hs : s.rest = cs) :
    Reads (readLeaf enclosing s c hc) a ⟨rest, s.groups⟩ := by
  have hskip : (s.skip 1).place = ⟨cs.drop 1, s.groups⟩ := by rw [s.place_skip, hs]
  cases h with
  | char h =>
    obtain rfl := Option.some.inj (hc.symm.trans (Cursor.peek_of_rest hs))
    have hother := isSpecial_eq_false_iff.mp h
    rw [readLeaf.eq_def]
    dsimp only
    split
    · simp at hother
    · simp at hother
    · simp at hother
    · simp at hother
    · simp at hother
    · rw [if_neg (by simp_all)]
      exact ⟨_, rfl, rfl, hskip⟩
  | anyChar =>
    obtain rfl := Option.some.inj (hc.symm.trans (Cursor.peek_of_rest hs))
    exact ⟨_, rfl, rfl, hskip⟩
  | textStart =>
    obtain rfl := Option.some.inj (hc.symm.trans (Cursor.peek_of_rest hs))
    exact ⟨_, rfl, rfl, hskip⟩
  | textEnd =>
    obtain rfl := Option.some.inj (hc.symm.trans (Cursor.peek_of_rest hs))
    exact ⟨_, rfl, rfl, hskip⟩
  | charClass h =>
    obtain rfl := Option.some.inj (hc.symm.trans (Cursor.peek_of_rest hs))
    exact reads_class h hs
  | escaped h =>
    obtain rfl := Option.some.inj (hc.symm.trans (Cursor.peek_of_rest hs))
    obtain ⟨n, he, rfl⟩ := readEscape_of_escaped (e := some enclosing) h
    rw [← Cursor.rest_skip_one hs] at he
    have hleft := Cursor.left_skip_lt (Cursor.lt_left_of_peek hc) n
    exact ⟨⟨_, s.skip (n + 1), hleft⟩, by simp only [readLeaf, he], rfl,
      by rw [s.place_skip, hs]; rfl⟩
  | backReference hd hzero hafter hopen =>
    obtain rfl := Option.some.inj (hc.symm.trans (Cursor.peek_of_rest hs))
    have he := readEscape_of_reference hd hzero hafter hopen
    rw [← Cursor.rest_skip_one hs] at he
    have hleft := Cursor.left_skip_lt (Cursor.lt_left_of_peek hc) 1
    exact ⟨⟨_, s.skip 2, hleft⟩, by simp only [readLeaf, he], rfl, by rw [s.place_skip, hs]; rfl⟩

/-- A numeral that no digit follows is read as its value. -/
theorem readCount_of_numeral {ds rest : List Char} {n : Nat} (h : Numeral ds n)
    (hrest : NoDigit rest) : readCount (ds ++ rest) = some (n, ds.length) := by
  have hnone : rest.takeWhile Char.isDigit = [] := by
    cases rest with
    | nil => rfl
    | cons c rest => rw [List.takeWhile_cons, hrest c rfl]; rfl
  have hds : (ds ++ rest).takeWhile Char.isDigit = ds := by
    rw [List.takeWhile_append_of_pos h.isDigit, hnone, List.append_nil]
  have hvalue : Text.decimalValue ds = n := by
    rw [Text.decimalValue_eq, h.value]
  have hlt : ¬ (0x100000000 ≤ n) := Nat.not_le.mpr h.lt
  simp only [readCount, hds, hvalue]
  rw [if_neg (by simp [h.ne_nil, hlt])]

/-- Bounds of a single number are read. -/
theorem readBounds_exactly {ds : List Char} {m : Nat} (hm : Numeral ds m) (cs : List Char) :
    readBounds (ds ++ '}' :: cs) = some (m, some m, ds.length + 1) := by
  rw [readBounds, readCount_of_numeral hm (noDigit_cons (by decide))]
  simp only [bind, Option.bind_some, List.drop_left]

/-- Bounds without an upper one are read. -/
theorem readBounds_atLeast {ds : List Char} {m : Nat} (hm : Numeral ds m) (cs : List Char) :
    readBounds (ds ++ ',' :: '}' :: cs) = some (m, none, ds.length + 2) := by
  rw [readBounds, readCount_of_numeral hm (noDigit_cons (by decide))]
  simp only [bind, Option.bind_some, List.drop_left]

/-- Bounds of two numbers are read. -/
theorem readBounds_between {ds es : List Char} {m n : Nat} (hm : Numeral ds m) (hn : Numeral es n)
    (cs : List Char) : readBounds (ds ++ ',' :: (es ++ '}' :: cs)) =
      some (m, some n, ds.length + 1 + es.length + 1) := by
  rw [readBounds, readCount_of_numeral hm (noDigit_cons (by decide))]
  simp only [bind, Option.bind_some, List.drop_left]
  split
  · next hc => simp at hc
  · next hc =>
    obtain ⟨d, es, rfl⟩ := List.exists_cons_of_ne_nil hn.ne_nil
    have hdigit : d.isDigit = true := hn.isDigit d List.mem_cons_self
    have hbrace : d = '}' := (List.cons.inj (List.cons.inj hc).2).1
    simp [hbrace] at hdigit
  · next hc =>
    obtain rfl := (List.cons.inj hc).2
    rw [readCount_of_numeral hn (noDigit_cons (by decide)), Option.bind_some, List.drop_left]
    rfl
  · next hne => exact absurd rfl (hne _)

/-- The text does not go on with a quantifier. -/
def NoQuantifier (cs : List Char) : Prop :=
  ∀ c ∈ cs.head?, c ∉ ['*', '+', '?', '{']

/-- A quantifier is read, and nothing else is read as one. -/
theorem reads_quantifier {atom p : Pattern} {cs rest : List Char} (h : Quantified atom cs p rest)
    (hs : s.rest = cs) (hrest : NoQuantifier rest) :
    Reads (readQuantifier atom s) p ⟨rest, s.groups⟩ := by
  have hplace (n : Nat) : (s.skip n).place = ⟨cs.drop n, s.groups⟩ := by rw [s.place_skip, hs]
  cases h with
  | none =>
    have hpeek : ∀ c ∈ s.peek 0, c ∉ ['*', '+', '?', '{'] := by rwa [s.peek_zero, hs]
    rw [readQuantifier.eq_def]
    split
    · next hc => simpa using hpeek _ hc
    · next hc => simpa using hpeek _ hc
    · next hc => simpa using hpeek _ hc
    · next hc => simpa using hpeek _ hc
    · exact ⟨_, rfl, rfl, by rw [Cursor.place, hs]⟩
  | star =>
    exact ⟨⟨_, s.skip 1, s.left_skip_lt_succ 1⟩,
      by simp only [readQuantifier, Cursor.peek_of_rest hs], rfl, hplace 1⟩
  | plus =>
    exact ⟨⟨_, s.skip 1, s.left_skip_lt_succ 1⟩,
      by simp only [readQuantifier, Cursor.peek_of_rest hs], rfl, hplace 1⟩
  | option =>
    exact ⟨⟨_, s.skip 1, s.left_skip_lt_succ 1⟩,
      by simp only [readQuantifier, Cursor.peek_of_rest hs], rfl, hplace 1⟩
  | @exactly ds _ m hm =>
    have hbounds := readBounds_exactly hm rest
    rw [← Cursor.rest_skip_one hs] at hbounds
    refine ⟨⟨_, s.skip (ds.length + 1 + 1), s.left_skip_lt_succ _⟩,
      by simp only [readQuantifier, Cursor.peek_of_rest hs, hbounds, Nat.lt_irrefl, if_false],
      rfl, ?_⟩
    rw [hplace, List.drop_succ_cons, ← List.drop_drop, List.drop_left]
    rfl
  | @atLeast ds _ m hm =>
    have hbounds := readBounds_atLeast hm rest
    rw [← Cursor.rest_skip_one hs] at hbounds
    refine ⟨⟨_, s.skip (ds.length + 2 + 1), s.left_skip_lt_succ _⟩,
      by simp only [readQuantifier, Cursor.peek_of_rest hs, hbounds], rfl, ?_⟩
    rw [hplace, List.drop_succ_cons, ← List.drop_drop, List.drop_left]
    rfl
  | @between ds es _ m n hm hn hle =>
    have hbounds := readBounds_between hm hn rest
    rw [← Cursor.rest_skip_one hs] at hbounds
    refine ⟨⟨_, s.skip (ds.length + 1 + es.length + 1 + 1), s.left_skip_lt_succ _⟩,
      by simp only [readQuantifier, Cursor.peek_of_rest hs, hbounds, Nat.not_lt.mpr hle, if_false],
      rfl, ?_⟩
    rw [hplace, List.drop_succ_cons, ← List.drop_drop, ← List.drop_drop, ← List.drop_drop,
      List.drop_left, List.drop_succ_cons, List.drop_zero, List.drop_left]
    rfl

/-- The text is at its end or goes on with a bar or a closing parenthesis. -/
def Stops (cs : List Char) : Prop :=
  ∀ c ∈ cs.head?, c = '|' ∨ c = ')'

/-- The text is at its end or goes on with a closing parenthesis. -/
def Ends (cs : List Char) : Prop :=
  ∀ c ∈ cs.head?, c = ')'

/-- A bar ends an option. -/
theorem stops_bar (cs : List Char) : Stops ('|' :: cs) :=
  fun _ hc => Or.inl (Option.some.inj hc).symm

/-- A closing parenthesis ends an alternation. -/
theorem ends_close (cs : List Char) : Ends (')' :: cs) :=
  fun _ hc => (Option.some.inj hc).symm

/-- Where an alternation ends, its last option does. -/
theorem Ends.stops {cs : List Char} (h : Ends cs) : Stops cs :=
  fun c hc => Or.inr (h c hc)

/-- An atom that is not a group begins with none of the characters that end an item. -/
theorem Leaf.exists_head {cs rest : List Char} {a : Pattern} (h : Leaf enclosing cs a rest) :
    ∃ c tail, cs = c :: tail ∧ c ∉ ['|', ')', '(', '*', '+', '?', '{'] := by
  cases h with
  | char h =>
    have hc := isSpecial_eq_false_iff.mp h
    exact ⟨_, _, rfl, by simp_all⟩
  | _ => exact ⟨_, _, rfl, by decide⟩

/-- An atom begins with none of the characters that end an item. -/
theorem Atom.exists_head {p q : Place} {a : Pattern} (h : Atom limit enclosing p a q) :
    ∃ c tail, p.rest = c :: tail ∧ c ∉ ['|', ')', '*', '+', '?', '{'] := by
  cases h with
  | leaf h =>
    obtain ⟨c, tail, rfl, hc⟩ := h.exists_head
    exact ⟨c, tail, rfl, by simp_all⟩
  | _ => exact ⟨_, _, rfl, by decide⟩

/-- An atom without a parenthesis in front is not a group. -/
theorem Atom.leaf_of_ne {p q : Place} {a : Pattern} (h : Atom limit enclosing p a q)
    (hne : p.rest.head? ≠ some '(') : Leaf enclosing p.rest a q.rest ∧ q.groups = p.groups := by
  cases h with
  | leaf h => exact ⟨h, rfl⟩
  | _ => exact absurd rfl hne

/-- A sequence that goes on to where an option ends does not begin with a quantifier. -/
theorem Sequence.noQuantifier {p q : Place} {ps : List Pattern}
    (h : Sequence limit enclosing p ps q) (hq : Stops q.rest) : NoQuantifier p.rest := by
  intro c hc
  cases h with
  | nil => obtain rfl | rfl := hq c hc <;> decide
  | cons hatom =>
    obtain ⟨d, tail, hd, hne⟩ := hatom.exists_head
    rw [hd] at hc
    obtain rfl := Option.some.inj hc
    simp_all

/-- The closing parenthesis of a group is read. -/
theorem reads_closing {cs : List Char} {g : Nat} (start : Nat) (hs : s.place = ⟨')' :: cs, g⟩) :
    Reads (readClosing start s) () ⟨cs, g⟩ := by
  obtain ⟨hrest, rfl⟩ := Place.mk.inj hs
  exact ⟨⟨(), s.skip 1, s.left_skip_lt_succ 1⟩,
    by simp only [readClosing, Cursor.peek_of_rest hrest], rfl, by rw [s.place_skip, hrest]; rfl⟩

mutual
/-- Alternations are read. -/
theorem reads_alternation (limit : Nat) (enclosing : List Nat) (s : Cursor) {q : Place}
    {ps : List Pattern} (h : Alternation limit enclosing s.place ps q) (hq : Ends q.rest) :
    Reads (readOptions limit enclosing s) ps q := by
  rw [readOptions]
  generalize hs : s.place = p at h
  cases h with
  | one h =>
    obtain ⟨first, hfirst, rfl, rfl⟩ :=
      reads_sequence limit enclosing s (hs ▸ h) hq.stops
    refine exists_of_bind_ok hfirst ?_
    dsimp only
    have hbar : ¬ first.next.peek 0 = some '|' := fun hbar => by
      rw [Cursor.peek_zero] at hbar
      exact absurd (hq _ hbar) (by decide)
    rw [dif_neg hbar]
    exact ⟨_, rfl, rfl, rfl⟩
  | bar h hmore =>
    obtain ⟨first, hfirst, rfl, hplace⟩ :=
      reads_sequence limit enclosing s (hs ▸ h) (stops_bar _)
    obtain ⟨hrest, rfl⟩ := Place.mk.inj hplace
    have hbar := Cursor.peek_of_rest hrest
    have hshort := first.shorter
    have hlt := Cursor.lt_left_of_peek hbar
    have hskip := Cursor.left_skip first.next 1
    rw [← Cursor.rest_skip_one hrest] at hmore
    obtain ⟨more, hread, rfl, rfl⟩ := reads_alternation limit enclosing (first.next.skip 1) hmore hq
    refine exists_of_bind_ok hfirst ?_
    dsimp only
    rw [dif_pos hbar]
    exact exists_of_bind_ok hread ⟨_, rfl, rfl, rfl⟩
termination_by 3 * s.left + 2
decreasing_by all_goals omega

/-- Sequences are read. -/
theorem reads_sequence (limit : Nat) (enclosing : List Nat) (s : Cursor) {q : Place}
    {ps : List Pattern} (h : Sequence limit enclosing s.place ps q) (hq : Stops q.rest) :
    Reads (readItems limit enclosing s) ps q := by
  rw [readItems]
  generalize hs : s.place = p at h
  cases h with
  | nil =>
    split
    · exact ⟨_, rfl, rfl, hs⟩
    · next c hc =>
      have hstop : c = '|' ∨ c = ')' := hq c (hs ▸ s.peek_zero ▸ hc)
      rw [if_pos hstop]
      exact ⟨_, rfl, rfl, hs⟩
  | @cons _ _ _ cs ds g a p ps hatom hquant hmore =>
    obtain ⟨d, tail, hd, hother⟩ := hatom.exists_head
    rw [← hs] at hd
    have hpeek : s.peek 0 = some d := Cursor.peek_of_rest hd
    split
    · next hnone => simp [hpeek] at hnone
    · next c hc =>
      obtain rfl := Option.some.inj (hpeek.symm.trans hc)
      have hleft := Cursor.lt_left_of_peek hpeek
      have hread : Reads (if d = '(' then readGroup limit enclosing s hleft
          else readLeaf enclosing s d hc) a ⟨cs, g⟩ := by
        split
        · next hparen => exact reads_group limit enclosing s (hs ▸ hatom) (hparen ▸ hpeek) hleft
        · next hparen =>
          obtain ⟨hleaf, hgroups⟩ := (hs ▸ hatom : Atom limit enclosing s.place a _).leaf_of_ne
            (by rw [hd]; simpa using hparen)
          obtain rfl := hgroups
          exact reads_leaf hc hleaf rfl
      obtain ⟨atom, hatom', rfl, hplace⟩ := hread
      obtain ⟨hrest, rfl⟩ := Place.mk.inj hplace
      obtain ⟨item, hitem, rfl, hplace'⟩ := reads_quantifier hquant hrest (hmore.noQuantifier hq)
      have hshort := atom.shorter
      have hshort' := item.shorter
      obtain ⟨more, hread, rfl, rfl⟩ :=
        reads_sequence limit enclosing item.next (hplace' ▸ hmore) hq
      rw [if_neg (by simp_all)]
      dsimp only
      split
      · next hparen =>
        rw [if_pos hparen] at hatom'
        refine exists_of_bind_ok hatom' (exists_of_bind_ok hitem ?_)
        exact exists_of_bind_ok hread ⟨_, rfl, rfl, rfl⟩
      · next hparen =>
        rw [if_neg hparen] at hatom'
        refine exists_of_bind_ok hatom' (exists_of_bind_ok hitem ?_)
        exact exists_of_bind_ok hread ⟨_, rfl, rfl, rfl⟩
termination_by 3 * s.left + 1
decreasing_by all_goals omega

/-- Groups are read. -/
theorem reads_group (limit : Nat) (enclosing : List Nat) (s : Cursor) {q : Place}
    {a : Pattern} (h : Atom limit enclosing s.place a q) (hc : s.peek 0 = some '(')
    (hleft : 0 < s.left) : Reads (readGroup limit enclosing s hleft) a q := by
  rw [readGroup]
  generalize hs : s.place = p at h
  cases h with
  | leaf h =>
    obtain ⟨d, tail, rfl, hother⟩ := h.exists_head
    rw [Cursor.place_of_peek hc] at hs
    obtain rfl := (List.cons.inj (Place.mk.inj hs).1).1
    simp at hother
  | group h =>
    obtain ⟨hrest, rfl⟩ := Place.mk.inj hs
    have hmark := Cursor.rest_skip_one hrest
    have hcolon := Cursor.rest_skip_one hmark
    rw [s.skip_skip 1 1] at hcolon
    have hinside := Cursor.rest_skip_one hcolon
    rw [s.skip_skip 2 1] at hinside
    have hskip := Cursor.left_skip s 3
    rw [if_pos ((s.peek_skip 1 0).symm.trans (Cursor.peek_of_rest hmark)),
      if_pos ((s.peek_skip 2 0).symm.trans (Cursor.peek_of_rest hcolon))]
    rw [← hinside] at h
    obtain ⟨inner, hinner, rfl, hplace⟩ :=
      reads_alternation limit enclosing (s.skip 3) h (ends_close _)
    obtain ⟨closing, hclosing, -, hplace'⟩ := reads_closing s.position hplace
    refine exists_of_bind_ok hinner ?_
    exact exists_of_bind_ok hclosing ⟨_, rfl, rfl, hplace'⟩
  | capture hlimit hmark h =>
    obtain ⟨hrest, rfl⟩ := Place.mk.inj hs
    have hinside := Cursor.rest_skip_one hrest
    have hopen := Cursor.left_openGroup s
    have hpeek : s.peek 1 ≠ some '?' := by
      rwa [← s.peek_skip 1 0, Cursor.peek_zero, hinside]
    rw [if_neg hpeek, if_neg (Nat.ne_of_lt hlimit)]
    rw [← hinside] at h
    obtain ⟨inner, hinner, rfl, hplace⟩ := reads_alternation limit ((s.groups + 1) :: enclosing)
      s.openGroup h (ends_close _)
    obtain ⟨closing, hclosing, -, hplace'⟩ := reads_closing s.position hplace
    refine exists_of_bind_ok hinner ?_
    exact exists_of_bind_ok hclosing ⟨_, rfl, rfl, hplace'⟩
termination_by 3 * s.left
decreasing_by all_goals omega
end

/-- A text that is read is derived with the tree that is returned. -/
theorem derives_of_read {text : String} {p : Pattern} (h : read limit text = .ok p) :
    Derives limit text p := by
  obtain ⟨options, hoptions, h⟩ := exists_of_bind_eq_ok h
  split at h
  · next hend =>
    obtain rfl := Except.ok.inj h
    obtain ⟨halternation, -⟩ :=
      alternation_of_readOptions limit [] _ (Nat.zero_le limit) options hoptions
    rw [Cursor.place, Cursor.place, List.isEmpty_iff.mp hend] at halternation
    exact ⟨options.value, options.next.groups, halternation, rfl⟩
  · simp [failAt] at h

/-- A text that is derived is read as the tree of its derivation. -/
theorem read_of_derives {text : String} {p : Pattern} (h : Derives limit text p) :
    read limit text = .ok p := by
  obtain ⟨ps, groups, h, rfl⟩ := h
  have hends : Ends [] := fun c hc => nomatch hc
  obtain ⟨options, hoptions, rfl, hplace⟩ :=
    reads_alternation limit [] ⟨text.toList, 0, 0⟩ h hends
  rw [read, hoptions]
  exact if_pos (List.isEmpty_iff.mpr (Place.mk.inj hplace).1)

/-- A text is read as a pattern if and only if the grammar derives it, and the pattern is the tree
of the derivation. -/
theorem read_eq_ok_iff_derives (limit : Nat) (text : String) (p : Pattern) :
    read limit text = .ok p ↔ Derives limit text p :=
  ⟨derives_of_read, read_of_derives⟩

end BacktrackRegex.Pattern.Grammar
