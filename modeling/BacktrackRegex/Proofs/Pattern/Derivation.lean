import BacktrackRegex.Proofs.Pattern.Grammar
import BacktrackRegex.Proofs.Pattern.Reading
import BacktrackRegex.Proofs.Text.Numeral

/-!
# Patterns that are read are derived

Whatever a reader returns is a phrase of the grammar between the place where it began and the place
where it stopped. The induction descends on what is left of the text, as the readers do.
-/

namespace BacktrackRegex

/-- The place of a cursor in the grammar's terms. -/
def Cursor.place (s : Cursor) : Pattern.Grammar.Place :=
  ⟨s.rest, s.groups⟩

/-- The next character of a text is its head. -/
theorem Cursor.rest_of_peek {s : Cursor} {c : Char} (h : s.peek 0 = some c) :
    s.rest = c :: (s.skip 1).rest := by
  obtain ⟨rest, position, groups⟩ := s
  cases rest with
  | nil => simp [peek] at h
  | cons d rest => simpa [peek, skip] using h

/-- The next character of a text is the head at its place. -/
theorem Cursor.place_of_peek {s : Cursor} {c : Char} (h : s.peek 0 = some c) :
    s.place = ⟨c :: (s.skip 1).rest, s.groups⟩ := by
  rw [place, s.rest_of_peek h]

/-- The next character of a text is its head, if there is one. -/
theorem Cursor.peek_zero (s : Cursor) : s.peek 0 = s.rest.head? :=
  (List.head?_eq_getElem? ..).symm

/-- Skipping characters keeps the number of opened groups. -/
theorem Cursor.place_skip (s : Cursor) (n : Nat) : (s.skip n).place = ⟨s.rest.drop n, s.groups⟩ :=
  rfl

/-- The head at a place is the next character of the text. -/
theorem Cursor.peek_of_rest {s : Cursor} {c : Char} {cs : List Char} (h : s.rest = c :: cs) :
    s.peek 0 = some c := by
  rw [peek_zero, h, List.head?_cons]

/-- What is left after the head of a text. -/
theorem Cursor.rest_skip_one {s : Cursor} {c : Char} {cs : List Char} (h : s.rest = c :: cs) :
    (s.skip 1).rest = cs := by
  rw [skip, h, List.drop_succ_cons, List.drop_zero]

/-- Looking ahead from a later place is looking further ahead. -/
theorem Cursor.peek_skip (s : Cursor) (m n : Nat) : (s.skip m).peek n = s.peek (m + n) :=
  List.getElem?_drop

/-- Skipping some characters and then others is skipping all of them. -/
theorem Cursor.skip_skip (s : Cursor) (m n : Nat) : (s.skip m).skip n = s.skip (m + n) := by
  simp only [skip, List.drop_drop, Nat.add_assoc]

/-- Skipping one more character is skipping in what comes after the first one. -/
theorem Cursor.rest_skip_succ (s : Cursor) (n : Nat) :
    (s.skip (n + 1)).rest = (s.skip 1).rest.drop n := by
  simp only [skip, List.drop_drop, Nat.add_comm]

/-- What comes after the opening bracket of a class and its caret. -/
theorem Cursor.rest_body (s : Cursor) :
    (s.skip (if s.peek 1 == some '^' then 2 else 1)).rest =
      if s.peek 1 == some '^' then (s.skip 1).rest.drop 1 else (s.skip 1).rest := by
  split
  · exact s.rest_skip_succ 1
  · rfl

namespace Pattern.Grammar

variable {limit : Nat} {enclosing : List Nat} {s : Cursor}

/-! ## The tables of escapes -/

/-- The characters that a backslash takes literally are punctuation. -/
theorem isEscapable_iff {c : Char} : isEscapable c = true ↔ IsPunctuation c := by
  have hpunctuation : " !\"#$%&'()*+,-./:;<=>?@[\\]^_\x60\x7b|\x7d~".toList.all
      (fun d => decide (IsPunctuation d)) = true := by
    decide
  have hsmall : ∀ n < 128, IsPunctuation (Char.ofNat n) → isEscapable (Char.ofNat n) = true := by
    decide
  constructor
  · intro h
    exact of_decide_eq_true (List.all_eq_true.mp hpunctuation c (List.contains_iff_mem.mp h))
  · intro h
    have hlt : c.toNat < 128 := by
      have htilde : c ≤ '~' := by
        rcases h with h | h | h | h <;> exact Char.le_trans h.2 (by decide)
      exact Nat.lt_of_le_of_lt htilde (by decide)
    have := hsmall c.toNat hlt
    rw [Char.ofNat_toNat] at this
    exact this h

/-- The letters of controls are those of the table. -/
theorem controlOfLetter?_eq_some_iff {c control : Char} :
    controlOfLetter? c = some control ↔ (c, control) ∈ controls := by
  constructor
  · intro h
    rw [controlOfLetter?.eq_def] at h
    split at h
    case h_6 => simp at h
    all_goals
      obtain rfl := Option.some.inj h
      decide
  · intro h
    simp only [controls, List.mem_cons, Prod.mk.injEq, List.not_mem_nil, or_false] at h
    rcases h with ⟨rfl, rfl⟩ | ⟨rfl, rfl⟩ | ⟨rfl, rfl⟩ | ⟨rfl, rfl⟩ | ⟨rfl, rfl⟩ <;> rfl

/-- The value of an octal digit is its place among them. -/
theorem octalDigit?_eq_some_iff {c : Char} {x : Nat} :
    Text.octalDigit? c = some x ↔ octalDigits[x]? = some c := by
  have hdigit : ∀ x < 8, octalDigits[x]? = some (Char.ofNat (48 + x)) ∧
      Text.octalDigit? (Char.ofNat (48 + x)) = some x := by decide
  constructor
  · intro h
    rw [Text.octalDigit?] at h
    split at h
    · next hc =>
      obtain rfl := Option.some.inj h
      have hlo : 48 ≤ c.toNat := hc.1
      have hhi : c.toNat ≤ 55 := hc.2
      have hx := (hdigit (c.toNat - 48) (by omega)).1
      rwa [Nat.add_sub_cancel' hlo, Char.ofNat_toNat] at hx
    · simp at h
  · intro h
    have hx : x < 8 := (List.getElem?_eq_some_iff.mp h).1
    obtain rfl := Option.some.inj ((hdigit x hx).1.symm.trans h)
    exact (hdigit x hx).2

/-- Three digits are an octal escape if they have a value below 256. -/
theorem octalChar?_eq_some_iff {a b c ch : Char} : octalChar? a b c = some ch ↔
    ∃ x y z, octalDigits[x]? = some a ∧ octalDigits[y]? = some b ∧ octalDigits[z]? = some c ∧
      x * 64 + y * 8 + z ≤ 0o377 ∧ ch = Char.ofNat (x * 64 + y * 8 + z) := by
  simp only [octalChar?, bind, Option.bind_eq_some_iff, octalDigit?_eq_some_iff]
  constructor
  · rintro ⟨x, hx, y, hy, z, hz, h⟩
    split at h
    · next hlt => exact ⟨x, y, z, hx, hy, hz, Nat.le_of_lt_succ hlt, (Option.some.inj h).symm⟩
    · simp at h
  · rintro ⟨x, y, z, hx, hy, hz, hle, rfl⟩
    exact ⟨x, hx, y, hy, z, hz, if_pos (Nat.lt_succ_of_le hle)⟩

/-! ## Escapes -/

/-- A digit that no other one follows stands alone. -/
theorem readDigits_of_noDigit {e : Option (List Nat)} {d : Char} {cs : List Char} (h : NoDigit cs) :
    readDigits e d cs = readDigits.alone e d := by
  rw [readDigits.eq_def]
  split
  · next c more =>
    rw [if_neg (by simp [h c (by simp)])]
  · rfl

/-- Text that does not begin with a digit. -/
theorem noDigit_cons {d : Char} {cs : List Char} (h : ¬ d.isDigit = true) : NoDigit (d :: cs) := by
  simpa [NoDigit] using h

/-- What digits stand for is an escaped character, or a reference to a group that is not open. -/
theorem readDigits_sound {e : Option (List Nat)} {d : Char} {cs : List Char} {x : Escape} {n : Nat}
    (h : readDigits e d cs = .ok (x, n)) :
    (∃ c, x = .char c ∧ Escaped (d :: cs) c ((d :: cs).drop n)) ∨
      x = .backReference (d.toNat - '0'.toNat) ∧ n = 1 ∧ d ≠ '0' ∧ NoDigit cs ∧
        ∃ enclosing, e = some enclosing ∧ d.toNat - '0'.toNat ∉ enclosing := by
  have halone (hcs : NoDigit cs) (h : readDigits.alone e d = .ok (x, n)) :
      (∃ c, x = .char c ∧ Escaped (d :: cs) c ((d :: cs).drop n)) ∨
        x = .backReference (d.toNat - '0'.toNat) ∧ n = 1 ∧ d ≠ '0' ∧ NoDigit cs ∧
          ∃ enclosing, e = some enclosing ∧ d.toNat - '0'.toNat ∉ enclosing := by
    rw [readDigits.alone] at h
    split at h
    · next hd =>
      obtain ⟨rfl, rfl⟩ := Prod.mk.inj (Except.ok.inj h)
      exact Or.inl ⟨_, rfl, hd ▸ .null hcs⟩
    · next hd =>
      dsimp only at h
      split at h
      · simp at h
      · next enclosing _ =>
        split at h
        · simp at h
        · next hopen =>
          obtain ⟨rfl, rfl⟩ := Prod.mk.inj (Except.ok.inj h)
          exact Or.inr ⟨rfl, rfl, hd, hcs, enclosing, rfl, by simpa using hopen⟩
  rw [readDigits.eq_def] at h
  split at h
  · next b more =>
    split at h
    · split at h
      · next c hc =>
        obtain ⟨rfl, rfl⟩ := Prod.mk.inj (Except.ok.inj h)
        obtain ⟨c', hc', ho⟩ := Option.bind_eq_some_iff.mp hc
        obtain ⟨x, y, z, hx, hy, hz, hle, rfl⟩ := octalChar?_eq_some_iff.mp ho
        cases more with
        | nil => simp at hc'
        | cons c'' more =>
          obtain rfl := Option.some.inj hc'
          exact Or.inl ⟨_, rfl, .octal hx hy hz hle⟩
      · simp at h
    · next hb => exact halone (noDigit_cons hb) h
  · exact halone (by simp [NoDigit]) h

/-- What the characters after a backslash stand for is an escaped character, or a reference to a
group that is not open. -/
theorem readEscape_sound {e : Option (List Nat)} {cs : List Char} {x : Escape} {n : Nat}
    (h : readEscape e cs = .ok (x, n)) :
    (∃ c, x = .char c ∧ Escaped cs c (cs.drop n)) ∨
      ∃ d rest, cs = d :: rest ∧ x = .backReference (d.toNat - '0'.toNat) ∧ n = 1 ∧
        d.isDigit = true ∧ d ≠ '0' ∧ NoDigit rest ∧
        ∃ enclosing, e = some enclosing ∧ d.toNat - '0'.toNat ∉ enclosing := by
  rw [readEscape.eq_def] at h
  split at h
  · simp at h
  · next c more =>
    split at h
    · next hc =>
      obtain ⟨rfl, rfl⟩ := Prod.mk.inj (Except.ok.inj h)
      exact Or.inl ⟨c, rfl, .punctuation (isEscapable_iff.mp hc)⟩
    · split at h
      · next control hcontrol =>
        obtain ⟨rfl, rfl⟩ := Prod.mk.inj (Except.ok.inj h)
        exact Or.inl ⟨control, rfl, .control (controlOfLetter?_eq_some_iff.mp hcontrol)⟩
      · split at h
        · next hd =>
          obtain hchar | ⟨rfl, rfl, hzero, hmore, hopen⟩ := readDigits_sound h
          · exact Or.inl hchar
          · exact Or.inr ⟨c, more, rfl, rfl, rfl, hd, hzero, hmore, hopen⟩
        · simp at h

/-- A character of a class that is read is derived. -/
theorem classChar_of_readClassChar {r : Reading Char s.left} (h : readClassChar s = .ok r) :
    ClassChar s.rest r.value r.next.rest := by
  rw [readClassChar] at h
  split at h
  · simp [failAt] at h
  · next c hc =>
    rw [s.rest_of_peek hc]
    dsimp only at h
    split at h
    · next hbackslash =>
      split at h
      · simp [failAt] at h
      · simp [failAt] at h
      · next c' n he =>
        obtain rfl := Except.ok.inj h
        obtain rfl := hbackslash
        obtain ⟨c'', hx, hescaped⟩ | ⟨d, rest, -, hx, -⟩ := readEscape_sound he
        · obtain rfl := Escape.char.inj hx
          exact .escaped (s.rest_skip_succ n ▸ hescaped)
        · simp at hx
    · next hbackslash =>
      obtain rfl := Except.ok.inj h
      exact .plain hbackslash

/-- The members of a class that are read are derived. -/
theorem members_of_readClassItems (start : Nat) (s : Cursor)
    (r : Reading (List (Char × Char)) s.left) (h : readClassItems start s = .ok r) :
    Members s.rest r.value r.next.rest := by
  rw [readClassItems] at h
  split at h
  · simp [failAt] at h
  · next hc =>
    obtain rfl := Except.ok.inj h
    rw [s.rest_of_peek hc]
    exact .close
  · next c hne hc =>
    have hfirst : s.rest.head? ≠ some ']' := by
      rw [← s.peek_zero, hc]
      exact fun he => hne (Option.some.inj he)
    obtain ⟨lo, hlo, h⟩ := exists_of_bind_eq_ok h
    have hlochar := classChar_of_readClassChar hlo
    have hshort := lo.shorter
    dsimp only at h
    split at h
    · next hhyphen =>
      rw [lo.next.rest_of_peek hhyphen] at hlochar
      split at h
      · simp [failAt] at h
      · next hbracket =>
        obtain rfl := Except.ok.inj h
        rw [← Cursor.peek_skip lo.next 1 0] at hbracket
        rw [Cursor.rest_of_peek hbracket] at hlochar
        exact .hyphen hfirst (lo.next.rest_skip_succ 1 ▸ hlochar)
      · next c' hne' hc' =>
        obtain ⟨hi, hhi, h⟩ := exists_of_bind_eq_ok h
        have hhichar := classChar_of_readClassChar hhi
        have hshort' := hi.shorter
        split at h
        · simp [failAt] at h
        · next hle =>
          obtain ⟨more, hmore, h⟩ := exists_of_bind_eq_ok h
          obtain rfl := Except.ok.inj h
          have := Cursor.left_skip lo.next 1
          have hupper : (lo.next.skip 1).rest.head? ≠ some ']' := by
            rw [← Cursor.peek_zero, Cursor.peek_skip, hc']
            exact fun he => hne' (Option.some.inj he)
          exact .range hfirst hlochar hupper hhichar (Char.not_lt.mp hle)
            (members_of_readClassItems start _ more hmore)
    · next hhyphen =>
      obtain ⟨more, hmore, h⟩ := exists_of_bind_eq_ok h
      obtain rfl := Except.ok.inj h
      exact .single hfirst hlochar (lo.next.peek_zero ▸ hhyphen)
        (members_of_readClassItems start _ more hmore)
termination_by s.left
decreasing_by all_goals omega

/-- What a class begins with is the leading member that the reader takes. -/
theorem leading_of_peek (s : Cursor) :
    Leading s.rest (match s.peek 0 with
        | some ']' => [(']', ']')]
        | some '-' => [('-', '-')]
        | _ => [])
      (s.skip (match s.peek 0 with
        | some ']' => [(']', ']')]
        | some '-' => [('-', '-')]
        | _ => []).length).rest := by
  split
  · next hc => exact s.rest_of_peek hc ▸ .literal (Or.inl rfl)
  · next hc => exact s.rest_of_peek hc ▸ .literal (Or.inr rfl)
  · next hbracket hhyphen =>
    rw [s.peek_zero] at hbracket hhyphen
    exact .none hbracket hhyphen

/-- A class is a caret, if it begins with one, a leading member and the other members. -/
theorem bracket_of_members {cs ds rest : List Char} {leading items : List (Char × Char)}
    {negated : Bool} (hnegated : negated = (cs.head? == some '^'))
    (hleading : Leading (if negated then cs.drop 1 else cs) leading ds)
    (hitems : Members ds items rest) :
    Bracket cs (classOfItems negated (leading ++ items)) rest := by
  cases negated with
  | false => exact .plain (by simpa using hnegated.symm) hleading hitems
  | true =>
    obtain ⟨tail, rfl⟩ := List.head?_eq_some_iff.mp (eq_of_beq hnegated.symm)
    exact .negated hleading hitems

/-- A class that is read is derived, and opens no group. -/
theorem leaf_of_readClass {r : Reading Pattern s.left} (hs : s.peek 0 = some '[')
    (h : readClass s = .ok r) :
    Leaf enclosing s.rest r.value r.next.rest ∧ r.next.groups = s.groups := by
  obtain ⟨items, hitems, h⟩ := exists_of_bind_eq_ok h
  obtain rfl := Except.ok.inj h
  refine ⟨?_, groups_readClassItems _ _ items hitems⟩
  rw [s.rest_of_peek hs]
  refine .charClass (bracket_of_members ?_ (s.rest_body ▸ leading_of_peek _)
    (members_of_readClassItems _ _ items hitems))
  rw [← Cursor.peek_zero, Cursor.peek_skip]

/-- An atom that is not a group and is read is derived, and opens no group. -/
theorem leaf_of_readLeaf {c : Char} (hc : s.peek 0 = some c) {r : Reading Pattern s.left}
    (h : readLeaf enclosing s c hc = .ok r) (hother : c ∉ ['|', ')', '(']) :
    Leaf enclosing s.rest r.value r.next.rest ∧ r.next.groups = s.groups := by
  have hrest := s.rest_of_peek hc
  rw [readLeaf.eq_def] at h
  dsimp only at h
  split at h
  · obtain rfl := Except.ok.inj h
    exact ⟨hrest ▸ .textStart, rfl⟩
  · obtain rfl := Except.ok.inj h
    exact ⟨hrest ▸ .textEnd, rfl⟩
  · obtain rfl := Except.ok.inj h
    exact ⟨hrest ▸ .anyChar, rfl⟩
  · next hs => exact leaf_of_readClass hs h
  · split at h
    · simp [failAt] at h
    · next c' n he =>
      obtain rfl := Except.ok.inj h
      obtain ⟨c'', hx, hescaped⟩ | ⟨d, rest, -, hx, -⟩ := readEscape_sound he
      · obtain rfl := Escape.char.inj hx
        rw [hrest]
        exact ⟨.escaped (s.rest_skip_succ n ▸ hescaped), rfl⟩
      · simp at hx
    · next index n he =>
      obtain rfl := Except.ok.inj h
      obtain ⟨c'', hx, -⟩ | ⟨d, rest, hcs, hx, rfl, hd, hzero, hafter, _, henclosing, hopen⟩ :=
        readEscape_sound he
      · simp at hx
      · obtain rfl := Escape.backReference.inj hx
        obtain rfl := Option.some.inj henclosing
        have hnext : (s.skip (1 + 1)).rest = rest := by rw [s.rest_skip_succ 1, hcs]; rfl
        refine ⟨?_, rfl⟩
        change Leaf enclosing s.rest _ (s.skip (1 + 1)).rest
        rw [hnext, hrest, hcs]
        exact .backReference hd hzero hafter hopen
  · split at h
    · simp [failAt] at h
    · next hcaret hdollar hdot hbracket hbackslash hmeta =>
      obtain rfl := Except.ok.inj h
      rw [hrest]
      refine ⟨.char (isSpecial_eq_false_iff.mpr ?_), rfl⟩
      simp_all

/-- A count that is read is a numeral in front of the rest. -/
theorem readCount_sound {cs : List Char} {n k : Nat} (h : readCount cs = some (n, k)) :
    ∃ ds, Numeral ds n ∧ cs = ds ++ cs.drop k := by
  simp only [readCount] at h
  split at h
  · simp at h
  · next hds =>
    simp only [Bool.or_eq_true, List.isEmpty_iff, decide_eq_true_eq, not_or, Nat.not_le] at hds
    obtain ⟨rfl, rfl⟩ := Prod.mk.inj (Option.some.inj h)
    have hprefix := List.prefix_iff_eq_append.mp (List.takeWhile_prefix (l := cs) Char.isDigit)
    exact ⟨cs.takeWhile Char.isDigit, ⟨hds.1, List.all_eq_true.mp List.all_takeWhile,
      (Text.decimalValue_eq _).symm, hds.2⟩, hprefix.symm⟩

/-- Bounds that are read are one numeral, one with a comma after it, or two. -/
theorem bounds_of_readBounds {cs : List Char} {m k : Nat} {max : Option Nat}
    (h : readBounds cs = some (m, max, k)) : ∃ ds, Numeral ds m ∧
      (max = some m ∧ cs = ds ++ '}' :: cs.drop k ∨
        max = none ∧ cs = ds ++ ',' :: '}' :: cs.drop k ∨
        ∃ es n, max = some n ∧ Numeral es n ∧ cs = ds ++ ',' :: (es ++ '}' :: cs.drop k)) := by
  obtain ⟨⟨m', j⟩, hm, h⟩ := Option.bind_eq_some_iff.mp h
  obtain ⟨ds, hds, hcs⟩ := readCount_sound hm
  dsimp only at h
  split at h
  · next rest hrest =>
    simp only [Option.some.injEq, Prod.mk.injEq] at h
    obtain ⟨rfl, rfl, rfl⟩ := h
    refine ⟨ds, hds, Or.inl ⟨rfl, ?_⟩⟩
    rw [← List.drop_drop, hrest]
    exact hcs.trans (congrArg _ hrest)
  · next rest hrest =>
    simp only [Option.some.injEq, Prod.mk.injEq] at h
    obtain ⟨rfl, rfl, rfl⟩ := h
    refine ⟨ds, hds, Or.inr (Or.inl ⟨rfl, ?_⟩)⟩
    rw [← List.drop_drop, hrest]
    exact hcs.trans (congrArg _ hrest)
  · next more _ hrest =>
    obtain ⟨⟨n, i⟩, hn, h⟩ := Option.bind_eq_some_iff.mp h
    obtain ⟨es, hes, hmore⟩ := readCount_sound hn
    dsimp only at h
    split at h
    · next hclose =>
      simp only [Option.some.injEq, Prod.mk.injEq] at h
      obtain ⟨rfl, rfl, rfl⟩ := h
      obtain ⟨rest, hrest'⟩ := List.head?_eq_some_iff.mp hclose
      refine ⟨ds, hds, Or.inr (Or.inr ⟨es, n, rfl, hes, ?_⟩)⟩
      rw [← List.drop_drop, ← List.drop_drop, ← List.drop_drop, hrest, List.drop_succ_cons,
        List.drop_zero, hrest', List.drop_succ_cons, List.drop_zero, ← hrest', ← hmore, ← hrest]
      exact hcs
    · simp at h
  · simp at h

/-- Bounds that are read are a quantifier, if they are in order. -/
theorem quantified_of_readBounds {atom : Pattern} {cs : List Char} {m k : Nat} {max : Option Nat}
    (h : readBounds cs = some (m, max, k)) (hle : ∀ n ∈ max, m ≤ n) :
    Quantified atom ('{' :: cs) (.repetition atom m max) (cs.drop k) := by
  obtain ⟨ds, hds, ⟨rfl, hcs⟩ | ⟨rfl, hcs⟩ | ⟨es, n, rfl, hes, hcs⟩⟩ := bounds_of_readBounds h
  · generalize cs.drop k = rest at hcs ⊢
    exact hcs ▸ .exactly hds
  · generalize cs.drop k = rest at hcs ⊢
    exact hcs ▸ .atLeast hds
  · generalize cs.drop k = rest at hcs ⊢
    exact hcs ▸ .between hds hes (hle n rfl)

/-- A quantifier that is read is derived, and opens no group. -/
theorem quantified_of_readQuantifier {atom : Pattern} {r : Reading Pattern (s.left + 1)}
    (h : readQuantifier atom s = .ok r) :
    Quantified atom s.rest r.value r.next.rest ∧ r.next.groups = s.groups := by
  rw [readQuantifier.eq_def] at h
  split at h
  · next hc =>
    obtain rfl := Except.ok.inj h
    exact ⟨s.rest_of_peek hc ▸ .star, rfl⟩
  · next hc =>
    obtain rfl := Except.ok.inj h
    exact ⟨s.rest_of_peek hc ▸ .plus, rfl⟩
  · next hc =>
    obtain rfl := Except.ok.inj h
    exact ⟨s.rest_of_peek hc ▸ .option, rfl⟩
  · next hc =>
    rw [s.rest_of_peek hc]
    split at h
    · simp [failAt] at h
    · next min n hb =>
      obtain rfl := Except.ok.inj h
      exact ⟨s.rest_skip_succ n ▸ quantified_of_readBounds hb (by simp), rfl⟩
    · next min max n hb =>
      split at h
      · simp [failAt] at h
      · next hle =>
        obtain rfl := Except.ok.inj h
        have hle' : ∀ k ∈ some max, min ≤ k := by simpa using hle
        exact ⟨s.rest_skip_succ n ▸ quantified_of_readBounds hb hle', rfl⟩
  · obtain rfl := Except.ok.inj h
    exact ⟨.none, rfl⟩

/-- A closing parenthesis that is read stands in front of the rest. -/
theorem place_of_readClosing {start : Nat} {r : Reading Unit (s.left + 1)}
    (h : readClosing start s = .ok r) : s.place = ⟨')' :: r.next.rest, r.next.groups⟩ := by
  rw [readClosing.eq_def] at h
  split at h
  · next hc =>
    obtain rfl := Except.ok.inj h
    exact s.place_of_peek hc
  · simp [failAt] at h

/-- A leaf is an atom that keeps the number of opened groups. -/
theorem atom_of_leaf {t : Cursor} {a : Pattern} (h : Leaf enclosing s.rest a t.rest)
    (hgroups : t.groups = s.groups) : Atom limit enclosing s.place a t.place := by
  obtain ⟨rest, position, groups⟩ := t
  obtain rfl : groups = s.groups := hgroups
  exact .leaf h

mutual
/-- Options that are read are an alternation. -/
theorem alternation_of_readOptions (limit : Nat) (enclosing : List Nat) (s : Cursor)
    (hs : s.groups ≤ limit) (r : Reading (List Pattern) (s.left + 1))
    (h : readOptions limit enclosing s = .ok r) :
    Alternation limit enclosing s.place r.value r.next.place ∧ r.next.groups ≤ limit := by
  cases optionsRead_of_readOptions h with
  | @one first _ hfirst _ =>
    obtain ⟨hsequence, hgroups⟩ := sequence_of_readItems limit enclosing s hs first hfirst
    exact ⟨.one hsequence, hgroups⟩
  | @bar first more _ hfirst hbar hmore =>
    obtain ⟨hsequence, hgroups⟩ := sequence_of_readItems limit enclosing s hs first hfirst
    have hshort := first.shorter
    have hlt := Cursor.lt_left_of_peek hbar
    have hskip := Cursor.left_skip first.next 1
    obtain ⟨hrest, hgroups'⟩ :=
      alternation_of_readOptions limit enclosing (first.next.skip 1) hgroups more hmore
    rw [Cursor.place_of_peek hbar] at hsequence
    exact ⟨.bar hsequence hrest, hgroups'⟩
termination_by 3 * s.left + 2
decreasing_by all_goals omega

/-- Items that are read are a sequence. -/
theorem sequence_of_readItems (limit : Nat) (enclosing : List Nat) (s : Cursor)
    (hs : s.groups ≤ limit) (r : Reading (List Pattern) (s.left + 1))
    (h : readItems limit enclosing s = .ok r) :
    Sequence limit enclosing s.place r.value r.next.place ∧ r.next.groups ≤ limit := by
  cases itemsRead_of_readItems h with
  | nil => exact ⟨.nil, hs⟩
  | @cons atom item more _ hatom hitem hmore =>
    obtain ⟨hatom, hgroups⟩ :
        Atom limit enclosing s.place atom.value atom.next.place ∧ atom.next.groups ≤ limit := by
      cases hatom with
      | group hc hleft h => exact atom_of_readGroup limit enclosing s hs hc hleft atom h
      | leaf hc hother h =>
        obtain ⟨hleaf, hgroups⟩ := leaf_of_readLeaf hc h hother
        exact ⟨atom_of_leaf hleaf hgroups, hgroups ▸ hs⟩
    have hshort := atom.shorter
    have hshort' := item.shorter
    obtain ⟨hquant, hgroups'⟩ := quantified_of_readQuantifier hitem
    obtain ⟨hrest, hgroups''⟩ :=
      sequence_of_readItems limit enclosing item.next (hgroups' ▸ hgroups) more hmore
    exact ⟨.cons hatom hquant (hgroups' ▸ hrest), hgroups''⟩
termination_by 3 * s.left + 1
decreasing_by all_goals omega

/-- A group that is read is derived: a capture group takes the next index. -/
theorem atom_of_readGroup (limit : Nat) (enclosing : List Nat) (s : Cursor)
    (hs : s.groups ≤ limit) (hc : s.peek 0 = some '(') (hleft : 0 < s.left)
    (r : Reading Pattern s.left) (h : readGroup limit enclosing s hleft = .ok r) :
    Atom limit enclosing s.place r.value r.next.place ∧ r.next.groups ≤ limit := by
  have hplace := s.place_of_peek hc
  cases groupRead_of_readGroup h with
  | @plain inner closing _ hmark hcolon hinner hclosing =>
    have hskip := Cursor.left_skip s 3
    obtain ⟨halternation, hgroups⟩ :=
      alternation_of_readOptions limit enclosing (s.skip 3) hs inner hinner
    have hmark' : (s.skip 1).peek 0 = some '?' := (s.peek_skip 1 0).trans hmark
    have hcolon' : (s.skip 2).peek 0 = some ':' := (s.peek_skip 2 0).trans hcolon
    have hclose := place_of_readClosing hclosing
    have hgroups' : closing.next.groups = inner.next.groups := (congrArg Place.groups hclose).symm
    rw [hplace, Cursor.rest_of_peek hmark', s.skip_skip 1 1, Cursor.rest_of_peek hcolon',
      s.skip_skip 2 1]
    exact ⟨.group (hclose ▸ halternation), hgroups' ▸ hgroups⟩
  | @capture inner closing _ hmark hlimit hinner hclosing =>
    have hopen := Cursor.left_openGroup s
    have hlt : s.groups < limit := Nat.lt_of_le_of_ne hs hlimit
    obtain ⟨halternation, hgroups⟩ :=
      alternation_of_readOptions limit ((s.groups + 1) :: enclosing) s.openGroup hlt inner hinner
    have hclose := place_of_readClosing hclosing
    have hmark' : (s.skip 1).rest.head? ≠ some '?' := by
      rwa [← Cursor.peek_zero, Cursor.peek_skip]
    have hgroups' : closing.next.groups = inner.next.groups := (congrArg Place.groups hclose).symm
    rw [hplace]
    exact ⟨.capture hlt hmark' (hclose ▸ halternation), hgroups' ▸ hgroups⟩
termination_by 3 * s.left
decreasing_by all_goals omega
end

/-- A group or another atom that is read is derived. -/
theorem atom_of_atomRead {atom : Reading Pattern s.left} (hs : s.groups ≤ limit)
    (h : AtomRead limit enclosing s atom) :
    Atom limit enclosing s.place atom.value atom.next.place ∧ atom.next.groups ≤ limit := by
  cases h with
  | group hc hleft h => exact atom_of_readGroup limit enclosing s hs hc hleft atom h
  | leaf hc hother h =>
    obtain ⟨hleaf, hgroups⟩ := leaf_of_readLeaf hc h hother
    exact ⟨atom_of_leaf hleaf hgroups, hgroups ▸ hs⟩

end Pattern.Grammar

end BacktrackRegex
