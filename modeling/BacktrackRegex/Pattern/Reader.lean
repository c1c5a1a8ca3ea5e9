import BacktrackRegex.Pattern.SyntaxError
import BacktrackRegex.Pattern.Basic
import BacktrackRegex.Text.Numeral

/-!
# Reading patterns

Patterns are read from left to right by recursive descent:

* an alternation is one or more sequences with bars between them;
* a sequence is any number of atoms, each with at most one quantifier;
* an atom is a character without a meaning of its own, a dot, an anchor, an escape, a class in
  brackets or a group;
* a quantifier is a star, a plus, a question mark or bounds in braces.

At most three characters of lookahead are needed, for octal escapes. Capture groups are numbered in
the order of their opening parentheses, and a back-reference may not stand inside its own group.
Each reader returns what is left of the pattern together with a bound on its length, and the
recursion descends on that length.
-/

namespace BacktrackRegex

/-- A place in a pattern that is being read. -/
structure Cursor where
  /-- The characters that are still to be read. -/
  rest : List Char
  /-- The number of characters that were read. -/
  position : Nat
  /-- The number of capture groups that were opened. -/
  groups : Nat
  deriving DecidableEq, Repr

namespace Cursor

/-- The number of characters that are still to be read. -/
def left (s : Cursor) : Nat :=
  s.rest.length

/-- The character `n` places ahead. -/
def peek (s : Cursor) (n : Nat) : Option Char :=
  s.rest[n]?

/-- The cursor after `n` more characters. -/
def skip (s : Cursor) (n : Nat) : Cursor :=
  { s with rest := s.rest.drop n, position := s.position + n }

/-- The cursor after the opening parenthesis of a new capture group. -/
def openGroup (s : Cursor) : Cursor :=
  { s with rest := s.rest.drop 1, position := s.position + 1, groups := s.groups + 1 }

/-- Opening a group takes one character. -/
@[simp] theorem left_openGroup (s : Cursor) : s.openGroup.left = s.left - 1 :=
  List.length_drop

/-- Skipping characters leaves as many fewer. -/
@[simp] theorem left_skip (s : Cursor) (n : Nat) : (s.skip n).left = s.left - n :=
  List.length_drop

/-- Skipping at least one character of a text that has any leaves fewer. -/
theorem left_skip_lt {s : Cursor} (h : 0 < s.left) (n : Nat) : (s.skip (n + 1)).left < s.left := by
  rw [left_skip]
  omega

/-- Skipping characters never leaves more. -/
theorem left_skip_lt_succ (s : Cursor) (n : Nat) : (s.skip n).left < s.left + 1 := by
  rw [left_skip]
  omega

/-- A character `n` places ahead has `n` characters before it. -/
theorem lt_left_of_peek {s : Cursor} {n : Nat} {c : Char} (h : s.peek n = some c) : n < s.left :=
  (List.getElem?_eq_some_iff.mp h).1

end Cursor

/-- A value that was read and the cursor after it, which has fewer than `bound` characters left. -/
structure Reading (α : Type) (bound : Nat) where
  value : α
  next : Cursor
  shorter : next.left < bound

namespace Pattern

/-- What a backslash introduces. -/
inductive Escape where
  /-- A character. -/
  | char (c : Char)
  /-- A reference to a capture group. -/
  | backReference (index : Nat)
  deriving DecidableEq, Repr

/-- The characters that a backslash takes literally: ASCII punctuation and the space. -/
def isEscapable (c : Char) : Bool :=
  " !\"#$%&'()*+,-./:;<=>?@[\\]^_`\x7b|\x7d~".toList.contains c

/-- The control that a letter stands for after a backslash. -/
def controlOfLetter? : Char → Option Char
  | 't' => some '\t'
  | 'n' => some '\n'
  | 'r' => some '\r'
  | 'f' => some '\x0C'
  | 'v' => some '\x0B'
  | _ => none

/-- The character of three octal digits with a value below 256. -/
def octalChar? (a b c : Char) : Option Char := do
  let value := (← Text.octalDigit? a) * 64 + (← Text.octalDigit? b) * 8 + (← Text.octalDigit? c)
  if value < 256 then some (Char.ofNat value) else none

/-- What the digits after a backslash stand for, and their number: a digit alone is the null
character or a back-reference, and three octal digits are a character. The groups that enclose the
place are `enclosing`, or `none` inside a class. -/
def readDigits (enclosing : Option (List Nat)) (digit : Char) (after : List Char) :
    Except SyntaxCause (Escape × Nat) :=
  match after with
  | d :: more =>
    if d.isDigit then
      match more.head?.bind (octalChar? digit d) with
      | some c => .ok (.char c, 3)
      | none => .error .malformedOctal
    else alone
  | [] => alone
where
  /-- What a single digit stands for. -/
  alone : Except SyntaxCause (Escape × Nat) :=
    if digit = '0' then .ok (.char '\x00', 1)
    else
      let index := digit.toNat - '0'.toNat
      match enclosing with
      | none => .error .referenceInClass
      | some openGroups =>
        if openGroups.contains index then .error (.referenceToOpenGroup index)
        else .ok (.backReference index, 1)

/-- What the characters after a backslash stand for, and how many of them belong to the escape. -/
def readEscape (enclosing : Option (List Nat)) (after : List Char) :
    Except SyntaxCause (Escape × Nat) :=
  match after with
  | [] => .error .danglingBackslash
  | c :: more =>
    if isEscapable c then .ok (.char c, 1)
    else match controlOfLetter? c with
      | some control => .ok (.char control, 1)
      | none => if c.isDigit then readDigits enclosing c more else .error (.unknownEscape c)

/-- The error of a cause at a place. -/
def failAt {α : Type} (position : Nat) (cause : SyntaxCause) : Except SyntaxError α :=
  .error ⟨cause, position⟩

/-- Reads a character of a class, which may be escaped. -/
def readClassChar (s : Cursor) : Except SyntaxError (Reading Char s.left) :=
  match h : s.peek 0 with
  | none => failAt s.position .unterminatedClass
  | some c =>
    have := Cursor.lt_left_of_peek h
    if c = '\\' then
      match readEscape none (s.skip 1).rest with
      | .error cause => failAt s.position cause
      | .ok (.backReference _, _) => failAt s.position .referenceInClass
      | .ok (.char c, n) => .ok ⟨c, s.skip (n + 1), Cursor.left_skip_lt this n⟩
    else .ok ⟨c, s.skip 1, Cursor.left_skip_lt this 0⟩

/-- Reads the members of a class up to the closing bracket: the bounds of each range, and each
single character as a range of its own. The class began at `start`. -/
def readClassItems (start : Nat) (s : Cursor) :
    Except SyntaxError (Reading (List (Char × Char)) s.left) :=
  match h : s.peek 0 with
  | none => failAt start .unterminatedClass
  | some ']' => .ok ⟨[], s.skip 1, Cursor.left_skip_lt (Cursor.lt_left_of_peek h) 0⟩
  | some _ => do
    let lo ← readClassChar s
    have := lo.shorter
    if lo.next.peek 0 = some '-' then
      match h : lo.next.peek 1 with
      | none => failAt start .unterminatedClass
      | some ']' =>
        .ok ⟨[(lo.value, lo.value), ('-', '-')], lo.next.skip 2,
          by rw [Cursor.left_skip]; omega⟩
      | some _ =>
        let hi ← readClassChar (lo.next.skip 1)
        have := hi.shorter
        have := Cursor.left_skip lo.next 1
        if hi.value < lo.value then
          failAt (lo.next.position + 1) (.invertedRange lo.value hi.value)
        else
          let more ← readClassItems start hi.next
          have := more.shorter
          .ok ⟨(lo.value, hi.value) :: more.value, more.next, by omega⟩
    else
      let more ← readClassItems start lo.next
      have := more.shorter
      .ok ⟨(lo.value, lo.value) :: more.value, more.next, by omega⟩
termination_by s.left
decreasing_by all_goals omega

/-- The class of some ranges of characters, or of everything else. -/
def classOfItems (negated : Bool) (items : List (Char × Char)) : CharClass :=
  let merged := CharClass.merge (items.map fun (a, b) => .ranges (RangeSet.ofChars a b))
  if negated then merged.narrow.negate else merged.narrow

/-- Reads a class from its opening bracket on. A caret negates it; a closing bracket or hyphen at
its beginning is a member. -/
def readClass (s : Cursor) : Except SyntaxError (Reading Pattern s.left) := do
  let negated := s.peek 1 == some '^'
  let body := s.skip (if negated then 2 else 1)
  let leading := match body.peek 0 with
    | some ']' => [(']', ']')]
    | some '-' => [('-', '-')]
    | _ => []
  let items ← readClassItems s.position (body.skip leading.length)
  have := items.shorter
  .ok ⟨.charClass (classOfItems negated (leading ++ items.value)), items.next, by
    simp only [body, Cursor.left_skip] at this; omega⟩

/-- Reads an atom other than a group, which begins with the character `c`, inside the capture groups
`enclosing`. -/
def readLeaf (enclosing : List Nat) (s : Cursor) (c : Char) (h : s.peek 0 = some c) :
    Except SyntaxError (Reading Pattern s.left) :=
  have := Cursor.lt_left_of_peek h
  match c with
  | '^' => .ok ⟨.textStart, s.skip 1, Cursor.left_skip_lt this 0⟩
  | '$' => .ok ⟨.textEnd, s.skip 1, Cursor.left_skip_lt this 0⟩
  | '.' => .ok ⟨.anyChar, s.skip 1, Cursor.left_skip_lt this 0⟩
  | '[' => readClass s
  | '\\' =>
    match readEscape (some enclosing) (s.skip 1).rest with
    | .error cause => failAt s.position cause
    | .ok (.char c, n) =>
      .ok ⟨.literal (String.singleton c), s.skip (n + 1), Cursor.left_skip_lt this n⟩
    | .ok (.backReference index, n) =>
      .ok ⟨.backReference index, s.skip (n + 1), Cursor.left_skip_lt this n⟩
  | c =>
    if ['*', '+', '?', '{', '}', ']'].contains c then failAt s.position (.unexpectedMeta c)
    else .ok ⟨.literal (String.singleton c), s.skip 1, Cursor.left_skip_lt this 0⟩

/-- Reads a decimal number below two to the power 32, and tells how many digits it has. -/
def readCount (cs : List Char) : Option (Nat × Nat) :=
  let ds := cs.takeWhile Char.isDigit
  if ds.isEmpty || 0x100000000 ≤ Text.decimalValue ds then none
  else some (Text.decimalValue ds, ds.length)

/-- Reads bounds of a repetition after their opening brace, and tells how many characters they take
up to the closing one. -/
def readBounds (cs : List Char) : Option (Nat × Option Nat × Nat) := do
  let (min, n) ← readCount cs
  match cs.drop n with
  | '}' :: _ => some (min, some min, n + 1)
  | ',' :: '}' :: _ => some (min, none, n + 2)
  | ',' :: more =>
    let (max, k) ← readCount more
    if (more.drop k).head? = some '}' then some (min, some max, n + 1 + k + 1) else none
  | _ => none

/-- Reads the quantifier of an atom, if there is one. -/
def readQuantifier (atom : Pattern) (s : Cursor) :
    Except SyntaxError (Reading Pattern (s.left + 1)) :=
  match s.peek 0 with
  | some '*' => .ok ⟨.repetition atom 0 none, s.skip 1, s.left_skip_lt_succ 1⟩
  | some '+' => .ok ⟨.repetition atom 1 none, s.skip 1, s.left_skip_lt_succ 1⟩
  | some '?' => .ok ⟨.repetition atom 0 (some 1), s.skip 1, s.left_skip_lt_succ 1⟩
  | some '{' =>
    match readBounds (s.skip 1).rest with
    | none => failAt s.position .malformedRepetition
    | some (min, none, n) => .ok ⟨.repetition atom min none, s.skip (n + 1), s.left_skip_lt_succ _⟩
    | some (min, some max, n) =>
      if max < min then failAt s.position (.invertedRepetition min max)
      else .ok ⟨.repetition atom min (some max), s.skip (n + 1), s.left_skip_lt_succ _⟩
  | _ => .ok ⟨atom, s, Nat.lt_succ_self _⟩

/-- Reads the closing parenthesis of a group that began at `start`. -/
def readClosing (start : Nat) (s : Cursor) : Except SyntaxError (Reading Unit (s.left + 1)) :=
  match s.peek 0 with
  | some ')' => .ok ⟨(), s.skip 1, s.left_skip_lt_succ 1⟩
  | _ => failAt start .unmatchedOpen

mutual
/-- Reads the options of an alternation. The whole pattern has at most `limit` capture groups. -/
def readOptions (limit : Nat) (enclosing : List Nat) (s : Cursor) :
    Except SyntaxError (Reading (List Pattern) (s.left + 1)) := do
  let first ← readItems limit enclosing s
  have := first.shorter
  if h : first.next.peek 0 = some '|' then
    have := Cursor.lt_left_of_peek h
    have := Cursor.left_skip first.next 1
    let more ← readOptions limit enclosing (first.next.skip 1)
    have := more.shorter
    .ok ⟨ofItems first.value :: more.value, more.next, by omega⟩
  else .ok ⟨[ofItems first.value], first.next, by omega⟩
termination_by 3 * s.left + 2
decreasing_by all_goals omega

/-- Reads the items of a sequence, each with its quantifier. -/
def readItems (limit : Nat) (enclosing : List Nat) (s : Cursor) :
    Except SyntaxError (Reading (List Pattern) (s.left + 1)) :=
  match h : s.peek 0 with
  | none => .ok ⟨[], s, Nat.lt_succ_self _⟩
  | some c =>
    if c = '|' ∨ c = ')' then .ok ⟨[], s, Nat.lt_succ_self _⟩
    else do
      have := Cursor.lt_left_of_peek h
      let atom ← if c = '(' then readGroup limit enclosing s this else readLeaf enclosing s c h
      have := atom.shorter
      let item ← readQuantifier atom.value atom.next
      have := item.shorter
      let more ← readItems limit enclosing item.next
      have := more.shorter
      .ok ⟨item.value :: more.value, more.next, by omega⟩
termination_by 3 * s.left + 1
decreasing_by all_goals omega

/-- Reads a group from its opening parenthesis on. -/
def readGroup (limit : Nat) (enclosing : List Nat) (s : Cursor) (h : 0 < s.left) :
    Except SyntaxError (Reading Pattern s.left) := do
  if s.peek 1 = some '?' then
    if s.peek 2 = some ':' then
      have := Cursor.left_skip s 3
      let inner ← readOptions limit enclosing (s.skip 3)
      have := inner.shorter
      let closing ← readClosing s.position inner.next
      have := closing.shorter
      .ok ⟨ofOptions inner.value, closing.next, by omega⟩
    else failAt (s.position + 2) .unknownGroup
  else if s.groups = limit then failAt s.position (.tooManyGroups limit)
  else
    let index := s.groups + 1
    have := Cursor.left_openGroup s
    let inner ← readOptions limit (index :: enclosing) s.openGroup
    have := inner.shorter
    let closing ← readClosing s.position inner.next
    have := closing.shorter
    .ok ⟨.capture index (ofOptions inner.value), closing.next, by omega⟩
termination_by 3 * s.left
decreasing_by all_goals omega
end

/-- Reads a text as a pattern with at most `limit` capture groups. -/
def read (limit : Nat) (text : String) : Except SyntaxError Pattern := do
  let options ← readOptions limit [] ⟨text.toList, 0, 0⟩
  if options.next.rest.isEmpty then .ok (ofOptions options.value)
  else failAt options.next.position .unmatchedClose

/-- The largest number of capture groups of a pattern. -/
def maxGroups : Nat := 255

end Pattern

end BacktrackRegex
