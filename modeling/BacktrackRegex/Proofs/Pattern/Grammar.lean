import BacktrackRegex.Pattern.Reader

/-!
# The grammar of patterns

The grammar says which texts are patterns, and of which trees, without saying how they are read.
Each of its phrases relates what is left of a text before it, the tree that it stands for, and what
is left after it. What comes after a phrase matters in a few places: a digit may not follow a
back-reference or the escape of the null character, and a hyphen or bracket has different meanings
in a class depending on the next character.

Where a phrase can hold capture groups, a place in the text also tells how many groups have been
opened before it, and the phrase is inside the groups `enclosing`.
-/

namespace BacktrackRegex.Pattern.Grammar

/-- The text does not go on with a digit. -/
def NoDigit (cs : List Char) : Prop :=
  ∀ d ∈ cs.head?, d.isDigit = false

/-- ASCII punctuation and the space, which stand for themselves after a backslash. -/
def IsPunctuation (c : Char) : Prop :=
  ' ' ≤ c ∧ c ≤ '/' ∨ ':' ≤ c ∧ c ≤ '@' ∨ '[' ≤ c ∧ c ≤ '\x60' ∨ '{' ≤ c ∧ c ≤ '~'

instance : DecidablePred IsPunctuation := fun c =>
  inferInstanceAs (Decidable
    (' ' ≤ c ∧ c ≤ '/' ∨ ':' ≤ c ∧ c ≤ '@' ∨ '[' ≤ c ∧ c ≤ '\x60' ∨ '{' ≤ c ∧ c ≤ '~'))

/-- The letters that stand for controls after a backslash. -/
def controls : List (Char × Char) :=
  [('t', '\t'), ('n', '\n'), ('r', '\r'), ('f', '\x0C'), ('v', '\x0B')]

/-- The octal digits, each at the place of its value. -/
def octalDigits : List Char :=
  ['0', '1', '2', '3', '4', '5', '6', '7']

/-- What stands for a character after a backslash. -/
inductive Escaped : List Char → Char → List Char → Prop where
  | punctuation {c : Char} {cs : List Char} (h : IsPunctuation c) : Escaped (c :: cs) c cs
  | control {c control : Char} {cs : List Char} (h : (c, control) ∈ controls) :
    Escaped (c :: cs) control cs
  | null {cs : List Char} (h : NoDigit cs) : Escaped ('0' :: cs) '\x00' cs
  | octal {a b c : Char} {x y z : Nat} {cs : List Char} (ha : octalDigits[x]? = some a)
    (hb : octalDigits[y]? = some b) (hc : octalDigits[z]? = some c)
    (h : x * 64 + y * 8 + z ≤ 0o377) :
    Escaped (a :: b :: c :: cs) (Char.ofNat (x * 64 + y * 8 + z)) cs

/-- A character of a class. -/
inductive ClassChar : List Char → Char → List Char → Prop where
  | plain {c : Char} {cs : List Char} (h : c ≠ '\\') : ClassChar (c :: cs) c cs
  | escaped {c : Char} {cs rest : List Char} (h : Escaped cs c rest) :
    ClassChar ('\\' :: cs) c rest

/-- The members of a class up to the closing bracket, as ranges of characters. -/
inductive Members : List Char → List (Char × Char) → List Char → Prop where
  | close {cs : List Char} : Members (']' :: cs) [] cs
  | single {cs after rest : List Char} {c : Char} {items : List (Char × Char)}
    (hfirst : cs.head? ≠ some ']') (hc : ClassChar cs c after) (hafter : after.head? ≠ some '-')
    (hmore : Members after items rest) : Members cs ((c, c) :: items) rest
  | hyphen {cs rest : List Char} {c : Char} (hfirst : cs.head? ≠ some ']')
    (hc : ClassChar cs c ('-' :: ']' :: rest)) : Members cs [(c, c), ('-', '-')] rest
  | range {cs upper after rest : List Char} {lo hi : Char} {items : List (Char × Char)}
    (hfirst : cs.head? ≠ some ']') (hlo : ClassChar cs lo ('-' :: upper))
    (hupper : upper.head? ≠ some ']') (hhi : ClassChar upper hi after) (hle : lo ≤ hi)
    (hmore : Members after items rest) : Members cs ((lo, hi) :: items) rest

/-- A closing bracket or hyphen at the beginning of a class, which is a member. -/
inductive Leading : List Char → List (Char × Char) → List Char → Prop where
  | literal {c : Char} {cs : List Char} (h : c = ']' ∨ c = '-') : Leading (c :: cs) [(c, c)] cs
  | none {cs : List Char} (hbracket : cs.head? ≠ some ']') (hhyphen : cs.head? ≠ some '-') :
    Leading cs [] cs

/-- A class after its opening bracket. A caret negates it. -/
inductive Bracket : List Char → CharClass → List Char → Prop where
  | plain {cs ds rest : List Char} {leading items : List (Char × Char)}
    (hcaret : cs.head? ≠ some '^') (hleading : Leading cs leading ds)
    (hitems : Members ds items rest) : Bracket cs (classOfItems false (leading ++ items)) rest
  | negated {cs ds rest : List Char} {leading items : List (Char × Char)}
    (hleading : Leading cs leading ds) (hitems : Members ds items rest) :
    Bracket ('^' :: cs) (classOfItems true (leading ++ items)) rest

/-- The characters that are no atoms by themselves. -/
def isSpecial (c : Char) : Bool :=
  "|)^$.\\[(*+?\x7b\x7d]".toList.contains c

/-- The special characters one by one. -/
theorem isSpecial_eq_false_iff {c : Char} : isSpecial c = false ↔
    c ∉ ['|', ')', '^', '$', '.', '\\', '[', '(', '*', '+', '?', '{', '}', ']'] := by
  simp [isSpecial]

/-- An atom that is not a group. -/
inductive Leaf (enclosing : List Nat) : List Char → Pattern → List Char → Prop where
  | char {c : Char} {cs : List Char} (h : isSpecial c = false) :
    Leaf enclosing (c :: cs) (.literal (String.singleton c)) cs
  | anyChar {cs : List Char} : Leaf enclosing ('.' :: cs) .anyChar cs
  | textStart {cs : List Char} : Leaf enclosing ('^' :: cs) .textStart cs
  | textEnd {cs : List Char} : Leaf enclosing ('$' :: cs) .textEnd cs
  | escaped {c : Char} {cs rest : List Char} (h : Escaped cs c rest) :
    Leaf enclosing ('\\' :: cs) (.literal (String.singleton c)) rest
  | backReference {d : Char} {cs : List Char} (hd : d.isDigit = true) (hzero : d ≠ '0')
    (hafter : NoDigit cs) (hopen : d.toNat - '0'.toNat ∉ enclosing) :
    Leaf enclosing ('\\' :: d :: cs) (.backReference (d.toNat - '0'.toNat)) cs
  | charClass {cs rest : List Char} {cls : CharClass} (h : Bracket cs cls rest) :
    Leaf enclosing ('[' :: cs) (.charClass cls) rest

/-- A decimal number below two to the power 32. -/
structure Numeral (ds : List Char) (n : Nat) : Prop where
  ne_nil : ds ≠ []
  isDigit : ∀ d ∈ ds, d.isDigit = true
  value : Nat.ofDigitChars 10 ds 0 = n
  lt : n < 0x100000000

/-- The quantifier of an atom, if there is one. -/
inductive Quantified (atom : Pattern) : List Char → Pattern → List Char → Prop where
  | none {cs : List Char} : Quantified atom cs atom cs
  | star {cs : List Char} : Quantified atom ('*' :: cs) (.repetition atom 0 none) cs
  | plus {cs : List Char} : Quantified atom ('+' :: cs) (.repetition atom 1 none) cs
  | option {cs : List Char} : Quantified atom ('?' :: cs) (.repetition atom 0 (some 1)) cs
  | exactly {ds cs : List Char} {m : Nat} (hm : Numeral ds m) :
    Quantified atom ('{' :: (ds ++ '}' :: cs)) (.repetition atom m (some m)) cs
  | atLeast {ds cs : List Char} {m : Nat} (hm : Numeral ds m) :
    Quantified atom ('{' :: (ds ++ ',' :: '}' :: cs)) (.repetition atom m .none) cs
  | between {ds es cs : List Char} {m n : Nat} (hm : Numeral ds m) (hn : Numeral es n)
    (hle : m ≤ n) :
    Quantified atom ('{' :: (ds ++ ',' :: (es ++ '}' :: cs))) (.repetition atom m (some n)) cs

/-- The tree of items one after the other is that of a single item, or else a sequence. -/
theorem ofItems_cases (ps : List Pattern) :
    (∃ p, ps = [p] ∧ ofItems ps = p) ∨ ps.length ≠ 1 ∧ ofItems ps = .sequence ps := by
  match ps with
  | [] => exact Or.inr ⟨by simp, rfl⟩
  | [p] => exact Or.inl ⟨p, rfl, rfl⟩
  | _ :: _ :: _ => exact Or.inr ⟨by simp, rfl⟩

/-- The tree of options with bars between them is that of a single option, or else an
alternation. -/
theorem ofOptions_cases (ps : List Pattern) :
    (∃ p, ps = [p] ∧ ofOptions ps = p) ∨ ps.length ≠ 1 ∧ ofOptions ps = .alternation ps := by
  match ps with
  | [] => exact Or.inr ⟨by simp, rfl⟩
  | [p] => exact Or.inl ⟨p, rfl, rfl⟩
  | _ :: _ :: _ => exact Or.inr ⟨by simp, rfl⟩

/-- A place in a text: what is left of it, and the number of groups that were opened before. -/
structure Place where
  rest : List Char
  groups : Nat

mutual
/-- Sequences with bars between them. -/
inductive Alternation (limit : Nat) : List Nat → Place → List Pattern → Place → Prop where
  | one {enclosing : List Nat} {s t : Place} {ps : List Pattern}
    (h : Sequence limit enclosing s ps t) : Alternation limit enclosing s [ofItems ps] t
  | bar {enclosing : List Nat} {s t : Place} {cs : List Char} {g : Nat} {ps qs : List Pattern}
    (h : Sequence limit enclosing s ps ⟨'|' :: cs, g⟩)
    (hmore : Alternation limit enclosing ⟨cs, g⟩ qs t) :
    Alternation limit enclosing s (ofItems ps :: qs) t

/-- Atoms one after the other, each with its quantifier. -/
inductive Sequence (limit : Nat) : List Nat → Place → List Pattern → Place → Prop where
  | nil {enclosing : List Nat} {s : Place} : Sequence limit enclosing s [] s
  | cons {enclosing : List Nat} {s t : Place} {cs ds : List Char} {g : Nat} {a p : Pattern}
    {ps : List Pattern} (hatom : Atom limit enclosing s a ⟨cs, g⟩) (hquant : Quantified a cs p ds)
    (hmore : Sequence limit enclosing ⟨ds, g⟩ ps t) : Sequence limit enclosing s (p :: ps) t

/-- A group, or an atom without one. A capture group takes the next index, of which there are at
most `limit`. -/
inductive Atom (limit : Nat) : List Nat → Place → Pattern → Place → Prop where
  | leaf {enclosing : List Nat} {cs rest : List Char} {g : Nat} {a : Pattern}
    (h : Leaf enclosing cs a rest) : Atom limit enclosing ⟨cs, g⟩ a ⟨rest, g⟩
  | group {enclosing : List Nat} {cs rest : List Char} {g g' : Nat} {ps : List Pattern}
    (h : Alternation limit enclosing ⟨cs, g⟩ ps ⟨')' :: rest, g'⟩) :
    Atom limit enclosing ⟨'(' :: '?' :: ':' :: cs, g⟩ (ofOptions ps) ⟨rest, g'⟩
  | capture {enclosing : List Nat} {cs rest : List Char} {g g' : Nat} {ps : List Pattern}
    (hlimit : g < limit) (hmark : cs.head? ≠ some '?')
    (h : Alternation limit ((g + 1) :: enclosing) ⟨cs, g + 1⟩ ps ⟨')' :: rest, g'⟩) :
    Atom limit enclosing ⟨'(' :: cs, g⟩ (.capture (g + 1) (ofOptions ps)) ⟨rest, g'⟩
end

/-- The text is the pattern `p` with at most `limit` capture groups: an alternation that takes up
the whole text. -/
def Derives (limit : Nat) (text : String) (p : Pattern) : Prop :=
  ∃ ps groups, Alternation limit [] ⟨text.toList, 0⟩ ps ⟨[], groups⟩ ∧ p = ofOptions ps

end BacktrackRegex.Pattern.Grammar
