import BacktrackRegex.Text.Numeral
import BacktrackRegex.Toml.Decimal
import BacktrackRegex.Toml.Value

/-!
# Scalars of TOML documents

Numbers, booleans, dates and times stand as unquoted words. Digits of a number may have underscores
between them, decimal numbers have no superfluous zeros in front, integers fit in 64 bits, floats
are not too large for a double, and dates and times must exist.
-/

namespace BacktrackRegex.Toml

/-- The characters of the words that are numbers, booleans, dates or times. -/
def isWordChar (c : Char) : Bool :=
  c.isAlphanum || c == '+' || c == '-' || c == '_' || c == '.' || c == ':'

/-- Digits with single underscores between them, without the underscores. -/
def ungroup (isDigit : Char → Bool) : List Char → Option (List Char)
  | [] => none
  | [c] => if isDigit c then some [c] else none
  | c :: '_' :: rest => if isDigit c then (ungroup isDigit rest).map (c :: ·) else none
  | c :: rest => if isDigit c then (ungroup isDigit rest).map (c :: ·) else none

/-- The value of a digit in a base of at most 16. -/
def digitValue (c : Char) : Nat :=
  if c.isDigit then c.toNat - '0'.toNat else c.toLower.toNat - 'a'.toNat + 10

/-- The number of digits in a base. -/
def ofDigits (base : Nat) (ds : List Char) : Nat :=
  ds.foldl (fun value d => value * base + digitValue d) 0

/-- Whether a character is a digit in a base. -/
def isDigitOf (base : Nat) (c : Char) : Bool :=
  (c.isDigit || ('a' ≤ c.toLower && c.toLower ≤ 'f')) && digitValue c < base

/-- The digits of an unsigned decimal integer, which has no superfluous zeros in front. -/
def decimalDigits? (cs : List Char) : Option (List Char) := do
  let ds ← ungroup Char.isDigit cs
  if ds.length = 1 ∨ ds.head? ≠ some '0' then some ds else none

/-- A word without its sign, and whether the sign is a minus. -/
def splitSign : List Char → Bool × List Char
  | '+' :: rest => (false, rest)
  | '-' :: rest => (true, rest)
  | rest => (false, rest)

/-- An integer that fits in 64 bits. -/
def fitting (n : Int) : Option Value :=
  if -0x8000000000000000 ≤ n ∧ n < 0x8000000000000000 then some (.integer n) else none

/-- Reads an integer. -/
def integer? (word : List Char) : Option Value :=
  let inBase (base : Nat) (cs : List Char) : Option Value := do
    fitting (ofDigits base (← ungroup (isDigitOf base) cs))
  match word with
  | '0' :: 'x' :: cs => inBase 16 cs
  | '0' :: 'o' :: cs => inBase 8 cs
  | '0' :: 'b' :: cs => inBase 2 cs
  | _ => do
    let (negative, cs) := splitSign word
    let n : Int := ofDigits 10 (← decimalDigits? cs)
    fitting (if negative then -n else n)

/-- Reads the exponent of a float without its letter. -/
def exponent? (cs : List Char) : Option Int := do
  let (negative, digits) := splitSign cs
  let n : Int := ofDigits 10 (← ungroup Char.isDigit digits)
  return if negative then -n else n

/-- Reads an integer with a fraction, an exponent or both. -/
def decimal? (word : List Char) : Option Decimal := do
  let isE (c : Char) := c == 'e' || c == 'E'
  let (negative, cs) := splitSign word
  let mantissa := cs.takeWhile (!isE ·)
  let fraction := mantissa.dropWhile (· != '.')
  let exponent := cs.dropWhile (!isE ·)
  if fraction.isEmpty && exponent.isEmpty then none
  else
    let wholeDigits ← decimalDigits? (mantissa.takeWhile (· != '.'))
    let fractionDigits ←
      if fraction.isEmpty then some [] else ungroup Char.isDigit (fraction.drop 1)
    let power ← if exponent.isEmpty then some 0 else exponent? (exponent.drop 1)
    return ⟨negative, ofDigits 10 (wholeDigits ++ fractionDigits), power - fractionDigits.length⟩

/-- Whether a word is a float: a decimal number, or a value that is not a number or not finite. A
negative number that is too large for a double counts as infinite, and a positive one is refused. -/
def isFloat (word : List Char) : Bool :=
  let cs := (splitSign word).2
  if cs = ['i', 'n', 'f'] ∨ cs = ['n', 'a', 'n'] then true
  else (decimal? word).any fun d => d.negative || !d.exceedsDoubles

/-- The number of exactly `width` decimal digits. -/
def fixed? (width : Nat) (cs : List Char) : Option Nat :=
  if cs.length = width ∧ cs.all Char.isDigit then some (Text.decimalValue cs) else none

/-- The number of days of a month. -/
def daysIn (year month : Nat) : Nat :=
  if month = 2 then
    if year % 4 = 0 ∧ (year % 100 ≠ 0 ∨ year % 400 = 0) then 29 else 28
  else if [4, 6, 9, 11].contains month then 30 else 31

/-- Whether a word is a date that exists. -/
def isDate (cs : List Char) : Bool :=
  cs[4]? == some '-' && cs[7]? == some '-'
    && match fixed? 4 (cs.take 4), fixed? 2 ((cs.drop 5).take 2), fixed? 2 (cs.drop 8) with
      | some year, some month, some day =>
        1 ≤ month && month ≤ 12 && 1 ≤ day && day ≤ daysIn year month
      | _, _, _ => false

/-- Whether a word is an hour and a minute that exist. -/
def isHourAndMinute (cs : List Char) : Bool :=
  match fixed? 2 (cs.take 2), cs[2]?, fixed? 2 (cs.drop 3) with
  | some hour, some ':', some minute => hour ≤ 23 && minute ≤ 59
  | _, _, _ => false

/-- Whether a word is a time of day that exists, perhaps with a fraction of a second. -/
def isTime (cs : List Char) : Bool :=
  let fraction := cs.drop 8
  isHourAndMinute (cs.take 5) && cs[5]? == some ':'
    && (fixed? 2 ((cs.drop 6).take 2)).any (· ≤ 60)
    && match fraction with
      | [] => true
      | '.' :: ds => !ds.isEmpty && ds.all Char.isDigit
      | _ => false

/-- Whether a word is a time of day, perhaps with an offset from universal time. -/
def isTimeWithOffset (cs : List Char) : Bool :=
  let isMark (c : Char) := c == '+' || c == '-' || c == 'Z' || c == 'z'
  let offset := cs.dropWhile (!isMark ·)
  isTime (cs.takeWhile (!isMark ·))
    && match offset with
      | [] => true
      | ['Z'] => true
      | ['z'] => true
      | '+' :: place => isHourAndMinute place
      | '-' :: place => isHourAndMinute place
      | _ => false

/-- Whether a word is a date, a time of day, or a date and a time with a mark between them. -/
def isDatetime (word : List Char) : Bool :=
  isDate word || isTime word
    || isDate (word.take 10) && word[10]?.any (['T', 't', ' '].contains ·)
      && isTimeWithOffset (word.drop 11)

/-- Reads a word as a scalar. -/
def scalar? (word : List Char) : Option Value :=
  if word = ['t', 'r', 'u', 'e'] then some (.boolean true)
  else if word = ['f', 'a', 'l', 's', 'e'] then some (.boolean false)
  else if isDatetime word then some .datetime
  else if isFloat word then some .float
  else integer? word

end BacktrackRegex.Toml
