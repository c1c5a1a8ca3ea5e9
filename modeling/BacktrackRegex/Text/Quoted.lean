import BacktrackRegex.Text.Hidden
import BacktrackRegex.Text.Numeral

/-!
# Quoted texts

A quoted text stands between double quotes and shows every character unambiguously. The double
quote and the backslash are escaped, four controls have letters of their own, and every other
character that does not show by itself is written as its code point in braces. The apostrophe is
left alone.
-/

namespace BacktrackRegex.Text

/-- The spelling of one character inside a quoted text. -/
def quotedChar (c : Char) : List Char :=
  match c with
  | '\x00' => ['\\', '0']
  | '\t' => ['\\', 't']
  | '\n' => ['\\', 'n']
  | '\r' => ['\\', 'r']
  | '"' => ['\\', '"']
  | '\\' => ['\\', '\\']
  | c => if isHidden c then ['\\', 'u', '{'] ++ digits 16 1 c.toNat ++ ['}'] else [c]

/-- A text in double quotes, with the characters that do not show by themselves escaped. -/
def quoted (s : String) : String :=
  String.ofList ('"' :: s.toList.flatMap quotedChar ++ ['"'])

end BacktrackRegex.Text
