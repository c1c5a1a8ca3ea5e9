/-!
# Byte offsets into texts

A place in a text is a byte offset of its UTF-8 form and may lie inside a character. Bytes can be
compared from any offset; a character can be read, and a piece can be cut out, only at offsets that
lie between characters.
-/

namespace BacktrackRegex.Text

/-- The byte at an offset before the end of the text. -/
@[inline] def byteAt? (s : String) (i : Nat) : Option UInt8 :=
  if h : (⟨i⟩ : String.Pos.Raw) < s.rawEndPos then some (s.getUTF8Byte ⟨i⟩ h) else none

/-- Whether an offset lies between two characters, before the first one or after the last one. -/
def isBoundary (s : String) (i : Nat) : Bool :=
  String.Pos.Raw.isValid s ⟨i⟩

/-- The character that starts at an offset. -/
@[inline] def charAt? (s : String) (i : Nat) : Option Char :=
  if h : (⟨i⟩ : String.Pos.Raw).IsValid s then (s.pos ⟨i⟩ h).get? else none

/-- Whether `n` bytes of `s` from offset `i` are `n` bytes of `t` from offset `j`. -/
def sameBytes (s : String) (i : Nat) (t : String) (j : Nat) : Nat → Bool
  | 0 => true
  | n + 1 =>
    match byteAt? s i, byteAt? t j with
    | some a, some b => a == b && sameBytes s (i + 1) t (j + 1) n
    | _, _ => false

/-- Whether the text `t` occurs in `s` at an offset. -/
def occursAt (s : String) (i : Nat) (t : String) : Bool :=
  sameBytes s i t 0 t.utf8ByteSize

/-- The piece of a text between two offsets, if they are boundaries in ascending order. -/
def slice? (s : String) (start stop : Nat) : Option String :=
  if h : (⟨start⟩ : String.Pos.Raw).IsValid s ∧ (⟨stop⟩ : String.Pos.Raw).IsValid s ∧
      start ≤ stop then
    some (String.extract (s.pos ⟨start⟩ h.1) (s.pos ⟨stop⟩ h.2.1))
  else none

end BacktrackRegex.Text
