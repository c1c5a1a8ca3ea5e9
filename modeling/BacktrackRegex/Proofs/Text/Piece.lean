import BacktrackRegex.Text.Offset
import Mathlib.Data.List.Basic

/-!
# Pieces of texts

A text is spelled out between two offsets if it is what lies between them. The offsets of a piece
are boundaries. Comparing bytes from a boundary on, and reading the character at an offset, find
exactly the pieces that begin there.
-/

namespace BacktrackRegex.Text

/-- The piece of a text between two offsets is `s`. -/
def Spells (text : String) (i j : Nat) (s : String) : Prop :=
  ∃ before after, text = before ++ s ++ after ∧ before.utf8ByteSize = i ∧
    j = i + s.utf8ByteSize

/-- A boundary divides a text into two texts. -/
theorem isBoundary_iff {text : String} {i : Nat} :
    isBoundary text i = true ↔
      ∃ before after, text = before ++ after ∧ before.utf8ByteSize = i := by
  rw [isBoundary, String.Pos.Raw.isValid_eq_true_iff, String.Pos.Raw.isValid_iff_exists_append]
  constructor
  · rintro ⟨before, after, he, hi⟩
    exact ⟨before, after, he, (congrArg String.Pos.Raw.byteIdx hi).symm⟩
  · rintro ⟨before, after, he, rfl⟩
    exact ⟨before, after, he, rfl⟩

/-- Boundaries lie inside the text. -/
theorem le_of_isBoundary {text : String} {i : Nat} (h : isBoundary text i = true) :
    i ≤ text.utf8ByteSize := by
  obtain ⟨before, after, rfl, rfl⟩ := isBoundary_iff.mp h
  simp

/-- A text begins at a boundary. -/
theorem isBoundary_zero (text : String) : isBoundary text 0 = true :=
  isBoundary_iff.mpr ⟨"", text, String.empty_append.symm, rfl⟩

namespace Spells

variable {text s : String} {i j k : Nat}

/-- A piece begins at a boundary. -/
theorem left (h : Spells text i j s) : isBoundary text i = true := by
  obtain ⟨before, after, he, hi, -⟩ := h
  exact isBoundary_iff.mpr ⟨before, s ++ after, by rw [he, String.append_assoc], hi⟩

/-- A piece ends at a boundary. -/
theorem right (h : Spells text i j s) : isBoundary text j = true := by
  obtain ⟨before, after, he, hi, rfl⟩ := h
  exact isBoundary_iff.mpr ⟨before ++ s, after, he, by rw [String.utf8ByteSize_append, hi]⟩

end Spells

/-- The bytes of the UTF-8 form of a text. -/
def bytes (s : String) : List UInt8 :=
  s.toByteArray.data.toList

@[simp] theorem bytes_append (s t : String) : bytes (s ++ t) = bytes s ++ bytes t := by
  simp [bytes]

@[simp] theorem length_bytes (s : String) : (bytes s).length = s.utf8ByteSize := by
  simp [bytes, ← String.size_toByteArray]

/-- A text whose bytes begin with those of another one begins with that text. -/
theorem exists_append_of_bytes_prefix {s t : String} (h : bytes s <+: bytes t) :
    ∃ rest, t = s ++ rest := by
  obtain ⟨b, hb⟩ := h
  have henc : s.toList.utf8Encode ++ ⟨b.toArray⟩ = t.toList.utf8Encode := by
    rw [String.utf8Encode_toList, String.utf8Encode_toList]
    apply ByteArray.ext
    apply Array.toList_inj.mp
    simpa [bytes] using hb
  obtain ⟨rest, hr⟩ := List.isPrefix_of_utf8Encode_append_eq_utf8Encode _ henc
  exact ⟨String.ofList rest, by
    rw [← String.ofList_toList (s := t), ← hr, String.ofList_append, String.ofList_toList]⟩

/-- The byte at an offset is that of the list of bytes. -/
theorem byteAt?_eq (s : String) (i : Nat) : byteAt? s i = (bytes s)[i]? := by
  rw [byteAt?]
  split
  · next h =>
    have hi : i < s.toByteArray.size := h
    rw [bytes, Array.getElem?_toList]
    exact (Array.getElem?_eq_getElem hi).symm
  · next h =>
    have hi : ¬ i < s.utf8ByteSize := h
    rw [List.getElem?_eq_none (by rw [length_bytes]; omega)]

/-- Equal bytes are a common beginning of what follows the two offsets. -/
theorem sameBytes_iff {s t : String} {i j n : Nat} :
    sameBytes s i t j n = true ↔
      ∃ l : List UInt8, l.length = n ∧ l <+: (bytes s).drop i ∧ l <+: (bytes t).drop j := by
  induction n generalizing i j with
  | zero =>
    simp only [sameBytes, true_iff]
    exact ⟨[], rfl, List.nil_prefix, List.nil_prefix⟩
  | succ n ih =>
    rw [sameBytes, byteAt?_eq, byteAt?_eq]
    constructor
    · intro h
      split at h
      · next a b ha hb =>
        obtain ⟨hab, hrest⟩ := Bool.and_eq_true_iff.mp h
        obtain rfl : a = b := by simpa using hab
        obtain ⟨l, hl, hs, ht⟩ := ih.mp hrest
        refine ⟨a :: l, by simp [hl], ?_, ?_⟩
        · rw [List.drop_eq_getElem?_toList_append, ha]
          exact (List.prefix_append_right_inj [a]).mpr hs
        · rw [List.drop_eq_getElem?_toList_append, hb]
          exact (List.prefix_append_right_inj [a]).mpr ht
      · simp at h
    · rintro ⟨l, hl, ⟨s', hs⟩, ⟨t', ht⟩⟩
      obtain ⟨a, l, rfl⟩ := List.exists_cons_of_length_eq_add_one hl
      have ha : (bytes s)[i]? = some a := by
        rw [← List.head?_drop, ← hs]; rfl
      have hb : (bytes t)[j]? = some a := by
        rw [← List.head?_drop, ← ht]; rfl
      rw [ha, hb]
      simp only [beq_self_eq_true, Bool.true_and]
      refine ih.mpr ⟨l, by simpa using hl, ⟨s', ?_⟩, ⟨t', ?_⟩⟩
      · rw [← List.tail_drop, ← hs]; rfl
      · rw [← List.tail_drop, ← ht]; rfl

/-- Equal bytes lie inside the first text. -/
theorem le_of_sameBytes {s t : String} {i j n : Nat} (hi : i ≤ s.utf8ByteSize)
    (h : sameBytes s i t j n = true) : i + n ≤ s.utf8ByteSize := by
  obtain ⟨l, rfl, hs, -⟩ := sameBytes_iff.mp h
  have := hs.length_le
  rw [List.length_drop, length_bytes] at this
  omega

/-- A text occurs where what follows begins with its bytes. -/
theorem occursAt_iff_bytes {text s : String} {i : Nat} :
    occursAt text i s = true ↔ bytes s <+: (bytes text).drop i := by
  rw [occursAt, sameBytes_iff, List.drop_zero]
  constructor
  · rintro ⟨l, hl, ht, hs⟩
    rwa [← hs.eq_of_length (by rw [hl, length_bytes])]
  · intro h
    exact ⟨bytes s, length_bytes s, h, List.prefix_rfl⟩

/-- Two texts occur one after the other where they occur together. -/
theorem occursAt_append_iff {text s t : String} {i : Nat} :
    occursAt text i (s ++ t) = true ↔
      occursAt text i s = true ∧ occursAt text (i + s.utf8ByteSize) t = true := by
  rw [occursAt_iff_bytes, occursAt_iff_bytes, occursAt_iff_bytes, bytes_append, ← List.drop_drop,
    ← length_bytes s]
  generalize (bytes text).drop i = rest
  constructor
  · rintro ⟨after, rfl⟩
    rw [List.append_assoc, List.drop_left]
    exact ⟨List.prefix_append _ _, List.prefix_append _ _⟩
  · rintro ⟨⟨after, rfl⟩, ht⟩
    rw [List.drop_left] at ht
    exact (List.prefix_append_right_inj _).mpr ht

/-- What follows the first piece of a text are the bytes of the rest. -/
theorem drop_bytes_append (before after : String) :
    (bytes (before ++ after)).drop before.utf8ByteSize = bytes after := by
  rw [bytes_append, ← length_bytes, List.drop_left]

/-- What follows an offset behind another text are the bytes that follow it without that text. -/
theorem drop_bytes_behind (before after : String) (i : Nat) :
    (bytes (before ++ after)).drop (before.utf8ByteSize + i) = (bytes after).drop i := by
  rw [← List.drop_drop, drop_bytes_append]

/-- Comparing bytes behind another text is comparing them without that text. -/
theorem sameBytes_behind (before after : String) (i j n : Nat) :
    sameBytes (before ++ after) (before.utf8ByteSize + i) (before ++ after)
      (before.utf8ByteSize + j) n = sameBytes after i after j n := by
  rw [Bool.eq_iff_iff, sameBytes_iff, sameBytes_iff, drop_bytes_behind, drop_bytes_behind]

/-- A text occurs behind another text where it occurs without that text. -/
theorem occursAt_behind (before after : String) (i : Nat) (s : String) :
    occursAt (before ++ after) (before.utf8ByteSize + i) s = occursAt after i s := by
  rw [Bool.eq_iff_iff, occursAt_iff_bytes, occursAt_iff_bytes, drop_bytes_behind]

/-- At a boundary, a text occurs exactly where it is spelled out. -/
theorem occursAt_iff {text s : String} {i : Nat} (hi : isBoundary text i = true) :
    occursAt text i s = true ↔ Spells text i (i + s.utf8ByteSize) s := by
  obtain ⟨before, after, rfl, rfl⟩ := isBoundary_iff.mp hi
  rw [occursAt_iff_bytes, drop_bytes_append]
  constructor
  · intro h
    obtain ⟨rest, rfl⟩ := exists_append_of_bytes_prefix h
    exact ⟨before, rest, by rw [String.append_assoc], rfl, rfl⟩
  · rintro ⟨before', after', he, hsize, -⟩
    have hb := congrArg (List.drop before.utf8ByteSize ∘ bytes) he
    rw [Function.comp_apply, Function.comp_apply, drop_bytes_append, ← hsize, String.append_assoc,
      drop_bytes_append] at hb
    rw [hb, bytes_append]
    exact List.prefix_append _ _

/-- Texts that are not empty occur at boundaries only: the first byte of a character is none of its
other bytes. -/
theorem isBoundary_of_occursAt {text s : String} {i : Nat} (hs : s ≠ "")
    (h : occursAt text i s = true) : isBoundary text i = true := by
  have hpos : 0 < s.utf8ByteSize := Nat.pos_of_ne_zero fun he => hs (by simpa using he)
  have hfirst : byteAt? s 0 = some (s.getUTF8Byte 0 hpos) := dif_pos hpos
  obtain ⟨n, hn⟩ : ∃ n, s.utf8ByteSize = n + 1 := ⟨s.utf8ByteSize - 1, by omega⟩
  rw [occursAt, hn, sameBytes, hfirst, byteAt?] at h
  split at h
  · next a b ha hb =>
    split at ha
    · next hi =>
      obtain rfl := Option.some.inj ha
      obtain rfl := Option.some.inj hb
      have he := eq_of_beq (Bool.and_eq_true_iff.mp h).1
      rw [isBoundary, String.Pos.Raw.isValid_eq_true_iff,
        String.Pos.Raw.isValid_iff_isUTF8FirstByte]
      exact Or.inr ⟨hi, he ▸ String.isUTF8FirstByte_getUTF8Byte_zero⟩
    · simp at ha
  · simp at h

/-- Two boundaries in ascending order enclose a piece. -/
theorem exists_spells {text : String} {i j : Nat} (hi : isBoundary text i = true)
    (hj : isBoundary text j = true) (hij : i ≤ j) : ∃ s, Spells text i j s := by
  obtain ⟨a, b, rfl, rfl⟩ := isBoundary_iff.mp hi
  obtain ⟨c, d, he, rfl⟩ := isBoundary_iff.mp hj
  have hp : bytes a <+: bytes c := by
    have hc : bytes c <+: bytes (a ++ b) := by
      rw [he, bytes_append]
      exact List.prefix_append _ _
    have ha : bytes a <+: bytes (a ++ b) := by
      rw [bytes_append]
      exact List.prefix_append _ _
    exact List.prefix_of_prefix_length_le ha hc (by simpa using hij)
  obtain ⟨s, rfl⟩ := exists_append_of_bytes_prefix hp
  exact ⟨s, a, d, he, rfl, by simp⟩

/-- Comparing bytes with a piece of the text is looking for an occurrence of the piece. -/
theorem sameBytes_of_spells {text s : String} {i j k : Nat} (h : Spells text j k s) :
    sameBytes text i text j (k - j) = true ↔ occursAt text i s = true := by
  obtain ⟨before, after, rfl, rfl, rfl⟩ := h
  rw [occursAt_iff_bytes, sameBytes_iff, Nat.add_sub_cancel_left, String.append_assoc,
    drop_bytes_append, bytes_append]
  constructor
  · rintro ⟨l, hl, ht, hs⟩
    have hp : l <+: bytes s := List.prefix_of_prefix_length_le hs (List.prefix_append _ _)
      (by simp [hl])
    rwa [← hp.eq_of_length (by rw [hl, length_bytes])]
  · intro ht
    exact ⟨bytes s, length_bytes s, ht, List.prefix_append _ _⟩

/-- The character at an offset is the one that is spelled out there. -/
theorem charAt?_eq_some_iff {text : String} {i : Nat} {c : Char} :
    charAt? text i = some c ↔ Spells text i (i + c.utf8Size) (String.singleton c) := by
  rw [charAt?]
  constructor
  · intro h
    split at h
    · next hv =>
      rw [String.Pos.get?_eq_dif] at h
      split at h
      · simp at h
      · next hne =>
        have hc : (text.pos ⟨i⟩ hv).get hne = c := by simpa using h
        have hs := String.Pos.splits_next_right (text.pos ⟨i⟩ hv) hne
        rw [hc] at hs
        refine ⟨_, _, hs.eq_append.trans (String.append_assoc ..).symm, ?_, by simp⟩
        exact (congrArg String.Pos.Raw.byteIdx hs.offset_eq_rawEndPos).symm
    · simp at h
  · intro h
    have hv : (⟨i⟩ : String.Pos.Raw).IsValid text :=
      String.Pos.Raw.isValid_eq_true_iff.mp h.left
    obtain ⟨before, after, he, rfl, -⟩ := h
    have hs : (text.pos ⟨before.utf8ByteSize⟩ hv).Splits before (String.singleton c ++ after) :=
      ⟨by rw [he, String.append_assoc], rfl⟩
    rw [dif_pos hv, String.Pos.get?_eq_some_get hs.ne_endPos_of_singleton,
      hs.next.get_eq_of_singleton]

/-- A character can be read where it occurs as a text. -/
theorem occursAt_singleton_iff {text : String} {i : Nat} {c : Char} :
    occursAt text i (String.singleton c) = true ↔ charAt? text i = some c := by
  have hsize : (String.singleton c).utf8ByteSize = c.utf8Size := by simp
  rw [charAt?_eq_some_iff]
  constructor
  · intro h
    have hb := isBoundary_of_occursAt (by simp) h
    rwa [occursAt_iff hb, hsize] at h
  · intro h
    rwa [occursAt_iff h.left, hsize]

/-- The characters behind another text are those that can be read without that text. -/
theorem charAt?_behind (before after : String) (i : Nat) :
    charAt? (before ++ after) (before.utf8ByteSize + i) = charAt? after i := by
  apply Option.ext
  intro c
  rw [← occursAt_singleton_iff, ← occursAt_singleton_iff, occursAt_behind]

/-- A character that can be read lies inside the text. -/
theorem le_of_charAt? {text : String} {i : Nat} {c : Char} (h : charAt? text i = some c) :
    i + c.utf8Size ≤ text.utf8ByteSize :=
  le_of_isBoundary (charAt?_eq_some_iff.mp h).right

end BacktrackRegex.Text
