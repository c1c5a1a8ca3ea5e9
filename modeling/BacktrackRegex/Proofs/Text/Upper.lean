import BacktrackRegex.Text.Upper
import Mathlib.Data.String.Basic

/-!
# What the upper case keeps

A character below the small letters is its own upper case, and so are digits, the underscore and all
punctuation of names. The upper case of a character is the character itself or lies among the
letters, so that no control and no punctuation of ASCII comes from anything else.
-/

namespace BacktrackRegex.Text

/-- The characters with an upper case of more than one character lie behind the capital letters, and
so does what they become. -/
theorem le_of_mem_upperExpansions {code : Nat} {expansion : List Nat}
    (h : (code, expansion) ∈ upperExpansions) : 0x61 ≤ code ∧ ∀ n ∈ expansion, 0x41 ≤ n := by
  have hall : ∀ e ∈ upperExpansions.toList, 0x61 ≤ e.1 ∧ ∀ n ∈ e.2, 0x41 ≤ n := by
    decide +kernel
  exact hall _ (Array.mem_def.mp h)

/-- The runs of characters that have upper cases lie behind the capital letters, and what they
become does not lie before these. -/
theorem le_of_mem_upperRuns {first last step target : Nat}
    (h : (first, last, step, target) ∈ upperRuns) : 0x61 ≤ first ∧ 0x41 ≤ target := by
  have hall : ∀ r ∈ upperRuns.toList, 0x61 ≤ r.1 ∧ 0x41 ≤ r.2.2.2 := by decide +kernel
  exact hall _ (Array.mem_def.mp h)

/-- The upper case of a character is the character itself, or what it becomes in one of the two
ways. -/
theorem upperChar_cases (c : Char) :
    (∃ code expansion, (code, expansion) ∈ upperExpansions ∧ code = c.toNat ∧
      upperChar c = expansion.map Char.ofNat) ∨
    (∃ first last step target, (first, last, step, target) ∈ upperRuns ∧ first ≤ c.toNat ∧
      upperChar c = [Char.ofNat (target + (c.toNat - first))]) ∨
    upperChar c = [c] := by
  rw [upperChar]
  split
  · next code expansion he =>
    exact Or.inl ⟨code, expansion, Array.mem_of_find?_eq_some he,
      by simpa using Array.find?_some he, rfl⟩
  · split
    · next first last step target hr =>
      have hin := Array.find?_some hr
      simp only [Bool.and_eq_true, decide_eq_true_eq] at hin
      exact Or.inr (Or.inl ⟨first, last, step, target, Array.mem_of_find?_eq_some hr, hin.1.1, rfl⟩)
    · exact Or.inr (Or.inr rfl)

/-- A character below the small letters is its own upper case. -/
theorem upperChar_of_lt {c : Char} (hc : c.toNat < 0x61) : upperChar c = [c] := by
  rcases upperChar_cases c with ⟨code, expansion, he, rfl, -⟩ | ⟨_, _, _, _, hr, hle, -⟩ | h
  · have := (le_of_mem_upperExpansions he).1
    omega
  · have := (le_of_mem_upperRuns hr).1
    omega
  · exact h

/-- No control but the first and no punctuation before the letters comes from another character. -/
theorem eq_of_mem_upperChar {c d : Char} (h : d ∈ upperChar c) (hpos : 0 < d.toNat)
    (hlt : d.toNat < 0x41) : d = c := by
  have hofNat {n : Nat} (hn : 0x41 ≤ n) (hd : d = Char.ofNat n) : d = c := by
    unfold Char.ofNat at hd
    by_cases hv : n.isValidChar
    · rw [dif_pos hv] at hd
      have : d.toNat = n := by rw [hd]; rfl
      omega
    · rw [dif_neg hv] at hd
      rw [hd] at hpos
      exact absurd hpos (by decide)
  rcases upperChar_cases c with ⟨_, expansion, he, -, hu⟩ | ⟨_, _, _, _, hr, -, hu⟩ | hu
  · rw [hu] at h
    obtain ⟨n, hn, hd⟩ := List.mem_map.mp h
    exact hofNat ((le_of_mem_upperExpansions he).2 n hn) hd.symm
  · rw [hu, List.mem_singleton] at h
    exact hofNat (Nat.le_trans (le_of_mem_upperRuns hr).2 (Nat.le_add_right _ _)) h
  · rwa [hu, List.mem_singleton] at h

/-- No such control and no such punctuation is in the upper case of a text that is without it. -/
theorem mem_of_mem_upper {c : Char} {s : String} (h : c ∈ (upper s).toList) (hpos : 0 < c.toNat)
    (hlt : c.toNat < 0x41) : c ∈ s.toList := by
  rw [upper, String.toList_ofList, List.mem_flatMap] at h
  obtain ⟨d, hd, hmem⟩ := h
  rwa [eq_of_mem_upperChar hmem hpos hlt]

/-- Texts are put into upper case one after the other. -/
theorem upper_append (s t : String) : upper (s ++ t) = upper s ++ upper t := by
  rw [upper, String.toList_append, List.flatMap_append, String.ofList_append]
  rfl

/-- A text without characters from the small letters on is its own upper case. -/
theorem upper_of_lt {s : String} (hs : ∀ c ∈ s.toList, c.toNat < 0x61) : upper s = s := by
  have hchars : s.toList.flatMap upperChar = s.toList.flatMap fun c => [c] :=
    List.flatMap_congr fun c hc => upperChar_of_lt (hs c hc)
  rw [upper, hchars, List.flatMap_singleton', String.ofList_toList]

end BacktrackRegex.Text
