import BacktrackRegex.Proofs.Matching.Continuation

/-!
# The match relation

A pattern without back-references relates the places of a text between which it matches. The
relation does not say which of several matches is preferred, and allows a repetition any chain of
iterations, empty ones among them.
-/

namespace BacktrackRegex

open Text Progress

/-- A chain of `n` steps of a relation. -/
inductive Chain (R : Nat → Nat → Prop) : Nat → Nat → Nat → Prop where
  | nil (i) : Chain R 0 i i
  | cons {n i l j} (h : R i l) (ht : Chain R n l j) : Chain R (n + 1) i j

namespace Chain

variable {R : Nat → Nat → Prop} {m n i l j : Nat}

/-- Chains can be put one after the other. -/
theorem append (h : Chain R m i l) (h' : Chain R n l j) : Chain R (m + n) i j := by
  induction h with
  | nil => rwa [Nat.zero_add]
  | cons h _ ih =>
    rw [Nat.add_right_comm]
    exact .cons h (ih h')

/-- A chain can be divided after any number of steps. -/
theorem split (h : Chain R (m + n) i j) : ∃ l, Chain R m i l ∧ Chain R n l j := by
  induction m generalizing i with
  | zero => exact ⟨i, .nil i, by rwa [Nat.zero_add] at h⟩
  | succ m ih =>
    rw [Nat.add_right_comm] at h
    cases h with
    | cons h ht =>
      obtain ⟨l, hl, hr⟩ := ih ht
      exact ⟨l, .cons h hl, hr⟩

/-- A single step is a chain. -/
theorem one_iff : Chain R 1 i j ↔ R i j := by
  constructor
  · intro h
    cases h with
    | cons h ht =>
      cases ht
      exact h
  · intro h
    exact .cons h (.nil j)

end Chain

namespace Pattern

mutual
/-- The pattern matches the piece of a text between two places. -/
def Matches (text : String) : Pattern → Nat → Nat → Prop
  | .literal s, i, j => Spells text i j s
  | .sequence ps, i, j => MatchesAll text ps i j
  | .alternation ps, i, j => MatchesSome text ps i j
  | .anyChar, i, j => ∃ c, c ≠ '\n' ∧ Spells text i j (String.singleton c)
  | .repetition p min max, i, j =>
    ∃ n, min ≤ n ∧ (∀ m, max = some m → n ≤ m) ∧ Chain (Matches text p) n i j
  | .capture _ p, i, j => Matches text p i j
  | .backReference _, _, _ => False
  | .textStart, i, j => i = j ∧ i = 0
  | .textEnd, i, j => i = j ∧ i = text.utf8ByteSize
  | .charClass cls, i, j => ∃ c, cls.accepts c = true ∧ Spells text i j (String.singleton c)

/-- The items of a sequence match the piece of a text one after the other. -/
def MatchesAll (text : String) : List Pattern → Nat → Nat → Prop
  | [], i, j => i = j
  | p :: ps, i, j => ∃ l, Matches text p i l ∧ MatchesAll text ps l j

/-- One of the options of an alternation matches the piece of a text. -/
def MatchesSome (text : String) : List Pattern → Nat → Nat → Prop
  | [], _, _ => False
  | p :: ps, i, j => Matches text p i j ∨ MatchesSome text ps i j
end

end Pattern

namespace Part

open Pattern

/-- The part matches the piece of a text between two places. -/
def Matches (text : String) : Part → Nat → Nat → Prop
  | .one p, i, j => p.Matches text i j
  | .items ps, i, j => MatchesAll text ps i j
  | .options ps, i, j => MatchesSome text ps i j
  | .copies p n, i, j => Chain (p.Matches text) n i j
  | .optionals p n, i, j => ∃ k, k ≤ n ∧ Chain (p.Matches text) k i j
  | .loop p, i, j => ∃ k, Chain (p.Matches text) k i j

variable {text : String} {origin : Nat}

/-- The last mandatory copy comes after the other ones. -/
theorem matches_copy {p : Pattern} {n i j : Nat} :
    (Part.copies p (n + 1)).Matches text i j ↔
      ∃ l, (Part.copies p n).Matches text i l ∧ (Part.one p).Matches text l j := by
  constructor
  · intro h
    obtain ⟨l, hl, hr⟩ := Chain.split h
    exact ⟨l, hl, Chain.one_iff.mp hr⟩
  · rintro ⟨l, hl, hr⟩
    exact hl.append (Chain.one_iff.mpr hr)

/-- Optional copies match the empty piece, or what one copy and then the other ones match. -/
theorem matches_optional {p : Pattern} {n i j : Nat} :
    (Part.optionals p (n + 1)).Matches text i j ↔
      (∃ l, (Part.one p).Matches text i l ∧ (Part.optionals p n).Matches text l j) ∨ i = j := by
  constructor
  · rintro ⟨k, hk, hc⟩
    cases hc with
    | nil => exact Or.inr rfl
    | cons h ht => exact Or.inl ⟨_, h, _, by omega, ht⟩
  · rintro (⟨l, h, k, hk, ht⟩ | rfl)
    · exact ⟨k + 1, by omega, .cons h ht⟩
    · exact ⟨0, by omega, .nil i⟩

/-- A repetition matches what its mandatory copies and then the other ones match. -/
theorem matches_repetition {p : Pattern} {min : Nat} {max : Option Nat}
    (hmax : inOrder min max = true) {i j : Nat} :
    (Part.one (.repetition p min max)).Matches text i j ↔
      ∃ l, (Part.copies p min).Matches text i l ∧ (more p min max).Matches text l j := by
  simp only [Matches, Pattern.Matches]
  constructor
  · rintro ⟨n, hmin, hn, hc⟩
    obtain ⟨n, rfl⟩ := Nat.exists_eq_add_of_le hmin
    obtain ⟨l, hl, hr⟩ := hc.split
    refine ⟨l, hl, ?_⟩
    cases max with
    | none => exact ⟨n, hr⟩
    | some max =>
      have := hn max rfl
      exact ⟨n, by omega, hr⟩
  · rintro ⟨l, hl, hr⟩
    cases max with
    | none =>
      obtain ⟨n, hr⟩ := hr
      exact ⟨min + n, Nat.le_add_right _ _, by simp, hl.append hr⟩
    | some max =>
      obtain ⟨n, hn, hr⟩ := hr
      have hle : min ≤ max := by simpa [inOrder] using hmax
      refine ⟨min + n, Nat.le_add_right _ _, fun m hm => ?_, hl.append hr⟩
      obtain rfl := Option.some.inj hm
      omega

end Part

/-! ## Leaves -/

namespace Pattern

variable {text : String} {c : Progress} {pos : Nat}

/-- Characters with a property are found where they are spelled out. -/
theorem charStop?_iff {accepts : Char → Bool} {i : Nat} :
    charStop? text accepts i = some pos ↔
      ∃ ch, accepts ch = true ∧ Spells text i pos (String.singleton ch) := by
  constructor
  · intro h
    rw [charStop?] at h
    split at h
    · next ch hc =>
      split at h
      · next ha =>
        obtain rfl := Option.some.inj h
        exact ⟨ch, ha, charAt?_eq_some_iff.mp hc⟩
      · simp at h
    · simp at h
  · rintro ⟨ch, ha, hs⟩
    obtain rfl : pos = i + ch.utf8Size := by
      obtain ⟨_, _, _, _, he⟩ := hs
      simpa using he
    rw [charStop?, charAt?_eq_some_iff.mpr hs]
    simp [ha]

/-- A leaf that is no back-reference stops to match where its piece ends. -/
theorem stop?_iff {p : Pattern} (hp : p.isLeaf = true) (hr : p.isRegular = true)
    (hb : isBoundary text c.pos = true) :
    p.stop? text c = some pos ↔ p.Matches text c.pos pos := by
  cases p with
  | literal s =>
    simp only [stop?, Matches]
    constructor
    · intro h
      split at h
      · next ho =>
        obtain rfl := Option.some.inj h
        exact (occursAt_iff hb).mp ho
      · simp at h
    · intro h
      obtain rfl : pos = c.pos + s.utf8ByteSize := by
        obtain ⟨_, _, _, _, he⟩ := h
        exact he
      rw [if_pos ((occursAt_iff hb).mpr h)]
  | anyChar =>
    refine charStop?_iff.trans ?_
    simp [Matches]
  | charClass cls =>
    refine charStop?_iff.trans ?_
    rw [Matches]
  | textStart | textEnd =>
    simp only [stop?, Matches, Option.ite_none_right_eq_some, Option.some.injEq]
    exact and_comm
  | backReference _ => simp [isRegular] at hr
  | _ => simp [isLeaf] at hp

end Pattern

end BacktrackRegex
