import BacktrackRegex.Proofs.Pattern.Simplified

/-!
# The normal form of patterns

In a simplified pattern no sequence stands directly in a sequence and no alternation directly in an
alternation, both have at least two items, no two literals of a sequence are neighbours, and no
class consists of a single character. A pattern of this form is left as it is by simplification.
-/

namespace BacktrackRegex.Pattern

/-- Whether the pattern is a literal. -/
def isLiteral : Pattern → Bool
  | .literal _ => true
  | _ => false

/-- Whether the pattern is a sequence. -/
def isSequence : Pattern → Bool
  | .sequence _ => true
  | _ => false

/-- Whether the pattern is an alternation. -/
def isAlternation : Pattern → Bool
  | .alternation _ => true
  | _ => false

/-- Whether no two neighbouring items are literals. -/
def isJoined : List Pattern → Bool
  | p :: q :: rest => !(p.isLiteral && q.isLiteral) && isJoined (q :: rest)
  | _ => true

/-- Whether no rewriting applies to the pattern itself. -/
def isTidy : Pattern → Bool
  | .sequence ps => 2 ≤ ps.length && ps.all (!·.isSequence) && isJoined ps
  | .alternation ps => 2 ≤ ps.length && ps.all (!·.isAlternation)
  | .charClass cls => cls.single?.isNone
  | _ => true

/-- Whether no rewriting applies anywhere in the pattern. -/
def isNormal (p : Pattern) : Bool :=
  p.everywhere (fun _ => isTidy) []

variable {ps : List Pattern} {enclosing : List Nat}

/-! ## Items and options -/

/-- A literal in front of joined items is joined with the first one. -/
theorem isJoined_joinInFront {p : Pattern} (h : isJoined ps = true) :
    isJoined (joinInFront p ps) = true := by
  rw [joinInFront.eq_def]
  split
  · next s t rest =>
    cases rest with
    | nil => rfl
    | cons q rest => simpa [isJoined, isLiteral] using h
  · next hne =>
    cases ps with
    | nil => rfl
    | cons q rest =>
      simp only [isJoined, Bool.and_eq_true, Bool.not_eq_true']
      refine ⟨?_, h⟩
      cases p with
      | literal s =>
        cases q with
        | literal t => exact absurd rfl (hne s t rest rfl)
        | _ => rfl
      | _ => rfl

/-- Joining leaves no literals side by side. -/
theorem isJoined_joinLiterals : isJoined (joinLiterals ps) = true := by
  induction ps with
  | nil => rfl
  | cons p ps ih =>
    rw [joinLiterals, List.foldr_cons, ← joinLiterals]
    exact isJoined_joinInFront ih

/-- Where no literals are side by side, there is nothing to join. -/
theorem joinLiterals_of_isJoined (h : isJoined ps = true) : joinLiterals ps = ps := by
  induction ps with
  | nil => rfl
  | cons p ps ih =>
    rw [joinLiterals, List.foldr_cons, ← joinLiterals]
    cases ps with
    | nil => cases p <;> rfl
    | cons q rest =>
      simp only [isJoined, Bool.and_eq_true, Bool.not_eq_true'] at h
      rw [ih h.2, joinInFront.eq_def]
      split
      · next he =>
        obtain ⟨rfl, -⟩ := List.cons.inj he
        simp [isLiteral] at h
      · rfl

/-- The items of a tidy pattern are no sequences. -/
theorem not_isSequence_of_mem_items {p : Pattern} (h : p.isTidy = true) :
    ∀ q ∈ p.items, q.isSequence = false := by
  cases p with
  | sequence ps =>
    simp only [isTidy, Bool.and_eq_true, List.all_eq_true, Bool.not_eq_true'] at h
    exact h.1.2
  | _ => exact List.forall_mem_singleton.mpr rfl

/-- The options of a tidy pattern are no alternations. -/
theorem not_isAlternation_of_mem_options {p : Pattern} (h : p.isTidy = true) :
    ∀ q ∈ p.options, q.isAlternation = false := by
  cases p with
  | alternation ps =>
    simp only [isTidy, Bool.and_eq_true, List.all_eq_true, Bool.not_eq_true'] at h
    exact h.2
  | _ => exact List.forall_mem_singleton.mpr rfl

/-- Where there are no sequences, there is nothing to open. -/
theorem flatMap_items_of_not_isSequence (h : ∀ p ∈ ps, p.isSequence = false) :
    ps.flatMap items = ps := by
  induction ps with
  | nil => rfl
  | cons p ps ih =>
    obtain ⟨hp, hps⟩ := List.forall_mem_cons.mp h
    rw [List.flatMap_cons, ih hps]
    cases p with
    | sequence _ => simp [isSequence] at hp
    | _ => rfl

/-- Where there are no alternations, there is nothing to open. -/
theorem flatMap_options_of_not_isAlternation (h : ∀ p ∈ ps, p.isAlternation = false) :
    ps.flatMap options = ps := by
  induction ps with
  | nil => rfl
  | cons p ps ih =>
    obtain ⟨hp, hps⟩ := List.forall_mem_cons.mp h
    rw [List.flatMap_cons, ih hps]
    cases p with
    | alternation _ => simp [isAlternation] at hp
    | _ => rfl

/-- Two or more items stay a sequence. -/
theorem collapseItems_of_two_le (h : 2 ≤ ps.length) : collapseItems ps = .sequence ps := by
  rw [collapseItems.eq_def]
  split
  · simp at h
  · simp at h
  · rfl

/-- Two or more options stay an alternation. -/
theorem collapseOptions_of_two_le (h : 2 ≤ ps.length) : collapseOptions ps = .alternation ps := by
  rw [collapseOptions.eq_def]
  split
  · simp at h
  · simp at h
  · rfl

/-- A list that is neither empty nor a single item has at least two. -/
theorem two_le_length (hne : ps ≠ []) (hsingle : ∀ p, ps ≠ [p]) : 2 ≤ ps.length := by
  cases ps with
  | nil => exact absurd rfl hne
  | cons p ps =>
    cases ps with
    | nil => exact absurd rfl (hsingle p)
    | cons q ps => exact Nat.le_add_left 2 ps.length

/-! ## Normal patterns -/

/-- The local test is passed by a pattern if it is passed everywhere in it. -/
theorem isTidy_of_everywhere {p : Pattern}
    (h : p.everywhere (fun _ => isTidy) enclosing = true) : p.isTidy = true := by
  cases p with
  | sequence _ | alternation _ =>
    simp only [everywhere, Bool.and_eq_true] at h
    exact h.1
  | charClass _ => simpa only [everywhere] using h
  | _ => rfl

/-- The sequence of normal items without sequences and neighbouring literals is normal. -/
theorem everywhere_isTidy_collapseItems
    (h : ∀ p ∈ ps, p.everywhere (fun _ => isTidy) enclosing = true)
    (hflat : ∀ p ∈ ps, p.isSequence = false) (hjoined : isJoined ps = true) :
    (collapseItems ps).everywhere (fun _ => isTidy) enclosing = true := by
  rw [collapseItems.eq_def]
  split
  · simp only [everywhere, isTidy]
  · exact h _ List.mem_cons_self
  · next hne hsingle =>
    have htwo := two_le_length hne hsingle
    simp only [everywhere, isTidy, Bool.and_eq_true, decide_eq_true_eq, List.all_eq_true,
      Bool.not_eq_true']
    exact ⟨⟨⟨htwo, hflat⟩, hjoined⟩, everywhereIn_iff.mpr h⟩

/-- The alternation of normal options without alternations is normal. -/
theorem everywhere_isTidy_collapseOptions
    (h : ∀ p ∈ ps, p.everywhere (fun _ => isTidy) enclosing = true)
    (hflat : ∀ p ∈ ps, p.isAlternation = false) :
    (collapseOptions ps).everywhere (fun _ => isTidy) enclosing = true := by
  rw [collapseOptions.eq_def]
  split
  · simp only [everywhere, isTidy]
  · exact h _ List.mem_cons_self
  · next hne hsingle =>
    have htwo := two_le_length hne hsingle
    simp only [everywhere, isTidy, Bool.and_eq_true, decide_eq_true_eq, List.all_eq_true,
      Bool.not_eq_true']
    exact ⟨⟨htwo, hflat⟩, everywhereIn_iff.mpr h⟩

mutual
/-- Simplified patterns are normal, whatever groups lie around. -/
theorem everywhere_isTidy_simplify : ∀ (p : Pattern) (enclosing : List Nat),
    p.simplify.everywhere (fun _ => isTidy) enclosing = true
  | .sequence ps, enclosing => by
    have hall := everywhere_isTidy_simplifyAll ps enclosing
    rw [simplify]
    refine everywhere_isTidy_collapseItems (forall_mem_joinLiterals ?_ fun q hq => ?_)
      (forall_mem_joinLiterals (fun _ => rfl) fun q hq => ?_) isJoined_joinLiterals
    · simp only [everywhere, isTidy, implies_true]
    · obtain ⟨p, hp, hq⟩ := List.mem_flatMap.mp hq
      exact everywhere_items (hall p hp) q hq
    · obtain ⟨p, hp, hq⟩ := List.mem_flatMap.mp hq
      exact not_isSequence_of_mem_items (isTidy_of_everywhere (hall p hp)) q hq
  | .alternation ps, enclosing => by
    have hall := everywhere_isTidy_simplifyAll ps enclosing
    rw [simplify]
    refine everywhere_isTidy_collapseOptions (fun q hq => ?_) fun q hq => ?_
    · obtain ⟨p, hp, hq⟩ := List.mem_flatMap.mp hq
      exact everywhere_options (hall p hp) q hq
    · obtain ⟨p, hp, hq⟩ := List.mem_flatMap.mp hq
      exact not_isAlternation_of_mem_options (isTidy_of_everywhere (hall p hp)) q hq
  | .repetition p min max, enclosing => by
    simp only [simplify, everywhere, isTidy, Bool.true_and]
    exact everywhere_isTidy_simplify p enclosing
  | .capture i p, enclosing => by
    simp only [simplify, everywhere, isTidy, Bool.true_and]
    exact everywhere_isTidy_simplify p (i :: enclosing)
  | .charClass cls, enclosing => by
    rw [simplify]
    split
    · simp only [everywhere, isTidy]
    · next h => simp only [everywhere, isTidy, h, Option.isNone_none]
  | .literal _, _ | .anyChar, _ | .backReference _, _ | .textStart, _ | .textEnd, _ => by
    simp only [simplify, everywhere, isTidy]

/-- The simplified patterns of a list are normal. -/
theorem everywhere_isTidy_simplifyAll : ∀ (ps : List Pattern) (enclosing : List Nat),
    ∀ p ∈ simplifyAll ps, p.everywhere (fun _ => isTidy) enclosing = true
  | [], _, p, hp => by simp [simplifyAll] at hp
  | q :: ps, enclosing, p, hp => by
    rw [simplifyAll] at hp
    rcases List.mem_cons.mp hp with rfl | hp
    · exact everywhere_isTidy_simplify q enclosing
    · exact everywhere_isTidy_simplifyAll ps enclosing p hp
end

/-- Simplified patterns are normal. -/
theorem isNormal_simplify (p : Pattern) : p.simplify.isNormal = true :=
  everywhere_isTidy_simplify p []

mutual
/-- Simplification leaves normal patterns as they are. -/
theorem simplify_of_everywhere_isTidy : ∀ (p : Pattern) (enclosing : List Nat),
    p.everywhere (fun _ => isTidy) enclosing = true → p.simplify = p
  | .sequence ps, enclosing, h => by
    simp only [everywhere, isTidy, Bool.and_eq_true, decide_eq_true_eq, List.all_eq_true,
      Bool.not_eq_true'] at h
    obtain ⟨⟨⟨htwo, hflat⟩, hjoined⟩, hall⟩ := h
    rw [simplify, simplifyAll_of_everywhereIn_isTidy ps enclosing hall,
      flatMap_items_of_not_isSequence hflat, joinLiterals_of_isJoined hjoined,
      collapseItems_of_two_le htwo]
  | .alternation ps, enclosing, h => by
    simp only [everywhere, isTidy, Bool.and_eq_true, decide_eq_true_eq, List.all_eq_true,
      Bool.not_eq_true'] at h
    obtain ⟨⟨htwo, hflat⟩, hall⟩ := h
    rw [simplify, simplifyAll_of_everywhereIn_isTidy ps enclosing hall,
      flatMap_options_of_not_isAlternation hflat, collapseOptions_of_two_le htwo]
  | .repetition p min max, enclosing, h => by
    simp only [everywhere, Bool.and_eq_true] at h
    rw [simplify, simplify_of_everywhere_isTidy p enclosing h.2]
  | .capture i p, enclosing, h => by
    simp only [everywhere, Bool.and_eq_true] at h
    rw [simplify, simplify_of_everywhere_isTidy p (i :: enclosing) h.2]
  | .charClass cls, enclosing, h => by
    simp only [everywhere, isTidy, Option.isNone_iff_eq_none] at h
    simp only [simplify, h]
  | .literal _, _, _ | .anyChar, _, _ | .backReference _, _, _ | .textStart, _, _
  | .textEnd, _, _ => by
    simp only [simplify]

/-- Simplification leaves lists of normal patterns as they are. -/
theorem simplifyAll_of_everywhereIn_isTidy : ∀ (ps : List Pattern) (enclosing : List Nat),
    everywhereIn (fun _ => isTidy) enclosing ps = true → simplifyAll ps = ps
  | [], _, _ => rfl
  | p :: ps, enclosing, h => by
    simp only [everywhereIn, Bool.and_eq_true] at h
    rw [simplifyAll, simplify_of_everywhere_isTidy p enclosing h.1,
      simplifyAll_of_everywhereIn_isTidy ps enclosing h.2]
end

/-- Simplification leaves normal patterns as they are. -/
theorem simplify_of_isNormal {p : Pattern} (h : p.isNormal = true) : p.simplify = p :=
  simplify_of_everywhere_isTidy p [] h

/-- A simplified pattern is normal, and simplifying it again changes nothing. Only normal patterns
are left as they are. -/
theorem isNormal_simplify_and_fixed (p : Pattern) : p.simplify.isNormal = true ∧
    p.simplify.simplify = p.simplify ∧ (p.simplify = p ↔ p.isNormal = true) := by
  have hnormal := isNormal_simplify p
  refine ⟨hnormal, simplify_of_isNormal hnormal, fun hfixed => ?_, simplify_of_isNormal⟩
  rw [← hfixed]
  exact hnormal

/-! ## Items and options that are simplified together -/

/-- A tidy pattern is the sequence of its items. -/
theorem collapseItems_joinLiterals_items {p : Pattern} (h : p.isTidy = true) :
    collapseItems (joinLiterals p.items) = p := by
  cases p with
  | sequence ps =>
    simp only [isTidy, Bool.and_eq_true, decide_eq_true_eq] at h
    rw [items, joinLiterals_of_isJoined h.2, collapseItems_of_two_le h.1.1]
  | _ => rfl

/-- A tidy pattern is the alternation of its options. -/
theorem collapseOptions_options {p : Pattern} (h : p.isTidy = true) :
    collapseOptions p.options = p := by
  cases p with
  | alternation ps =>
    simp only [isTidy, Bool.and_eq_true, decide_eq_true_eq] at h
    exact collapseOptions_of_two_le h.1
  | _ => rfl

/-- A single item is simplified as a sequence of one item. -/
theorem simplify_ofItems (ps : List Pattern) :
    (ofItems ps).simplify = collapseItems (joinLiterals ((simplifyAll ps).flatMap items)) := by
  rw [ofItems.eq_def]
  split
  · next p =>
    have htidy : p.simplify.isTidy = true := isTidy_of_everywhere (everywhere_isTidy_simplify p [])
    rw [simplifyAll, simplifyAll, List.flatMap_singleton, collapseItems_joinLiterals_items htidy]
  · rw [simplify]

/-- A single option is simplified as an alternation of one option. -/
theorem simplify_ofOptions (ps : List Pattern) :
    (ofOptions ps).simplify = collapseOptions ((simplifyAll ps).flatMap options) := by
  rw [ofOptions.eq_def]
  split
  · next p =>
    have htidy : p.simplify.isTidy = true := isTidy_of_everywhere (everywhere_isTidy_simplify p [])
    rw [simplifyAll, simplifyAll, List.flatMap_singleton, collapseOptions_options htidy]
  · rw [simplify]

/-- Literals that are joined to items one after the other are joined with each other. -/
theorem joinInFront_joinInFront (s t : String) (ps : List Pattern) :
    joinInFront (.literal s) (joinInFront (.literal t) ps) =
      joinInFront (.literal (s ++ t)) ps := by
  cases ps with
  | nil => rfl
  | cons p ps =>
    cases p with
    | literal u => simp only [joinInFront, String.append_assoc]
    | _ => rfl

/-- The characters of a text that are joined to items one by one are joined as the text. -/
theorem foldr_joinInFront_chars {cs : List Char} (hne : cs ≠ []) (acc : List Pattern) :
    (cs.map fun c => .literal (String.singleton c)).foldr joinInFront acc =
      joinInFront (.literal (String.ofList cs)) acc := by
  induction cs with
  | nil => exact absurd rfl hne
  | cons c cs ih =>
    rw [List.map_cons, List.foldr_cons]
    cases cs with
    | nil => rfl
    | cons d cs =>
      rw [ih (List.cons_ne_nil d cs), joinInFront_joinInFront, String.singleton_eq_ofList,
        ← String.ofList_append, List.singleton_append]

end BacktrackRegex.Pattern
