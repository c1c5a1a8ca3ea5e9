import BacktrackRegex.Proofs.Matching.FirstMatch
import BacktrackRegex.Proofs.Matching.Preference
import BacktrackRegex.Proofs.Program.Size

/-!
# Programs of simplified patterns

A simplified pattern needs no more nodes than the pattern, so that it is compiled whenever the
pattern is. Searching its program fails where searching that of the pattern does, and otherwise
finds the same match with the same spans of all groups.
-/

namespace BacktrackRegex

open Search Text

namespace Pattern

/-! ## Nodes -/

/-- The nodes of two lists of patterns add up. -/
theorem nodeCounts_append (ps qs : List Pattern) :
    nodeCounts (ps ++ qs) = nodeCounts ps + nodeCounts qs := by
  induction ps with
  | nil => simp [nodeCounts]
  | cons p ps ih => rw [List.cons_append, nodeCounts, nodeCounts, ih, Nat.add_assoc]

/-- Opening the sequences among items keeps the nodes. -/
theorem nodeCounts_flatMap_items (ps : List Pattern) :
    nodeCounts (ps.flatMap items) = nodeCounts ps := by
  induction ps with
  | nil => rfl
  | cons p ps ih =>
    have hp : nodeCounts p.items = p.nodeCount := by
      cases p with
      | sequence ps => rw [items, nodeCount]
      | _ => simp [items, nodeCounts]
    rw [List.flatMap_cons, nodeCounts_append, hp, ih, nodeCounts]

/-- Opening the alternations among options makes as many decisions as there were. -/
theorem nodeCounts_flatMap_options {ps : List Pattern} (h : ∀ p ∈ ps, p.hasOption = true) :
    nodeCounts (ps.flatMap options) + (ps.flatMap options).length = nodeCounts ps + ps.length := by
  induction ps with
  | nil => rfl
  | cons p ps ih =>
    have ih := ih fun q hq => h q (List.mem_cons_of_mem _ hq)
    have hp : nodeCounts p.options + p.options.length = p.nodeCount + 1 := by
      have hp := h p List.mem_cons_self
      cases p with
      | alternation qs =>
        have hlength : qs.length ≠ 0 := by simpa [hasOption] using hp
        rw [options, nodeCount]
        omega
      | _ => simp [options, nodeCounts]
    rw [List.flatMap_cons, nodeCounts_append, List.length_append, nodeCounts, List.length_cons]
    omega

/-- Joined literals need no more nodes than before. -/
theorem nodeCounts_joinLiterals_le (ps : List Pattern) :
    nodeCounts (joinLiterals ps) ≤ nodeCounts ps := by
  induction ps with
  | nil => exact Nat.le_refl _
  | cons p ps ih =>
    rw [joinLiterals, List.foldr_cons, ← joinLiterals, joinInFront.eq_def]
    split
    · next s t rest he =>
      have hjoin :
          (literal (s ++ t)).nodeCount ≤ (literal s).nodeCount + (literal t).nodeCount := by
        by_cases hs : s = ""
        · simp [hs, nodeCount]
        · by_cases ht : t = "" <;> simp [hs, ht, nodeCount]
      rw [he] at ih
      simp only [nodeCounts] at ih ⊢
      omega
    · simp only [nodeCounts]
      omega

/-- The sequence of some items has their nodes. -/
theorem nodeCount_collapseItems (ps : List Pattern) :
    (collapseItems ps).nodeCount = nodeCounts ps := by
  rw [collapseItems.eq_def]
  split
  · rfl
  · simp [nodeCounts]
  · rw [nodeCount]

/-- The alternation of some options has their nodes and the decisions between them. -/
theorem nodeCount_collapseOptions (ps : List Pattern) :
    (collapseOptions ps).nodeCount = nodeCounts ps + (ps.length - 1) := by
  rw [collapseOptions.eq_def]
  split
  · rfl
  · simp [nodeCounts]
  · rw [nodeCount]

/-- Fewer nodes of the body need no more optional copies. -/
theorem optionalCount_mono {m m' : Nat} (h : m ≤ m') (n : Nat) :
    optionalCount m n ≤ optionalCount m' n := by
  rw [optionalCount, optionalCount]
  split
  · exact Nat.zero_le _
  · rw [if_neg (by omega)]
    exact Nat.mul_le_mul_left n (Nat.succ_le_succ h)

mutual
/-- Simplification never needs more nodes. -/
theorem nodeCount_simplify_le : ∀ (p : Pattern) {enclosing : List Nat},
    p.everywhere (fun _ => hasOption) enclosing = true → p.simplify.nodeCount ≤ p.nodeCount
  | .sequence ps, enclosing, h => by
    simp only [everywhere, Bool.and_eq_true] at h
    rw [simplify, nodeCount_collapseItems, nodeCount]
    calc nodeCounts (joinLiterals ((simplifyAll ps).flatMap items))
        ≤ nodeCounts ((simplifyAll ps).flatMap items) := nodeCounts_joinLiterals_le _
      _ = nodeCounts (simplifyAll ps) := nodeCounts_flatMap_items _
      _ ≤ nodeCounts ps := nodeCounts_simplifyAll_le ps h.2
  | .alternation ps, enclosing, h => by
    simp only [everywhere, Bool.and_eq_true] at h
    have hoptions : ∀ q ∈ simplifyAll ps, q.hasOption = true := fun q hq => by
      have hq := stable_hasOption.everywhere_simplifyAll ps enclosing h.2 q hq
      cases q with
      | alternation qs =>
        simp only [everywhere, Bool.and_eq_true] at hq
        exact hq.1
      | _ => rfl
    have hflat := nodeCounts_flatMap_options hoptions
    have hle := nodeCounts_simplifyAll_le ps h.2
    have hlength : (simplifyAll ps).length = ps.length := by
      rw [simplifyAll_eq_map, List.length_map]
    have hne : 0 < ((simplifyAll ps).flatMap options).length :=
      List.length_pos_of_ne_nil (flatMap_options_ne_nil (by simpa [hasOption] using h.1) h.2)
    rw [simplify, nodeCount_collapseOptions, nodeCount]
    omega
  | .repetition p min none, enclosing, h => by
    simp only [everywhere, Bool.and_eq_true] at h
    have hle := nodeCount_simplify_le p h.2
    rw [simplify, nodeCount, nodeCount]
    exact Nat.add_le_add (Nat.add_le_add_left hle 1) (Nat.mul_le_mul_left min hle)
  | .repetition p min (some max), enclosing, h => by
    simp only [everywhere, Bool.and_eq_true] at h
    have hle := nodeCount_simplify_le p h.2
    rw [simplify, nodeCount, nodeCount]
    exact Nat.add_le_add (optionalCount_mono hle _) (Nat.mul_le_mul_left min hle)
  | .capture i p, enclosing, h => by
    simp only [everywhere, Bool.and_eq_true] at h
    rw [simplify, nodeCount, nodeCount]
    exact Nat.add_le_add_right (nodeCount_simplify_le p h.2) 2
  | .charClass cls, _, _ => by
    rw [simplify]
    split
    · simp [nodeCount]
    · exact Nat.le_refl _
  | .literal _, _, _ | .anyChar, _, _ | .backReference _, _, _ | .textStart, _, _
  | .textEnd, _, _ => by
    simp only [simplify, Nat.le_refl]

/-- Simplification never needs more nodes for the patterns of a list. -/
theorem nodeCounts_simplifyAll_le : ∀ (ps : List Pattern) {enclosing : List Nat},
    everywhereIn (fun _ => hasOption) enclosing ps = true →
      nodeCounts (simplifyAll ps) ≤ nodeCounts ps
  | [], _, _ => by simp only [simplifyAll, Nat.le_refl]
  | p :: ps, enclosing, h => by
    simp only [everywhereIn, Bool.and_eq_true] at h
    rw [simplifyAll, nodeCounts, nodeCounts]
    exact Nat.add_le_add (nodeCount_simplify_le p h.1) (nodeCounts_simplifyAll_le ps h.2)
end

/-- A simplified pattern is compiled below every limit below which the pattern is. -/
theorem exists_compile?_simplify {p : Pattern} (h : p.hasOptions = true) {limit : Nat}
    {prog : Program} (hc : p.compile? limit = some prog) :
    ∃ prog', p.simplify.compile? limit = some prog' ∧ prog'.size ≤ prog.size := by
  have hle : p.simplify.nodeCount ≤ p.nodeCount := nodeCount_simplify_le p h
  have hlimit : p.nodeCount + 1 ≤ limit :=
    compile?_isSome_iff.mp (Option.isSome_iff_exists.mpr ⟨prog, hc⟩)
  have hroom : (p.simplify.compile? limit).isSome = true :=
    compile?_isSome_iff.mpr (Nat.le_trans (Nat.succ_le_succ hle) hlimit)
  obtain ⟨prog', hc'⟩ := Option.isSome_iff_exists.mp hroom
  refine ⟨prog', hc', ?_⟩
  rw [size_of_compile? hc, size_of_compile? hc']
  exact Nat.succ_le_succ hle

end Pattern

/-! ## Searches -/

/-- Two searches from a place come to the same: both fail, or both find a match with the same spans
of all groups, that of the whole match among them. -/
def Search.Outcome.FindsLike (start : Nat) : Outcome → Outcome → Prop
  | .failed _, .failed _ => True
  | .matched t, .matched t' =>
    (∃ stop, t.captured 0 = .ok (some ⟨start, stop⟩)) ∧
      ∀ i, ∃ span, t.captured i = .ok span ∧ t'.captured i = .ok span
  | _, _ => False

/-- Simplification never makes a program larger, and a search finds the same match in it, with the
same end and the same spans, or fails as well. -/
theorem Program.exec_simplify {limit : Nat} {source : String} {p : Pattern}
    (hread : Pattern.read limit source = .ok p) {maxNodes : Nat} {prog : Program}
    (hc : p.compile? maxNodes = some prog) :
    ∃ prog', p.simplify.compile? maxNodes = some prog' ∧ prog'.size ≤ prog.size ∧
      ∀ (text : String) (start : Nat), isBoundary text start = true →
        ∀ storage storage' : Array Entry,
          (prog'.exec text start (.startingAt storage' start)).FindsLike start
            (prog.exec text start (.startingAt storage start)) := by
  have hoptions := Pattern.hasOptions_of_isWellFormed (Pattern.isWellFormed_of_read hread)
  obtain ⟨prog', hc', hsize⟩ := Pattern.exists_compile?_simplify hoptions hc
  refine ⟨prog', hc', hsize, fun text start hstart storage storage' => ?_⟩
  have h := exec_eq_firstMatch? hread (Or.inl rfl) hc text hstart storage
  have h' := exec_eq_firstMatch? hread (Or.inr rfl) hc' text hstart storage'
  have hfound := Pattern.found_firstMatch?_simplify hoptions text start
  cases hm : p.firstMatch? text start with
  | none =>
    have hm' : p.simplify.firstMatch? text start = none := by simpa [hm] using hfound
    rw [hm] at h
    rw [hm'] at h'
    obtain ⟨t, ht⟩ := h
    obtain ⟨t', ht'⟩ := h'
    rw [ht, ht']
    exact trivial
  | some c =>
    rw [hm, Option.map_some, Option.map_eq_some_iff] at hfound
    obtain ⟨c', hm', he⟩ := hfound
    obtain ⟨-, hspans⟩ := Prod.mk.inj he
    rw [hm] at h
    rw [hm'] at h'
    obtain ⟨t, ht, hcaptured, hwhole⟩ := h
    obtain ⟨t', ht', hcaptured', hwhole'⟩ := h'
    rw [ht, ht']
    refine ⟨⟨c'.pos, by rw [hcaptured', hwhole']⟩, fun i => ⟨c.spans i, ?_, hcaptured i⟩⟩
    rw [hcaptured', hspans]

/-- Joined literals, opened options and a class of a single character leave the match of a loop
around a group as it is. -/
theorem Program.exec_simplify_opened_options :
    ∃ p prog prog', Pattern.read 255 "(?:x|(?:(a)|[b])*)*c(?:d)" = .ok p ∧
      p.compile? 100 = some prog ∧ p.simplify.compile? 100 = some prog' ∧
        prog'.size ≤ prog.size ∧ isBoundary "aabcd" 0 = true ∧
          (prog'.exec "aabcd" 0 (.startingAt #[] 0)).FindsLike 0
            (prog.exec "aabcd" 0 (.startingAt #[] 0)) := by
  let loop : Pattern := .repetition
    (.alternation [.capture 1 (.literal "a"), .charClass (.ascii ⟨1 <<< 98, false⟩)]) 0 none
  let p : Pattern := .sequence
    [.repetition (.alternation [.literal "x", loop]) 0 none, .literal "c", .literal "d"]
  have hread : Pattern.read 255 "(?:x|(?:(a)|[b])*)*c(?:d)" = .ok p :=
    Pattern.read_eq_ok_iff.mpr (by decide +kernel)
  obtain ⟨prog, hc⟩ : ∃ prog, p.compile? 100 = some prog :=
    Option.isSome_iff_exists.mp (by decide +kernel)
  obtain ⟨prog', hc', hsize, h⟩ := Program.exec_simplify hread hc
  have hstart : isBoundary "aabcd" 0 = true := by decide
  exact ⟨p, prog, prog', hread, hc, hc', hsize, hstart, h "aabcd" 0 hstart #[] #[]⟩

end BacktrackRegex
