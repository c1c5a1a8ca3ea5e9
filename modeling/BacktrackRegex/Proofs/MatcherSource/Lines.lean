import BacktrackRegex.MatcherSource.Generator
import BacktrackRegex.Proofs.Text.Upper

/-!
# Lines of a source file

A generator writes its source line by line, and none of its lines is broken by what it quotes: a
line feed is escaped in a quoted text, numerals and membership tests have none, and putting a name
into upper case brings none in. So the lines can be read back from the source.
-/

namespace BacktrackRegex

namespace Text

/-- Numerals have no line feed. -/
@[simp]
theorem newline_notMem_toDigits {base : Nat} (hbase : 1 < base) (n : Nat) :
    '\n' ∉ Nat.toDigits base n := by
  have hdigit (k : Nat) : '\n' ≠ k.digitChar := (Nat.digitChar_ne '\n' rfl).symm
  induction n using Nat.strongRecOn with
  | ind n ih =>
    by_cases hn : n < base
    · simp [Nat.toDigits_of_lt_base hn, hdigit]
    · rw [Nat.toDigits_of_base_le hbase (Nat.le_of_not_lt hn)]
      have hlt : n / base < n := Nat.div_lt_self (by omega) hbase
      simpa [hdigit] using ih (n / base) hlt

/-- A line feed in a text is escaped when the text is quoted. -/
@[simp]
theorem newline_notMem_quoted (s : String) : '\n' ∉ (quoted s).toList := by
  have hchar (c : Char) : '\n' ∉ quotedChar c := by
    unfold quotedChar
    split
    case h_7 hne _ _ _ =>
      split
      · simp [digits]
      · simpa using Ne.symm hne
    all_goals decide
  simp [quoted, hchar]

/-- Texts without line feeds are joined to one without, if they are not joined by one. -/
theorem newline_notMem_intercalate (separator : String) {texts : List String}
    (hs : '\n' ∉ separator.toList) (ht : ∀ text ∈ texts, '\n' ∉ text.toList) :
    '\n' ∉ (separator.intercalate texts).toList := by
  induction texts with
  | nil => simp
  | cons text texts ih =>
    cases texts with
    | nil => simpa using ht
    | cons next texts =>
      rw [List.forall_mem_cons] at ht
      rw [String.intercalate_cons_cons, String.toList_append, String.toList_append,
        List.mem_append, List.mem_append]
      exact not_or.mpr ⟨not_or.mpr ⟨ht.1, hs⟩, ih ht.2⟩

end Text

namespace MatcherSource

open Text

/-- No line is broken. -/
def Unbroken (lines : List String) : Prop :=
  ∀ line ∈ lines, '\n' ∉ line.toList

variable {lines more : List String}

@[simp]
theorem unbroken_nil : Unbroken [] :=
  List.forall_mem_nil _

@[simp]
theorem unbroken_cons {line : String} :
    Unbroken (line :: lines) ↔ '\n' ∉ line.toList ∧ Unbroken lines :=
  List.forall_mem_cons

@[simp]
theorem unbroken_append : Unbroken (lines ++ more) ↔ Unbroken lines ∧ Unbroken more :=
  List.forall_mem_append

@[simp]
theorem unbroken_flatten {α : Type} {f : α → List String} {l : List α} :
    Unbroken (l.map f).flatten ↔ ∀ a ∈ l, Unbroken (f a) := by
  unfold Unbroken
  rw [List.forall_mem_flatten, List.forall_mem_map]

@[simp]
theorem unbroken_indent : Unbroken (indent lines) ↔ Unbroken lines := by
  unfold Unbroken indent
  rw [List.forall_mem_map]
  refine forall₂_congr fun line _ => ?_
  split <;> simp

@[simp]
theorem unbroken_block {head tail : String} :
    Unbroken (block head lines tail) ↔
      '\n' ∉ head.toList ∧ Unbroken lines ∧ '\n' ∉ tail.toList := by
  simp [block]

@[simp]
theorem unbroken_looseBlock : Unbroken (looseBlock lines) ↔ Unbroken lines := by
  simp [looseBlock]

@[simp]
theorem unbroken_goTo (next : Nat) : Unbroken (goTo next) := by
  simp [goTo]

theorem newline_notMem_pushKey {kind : String} (hk : '\n' ∉ kind.toList) (index : Nat) :
    '\n' ∉ (pushKey kind index).toList := by
  unfold pushKey
  simp [hk]

@[simp]
theorem newline_notMem_keepChoice (node : Nat) : '\n' ∉ (keepChoice node).toList := by
  simp [keepChoice]

theorem newline_notMem_maskTest (mask : AsciiMask) : '\n' ∉ (maskTest mask).toList := by
  unfold maskTest
  split <;> simp [digits]

theorem newline_notMem_anyOf {tests : List String} (ht : Unbroken tests) :
    '\n' ∉ (anyOf tests).toList := by
  unfold anyOf
  split
  · simp
  · exact (unbroken_cons.mp ht).1
  · simpa using newline_notMem_intercalate " || " (by simp) ht

theorem newline_notMem_rangePattern? {r : CodeRange} {pattern : String}
    (h : rangePattern? r = some pattern) : '\n' ∉ pattern.toList := by
  unfold rangePattern? at h
  split at h
  · cases h
    simp
  · split at h
    · cases h
      simp
    · cases h

theorem newline_notMem_rangesTest (set : RangeSet) : '\n' ∉ (rangesTest set).toList := by
  have hpatterns : Unbroken (set.ranges.filterMap rangePattern?) := by
    intro pattern h
    obtain ⟨r, -, hr⟩ := List.mem_filterMap.mp h
    exact newline_notMem_rangePattern? hr
  have hstrided : Unbroken
      ((set.ranges.filter fun r => (rangePattern? r).isNone).map strideTest) := by
    intro test h
    obtain ⟨r, -, rfl⟩ := List.mem_map.mp h
    simp [strideTest]
  refine newline_notMem_anyOf ?_
  split
  · exact hstrided
  · rw [unbroken_cons]
    exact ⟨by simpa using newline_notMem_intercalate " | " (by simp) hpatterns, hstrided⟩

mutual
theorem newline_notMem_classTest (cls : CharClass) : '\n' ∉ (classTest cls).toList := by
  cases cls with
  | ascii mask => exact newline_notMem_maskTest mask
  | ranges set => exact newline_notMem_rangesTest set
  | complement inner => simpa [classTest] using newline_notMem_classTest inner
  | union members =>
    cases members with
    | nil => simp [classTest]
    | cons m ms =>
      simpa [classTest] using
        newline_notMem_intercalate " || " (by simp) (unbroken_classTests (m :: ms))

theorem unbroken_classTests (members : List CharClass) : Unbroken (classTests members) := by
  cases members with
  | nil => exact unbroken_nil
  | cons m ms => exact unbroken_cons.mpr ⟨newline_notMem_classTest m, unbroken_classTests ms⟩
end

/-- The arm of a node is not broken by the literal or the class of the node. -/
theorem unbroken_arm (id : Nat) (node : Node) : Unbroken (arm id node) := by
  unfold arm matchChar
  cases node.op <;> simp [newline_notMem_classTest, newline_notMem_pushKey]

theorem unbroken_registryEntry {name : String} (hname : '\n' ∉ name.toList) (pattern : String)
    (p : Program) : Unbroken (registryEntry name pattern p) := by
  have hupper : '\n' ∉ (upper name).toList := fun h =>
    hname (mem_of_mem_upper h (by decide) (by decide))
  have hanchored : '\n' ∉ (toString p.anchored).toList := by
    cases p.anchored <;> decide
  simp [registryEntry, hname, hupper, hanchored]

theorem unbroken_matcherFunction {name : String} (hname : '\n' ∉ name.toList) (p : Program) :
    Unbroken (matcherFunction name p) := by
  simp [matcherFunction, takeChoice, hname, unbroken_arm]

/-- The matcher of a pattern is not broken by the pattern, if it is not by its name. -/
theorem unbroken_matcher {name : String} (hname : '\n' ∉ name.toList) (pattern : String)
    (p : Program) : Unbroken (matcher name pattern p) := by
  simp [matcher, unbroken_registryEntry hname, unbroken_matcherFunction hname]

/-- Unbroken lines are read back from the text that they make up, which ends with a line feed. -/
theorem splitOn_join (h : Unbroken lines) :
    (String.join (lines.map (· ++ "\n"))).toList.splitOn '\n' =
      lines.map String.toList ++ [[]] := by
  have hjoin : (String.join (lines.map (· ++ "\n"))).toList =
      ['\n'].intercalate (lines.map String.toList ++ [[]]) := by
    clear h
    induction lines with
    | nil => rfl
    | cons line lines ih =>
      have hne : lines.map String.toList ++ [[]] ≠ [] := by simp
      rw [List.map_cons, List.map_cons, List.cons_append, List.intercalate_cons_of_ne_nil hne, ← ih]
      simp
  rw [hjoin]
  refine List.splitOn_intercalate _ (fun l hl => ?_) (by simp)
  rw [List.mem_append, List.mem_map, List.mem_singleton] at hl
  rcases hl with ⟨line, hline, rfl⟩ | rfl
  · exact h line hline
  · exact List.not_mem_nil

end MatcherSource

end BacktrackRegex
