import BacktrackRegex.Pattern.Simplify

/-!
# Landmarks of patterns

Apart from what stands for characters, a pattern has landmarks: the ends of its capture groups, its
back-references and its anchors. Listed from left to right they also tell which of them lie inside
which group, since each group has its start and its end among them. Simplification rearranges what
lies between the landmarks, and leaves them as they are.
-/

namespace BacktrackRegex.Pattern

/-- A part of a pattern that stands for no character of its own. -/
inductive Landmark where
  /-- The opening parenthesis of a capture group. -/
  | groupStart (index : Nat)
  /-- The closing parenthesis of a capture group. -/
  | groupEnd (index : Nat)
  /-- A reference to a capture group. -/
  | backReference (index : Nat)
  /-- The start of the text. -/
  | textStart
  /-- The end of the text. -/
  | textEnd
  deriving DecidableEq, Repr

mutual
/-- The landmarks of a pattern from left to right. -/
def landmarks : Pattern → List Landmark
  | .sequence ps => landmarksIn ps
  | .alternation ps => landmarksIn ps
  | .repetition p _ _ => landmarks p
  | .capture i p => .groupStart i :: (landmarks p ++ [.groupEnd i])
  | .backReference i => [.backReference i]
  | .textStart => [.textStart]
  | .textEnd => [.textEnd]
  | _ => []

/-- The landmarks of patterns one after the other. -/
def landmarksIn : List Pattern → List Landmark
  | [] => []
  | p :: ps => landmarks p ++ landmarksIn ps
end

/-- The landmarks of two lists come one after the other. -/
@[simp] theorem landmarksIn_append (ps qs : List Pattern) :
    landmarksIn (ps ++ qs) = landmarksIn ps ++ landmarksIn qs := by
  induction ps with
  | nil => rfl
  | cons p ps ih => rw [List.cons_append, landmarksIn, landmarksIn, ih, List.append_assoc]

/-- A list of a single pattern has the landmarks of the pattern. -/
@[simp] theorem landmarksIn_singleton (p : Pattern) : landmarksIn [p] = landmarks p :=
  List.append_nil (landmarks p)

/-- A pattern has the landmarks of its items. -/
theorem landmarksIn_items (p : Pattern) : landmarksIn p.items = landmarks p := by
  cases p with
  | sequence ps => rw [items, landmarks]
  | _ => exact landmarksIn_singleton _

/-- A pattern has the landmarks of its options. -/
theorem landmarksIn_options (p : Pattern) : landmarksIn p.options = landmarks p := by
  cases p with
  | alternation ps => rw [options, landmarks]
  | _ => exact landmarksIn_singleton _

/-- Patterns that are opened have the same landmarks. -/
theorem landmarksIn_flatMap {parts : Pattern → List Pattern}
    (h : ∀ p, landmarksIn (parts p) = landmarks p) (ps : List Pattern) :
    landmarksIn (ps.flatMap parts) = landmarksIn ps := by
  induction ps with
  | nil => rfl
  | cons p ps ih => rw [List.flatMap_cons, landmarksIn_append, h, ih, landmarksIn]

/-- Joining literals keeps the landmarks: literals have none. -/
theorem landmarksIn_joinLiterals (ps : List Pattern) :
    landmarksIn (joinLiterals ps) = landmarksIn ps := by
  induction ps with
  | nil => rfl
  | cons p ps ih =>
    rw [joinLiterals, List.foldr_cons, ← joinLiterals, landmarksIn, ← ih, joinInFront.eq_def]
    split
    · next he => rw [he]; simp only [landmarksIn, landmarks, List.nil_append]
    · rw [landmarksIn]

/-- The collapsed sequence has the landmarks of its items. -/
theorem landmarks_collapseItems (ps : List Pattern) :
    landmarks (collapseItems ps) = landmarksIn ps := by
  rw [collapseItems.eq_def]
  split
  · simp only [landmarks, landmarksIn]
  · exact (landmarksIn_singleton _).symm
  · rw [landmarks]

/-- The collapsed alternation has the landmarks of its options. -/
theorem landmarks_collapseOptions (ps : List Pattern) :
    landmarks (collapseOptions ps) = landmarksIn ps := by
  rw [collapseOptions.eq_def]
  split
  · simp only [landmarks, landmarksIn]
  · exact (landmarksIn_singleton _).symm
  · rw [landmarks]

mutual
/-- Simplification keeps the landmarks and their order. -/
theorem landmarks_simplify : ∀ p : Pattern, landmarks p.simplify = landmarks p
  | .sequence ps => by
    rw [simplify, landmarks_collapseItems, landmarksIn_joinLiterals,
      landmarksIn_flatMap landmarksIn_items, landmarks, landmarksIn_simplifyAll ps]
  | .alternation ps => by
    rw [simplify, landmarks_collapseOptions, landmarksIn_flatMap landmarksIn_options, landmarks,
      landmarksIn_simplifyAll ps]
  | .repetition p _ _ => by rw [simplify, landmarks, landmarks, landmarks_simplify p]
  | .capture _ p => by rw [simplify, landmarks, landmarks, landmarks_simplify p]
  | .charClass cls => by
    rw [simplify]
    split <;> simp only [landmarks]
  | .literal _ | .anyChar | .backReference _ | .textStart | .textEnd => by simp only [simplify]

/-- Simplification keeps the landmarks of the patterns of a list. -/
theorem landmarksIn_simplifyAll : ∀ ps : List Pattern,
    landmarksIn (simplifyAll ps) = landmarksIn ps
  | [] => rfl
  | p :: ps => by
    rw [simplifyAll, landmarksIn, landmarksIn, landmarks_simplify p, landmarksIn_simplifyAll ps]
end

end BacktrackRegex.Pattern
