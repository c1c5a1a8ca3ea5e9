import BacktrackRegex.Program.Compile
import BacktrackRegex.Proofs.Pattern.Part
import Mathlib.Data.List.Basic

/-!
# Layouts

A part of a pattern is laid out in an interval of the nodes of a program: paths enter it at its
start and leave it for the node that follows. Laying out says what nodes there are and how they are
joined, not in which order they were made. Silent parts have no nodes and start at their follower.

A loop that is met at different ways from the root of the unrolled pattern occurs several times.
Each occurrence has a deciding node of its own, with a key if its body may match the empty text.
-/

namespace BacktrackRegex

/-- One of the two parts that a part consists of: the one that is tried or matched next, or what is
left of it. -/
inductive Turn where
  | first
  | rest
  deriving DecidableEq, Repr

/-- The way to a part from the root of the unrolled pattern, the last turn first. -/
abbrev Occurrence := List Turn

/-- How the iterations of a loop are decided. -/
inductive LoopKind where
  /-- By a node that records where they begin. -/
  | guarded (index : Nat)
  /-- By a mere decision. -/
  | plain
  deriving DecidableEq

namespace LoopKind

/-- Whether the loop records its iterations. -/
def isGuarded : LoopKind → Bool
  | .guarded _ => true
  | .plain => false

/-- The operation of the deciding node. -/
def op : LoopKind → Nat → Nat → Op
  | .guarded index, body, exit => .loop index body exit
  | .plain, body, exit => .branch body exit

end LoopKind

/-- The kinds of the loops at their occurrences. -/
abbrev LoopKinds := Occurrence → Option LoopKind

/-- The least length of a match from a node on. -/
def leastFrom (nodes : Array Node) (id : Nat) : Nat :=
  (nodes[id]?.map Node.minLength).getD 0

/-- The least length from a node on is the one that the node knows. -/
theorem leastFrom_eq {nodes : Array Node} {id : Nat} {node : Node} (h : nodes[id]? = some node) :
    leastFrom nodes id = node.minLength := by
  rw [leastFrom, h]
  rfl

namespace Pattern

/-- The operation of a pattern without patterns inside it, and the number of bytes it takes at
least. -/
def leafOp? (next : Nat) : Pattern → Option (Op × Nat)
  | .literal s => if s.isEmpty then none else some (.literal s next, s.utf8ByteSize)
  | .anyChar => some (.anyChar next, 1)
  | .charClass cls => some (.charClass cls next, 1)
  | .backReference i => some (.backReference i next, 0)
  | .textStart => some (.textStart next, 0)
  | .textEnd => some (.textEnd next, 0)
  | _ => none

/-- Only patterns without patterns inside them are single nodes. -/
theorem isLeaf_of_leafOp? {p : Pattern} {next width : Nat} {op : Op}
    (h : p.leafOp? next = some (op, width)) : p.isLeaf = true := by
  cases p with
  | sequence _ | alternation _ | repetition _ _ _ | capture _ _ => simp [leafOp?] at h
  | _ => rfl

end Pattern

/-- A part is laid out between `lo` and `hi`, from `start` to `next`. -/
inductive Laid (nodes : Array Node) (kinds : LoopKinds) :
    Part → Occurrence → (next start lo hi : Nat) → Prop where
  | empty {s o next lo} (hs : s.isEmpty = true) :
      Laid nodes kinds (.one (.literal s)) o next next lo lo
  | leaf {p o next lo op width} (hp : p.leafOp? next = some (op, width))
      (hn : nodes[lo]? = some ⟨op, leastFrom nodes next + width⟩) :
      Laid nodes kinds (.one p) o next lo lo (lo + 1)
  | sequence {ps o next start lo hi} (h : Laid nodes kinds (.items ps) o next start lo hi) :
      Laid nodes kinds (.one (.sequence ps)) o next start lo hi
  | noItems {o next lo} : Laid nodes kinds (.items []) o next next lo lo
  | item {p ps o next mid start lo m hi}
      (hrest : Laid nodes kinds (.items ps) (.rest :: o) next mid lo m)
      (hfirst : Laid nodes kinds (.one p) (.first :: o) mid start m hi) :
      Laid nodes kinds (.items (p :: ps)) o next start lo hi
  | alternation {ps o next start lo hi} (h : Laid nodes kinds (.options ps) o next start lo hi) :
      Laid nodes kinds (.one (.alternation ps)) o next start lo hi
  | noOptions {o next lo} : Laid nodes kinds (.options []) o next next lo lo
  | lastOption {p o next start lo hi}
      (h : Laid nodes kinds (.one p) (.first :: o) next start lo hi) :
      Laid nodes kinds (.options [p]) o next start lo hi
  | option {p q qs o next first rest lo m hi}
      (hfirst : Laid nodes kinds (.one p) (.first :: o) next first lo m)
      (hrest : Laid nodes kinds (.options (q :: qs)) (.rest :: o) next rest m hi)
      (hn : nodes[hi]? =
        some ⟨.branch first rest, min (leastFrom nodes first) (leastFrom nodes rest)⟩) :
      Laid nodes kinds (.options (p :: q :: qs)) o next hi lo (hi + 1)
  | repetition {p least most o next mid start lo m hi}
      (hmore : Laid nodes kinds (.more p least most) (.first :: o) next mid lo m)
      (hcopies : Laid nodes kinds (.copies p least) (.rest :: o) mid start m hi) :
      Laid nodes kinds (.one (.repetition p least most)) o next start lo hi
  | noCopies {p n o next lo} (h : n = 0 ∨ p.isSilent = true) :
      Laid nodes kinds (.copies p n) o next next lo lo
  | copy {p n o next mid start lo m hi}
      (hlast : Laid nodes kinds (.one p) (.first :: o) next mid lo m)
      (hothers : Laid nodes kinds (.copies p n) (.rest :: o) mid start m hi) :
      Laid nodes kinds (.copies p (n + 1)) o next start lo hi
  | noOptionals {p n o next lo} (h : n = 0 ∨ p.isSilent = true) :
      Laid nodes kinds (.optionals p n) o next next lo lo
  | optional {p n o next inner start lo m hi} (hs : p.isSilent = false)
      (hinner : Laid nodes kinds (.optionals p n) (.rest :: o) next inner lo m)
      (hfirst : Laid nodes kinds (.one p) (.first :: o) inner start m hi)
      (hn : nodes[hi]? =
        some ⟨.branch start next, min (leastFrom nodes start) (leastFrom nodes next)⟩) :
      Laid nodes kinds (.optionals p (n + 1)) o next hi lo (hi + 1)
  | loop {p o kind next body lo hi} (hg : kind.isGuarded = p.isNullable) (hk : kinds o = some kind)
      (hn : nodes[lo]? = some ⟨kind.op body next, leastFrom nodes next⟩)
      (hbody : Laid nodes kinds (.one p) (.first :: o) lo body (lo + 1) hi) :
      Laid nodes kinds (.loop p) o next lo lo hi
  | capture {i p o next body lo hi}
      (hstop : nodes[lo]? = some ⟨.mark i next, leastFrom nodes next⟩)
      (hbody : Laid nodes kinds (.one p) (.first :: o) lo body (lo + 1) hi)
      (hstart : nodes[hi]? = some ⟨.mark i body, leastFrom nodes body⟩) :
      Laid nodes kinds (.one (.capture i p)) o next hi lo (hi + 1)

namespace Laid

variable {nodes : Array Node} {kinds : LoopKinds} {part : Part} {o : Occurrence}
  {next start lo hi : Nat}

/-- A part either has no nodes and starts at its follower, or starts among its nodes. -/
theorem range (h : Laid nodes kinds part o next start lo hi) :
    (start = next ∧ lo = hi) ∨ (lo ≤ start ∧ start < hi) := by
  induction h with
  | empty | noItems | noOptions | noCopies | noOptionals => exact Or.inl ⟨rfl, rfl⟩
  | leaf | loop | option | optional | capture => omega
  | sequence _ ih | alternation _ ih | lastOption _ ih => exact ih
  | item _ _ ih ih' | repetition _ _ ih ih' | copy _ _ ih ih' => omega

/-- The nodes of a part form an interval. -/
theorem le (h : Laid nodes kinds part o next start lo hi) : lo ≤ hi := by
  have := h.range
  omega

/-- Exactly the silent parts have no nodes. -/
theorem isSilent_iff (h : Laid nodes kinds part o next start lo hi) :
    part.isSilent = true ↔ lo = hi := by
  induction h with
  | empty hs => simp [Part.isSilent, Pattern.isSilent, hs]
  | @leaf p _ next _ _ _ hp _ =>
    have hns : p.isSilent = false := by
      cases p with
      | literal s =>
        rw [Pattern.leafOp?] at hp
        split at hp
        · simp at hp
        · next hs => simpa [Pattern.isSilent] using hs
      | _ => simp [Pattern.leafOp?] at hp <;> rfl
    simp [Part.isSilent, hns]
  | sequence _ ih => simpa [Part.isSilent, Pattern.isSilent] using ih
  | noItems => simp [Part.isSilent, Pattern.allSilent]
  | item hrest hfirst ih ih' =>
    have := hrest.le
    have := hfirst.le
    simp only [Part.isSilent, Pattern.allSilent, Bool.and_eq_true] at ih ih' ⊢
    rw [ih, ih']
    omega
  | noOptions => simp [Part.isSilent, Pattern.isSilent]
  | alternation _ ih => exact ih
  | lastOption _ ih => simpa [Part.isSilent, Pattern.isSilent] using ih
  | option hfirst hrest _ _ _ =>
    have := hfirst.le
    have := hrest.le
    simp only [Part.isSilent, Pattern.isSilent, Bool.false_eq_true, false_iff]
    omega
  | @repetition p least most _ _ _ _ _ _ _ hmore hcopies ih ih' =>
    have := hmore.le
    have := hcopies.le
    cases most with
    | none =>
      simp only [Part.more, Part.isSilent, Bool.false_eq_true, false_iff] at ih
      simp only [Part.isSilent, Pattern.isSilent, Bool.false_eq_true, false_iff]
      omega
    | some most =>
      simp only [Part.more, Part.isSilent] at ih ih'
      simp only [Part.isSilent, Pattern.isSilent, Bool.and_eq_true]
      rw [ih, ih']
      omega
  | noCopies h | noOptionals h =>
    rcases h with rfl | h
    · simp [Part.isSilent]
    · simp [Part.isSilent, h]
  | copy hlast hothers ih ih' =>
    have := hlast.le
    have := hothers.le
    simp only [Part.isSilent, Bool.or_eq_true, beq_iff_eq] at ih ih' ⊢
    constructor
    · intro hs
      have := ih.mp (by simpa using hs)
      have := ih'.mp (Or.inr (by simpa using hs))
      omega
    · intro he
      exact Or.inr (ih.mpr (by omega))
  | optional hs hinner hfirst _ _ _ =>
    have := hinner.le
    have := hfirst.le
    simp only [Part.isSilent, hs, Bool.or_false, beq_iff_eq, Nat.add_one_ne_zero, false_iff]
    omega
  | loop _ _ _ hbody _ =>
    have := hbody.le
    simp only [Part.isSilent, Bool.false_eq_true, false_iff]
    omega
  | capture _ hbody _ _ =>
    have := hbody.le
    simp only [Part.isSilent, Pattern.isSilent, Bool.false_eq_true, false_iff]
    omega

/-- The layout of a part depends on its own nodes, and on the least lengths that they refer to. A
layout stays one when loops of other parts become known. -/
theorem transport {nodes' : Array Node} {kinds' : LoopKinds}
    (h : Laid nodes kinds part o next start lo hi) (hnext : next < lo)
    (hnodes : ∀ i, lo ≤ i → i < hi → nodes'[i]? = nodes[i]?)
    (hleast : ∀ i, i < hi → leastFrom nodes' i = leastFrom nodes i)
    (hkinds : ∀ o kind, kinds o = some kind → kinds' o = some kind) :
    Laid nodes' kinds' part o next start lo hi := by
  induction h with
  | empty hs => exact .empty hs
  | leaf hp hn =>
    refine .leaf hp ?_
    rw [hnodes _ (Nat.le_refl _) (Nat.lt_succ_self _), hleast _ (by omega), hn]
  | sequence _ ih => exact .sequence (ih hnext hnodes hleast)
  | noItems => exact .noItems
  | item hrest hfirst ih ih' =>
    have := hrest.range
    have := hfirst.le
    exact .item (ih hnext (fun i h h' => hnodes i h (by omega)) (fun i h => hleast i (by omega)))
      (ih' (by omega) (fun i h h' => hnodes i (by omega) h') hleast)
  | noOptions => exact .noOptions
  | alternation _ ih => exact .alternation (ih hnext hnodes hleast)
  | lastOption _ ih => exact .lastOption (ih hnext hnodes hleast)
  | option hfirst hrest hn ih ih' =>
    have := hfirst.range
    have := hrest.range
    refine .option
      (ih hnext (fun i h h' => hnodes i h (by omega)) (fun i h => hleast i (by omega)))
      (ih' (by omega) (fun i h h' => hnodes i (by omega) (by omega))
        (fun i h => hleast i (by omega))) ?_
    rw [hnodes _ (by omega) (by omega), hleast _ (by omega), hleast _ (by omega), hn]
  | repetition hmore hcopies ih ih' =>
    have := hmore.range
    have := hcopies.le
    exact .repetition
      (ih hnext (fun i h h' => hnodes i h (by omega)) (fun i h => hleast i (by omega)))
      (ih' (by omega) (fun i h h' => hnodes i (by omega) h') hleast)
  | noCopies h => exact .noCopies h
  | copy hlast hothers ih ih' =>
    have := hlast.range
    have := hothers.le
    exact .copy (ih hnext (fun i h h' => hnodes i h (by omega)) (fun i h => hleast i (by omega)))
      (ih' (by omega) (fun i h h' => hnodes i (by omega) h') hleast)
  | noOptionals h => exact .noOptionals h
  | optional hs hinner hfirst hn ih ih' =>
    have := hinner.range
    have := hfirst.range
    refine .optional hs
      (ih hnext (fun i h h' => hnodes i h (by omega)) (fun i h => hleast i (by omega)))
      (ih' (by omega) (fun i h h' => hnodes i (by omega) (by omega))
        (fun i h => hleast i (by omega))) ?_
    rw [hnodes _ (by omega) (by omega), hleast _ (by omega), hleast _ (by omega), hn]
  | loop hg hk hn hbody ih =>
    have := hbody.le
    refine .loop hg (hkinds _ _ hk) ?_
      (ih (by omega) (fun i h h' => hnodes i (by omega) h') hleast)
    rw [hnodes _ (by omega) (by omega), hleast _ (by omega), hn]
  | capture hstop hbody hstart ih =>
    have := hbody.range
    refine .capture ?_ (ih (by omega) (fun i h h' => hnodes i (by omega) (by omega))
      (fun i h => hleast i (by omega))) ?_
    · rw [hnodes _ (by omega) (by omega), hleast _ (by omega), hstop]
    · rw [hnodes _ (by omega) (by omega), hleast _ (by omega), hstart]

end Laid

end BacktrackRegex
