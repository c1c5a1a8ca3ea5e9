import BacktrackRegex.Proofs.Program.Size

/-!
# Deciding nodes of unbounded repetitions

Where the deciding nodes of the unbounded repetitions of a pattern stand is known from its shape:
the nodes of its parts follow each other, and each part has as many of them as it needs. A deciding
node stands in front of the nodes of its body, and is left for the body upwards and for the exit
downwards. All other nodes are left downwards only.
-/

namespace BacktrackRegex

/-- The other one of the two nodes that a decision names. -/
def Op.alternative? : Op → Option Nat
  | .branch _ second => some second
  | .loop _ _ exit => some exit
  | _ => none

namespace LoopKind

variable (kind : LoopKind) (body exit : Nat)

/-- A loop is followed by its body. -/
theorem next?_op : (kind.op body exit).next? = some body := by
  cases kind <;> rfl

/-- A loop may be left for its exit. -/
theorem alternative?_op : (kind.op body exit).alternative? = some exit := by
  cases kind <;> rfl

end LoopKind

namespace Pattern

/-- The deciding nodes of `n` copies of a body, each of which has `size` nodes. -/
def repeatedLoopNodes (body : Nat → List Nat) (size n lo : Nat) : List Nat :=
  (List.range n).flatMap fun k => body (lo + k * size)

mutual
/-- The deciding nodes of the unbounded repetitions of a pattern whose nodes begin with `lo`. -/
def loopNodes : Pattern → Nat → List Nat
  | .sequence ps, lo => itemLoopNodes ps lo
  | .alternation ps, lo => optionLoopNodes ps lo
  | .repetition p min none, lo =>
    lo :: loopNodes p (lo + 1) ++
      repeatedLoopNodes (loopNodes p) p.nodeCount min (lo + (1 + p.nodeCount))
  | .repetition p min (some max), lo =>
    repeatedLoopNodes (loopNodes p) (p.nodeCount + 1) (max - min) lo ++
      repeatedLoopNodes (loopNodes p) p.nodeCount min (lo + optionalCount p.nodeCount (max - min))
  | .capture _ p, lo => loopNodes p (lo + 1)
  | _, _ => []

/-- The deciding nodes of the items of a sequence, the last of which has the first nodes. -/
def itemLoopNodes : List Pattern → Nat → List Nat
  | [], _ => []
  | p :: ps, lo => itemLoopNodes ps lo ++ loopNodes p (lo + nodeCounts ps)

/-- The deciding nodes of the options of an alternation. -/
def optionLoopNodes : List Pattern → Nat → List Nat
  | [], _ => []
  | p :: ps, lo => loopNodes p lo ++ optionLoopNodes ps (lo + p.nodeCount)
end

end Pattern

namespace Part

open Pattern

/-- The deciding nodes of the unbounded repetitions of a part whose nodes begin with `lo`. -/
def loopNodes : Part → Nat → List Nat
  | .one p, lo => p.loopNodes lo
  | .items ps, lo => itemLoopNodes ps lo
  | .options ps, lo => optionLoopNodes ps lo
  | .copies p n, lo => repeatedLoopNodes p.loopNodes p.nodeCount n lo
  | .optionals p n, lo => repeatedLoopNodes p.loopNodes (p.nodeCount + 1) n lo
  | .loop p, lo => lo :: p.loopNodes (lo + 1)

/-- The deciding nodes of a repetition are those of its two parts. -/
theorem loopNodes_repetition (p : Pattern) (min : Nat) (max : Option Nat) (lo : Nat) :
    (Part.one (.repetition p min max)).loopNodes lo =
      (more p min max).loopNodes lo ++
        (Part.copies p min).loopNodes (lo + (more p min max).nodeCount) := by
  cases max <;> simp only [loopNodes, Pattern.loopNodes, more, nodeCount]

/-- The first copy has the first nodes. -/
theorem loopNodes_copies_succ (p : Pattern) (n lo : Nat) :
    (Part.copies p (n + 1)).loopNodes lo =
      p.loopNodes lo ++ (Part.copies p n).loopNodes (lo + p.nodeCount) := by
  have hplace (k : Nat) : lo + (k + 1) * p.nodeCount = lo + p.nodeCount + k * p.nodeCount := by
    rw [Nat.succ_mul]
    omega
  simp only [loopNodes, repeatedLoopNodes, List.range_succ_eq_map, List.flatMap_cons,
    List.flatMap_map, Nat.zero_mul, Nat.add_zero, hplace]

/-- The outermost optional copy has the last nodes. -/
theorem loopNodes_optionals_succ (p : Pattern) (n lo : Nat) :
    (Part.optionals p (n + 1)).loopNodes lo =
      (Part.optionals p n).loopNodes lo ++ p.loopNodes (lo + n * (p.nodeCount + 1)) := by
  simp only [loopNodes, repeatedLoopNodes, List.range_succ, List.flatMap_append,
    List.flatMap_singleton]

/-- A part without parts inside it has no deciding nodes. -/
theorem loopNodes_leaf {p : Pattern} (hp : p.isLeaf = true) (lo : Nat) : p.loopNodes lo = [] := by
  cases p with
  | sequence _ | alternation _ | repetition _ _ _ | capture _ _ => simp [isLeaf] at hp
  | _ => simp only [Pattern.loopNodes]

/-- The deciding nodes of a part are among its nodes. -/
theorem mem_loopNodes {part : Part} {i lo : Nat} (h : i ∈ part.loopNodes lo) :
    lo ≤ i ∧ i < lo + part.nodeCount := by
  induction part using Part.induct generalizing lo with
  | leaf p hp =>
    rw [loopNodes, loopNodes_leaf hp] at h
    cases h
  | sequence ps ih =>
    rw [loopNodes, Pattern.loopNodes] at h
    rw [nodeCount, Pattern.nodeCount]
    exact ih h
  | alternation ps ih =>
    rw [loopNodes, Pattern.loopNodes] at h
    rw [nodeCount, Pattern.nodeCount]
    exact ih h
  | repetition p min max ihmore ihcopies =>
    rw [loopNodes_repetition, List.mem_append] at h
    rw [nodeCount_repetition]
    rcases h with h | h
    · have := ihmore h
      omega
    · have := ihcopies h
      omega
  | capture j p ih =>
    rw [loopNodes, Pattern.loopNodes] at h
    have := ih h
    simp only [nodeCount, Pattern.nodeCount] at this ⊢
    omega
  | noItems => simp [loopNodes, itemLoopNodes] at h
  | noOptions => simp [loopNodes, optionLoopNodes] at h
  | item p ps ihp ihps =>
    rw [loopNodes, itemLoopNodes, List.mem_append] at h
    simp only [nodeCount, nodeCounts] at ihp ihps ⊢
    rcases h with h | h
    · have := ihps h
      omega
    · have := ihp h
      omega
  | option p ps ihp ihps =>
    rw [loopNodes, optionLoopNodes, List.mem_append] at h
    simp only [nodeCount, nodeCounts, List.length_cons] at ihp ihps ⊢
    rcases h with h | h
    · have := ihp h
      omega
    · have := ihps h
      omega
  | noCopies p | noOptionals p => simp [loopNodes, repeatedLoopNodes] at h
  | copy p n ihp ih =>
    rw [loopNodes_copies_succ, List.mem_append] at h
    simp only [nodeCount, Nat.succ_mul] at ihp ih ⊢
    rcases h with h | h
    · have := ihp h
      omega
    · have := ih h
      omega
  | optional p n ihp ih =>
    rw [loopNodes_optionals_succ, List.mem_append] at h
    by_cases hzero : p.nodeCount = 0
    · simp only [nodeCount, optionalCount, hzero, if_true] at ihp ih h ⊢
      rcases h with h | h
      · have := ih h
        omega
      · have := ihp h
        omega
    · simp only [nodeCount, optionalCount, hzero, if_false, Nat.succ_mul] at ihp ih h ⊢
      rcases h with h | h
      · have := ih h
        omega
      · have := ihp h
        omega
  | loop p ih =>
    rw [loopNodes, List.mem_cons] at h
    simp only [nodeCount] at ih ⊢
    rcases h with rfl | h
    · omega
    · have := ih h
      omega

end Part

/-! ## Directions of edges -/

/-- A node is left downwards only, and does not begin iterations of a guarded loop. -/
structure Op.Descends (op : Op) (id : Nat) : Prop where
  next : ∃ j, op.next? = some j ∧ j < id
  alternative : ∀ j, op.alternative? = some j → j < id
  loop : ∀ index body exit, op ≠ .loop index body exit

/-- A node is left upwards for the body of a loop, at or behind the node, and downwards for the exit
of the loop. -/
def Op.Decides (op : Op) (id hi : Nat) : Prop :=
  ∃ (kind : LoopKind) (body exit : Nat),
    op = kind.op body exit ∧ exit < id ∧ id ≤ body ∧ body < hi

/-- The body of a loop lies in front of every place behind it. -/
theorem Op.Decides.mono {id hi hi' : Nat} {op : Op} (h : op.Decides id hi) (hle : hi ≤ hi') :
    op.Decides id hi' := by
  obtain ⟨kind, body, exit, hop, hexit, hbody, hlt⟩ := h
  exact ⟨kind, body, exit, hop, hexit, hbody, Nat.lt_of_lt_of_le hlt hle⟩

/-- Of the nodes of an interval, exactly some nodes are the deciding ones of loops, and no other
ones are left upwards. -/
def Directed (nodes : Array Node) (loops : List Nat) (lo hi : Nat) : Prop :=
  ∀ i, lo ≤ i → i < hi → ∃ node, nodes[i]? = some node ∧
    if i ∈ loops then node.op.Decides i hi else node.op.Descends i

namespace Directed

variable {nodes : Array Node} {loops loops' : List Nat} {lo m hi : Nat}

/-- There are no nodes. -/
theorem nothing (nodes : Array Node) (loops : List Nat) (lo : Nat) : Directed nodes loops lo lo :=
  fun _ h h' => absurd h' (Nat.not_lt.mpr h)

/-- Two intervals that follow each other, each with its own deciding nodes. -/
theorem append (h : Directed nodes loops lo m) (h' : Directed nodes loops' m hi) (hm : m ≤ hi)
    (hloops : ∀ i ∈ loops, i < m) (hloops' : ∀ i ∈ loops', m ≤ i) :
    Directed nodes (loops ++ loops') lo hi := by
  intro i hl hh
  by_cases him : i < m
  · obtain ⟨node, hn, hnode⟩ := h i hl him
    have hmem : i ∈ loops ++ loops' ↔ i ∈ loops := by
      rw [List.mem_append, or_iff_left fun h => Nat.not_lt.mpr (hloops' i h) him]
    refine ⟨node, hn, ?_⟩
    simp only [hmem]
    split at hnode
    · next hi' => exact (if_pos hi').symm ▸ hnode.mono hm
    · next hi' => exact (if_neg hi').symm ▸ hnode
  · obtain ⟨node, hn, hnode⟩ := h' i (by omega) hh
    have hmem : i ∈ loops ++ loops' ↔ i ∈ loops' := by
      rw [List.mem_append, or_iff_right fun h => him (hloops i h)]
    refine ⟨node, hn, ?_⟩
    simp only [hmem]
    exact hnode

/-- Two parts one behind the other, each with its own deciding nodes. -/
theorem parts {part part' : Part} (h : Directed nodes (part.loopNodes lo) lo m)
    (h' : Directed nodes (part'.loopNodes m) m hi) (hsize : m = lo + part.nodeCount)
    (hm : m ≤ hi) :
    Directed nodes (part.loopNodes lo ++ part'.loopNodes (lo + part.nodeCount)) lo hi := by
  subst hsize
  exact h.append h' hm (fun i hi' => (Part.mem_loopNodes hi').2)
    fun i hi' => (Part.mem_loopNodes hi').1

/-- A node that is left downwards only. -/
theorem node {node : Node} (hn : nodes[lo]? = some node) (h : node.op.Descends lo) :
    Directed nodes [] lo (lo + 1) := by
  intro i hl hh
  obtain rfl : i = lo := by omega
  exact ⟨node, hn, by rwa [if_neg List.not_mem_nil]⟩

/-- One more node behind an interval, which is left downwards only. -/
theorem concat {node : Node} (h : Directed nodes loops lo hi)
    (hloops : ∀ i ∈ loops, i < hi) (hn : nodes[hi]? = some node) (hd : node.op.Descends hi) :
    Directed nodes loops lo (hi + 1) := by
  rw [← List.append_nil loops]
  exact h.append (.node hn hd) (Nat.le_succ hi) hloops (by simp)

/-- Two parts one behind the other and a decision behind them, which is left downwards only. -/
theorem decision {part part' : Part} {first second least : Nat}
    (h : Directed nodes (part.loopNodes lo) lo m) (h' : Directed nodes (part'.loopNodes m) m hi)
    (hsize : m = lo + part.nodeCount) (hsize' : hi = m + part'.nodeCount)
    (hn : nodes[hi]? = some ⟨.branch first second, least⟩) (hfirst : first < hi)
    (hsecond : second < hi) :
    Directed nodes (part.loopNodes lo ++ part'.loopNodes (lo + part.nodeCount)) lo (hi + 1) := by
  have hdescends : (Op.branch first second).Descends hi := by
    refine ⟨⟨first, rfl, hfirst⟩, ?_, by simp⟩
    rintro j ⟨⟩
    exact hsecond
  refine (h.parts h' hsize (by omega)).concat (fun i hi' => ?_) hn hdescends
  rcases List.mem_append.mp hi' with hi' | hi'
  · have := Part.mem_loopNodes hi'
    omega
  · have := Part.mem_loopNodes hi'
    omega

/-- The deciding node of a loop in front of the nodes of the body. -/
theorem loop {kind : LoopKind} {body exit least : Nat} (h : Directed nodes loops (lo + 1) hi)
    (hn : nodes[lo]? = some ⟨kind.op body exit, least⟩) (hexit : exit < lo) (hbody : lo ≤ body)
    (hlt : body < hi) (hloops : ∀ i ∈ loops, lo < i) : Directed nodes (lo :: loops) lo hi := by
  intro i hl hh
  by_cases hself : i = lo
  · subst hself
    refine ⟨_, hn, ?_⟩
    rw [if_pos List.mem_cons_self]
    exact ⟨kind, body, exit, rfl, hexit, hbody, hlt⟩
  · obtain ⟨node, hn', hnode⟩ := h i (by omega) hh
    refine ⟨node, hn', ?_⟩
    simpa [hself] using hnode

end Directed

/-- A leaf is left downwards only. -/
theorem Pattern.descends_of_leafOp? {p : Pattern} {next width id : Nat} {op : Op}
    (h : p.leafOp? next = some (op, width)) (hnext : next < id) : op.Descends id := by
  cases p with
  | literal s =>
    rw [leafOp?] at h
    split at h
    · simp at h
    · obtain ⟨rfl, -⟩ := Prod.mk.inj (Option.some.inj h)
      exact ⟨⟨next, rfl, hnext⟩, by simp [Op.alternative?], by simp⟩
  | anyChar | charClass _ | backReference _ | textStart | textEnd =>
    obtain ⟨rfl, -⟩ := Prod.mk.inj (Option.some.inj h)
    exact ⟨⟨next, rfl, hnext⟩, by simp [Op.alternative?], by simp⟩
  | _ => simp [leafOp?] at h

/-- The deciding nodes of a part that is laid out are those that its shape tells. -/
theorem Laid.directed {nodes : Array Node} {kinds : LoopKinds} {part : Part} {o : Occurrence}
    {next start lo hi : Nat} (h : Laid nodes kinds part o next start lo hi) (hnext : next < lo) :
    Directed nodes (part.loopNodes lo) lo hi := by
  induction h with
  | empty | noItems | noOptions | noCopies | noOptionals => exact .nothing nodes _ _
  | @leaf p _ _ _ _ _ hp hn =>
    rw [Part.loopNodes, Part.loopNodes_leaf (Pattern.isLeaf_of_leafOp? hp)]
    exact .node hn (Pattern.descends_of_leafOp? hp hnext)
  | sequence _ ih =>
    rw [Part.loopNodes, Pattern.loopNodes]
    exact ih hnext
  | alternation _ ih =>
    rw [Part.loopNodes, Pattern.loopNodes]
    exact ih hnext
  | item hrest hfirst ih ih' =>
    have hr := hrest.range
    exact (ih hnext).parts (ih' (by omega)) hrest.size_eq hfirst.le
  | lastOption _ ih =>
    rw [Part.loopNodes, Pattern.optionLoopNodes, Pattern.optionLoopNodes, List.append_nil]
    exact ih hnext
  | option hfirst hrest hn ih ih' =>
    have hr := hfirst.range
    have hr' := hrest.range
    exact (ih hnext).decision (ih' (by omega)) hfirst.size_eq hrest.size_eq hn (by omega)
      (by omega)
  | repetition hmore hcopies ih ih' =>
    have hr := hmore.range
    rw [Part.loopNodes_repetition]
    exact (ih hnext).parts (ih' (by omega)) hmore.size_eq hcopies.le
  | copy hlast hothers ih ih' =>
    have hr := hlast.range
    rw [Part.loopNodes_copies_succ]
    exact (ih hnext).parts (ih' (by omega)) hlast.size_eq hothers.le
  | @optional p n _ _ _ _ lo _ _ hs hinner hfirst hn ih ih' =>
    have hr := hinner.range
    have hr' := hfirst.range
    have hcount : (Part.optionals p n).nodeCount = n * (p.nodeCount + 1) := by
      have hne : p.nodeCount ≠ 0 := by simp [Pattern.nodeCount_eq_zero_iff, hs]
      rw [Part.nodeCount, Pattern.optionalCount, if_neg hne]
    rw [Part.loopNodes_optionals_succ, ← hcount]
    exact (ih hnext).decision (ih' (by omega)) hinner.size_eq hfirst.size_eq hn (by omega)
      (by omega)
  | loop _ _ hn hbody ih =>
    have hr := hbody.range
    exact (ih (Nat.lt_succ_self _)).loop hn hnext (by omega) (by omega) fun i hi =>
      (Part.mem_loopNodes hi).1
  | @capture i p _ next body lo hi hstop hbody hstart ih =>
    have hr := hbody.range
    have hsize := hbody.size_eq
    have hmark (j k : Nat) (h : j < k) : (Op.mark i j).Descends k :=
      ⟨⟨j, rfl, h⟩, by simp [Op.alternative?], by simp⟩
    have hinner := (Directed.node hstop (hmark next lo hnext)).append (ih (Nat.lt_succ_self _))
      (by omega) (by simp) fun i hi => (Part.mem_loopNodes hi).1
    rw [Part.loopNodes, Pattern.loopNodes]
    refine hinner.concat (fun j hj => ?_) hstart (hmark body hi (by omega))
    rw [List.nil_append] at hj
    have := Part.mem_loopNodes hj
    omega

end BacktrackRegex
