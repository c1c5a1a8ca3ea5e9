import BacktrackRegex.Proofs.Program.Keys
import BacktrackRegex.Proofs.Program.LoopNodes
import BacktrackRegex.Proofs.Program.Termination
import Mathlib.Data.List.Chain

/-!
# Programs as graphs

A program is a graph whose edges lead downwards to the node of success, except for those that lead
from the deciding node of an unbounded repetition to its body. Without these edges every way through
the graph ends with success. A cycle leads over such an edge, and therefore through the deciding
node of a guarded loop or through a node that consumes something.
-/

namespace BacktrackRegex

namespace Op

/-- Whether the operation consumes at least one byte when it matches. -/
def consumes : Op → Bool
  | .literal s _ => !s.isEmpty
  | .charClass _ _ => true
  | .anyChar _ => true
  | _ => false

/-- Whether the operation decides about the iterations of a guarded loop. -/
def isGuard : Op → Bool
  | .loop _ _ _ => true
  | _ => false

/-- The nodes that an operation names. -/
def names (op : Op) (id : Nat) : Prop :=
  op.next? = some id ∨ op.alternative? = some id

/-- An operation that consumes something consumes at least one byte. -/
theorem width_pos {op : Op} {next width : Nat} (hc : op.consumes = true)
    (h : op.exit? = some (next, width)) : 0 < width := by
  cases op with
  | literal s _ =>
    obtain ⟨-, rfl⟩ := Prod.mk.inj (Option.some.inj h)
    have hne : s ≠ "" := by simpa [consumes] using hc
    exact Nat.pos_of_ne_zero fun hzero => hne (by simpa using hzero)
  | charClass _ _ | anyChar _ =>
    obtain ⟨-, rfl⟩ := Prod.mk.inj (Option.some.inj h)
    exact Nat.one_pos
  | _ => cases hc

/-- An operation that consumes nothing is left in a quiet way, unless it decides about a guarded
loop. -/
theorem mem_quiet_of_names {op : Op} {id : Nat} (h : op.names id) (hguard : op.isGuard = false)
    (hconsumes : op.consumes = false) : id ∈ op.quiet := by
  unfold names at h
  cases op with
  | loop _ _ _ => cases hguard
  | charClass _ _ | anyChar _ => cases hconsumes
  | success => simp [next?, alternative?] at h
  | literal s next =>
    have hs : s.isEmpty = true := by simpa [consumes] using hconsumes
    simpa [quiet, hs, next?, alternative?, eq_comm] using h
  | branch _ _ | mark _ _ | backReference _ _ | textStart _ | textEnd _ =>
    simpa [quiet, next?, alternative?, eq_comm] using h

end Op

namespace Program

/-- There is an edge from a node to those that it names. -/
def Edge (prog : Program) (i j : Nat) : Prop :=
  ∃ node, prog.nodes[i]? = some node ∧ node.op.names j

/-- There is an edge of another kind than those from some nodes to their followers. -/
def OtherEdge (prog : Program) (loops : List Nat) (i j : Nat) : Prop :=
  ∃ node, prog.nodes[i]? = some node ∧
    ((i ∉ loops ∧ node.op.next? = some j) ∨ node.op.alternative? = some j)

/-- All ways from a node over other edges than those from some nodes to their followers reach a node
of success, and none of them ends before it. -/
inductive Arrives (prog : Program) (loops : List Nat) : Nat → Prop where
  | success {i least} (h : prog.nodes[i]? = some ⟨.success, least⟩) : Arrives prog loops i
  | onward {i} (hedge : ∃ j, prog.OtherEdge loops i j)
      (h : ∀ j, prog.OtherEdge loops i j → Arrives prog loops j) : Arrives prog loops i

/-- A program is a well-formed graph for a pattern. -/
structure IsGraphOf (prog : Program) (p : Pattern) : Prop where
  /-- The first node is the only one of success. -/
  success : ∀ i, (∃ least, prog.nodes[i]? = some ⟨.success, least⟩) ↔ i = 0
  /-- The root is a node. -/
  root_lt : prog.root < prog.size
  /-- Edges lead to nodes. -/
  edge_lt : ∀ i j, prog.Edge i j → j < prog.size
  /-- The deciding nodes of the unbounded repetitions of the pattern decide about loops: the guarded
  ones are those with keys, and the plain ones are the branches that lead upwards. -/
  loopNodes : ∀ i, i ∈ p.loopNodes 1 ↔ ∃ kind body exit least,
    prog.nodes[i]? = some ⟨LoopKind.op kind body exit, least⟩ ∧ (kind.isGuarded = true ∨ i < body)
  /-- All edges lead downwards, except for those from the deciding nodes to the bodies. -/
  next_lt : ∀ i j (node : Node), prog.nodes[i]? = some node → node.op.next? = some j →
    (j < i ↔ i ∉ p.loopNodes 1)
  alternative_lt : ∀ i j (node : Node), prog.nodes[i]? = some node →
    node.op.alternative? = some j → j < i
  /-- The other edges always lead to success. -/
  arrives : ∀ i, i < prog.size → prog.Arrives (p.loopNodes 1) i
  /-- The keys of the guarded loops are numbered from one on. -/
  keys : ∃ n, loopIndices prog.nodes = List.range' 1 n
  /-- Every cycle leads through the deciding node of a guarded loop or a node that consumes. -/
  cycle : ∀ (l : List Nat) (hl : l ≠ []), List.IsChain prog.Edge (l.getLast hl :: l) →
    ∃ i ∈ l, ∃ node : Node, prog.nodes[i]? = some node ∧
      (node.op.isGuard = true ∨ node.op.consumes = true)
  /-- No search leaves such a node for another place without going on in the text. -/
  consumes : ∀ text s s' (node : Node), prog.nodes[s.node]? = some node → node.op.consumes = true →
    Search.Leads (prog.move text) s s' → s.pos < s'.pos

/-! ## Compiled programs -/

section Lays

variable {prog : Program} {p : Pattern} {kinds : LoopKinds} {i j : Nat} {node : Node}

/-- Each node of a compiled program is the one of success, or is left downwards only, or decides
about an unbounded repetition of the pattern. -/
theorem Lays.node_cases (hlays : prog.Lays p kinds) (hn : prog.nodes[i]? = some node) :
    (i = 0 ∧ node = ⟨.success, 0⟩) ∨ (0 < i ∧ i ∉ p.loopNodes 1 ∧ node.op.Descends i) ∨
      (0 < i ∧ i ∈ p.loopNodes 1 ∧ node.op.Decides i prog.size) := by
  by_cases hzero : i = 0
  · subst hzero
    exact Or.inl ⟨rfl, Option.some.inj (hn.symm.trans hlays.success)⟩
  · have hpos := Nat.pos_of_ne_zero hzero
    have hlt : i < prog.nodes.size := (Array.getElem?_eq_some_iff.mp hn).1
    obtain ⟨node', hn', h⟩ := hlays.laid.directed Nat.one_pos i hpos hlt
    obtain rfl := Option.some.inj (hn.symm.trans hn')
    refine Or.inr ?_
    rw [Part.loopNodes] at h
    split at h
    · next hmem => exact Or.inr ⟨hpos, hmem, h⟩
    · next hmem => exact Or.inl ⟨hpos, hmem, h⟩

/-- The first node is the only one of success. -/
theorem Lays.success_iff (hlays : prog.Lays p kinds) :
    (∃ least, prog.nodes[i]? = some ⟨.success, least⟩) ↔ i = 0 := by
  constructor
  · rintro ⟨least, hn⟩
    rcases hlays.node_cases hn with ⟨hzero, -⟩ | ⟨-, -, h⟩ | ⟨-, -, h⟩
    · exact hzero
    · obtain ⟨_, hnext, -⟩ := h.next
      cases hnext
    · obtain ⟨kind, _, _, hop, -⟩ := h
      cases kind <;> cases hop
  · rintro rfl
    exact ⟨0, hlays.success⟩

/-- Alternatives lie below the decisions that name them. -/
theorem Lays.alternative_lt (hlays : prog.Lays p kinds) (hn : prog.nodes[i]? = some node)
    (h : node.op.alternative? = some j) : j < i := by
  rcases hlays.node_cases hn with ⟨-, rfl⟩ | ⟨-, -, hd⟩ | ⟨-, -, kind, body, exit, hop, hexit, -⟩
  · cases h
  · exact hd.alternative j h
  · rw [hop, LoopKind.alternative?_op] at h
    cases h
    exact hexit

/-- Followers lie below the nodes that name them, unless these decide about a loop. -/
theorem Lays.next_lt_iff (hlays : prog.Lays p kinds) (hn : prog.nodes[i]? = some node)
    (h : node.op.next? = some j) : j < i ↔ i ∉ p.loopNodes 1 := by
  rcases hlays.node_cases hn with
    ⟨-, rfl⟩ | ⟨-, hmem, hd⟩ | ⟨-, hmem, kind, body, exit, hop, -, hbody, -⟩
  · cases h
  · obtain ⟨j', hnext, hlt⟩ := hd.next
    cases Option.some.inj (h.symm.trans hnext)
    exact iff_of_true hlt hmem
  · rw [hop, LoopKind.next?_op] at h
    cases h
    exact iff_of_false (Nat.not_lt.mpr hbody) (not_not_intro hmem)

/-- Edges lead to nodes of the program. -/
theorem Lays.edge_lt (hlays : prog.Lays p kinds) (h : prog.Edge i j) : j < prog.size := by
  obtain ⟨node, hn, hnames⟩ := h
  have hlt : i < prog.size := (Array.getElem?_eq_some_iff.mp hn).1
  rcases hnames with hnext | halternative
  · rcases hlays.node_cases hn with ⟨-, rfl⟩ | ⟨-, hmem, hd⟩ | ⟨-, -, kind, body, exit, hop, -, -, hb⟩
    · cases hnext
    · exact Nat.lt_trans ((hlays.next_lt_iff hn hnext).mpr hmem) hlt
    · rw [hop, LoopKind.next?_op] at hnext
      cases hnext
      exact hb
  · exact Nat.lt_trans (hlays.alternative_lt hn halternative) hlt

/-- Every way over the other edges leads downwards, and goes on until it reaches success. -/
theorem Lays.arrives (hlays : prog.Lays p kinds) (hi : i < prog.size) :
    prog.Arrives (p.loopNodes 1) i := by
  induction i using Nat.strongRecOn with
  | ind i ih =>
    obtain ⟨node, hn⟩ : ∃ node, prog.nodes[i]? = some node := ⟨_, Array.getElem?_eq_getElem hi⟩
    have hdown : ∀ j, prog.OtherEdge (p.loopNodes 1) i j → prog.Arrives (p.loopNodes 1) j := by
      rintro j ⟨node', hn', h⟩
      have hlt : j < i := h.elim (fun h => (hlays.next_lt_iff hn' h.2).mpr h.1)
        (hlays.alternative_lt hn')
      exact ih j hlt (Nat.lt_trans hlt hi)
    rcases hlays.node_cases hn with
      ⟨-, rfl⟩ | ⟨-, hmem, hd⟩ | ⟨-, -, kind, body, exit, hop, -⟩
    · exact .success hn
    · obtain ⟨j, hnext, -⟩ := hd.next
      exact .onward ⟨j, node, hn, Or.inl ⟨hmem, hnext⟩⟩ hdown
    · exact .onward ⟨exit, node, hn, Or.inr (hop ▸ LoopKind.alternative?_op kind body exit)⟩ hdown

/-- The ranks of a program show which of its branches are plain loops. -/
theorem Lays.mem_loopNodes_iff (hlays : prog.Lays p kinds) (hranked : prog.Ranked) :
    i ∈ p.loopNodes 1 ↔ ∃ kind body exit least,
      prog.nodes[i]? = some ⟨LoopKind.op kind body exit, least⟩ ∧
        (kind.isGuarded = true ∨ i < body) := by
  constructor
  · intro hmem
    have hrange := @Part.mem_loopNodes (.one p) i 1 hmem
    have hsize := hlays.laid.size_eq
    obtain ⟨⟨op, least⟩, hn⟩ : ∃ node, prog.nodes[i]? = some node :=
      ⟨_, Array.getElem?_eq_getElem (by omega)⟩
    rcases hlays.node_cases hn with
      ⟨hzero, -⟩ | ⟨-, hnot, -⟩ | ⟨-, -, kind, body, exit, rfl, -, hbody, -⟩
    · omega
    · exact absurd hmem hnot
    · refine ⟨kind, body, exit, least, hn, ?_⟩
      cases kind with
      | guarded index => exact Or.inl rfl
      | plain =>
        obtain ⟨rank, -, hquiet⟩ := hranked
        have hlt := hquiet i _ hn body List.mem_cons_self
        refine Or.inr (Nat.lt_of_le_of_ne hbody ?_)
        rintro rfl
        exact absurd hlt (Nat.lt_irrefl _)
  · rintro ⟨kind, body, exit, least, hn, h⟩
    rcases hlays.node_cases hn with ⟨-, hop⟩ | ⟨-, -, hd⟩ | ⟨-, hmem, -⟩
    · cases kind <;> cases hop
    · obtain ⟨j, hnext, hlt⟩ := hd.next
      cases Option.some.inj ((LoopKind.next?_op kind body exit).symm.trans hnext)
      cases kind with
      | guarded index => exact absurd rfl (hd.loop index body exit)
      | plain =>
        have := h.resolve_left Bool.false_ne_true
        omega
    · exact hmem

end Lays

/-- A cycle leaves some node in a way that is not quiet, since ranks descend along quiet ways. -/
theorem Ranked.cycle {prog : Program} (h : prog.Ranked) {l : List Nat} (hl : l ≠ [])
    (hchain : List.IsChain prog.Edge (l.getLast hl :: l)) :
    ∃ i ∈ l, ∃ node : Node, prog.nodes[i]? = some node ∧
      (node.op.isGuard = true ∨ node.op.consumes = true) := by
  obtain ⟨rank, -, hquiet⟩ := h
  by_contra hnone
  have hdown : ∀ i ∈ l, ∀ j, prog.Edge i j → rank j < rank i := by
    rintro i hi j ⟨node, hn, hnames⟩
    have hneither : ¬(node.op.isGuard = true ∨ node.op.consumes = true) :=
      fun h => hnone ⟨i, hi, node, hn, h⟩
    rw [not_or, Bool.not_eq_true, Bool.not_eq_true] at hneither
    exact hquiet i node hn j (Op.mem_quiet_of_names hnames hneither.1 hneither.2)
  have hlast := List.getLast_mem hl
  have hleft : ∀ i ∈ l.getLast hl :: l, i ∈ l := List.forall_mem_cons.mpr ⟨hlast, fun _ => id⟩
  have hranks : List.IsChain (fun i j => rank j < rank i) (l.getLast hl :: l) :=
    hchain.imp_of_mem_imp fun i j hi _ hedge => hdown i (hleft i hi) j hedge
  have : IsTrans Nat fun i j => rank j < rank i := ⟨fun _ _ _ hij hjk => Nat.lt_trans hjk hij⟩
  have hpairs := List.isChain_iff_pairwise.mp hranks
  exact Nat.lt_irrefl _ (List.rel_of_pairwise_cons hpairs hlast)

/-- A node that consumes something is left for a place further on in the text. -/
theorem pos_lt_of_consumes {prog : Program} {text : String} {s s' : Search.Spot} {node : Node}
    (hn : prog.nodes[s.node]? = some node) (hc : node.op.consumes = true)
    (h : Search.Leads (prog.move text) s s') : s.pos < s'.pos := by
  obtain ⟨-, node', hn', hsteps⟩ := steps_of_leads (leads_unpruned h)
  obtain rfl := Option.some.inj (hn.symm.trans hn')
  generalize node.op = op at hc hsteps
  cases hsteps with
  | @onward _ _ width _ hop hw _ =>
    exact Nat.lt_of_lt_of_le (Nat.lt_add_of_pos_right (Op.width_pos hc hop)) hw
  | mark | first | second | iterate _ => cases hc

/-- A compiled pattern is a well-formed graph. -/
theorem isGraphOf_of_compile? {p : Pattern} (hp : p.hasOptions = true) {limit : Nat}
    {prog : Program} (hc : p.compile? limit = some prog) : prog.IsGraphOf p := by
  obtain ⟨kinds, hlays⟩ := Pattern.lays_of_compile? hc
  have hranked := ranked_of_compile? hp hc
  constructor
  case success => exact fun _ => hlays.success_iff
  case root_lt =>
    have hrange := hlays.laid.range
    have hle := hlays.laid.le
    rw [size]
    omega
  case edge_lt => exact fun _ _ => hlays.edge_lt
  case loopNodes => exact fun _ => hlays.mem_loopNodes_iff hranked
  case next_lt => exact fun _ _ _ => hlays.next_lt_iff
  case alternative_lt => exact fun _ _ _ => hlays.alternative_lt
  case arrives => exact fun _ => hlays.arrives
  case keys => exact loopIndices_of_compile? hc
  case cycle => exact fun _ hl => hranked.cycle hl
  case consumes => exact fun _ _ _ _ => pos_lt_of_consumes

/-- A loop around a loop is a graph with two deciding nodes, only one of which has a key. -/
theorem isGraphOf_nested_loops :
    ∃ p prog, Pattern.read 255 "(?:a*)*" = .ok p ∧ p.hasOptions = true ∧
      p.compile? 4 = some prog ∧ prog.IsGraphOf p ∧ p.loopNodes 1 = [1, 2] ∧
      loopIndices prog.nodes = [1] := by
  let p : Pattern := .repetition (.repetition (.literal "a") 0 none) 0 none
  let prog : Program :=
    ⟨#[⟨.success, 0⟩, ⟨.loop 1 2 0, 0⟩, ⟨.branch 3 1, 0⟩, ⟨.literal "a" 2, 1⟩], 1, 0, false⟩
  have hread : Pattern.read 255 "(?:a*)*" = .ok p :=
    Pattern.read_eq_ok_iff.mpr (by decide +kernel)
  have hp : p.hasOptions = true := by decide +kernel
  have hc : p.compile? 4 = some prog := by decide +kernel
  exact ⟨p, prog, hread, hp, hc, isGraphOf_of_compile? hp hc, rfl, rfl⟩

end Program

end BacktrackRegex
