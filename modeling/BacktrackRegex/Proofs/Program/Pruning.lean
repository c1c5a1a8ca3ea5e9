import BacktrackRegex.Proofs.Program.Balance
import BacktrackRegex.Proofs.Program.Termination

/-!
# Pruned searches

The least length that a node knows is computed from those of the nodes that follow it, while loops
still lack their bodies. It never exceeds what the operation of the node demands on any way out of
it, and so no path from the node succeeds with fewer bytes. A search that gives up where too few
bytes are left therefore loses no success, and finds what one finds that never gives up.
-/

namespace BacktrackRegex

open Search History

/-- The number of bytes that the operation of a node takes at least, with all that follows, by the
number that is taken from each node that may follow. -/
def Op.demand (least : Nat → Nat) : Op → Nat
  | .success => 0
  | .literal s next => least next + s.utf8ByteSize
  | .branch first second => min (least first) (least second)
  | .loop _ body exit => min (least body) (least exit)
  | .charClass _ next => least next + 1
  | .anyChar next => least next + 1
  | .mark _ next => least next
  | .backReference _ next => least next
  | .textStart next => least next
  | .textEnd next => least next

/-- A node without patterns inside it demands what it takes itself and what its follower demands. -/
theorem Pattern.demand_of_leafOp? {p : Pattern} {next width : Nat} {op : Op}
    (h : p.leafOp? next = some (op, width)) (least : Nat → Nat) :
    op.demand least = least next + width := by
  cases p with
  | literal s =>
    rw [leafOp?] at h
    split at h
    · simp at h
    · obtain ⟨rfl, rfl⟩ := Prod.mk.inj (Option.some.inj h)
      rfl
  | anyChar | charClass _ | backReference _ | textStart | textEnd =>
    obtain ⟨rfl, rfl⟩ := Prod.mk.inj (Option.some.inj h)
    rfl
  | _ => simp [leafOp?] at h

/-- The deciding node of a loop demands what its exit does, if its body demands no less. -/
theorem LoopKind.demand_op (kind : LoopKind) {least : Nat → Nat} {body exit : Nat}
    (hle : least exit ≤ least body) : (kind.op body exit).demand least = least exit := by
  cases kind <;> exact Nat.min_eq_right hle

/-- The least lengths of the nodes of a part do not exceed what their operations demand, nor that of
its follower the one of its start. -/
structure Measures (nodes : Array Node) (next start lo hi : Nat) : Prop where
  le : leastFrom nodes next ≤ leastFrom nodes start
  demand : ∀ i node, lo ≤ i → i < hi → nodes[i]? = some node →
    node.minLength ≤ node.op.demand (leastFrom nodes)

namespace Measures

variable {nodes : Array Node} {next mid start lo m hi : Nat}

/-- A part without nodes. -/
theorem nothing (nodes : Array Node) (next lo : Nat) : Measures nodes next next lo lo :=
  ⟨Nat.le_refl _, fun _ _ hl hh => absurd hh (Nat.not_lt.mpr hl)⟩

/-- A single node that demands its own bytes besides those of its follower. -/
theorem leaf {op : Op} {width : Nat} (hn : nodes[lo]? = some ⟨op, leastFrom nodes next + width⟩)
    (hop : op.demand (leastFrom nodes) = leastFrom nodes next + width) :
    Measures nodes next lo lo (lo + 1) := by
  refine ⟨(leastFrom_eq hn) ▸ Nat.le_add_right _ _, fun i node hl hh hn' => ?_⟩
  obtain rfl : i = lo := by omega
  obtain rfl := Option.some.inj (hn.symm.trans hn')
  exact Nat.le_of_eq hop.symm

/-- A node that marks an end of a group. -/
theorem mark {group : Nat} (hn : nodes[lo]? = some ⟨.mark group next, leastFrom nodes next⟩) :
    Measures nodes next lo lo (lo + 1) :=
  @leaf nodes next lo (.mark group next) 0 hn rfl

/-- A part in front of another one. -/
theorem seq (h : Measures nodes next mid lo m) (h' : Measures nodes mid start m hi) :
    Measures nodes next start lo hi := by
  refine ⟨Nat.le_trans h.le h'.le, fun i node hl hh hn => ?_⟩
  by_cases him : i < m
  · exact h.demand i node hl him hn
  · exact h'.demand i node (Nat.le_of_not_lt him) hh hn

/-- A decision behind two parts with the same follower. -/
theorem branch (h : Measures nodes next start lo m) (h' : Measures nodes next mid m hi)
    (hn : nodes[hi]? =
      some ⟨.branch start mid, min (leastFrom nodes start) (leastFrom nodes mid)⟩) :
    Measures nodes next hi lo (hi + 1) := by
  refine ⟨(leastFrom_eq hn) ▸ Nat.le_min.mpr ⟨h.le, h'.le⟩, fun i node hl hh hn' => ?_⟩
  by_cases him : i < m
  · exact h.demand i node hl him hn'
  · by_cases hself : i < hi
    · exact h'.demand i node (Nat.le_of_not_lt him) hself hn'
    · obtain rfl : i = hi := by omega
      obtain rfl := Option.some.inj (hn.symm.trans hn')
      exact Nat.le_refl _

/-- The deciding node of a loop in front of its body. -/
theorem loop {kind : LoopKind} {body : Nat} (h : Measures nodes lo body (lo + 1) hi)
    (hn : nodes[lo]? = some ⟨kind.op body next, leastFrom nodes next⟩) :
    Measures nodes next lo lo hi := by
  have hself := leastFrom_eq hn
  refine ⟨Nat.le_of_eq hself.symm, fun i node hl hh hn' => ?_⟩
  by_cases hi' : i = lo
  · subst hi'
    obtain rfl := Option.some.inj (hn.symm.trans hn')
    have hle : leastFrom nodes next ≤ leastFrom nodes body :=
      Nat.le_trans (Nat.le_of_eq hself.symm) h.le
    exact Nat.le_of_eq (kind.demand_op hle).symm
  · exact h.demand i node (by omega) hh hn'

end Measures

/-- The least lengths in all layouts are measured. -/
theorem composes_measures (nodes : Array Node) :
    Composes nodes (fun _ => Pattern.hasOption) fun _ _ next start lo hi =>
      Measures nodes next start lo hi where
  nothing _ := .nothing nodes _ _
  leaf hp _ hn _ := .leaf hn (Pattern.demand_of_leafOp? hp _)
  seq h h' _ _ _ _ := h.seq h'
  branch h h' hn _ _ _ _ _ := h.branch h' hn
  loop h hn _ _ _ := h.loop hn
  capture _ hstop h hstart _ _ _ :=
    ((Measures.mark hstop).seq h).seq (.mark hstart)

namespace Program

/-- The least length of each node does not exceed what its operation demands. -/
def Measured (prog : Program) : Prop :=
  ∀ (i : Nat) (node : Node), prog.nodes[i]? = some node →
    node.minLength ≤ node.op.demand (leastFrom prog.nodes)

/-- The least lengths in a compiled program are measured. -/
theorem measured_of_compile? {p : Pattern} (hp : p.hasOptions = true) {limit : Nat}
    {prog : Program} (hc : p.compile? limit = some prog) : prog.Measured := by
  obtain ⟨kinds, hlays⟩ := Pattern.lays_of_compile? hc
  have h := hlays.laid.compose (composes_measures _) (fun _ _ hq => hq) hp (by simp) Nat.one_pos
  intro i node hn
  rcases Nat.eq_zero_or_pos i with rfl | hpos
  · obtain rfl := Option.some.inj (hlays.success.symm.trans hn)
    exact Nat.le_refl 0
  · exact h.demand i node hpos (Array.getElem?_eq_some_iff.mp hn).1 hn

variable {prog : Program} {text : String} {s s' : Spot}

/-- A step takes what the operation demands beyond the node that it leads to. -/
theorem Steps.demand_le {length : Nat} {op : Op} (h : Steps length s op s') (least : Nat → Nat) :
    op.demand least + s.pos ≤ least s'.node + s'.pos := by
  cases h with
  | @onward _ next width pos hop hw _ =>
    have hdemand : op.demand least ≤ least next + width := by
      cases op with
      | success | branch _ _ | mark _ _ => simp [Op.exit?] at hop
      | loop _ _ _ =>
        obtain ⟨rfl, rfl⟩ := Prod.mk.inj (Option.some.inj hop)
        exact Nat.min_le_right _ _
      | _ =>
        obtain ⟨rfl, rfl⟩ := Prod.mk.inj (Option.some.inj hop)
        exact Nat.le_refl _
    change _ ≤ least next + pos
    omega
  | mark => exact Nat.le_refl _
  | first | iterate _ => exact Nat.add_le_add_right (Nat.min_le_left _ _) _
  | second => exact Nat.add_le_add_right (Nat.min_le_right _ _) _

/-- A path takes at least the bytes by which the least lengths at its ends differ. -/
theorem Measured.le_of_path (hm : prog.Measured)
    (hpath : Relation.ReflTransGen (Leads (prog.unprunedMove text)) s s') :
    leastFrom prog.nodes s.node + s.pos ≤ leastFrom prog.nodes s'.node + s'.pos := by
  induction hpath with
  | refl => exact Nat.le_refl _
  | @tail s₁ _ _ hstep ih =>
    obtain ⟨-, node, hn, hs⟩ := steps_of_leads hstep
    have hnode : leastFrom prog.nodes s₁.node ≤ node.op.demand (leastFrom prog.nodes) :=
      (leastFrom_eq hn) ▸ hm _ node hn
    have := hs.demand_le (leastFrom prog.nodes)
    omega

/-- Only success accepts, at a place inside the text. -/
theorem success_of_accept (h : s.move (prog.unprunedMove text) = .accept) :
    s.pos ≤ text.utf8ByteSize ∧ ∃ least, prog.nodes[s.node]? = some ⟨.success, least⟩ := by
  have hle := le_of_move h (by simp)
  obtain ⟨⟨op, least⟩, hn, hmove⟩ := exists_node_of_move hle h (by simp)
  obtain rfl := unprunedMoveAt_accept hmove
  exact ⟨hle, least, hn⟩

/-- A path that ends in success takes at least as many bytes as the node knows with which it
begins. -/
theorem Measured.le_of_success (hm : prog.Measured)
    (hpath : Relation.ReflTransGen (Leads (prog.unprunedMove text)) s s')
    (hend : s'.move (prog.unprunedMove text) = .accept) :
    s.pos + leastFrom prog.nodes s.node ≤ s'.pos ∧ s'.pos ≤ text.utf8ByteSize := by
  obtain ⟨hle, least, hn⟩ := success_of_accept hend
  have hpath' := hm.le_of_path hpath
  have hnone : leastFrom prog.nodes s'.node = 0 :=
    Nat.le_zero.mp ((leastFrom_eq hn) ▸ hm _ _ hn)
  exact ⟨by omega, hle⟩

end Program

/-! ## Nothing is lost -/

namespace Search.Exhausts

variable {prog : Program} {text : String} {s : Spot} {found : Option History} {k : Nat}

/-- Where a search gives up, no path ends in success. -/
theorem eq_none (h : Exhausts (prog.unprunedMove text) s found k) (hm : prog.Measured)
    (hl : text.utf8ByteSize - s.pos < leastFrom prog.nodes s.node) : found = none := by
  cases hf : found with
  | none => rfl
  | some history =>
    obtain ⟨s', hpath, hend, -⟩ := h.exists_path hf
    obtain ⟨hle, hle'⟩ := hm.le_of_success hpath hend
    omega

/-- A search that gives up where too few bytes are left finds what one finds that never gives up,
on no more paths. -/
theorem pruned (h : Exhausts (prog.unprunedMove text) s found k) (hm : prog.Measured) :
    ∃ k', Exhausts (prog.move text) s found k' ∧ k' ≤ k := by
  have unlessGivenUp {s : Spot} {found : Option History} {k : Nat}
      (h : Exhausts (prog.unprunedMove text) s found k)
      (hgo : s.move (prog.move text) = s.move (prog.unprunedMove text) →
        ∃ k', Exhausts (prog.move text) s found k' ∧ k' ≤ k) :
      ∃ k', Exhausts (prog.move text) s found k' ∧ k' ≤ k := by
    rcases Program.move_eq_or prog text s with he | ⟨he, -, node, hn, hl⟩
    · exact hgo he
    · obtain rfl := h.eq_none hm ((leastFrom_eq hn).symm ▸ hl)
      exact ⟨1, .reject he, h.pos⟩
  induction h with
  | accept h =>
    exact unlessGivenUp (.accept h) fun he => ⟨1, .accept (he.trans h), Nat.le_refl 1⟩
  | goto h hr ih =>
    obtain ⟨k', hr', hk⟩ := ih
    exact unlessGivenUp (.goto h hr) fun he => ⟨_, .goto (he.trans h) hr', Nat.succ_le_succ hk⟩
  | mark h hr ih =>
    obtain ⟨k', hr', hk⟩ := ih
    exact unlessGivenUp (.mark h hr) fun he => ⟨_, .mark (he.trans h) hr', Nat.succ_le_succ hk⟩
  | choose h hf hs ihf ihs =>
    obtain ⟨k', hf', hk⟩ := ihf
    obtain ⟨l', hs', hl⟩ := ihs
    exact unlessGivenUp (.choose h hf hs) fun he => ⟨_, .choose (he.trans h) hf' hs', by omega⟩
  | reject h =>
    exact unlessGivenUp (.reject h) fun he => ⟨1, .reject (he.trans h), Nat.le_refl 1⟩

end Search.Exhausts

namespace Program

/-- Searches for a match as usual, but never gives up because too few bytes are left. -/
def execUnpruned (p : Program) (text : String) (pos : Nat) (trail : Trail) : Outcome :=
  run (p.unprunedMove text) (p.rounds text) ⟨p.root, pos, trail, []⟩

/-- All paths from the root of a compiled program end, and none in a fault, whether the search gives
up where too few bytes are left or not. The first success on them is the same, and their number is
below the bound of a search. -/
theorem exists_exhausts {p : Pattern} (hw : p.isWellFormed [0] = true) {limit : Nat}
    {prog : Program} (hc : p.compile? limit = some prog) (text : String) {start : Nat}
    (hstart : start ≤ text.utf8ByteSize) :
    ∃ found k k', k < 2 ^ prog.rounds text ∧ k' < 2 ^ prog.rounds text ∧
      Exhausts (prog.move text) ⟨prog.root, start, [⟨.group 0, start⟩]⟩ found k ∧
      Exhausts (prog.unprunedMove text) ⟨prog.root, start, [⟨.group 0, start⟩]⟩ found k' := by
  have hp := Pattern.hasOptions_of_isWellFormed hw
  obtain ⟨rank, hle, hquiet⟩ := ranked_of_compile? hp hc
  obtain ⟨met, hmeets⟩ := balanced_of_compile? hw hc
  obtain ⟨found, k', he', hk'⟩ := Search.exists_exhausts (Steady met text.utf8ByteSize)
    (prog.spotRank rank text.utf8ByteSize)
    (fun s s' hs hl => ⟨hs.step hmeets.closed hl, (spotRank_lt hle hquiet hl).2⟩)
    (fun s fault hs => hs.noFault hmeets.closed fault) (Steady.root hmeets hstart)
  have hbound : k' < 2 ^ prog.rounds text :=
    Nat.lt_of_lt_of_le hk' (Nat.pow_le_pow_right (by decide) (spotRank_add_one_le hle text _))
  obtain ⟨k, he, hk⟩ := he'.pruned (measured_of_compile? hp hc)
  exact ⟨found, k, k', Nat.lt_of_le_of_lt hk hbound, hbound, he, he'⟩

end Program

end BacktrackRegex
