import BacktrackRegex.Proofs.Program.Flow
import Mathlib.Data.Finset.Card
import Mathlib.Data.Finset.Range

/-!
# Ranks of nodes

Some nodes may be left without going on in the text and without beginning a guarded iteration. These
quiet ways out of nodes form no cycle: the nodes of a part can be ranked so that ranks descend along
them, whatever the ranks of the nodes before the part are.

The rank of the start of a part depends on that of its follower only if the part may match the empty
text. The deciding node of a plain loop, whose body may not, can therefore be ranked above the start
of its body as well as below the end of it.
-/

namespace BacktrackRegex

/-- Ranks descend along the quiet ways out of the nodes of an interval. -/
def Descends (nodes : Array Node) (rank : Nat → Nat) (lo hi : Nat) : Prop :=
  ∀ i node, lo ≤ i → i < hi → nodes[i]? = some node → ∀ j ∈ node.op.quiet, j < hi ∧ rank j < rank i

/-- The nodes of an interval are ranked, and no other ones are ranked anew. -/
structure Ranks (nodes : Array Node) (rank rank' : Nat → Nat) (lo hi : Nat) : Prop where
  same : ∀ i, i < lo ∨ hi ≤ i → rank' i = rank i
  descends : Descends nodes rank' lo hi

namespace Ranks

variable {nodes : Array Node} {rank rank' rank'' : Nat → Nat} {lo m hi : Nat}

/-- There is nothing to rank. -/
theorem refl (nodes : Array Node) (rank : Nat → Nat) (lo : Nat) : Ranks nodes rank rank lo lo :=
  ⟨fun _ _ => rfl, fun _ _ h h' => absurd h' (Nat.not_lt.mpr h)⟩

/-- Two intervals that follow each other are ranked one after the other. -/
theorem append (h : Ranks nodes rank rank' lo m) (h' : Ranks nodes rank' rank'' m hi)
    (hlo : lo ≤ m) (hhi : m ≤ hi) : Ranks nodes rank rank'' lo hi := by
  constructor
  case same =>
    intro i hi'
    rw [h'.same i (by omega), h.same i (by omega)]
  case descends =>
    intro i node hl hh hn j hj
    by_cases him : i < m
    · obtain ⟨hjm, hlt⟩ := h.descends i node hl him hn j hj
      rw [h'.same j (Or.inl hjm), h'.same i (Or.inl him)]
      exact ⟨by omega, hlt⟩
    · exact h'.descends i node (by omega) hh hn j hj

/-- A node is ranked above the ones that it is left for. -/
theorem node {node : Node} (hn : nodes[lo]? = some node) (rank : Nat → Nat) {r : Nat}
    (hr : ∀ j ∈ node.op.quiet, j < lo ∧ rank j < r) :
    Ranks nodes rank (fun i => if i = lo then r else rank i) lo (lo + 1) := by
  refine ⟨fun i hi => if_neg (by omega), ?_⟩
  intro i node' hl hh hn' j hj
  obtain rfl : i = lo := by omega
  obtain rfl := Option.some.inj (hn.symm.trans hn')
  obtain ⟨hlt, hj⟩ := hr j hj
  beta_reduce
  rw [if_pos rfl, if_neg (by omega)]
  exact ⟨by omega, hj⟩

end Ranks

/-- Ranks can be counted out, so that none is larger than the number of nodes. -/
theorem Descends.exists_le {nodes : Array Node} {rank : Nat → Nat}
    (h : Descends nodes rank 0 nodes.size) :
    ∃ rank' : Nat → Nat, (∀ i, rank' i ≤ nodes.size) ∧
      ∀ i node, nodes[i]? = some node → ∀ j ∈ node.op.quiet, rank' j < rank' i := by
  let below (i : Nat) := (Finset.range nodes.size).filter fun j => rank j < rank i
  refine ⟨fun i => (below i).card, fun i => ?_, fun i node hn j hj => Finset.card_lt_card ?_⟩
  · exact (Finset.card_filter_le _ _).trans_eq (Finset.card_range _)
  · have hi : i < nodes.size := (Array.getElem?_eq_some_iff.mp hn).1
    obtain ⟨hjn, hlt⟩ := h i node (Nat.zero_le i) hi hn j hj
    constructor
    · intro l hl
      obtain ⟨hl, hlj⟩ := Finset.mem_filter.mp hl
      exact Finset.mem_filter.mpr ⟨hl, Nat.lt_trans hlj hlt⟩
    · intro hsub
      have hself := hsub (Finset.mem_filter.mpr ⟨Finset.mem_range.mpr hjn, hlt⟩)
      exact Nat.lt_irrefl _ (Finset.mem_filter.mp hself).2

/-- The nodes of a part can be ranked, in such a way that the rank of its start is bounded, and by a
number that does not depend on the follower if the part cannot match the empty text. -/
def Ranked (nodes : Array Node) (nullable : Bool) (next start lo hi : Nat) : Prop :=
  ∃ bound, ∀ rank, ∃ rank', Ranks nodes rank rank' lo hi ∧
    rank' start ≤ (if nullable then rank next else 0) + bound

namespace Ranked

variable {nodes : Array Node} {nullable nullable' : Bool} {next mid start lo m hi : Nat}

/-- A part without nodes has nothing to rank. -/
theorem nothing (nodes : Array Node) (next lo : Nat) : Ranked nodes true next next lo lo :=
  ⟨0, fun rank => ⟨rank, .refl nodes rank lo, Nat.le_refl _⟩⟩

/-- Two parts one after the other are ranked from the last one on. -/
theorem seq (h : Ranked nodes nullable next mid lo m) (h' : Ranked nodes nullable' mid start m hi)
    (hlo : lo ≤ m) (hhi : m ≤ hi) : Ranked nodes (nullable' && nullable) next start lo hi := by
  obtain ⟨bound, h⟩ := h
  obtain ⟨bound', h'⟩ := h'
  refine ⟨bound + bound', fun rank => ?_⟩
  obtain ⟨rank', hr, hb⟩ := h rank
  obtain ⟨rank'', hr', hb'⟩ := h' rank'
  refine ⟨rank'', hr.append hr' hlo hhi, ?_⟩
  cases nullable <;> cases nullable'
  all_goals
    simp only [Bool.and_true, Bool.and_false, ite_true, Bool.false_eq_true, ite_false] at hb hb' ⊢
    omega

/-- A single node that is left for its follower only where the pattern may match the empty text. -/
theorem leaf {node : Node} (hn : nodes[lo]? = some node)
    (hq : ∀ j ∈ node.op.idle, j = next ∧ nullable = true) (hnext : next < lo) :
    Ranked nodes nullable next lo lo (lo + 1) := by
  refine ⟨1, fun rank => ⟨_, .node hn rank (r := (if nullable then rank next else 0) + 1)
    fun j hj => ?_, ?_⟩⟩
  · obtain ⟨rfl, rfl⟩ := hq j (Op.mem_idle_of_mem_quiet hj)
    exact ⟨hnext, Nat.lt_succ_self _⟩
  · rw [if_pos rfl]

/-- A decision behind two parts with the same follower. -/
theorem branch {least : Nat} (h : Ranked nodes nullable next start lo m)
    (h' : Ranked nodes nullable' next mid m hi)
    (hn : nodes[hi]? = some ⟨.branch start mid, least⟩) (hnext : next < lo) (hlo : lo ≤ m)
    (hhi : m ≤ hi) (hstart : start < m) (hmid : mid < hi) :
    Ranked nodes (nullable || nullable') next hi lo (hi + 1) := by
  obtain ⟨bound, h⟩ := h
  obtain ⟨bound', h'⟩ := h'
  refine ⟨bound + bound' + 1, fun rank => ?_⟩
  obtain ⟨rank₁, hr, hb⟩ := h rank
  obtain ⟨rank₂, hr', hb'⟩ := h' rank₁
  have hstart' := hr'.same start (Or.inl hstart)
  rw [hr.same next (Or.inl hnext)] at hb'
  refine ⟨_, (hr.append hr' hlo hhi).append
    (.node hn rank₂ (r := max (rank₂ start) (rank₂ mid) + 1) fun j hj => ?_) (by omega)
    (Nat.le_succ _), ?_⟩
  · rcases List.mem_cons.mp hj with rfl | hj
    · exact ⟨by omega, by omega⟩
    · obtain rfl := List.mem_singleton.mp hj
      exact ⟨hmid, by omega⟩
  · rw [if_pos rfl]
    cases nullable <;> cases nullable' <;>
      simp only [Bool.or_true, Bool.or_false, ite_true, Bool.false_eq_true, ite_false]
        at hb hb' ⊢ <;>
      omega

/-- The deciding node of a loop in front of its body. A plain loop is ranked above the start of its
body, whose rank does not depend on that of the loop. -/
theorem loop {kind : LoopKind} {body least : Nat}
    (h : Ranked nodes kind.isGuarded lo body (lo + 1) hi)
    (hn : nodes[lo]? = some ⟨kind.op body next, least⟩) (hnext : next < lo) (hle : lo + 1 ≤ hi)
    (hbody : body < hi) : Ranked nodes true next lo lo hi := by
  obtain ⟨bound, h⟩ := h
  refine ⟨bound + 1, fun rank => ?_⟩
  obtain ⟨rank', hr, hb⟩ := h fun i => if i = lo then max (rank next) bound + 1 else rank i
  have hself : rank' lo = max (rank next) bound + 1 :=
    (hr.same lo (Or.inl (Nat.lt_succ_self lo))).trans (if_pos rfl)
  have hother {i : Nat} (hi' : i < lo ∨ hi ≤ i) : rank' i = rank i :=
    (hr.same i (by omega)).trans (if_neg (by omega))
  refine ⟨rank', ⟨fun i hi' => hother hi', fun i node hl hh hn' j hj => ?_⟩, ?_⟩
  · by_cases hi' : i = lo
    · subst hi'
      obtain rfl := Option.some.inj (hn.symm.trans hn')
      have hexit : next < hi ∧ rank' next < rank' i := by
        rw [hself, hother (Or.inl hnext)]
        omega
      cases kind with
      | guarded index =>
        obtain rfl := List.mem_singleton.mp hj
        exact hexit
      | plain =>
        rcases List.mem_cons.mp hj with rfl | hj
        · simp only [LoopKind.isGuarded, Bool.false_eq_true, ite_false] at hb
          exact ⟨hbody, by omega⟩
        · obtain rfl := List.mem_singleton.mp hj
          exact hexit
    · exact hr.descends i node (by omega) hh hn' j hj
  · rw [hself, if_pos rfl]
    omega

end Ranked

/-- The nodes of all layouts can be ranked. -/
theorem sweeps_ranked (nodes : Array Node) : Sweeps nodes (Ranked nodes) where
  nothing _ := .nothing nodes _ _
  leaf := .leaf
  seq h h' _ hlo hhi _ := h.seq h' hlo hhi
  branch := .branch
  loop := .loop

end BacktrackRegex
