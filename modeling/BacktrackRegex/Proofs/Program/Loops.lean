import BacktrackRegex.Proofs.Program.Compilation
import BacktrackRegex.Proofs.Program.Flow
import BacktrackRegex.Proofs.Program.Moves

/-!
# Iterations of loops

A guarded loop begins no two iterations at the same place of the text: as long as a path stays at
the place, the latest record of the loop is that of the first iteration.

A plain loop records nothing. The nodes that can be reached from the start of its body without going
on in the text lie inside the body, because the body cannot match the empty text. The way back to
the loop therefore consumes something.
-/

namespace BacktrackRegex

open Search History

/-- Some nodes with the start of a part, among the nodes of the part and its follower, are not left
for other ones without going on in the text. The follower is one of them only if the part may match
the empty text. -/
structure Confines (nodes : Array Node) (inside : Nat → Prop) (nullable : Bool)
    (next start lo hi : Nat) : Prop where
  start : inside start
  range : ∀ i, inside i → (lo ≤ i ∧ i < hi) ∨ (i = next ∧ nullable = true)
  closed : ∀ i node, inside i → lo ≤ i → nodes[i]? = some node → ∀ j ∈ node.op.idle, inside j

/-- A part confines the ways from its start that do not go on in the text. -/
def Confined (nodes : Array Node) (nullable : Bool) (next start lo hi : Nat) : Prop :=
  ∃ inside, Confines nodes inside nullable next start lo hi

namespace Confined

variable {nodes : Array Node} {nullable nullable' : Bool} {next mid start lo m hi : Nat}

/-- A part without nodes confines the ways from its follower to the follower. -/
theorem nothing (nodes : Array Node) (hnext : next < lo) : Confined nodes true next next lo lo :=
  ⟨(· = next), rfl, fun _ hi => Or.inr ⟨hi, rfl⟩, fun i _ (hi : i = next) hlo => by omega⟩

/-- A single node that is left for its follower only where the pattern may match the empty text. -/
theorem leaf {node : Node} (hn : nodes[lo]? = some node)
    (hq : ∀ j ∈ node.op.idle, j = next ∧ nullable = true) (hnext : next < lo) :
    Confined nodes nullable next lo lo (lo + 1) := by
  refine ⟨fun i => i = lo ∨ (i = next ∧ nullable = true), Or.inl rfl, fun i hi => ?_,
    fun i node' hi hlo hn' j hj => ?_⟩
  · exact hi.imp_left (by omega)
  · obtain rfl : i = lo := by omega
    obtain rfl := Option.some.inj (hn.symm.trans hn')
    exact Or.inr (hq j hj)

/-- The second of two parts matters only if the first one may match the empty text. -/
theorem seq (h : Confined nodes nullable next mid lo m)
    (h' : Confined nodes nullable' mid start m hi) (hlo : lo ≤ m) (hhi : m ≤ hi) :
    Confined nodes (nullable' && nullable) next start lo hi := by
  obtain ⟨inside, h⟩ := h
  obtain ⟨inside', h'⟩ := h'
  refine ⟨fun i => inside' i ∨ (nullable' = true ∧ inside i), Or.inl h'.start, fun i hi' => ?_,
    fun i node hi' hlo' hn j hj => ?_⟩
  · have hrest (hs : inside i) (hnull : nullable' = true) :
        (lo ≤ i ∧ i < hi) ∨ (i = next ∧ (nullable' && nullable) = true) :=
      (h.range i hs).imp (by omega) fun ⟨he, hn⟩ => ⟨he, by rw [hnull, hn]; rfl⟩
    rcases hi' with hi' | ⟨hnull, hi'⟩
    · rcases h'.range i hi' with hr | ⟨rfl, hnull⟩
      · exact Or.inl (by omega)
      · exact hrest h.start hnull
    · exact hrest hi' hnull
  · have hrest (hs : inside i) (hnull : nullable' = true) :
        inside' j ∨ (nullable' = true ∧ inside j) :=
      Or.inr ⟨hnull, h.closed i node hs hlo' hn j hj⟩
    rcases hi' with hi' | ⟨hnull, hi'⟩
    · rcases h'.range i hi' with hr | ⟨rfl, hnull⟩
      · exact Or.inl (h'.closed i node hi' hr.1 hn j hj)
      · exact hrest h.start hnull
    · exact hrest hi' hnull

/-- A decision behind two parts with the same follower. -/
theorem branch {node : Node} (h : Confined nodes nullable next start lo m)
    (h' : Confined nodes nullable' next mid m hi) (hn : nodes[hi]? = some node)
    (hq : ∀ j ∈ node.op.idle, j = start ∨ j = mid) (hnext : next < lo) (hlo : lo ≤ m)
    (hhi : m ≤ hi) : Confined nodes (nullable || nullable') next hi lo (hi + 1) := by
  obtain ⟨inside, h⟩ := h
  obtain ⟨inside', h'⟩ := h'
  refine ⟨fun i => i = hi ∨ inside i ∨ inside' i, Or.inl rfl, fun i hi' => ?_,
    fun i node' hi' hlo' hn' j hj => ?_⟩
  · rcases hi' with rfl | hi' | hi'
    · exact Or.inl (by omega)
    · exact (h.range i hi').imp (by omega) fun ⟨he, hnull⟩ => ⟨he, by rw [hnull]; rfl⟩
    · exact (h'.range i hi').imp (by omega) fun ⟨he, hnull⟩ => ⟨he, by rw [hnull, Bool.or_true]⟩
  · rcases hi' with rfl | hi' | hi'
    · obtain rfl := Option.some.inj (hn.symm.trans hn')
      rcases hq j hj with rfl | rfl
      · exact Or.inr (Or.inl h.start)
      · exact Or.inr (Or.inr h'.start)
    · exact Or.inr (Or.inl (h.closed i node' hi' hlo' hn' j hj))
    · rcases h'.range i hi' with hr | ⟨rfl, -⟩
      · exact Or.inr (Or.inr (h'.closed i node' hi' hr.1 hn' j hj))
      · omega

/-- The deciding node of a loop in front of its body. -/
theorem loop {kind : LoopKind} {body least : Nat}
    (h : Confined nodes nullable lo body (lo + 1) hi)
    (hn : nodes[lo]? = some ⟨kind.op body next, least⟩) (hnext : next < lo) (hle : lo + 1 ≤ hi) :
    Confined nodes true next lo lo hi := by
  obtain ⟨inside, h⟩ := h
  refine ⟨fun i => i = lo ∨ i = next ∨ inside i, Or.inl rfl, fun i hi' => ?_,
    fun i node hi' hlo' hn' j hj => ?_⟩
  · rcases hi' with rfl | rfl | hi'
    · exact Or.inl (by omega)
    · exact Or.inr ⟨rfl, rfl⟩
    · exact Or.inl (by have := h.range i hi'; omega)
  · by_cases hself : i = lo
    · subst hself
      obtain rfl := Option.some.inj (hn.symm.trans hn')
      have hj : j = body ∨ j = next := by
        cases kind <;> simpa [LoopKind.op, Op.idle, Op.quiet] using hj
      rcases hj with rfl | rfl
      · exact Or.inr (Or.inr h.start)
      · exact Or.inr (Or.inl rfl)
    · rcases hi' with rfl | rfl | hi'
      · exact absurd rfl hself
      · omega
      · exact Or.inr (Or.inr (h.closed i node hi' (by omega) hn' j hj))

end Confined

/-- The bodies of the plain loops of an interval are confined. -/
def PlainConfined (nodes : Array Node) (lo hi : Nat) : Prop :=
  ∀ id body exit least, lo ≤ id → id < hi → nodes[id]? = some ⟨.branch body exit, least⟩ →
    id < body → ∃ hi', Confined nodes false id body (id + 1) hi'

/-- All layouts confine the ways from their starts, and the bodies of their plain loops. -/
theorem sweeps_confined (nodes : Array Node) :
    Sweeps nodes fun nullable next start lo hi =>
      Confined nodes nullable next start lo hi ∧ PlainConfined nodes lo hi where
  nothing hnext := ⟨.nothing nodes hnext, fun _ _ _ _ _ _ => by omega⟩
  leaf {_ _ lo _} hn hq hnext := by
    refine ⟨.leaf hn hq hnext, fun id body exit least hl hh hn' hb => ?_⟩
    obtain rfl : id = lo := by omega
    obtain rfl := Option.some.inj (hn.symm.trans hn')
    have := (hq body List.mem_cons_self).1
    omega
  seq {_ _ _ _ _ _ m _} h h' _ hlo hhi _ := by
    refine ⟨h.1.seq h'.1 hlo hhi, fun id body exit least hl hh hn hb => ?_⟩
    by_cases hm : id < m
    · exact h.2 id body exit least hl hm hn hb
    · exact h'.2 id body exit least (by omega) hh hn hb
  branch {_ _ _ _ _ _ m hi _} h h' hn hnext hlo hhi hstart _ := by
    refine ⟨h.1.branch h'.1 hn (by simp [Op.idle, Op.quiet]) hnext hlo hhi,
      fun id body exit least hl hh hn' hb => ?_⟩
    by_cases hm : id < m
    · exact h.2 id body exit least hl hm hn' hb
    · by_cases hself : id < hi
      · exact h'.2 id body exit least (by omega) hself hn' hb
      · obtain rfl : id = hi := by omega
        have he := Option.some.inj (hn.symm.trans hn')
        obtain ⟨rfl, -⟩ := Op.branch.inj (Node.mk.inj he).1
        omega
  loop {kind _ _ lo hi _} h hn hnext hle _ := by
    refine ⟨h.1.loop hn hnext hle, fun id body exit least hl hh hn' hb => ?_⟩
    by_cases hself : id = lo
    · subst hself
      have he := Option.some.inj (hn.symm.trans hn')
      cases kind with
      | guarded index => simp [LoopKind.op] at he
      | plain =>
        obtain ⟨rfl, -⟩ := Op.branch.inj (Node.mk.inj he).1
        exact ⟨hi, h.1⟩
    · exact h.2 id body exit least (by omega) hh hn' hb

namespace Program

variable {prog : Program} {text : String} {s s' s₁ s₁' : Spot}

/-- A path begins an iteration of a guarded loop. -/
def Iterates (prog : Program) (text : String) (s s' : Spot) : Prop :=
  ∃ index body exit least, prog.nodes[s.node]? = some ⟨.loop index body exit, least⟩ ∧
    s.move (prog.move text) = .choose body exit (some (.loop index)) ∧
    s' = ⟨body, s.pos, ⟨.loop index, s.pos⟩ :: s.history⟩

/-- While a path stays where an iteration began, this is the latest one of the loop. -/
theorem latest_of_path {index : Nat} (hpos : s.pos ≤ text.utf8ByteSize)
    (hs : (places (.loop index) s.history).head? = some s.pos)
    (hpath : Relation.ReflTransGen (Leads (prog.move text)) s s') :
    s.pos ≤ s'.pos ∧ s'.pos ≤ text.utf8ByteSize ∧
      ∃ q, (places (.loop index) s'.history).head? = some q ∧ s.pos ≤ q ∧ q ≤ s'.pos := by
  induction hpath with
  | refl => exact ⟨Nat.le_refl _, hpos, s.pos, hs, Nat.le_refl _, Nat.le_refl _⟩
  | tail _ hstep ih =>
    obtain ⟨hle, hlen, q, hq, hsq, hqs⟩ := ih
    obtain ⟨-, node, -, hleave⟩ := leaving_of_leads (leads_unpruned hstep)
    cases hleave with
    | onward hlt hlen' =>
      exact ⟨by dsimp only; omega, hlen', q, hq, hsq, by dsimp only; omega⟩
    | quiet _ => exact ⟨hle, hlen, q, hq, hsq, hqs⟩
    | mark _ => exact ⟨hle, hlen, q, by rwa [places_cons_of_ne (by simp)], hsq, hqs⟩
    | @iterate index' _ _ _ _ =>
      refine ⟨hle, hlen, ?_⟩
      by_cases hi : index' = index
      · subst hi
        exact ⟨_, by rw [places_cons_self]; rfl, hle, Nat.le_refl _⟩
      · have hkey : Key.loop index' ≠ .loop index := by simpa using hi
        exact ⟨q, by rwa [places_cons_of_ne hkey], hsq, hqs⟩

/-- A node that begins an iteration again does so further on in the text. -/
theorem pos_lt_of_iterates (hpos : s.pos ≤ text.utf8ByteSize) (h : prog.Iterates text s s₁)
    (hpath : Relation.ReflTransGen (Leads (prog.move text)) s₁ s') (hnode : s'.node = s.node)
    (h' : prog.Iterates text s' s₁') : s.pos < s'.pos := by
  obtain ⟨index, body, exit, least, hn, -, rfl⟩ := h
  obtain ⟨index', body', exit', least', hn', hmove, -⟩ := h'
  rw [hnode] at hn'
  obtain ⟨hop, -⟩ := Node.mk.inj (Option.some.inj (hn.symm.trans hn'))
  obtain ⟨rfl, rfl, rfl⟩ := Op.loop.inj hop
  let begun : Spot := ⟨body, s.pos, ⟨.loop index, s.pos⟩ :: s.history⟩
  have hlatest : (places (.loop index) begun.history).head? = some begun.pos := by
    rw [places_cons_self]
    rfl
  obtain ⟨hle, hlen, q, hq, hsq, hqs⟩ := latest_of_path (s := begun) hpos hlatest hpath
  rw [← hnode] at hn
  have hmove := (unprunedMove_eq hn hlen).symm.trans (unprunedMove_of_move hmove (by simp))
  rcases unprunedMoveAt_choose hmove with ⟨hkey, -⟩ | ⟨index', hkey, -, hne⟩
  · simp at hkey
  · obtain rfl : index = index' := by simpa using hkey
    rw [Trail.find?_eq, Trail.history_ofHistory, hq] at hne
    have hqne : q ≠ s'.pos := fun he => hne (congrArg some he)
    change s.pos ≤ q at hsq
    omega

/-- A plain loop is met again only when its body has consumed something. -/
theorem pos_lt_of_plain {p : Pattern} (hp : p.hasOptions = true) {limit : Nat}
    (hc : p.compile? limit = some prog) {id body exit least : Nat}
    (hn : prog.nodes[id]? = some ⟨.branch body exit, least⟩) (hb : id < body)
    (hpos : s.pos ≤ text.utf8ByteSize) (hbody : s.node = body)
    (hpath : Relation.ReflTransGen (Leads (prog.move text)) s s') (hs' : s'.node = id) :
    s.pos < s'.pos := by
  obtain ⟨kinds, hlays⟩ := Pattern.lays_of_compile? hc
  have hid : 1 ≤ id := by
    refine Nat.one_le_iff_ne_zero.mpr ?_
    rintro rfl
    simp [hlays.success] at hn
  have hlt : id < prog.nodes.size := (Array.getElem?_eq_some_iff.mp hn).1
  obtain ⟨hi, inside, hin⟩ := (hlays.laid.sweep (sweeps_confined _) (fun _ _ hq => hq) hp (by simp)
    Nat.one_pos).2 id body exit least hid hlt hn hb
  have hinv : s'.pos ≤ text.utf8ByteSize ∧
      ((s'.pos = s.pos ∧ inside s'.node) ∨ s.pos < s'.pos) := by
    clear hs'
    induction hpath with
    | refl => exact ⟨hpos, Or.inl ⟨rfl, hbody ▸ hin.start⟩⟩
    | @tail s₁ _ _ hstep ih =>
      obtain ⟨hlen, hs⟩ := ih
      obtain ⟨-, node, hn', hleave⟩ := leaving_of_leads (leads_unpruned hstep)
      have hidle {j : Nat} (hj : j ∈ node.op.idle) :
          (s₁.pos = s.pos ∧ inside j) ∨ s.pos < s₁.pos := by
        refine hs.imp_left fun ⟨he, hi'⟩ => ⟨he, ?_⟩
        have hr : id + 1 ≤ s₁.node := by
          rcases hin.range _ hi' with hr | ⟨-, hnull⟩
          · exact hr.1
          · simp at hnull
        exact hin.closed _ node hi' hr hn' j hj
      cases hleave with
      | onward hlt hlen' => exact ⟨hlen', Or.inr (by dsimp only; omega)⟩
      | quiet hq | mark hq => exact ⟨hlen, hidle (Op.mem_idle_of_mem_quiet hq)⟩
      | iterate hop _ => exact ⟨hlen, hidle (by rw [hop]; exact List.mem_cons_self)⟩
  rcases hinv.2 with ⟨-, hi'⟩ | hlt
  · rcases hin.range _ hi' with hr | ⟨-, hnull⟩
    · omega
    · simp at hnull
  · exact hlt

end Program

end BacktrackRegex
