import BacktrackRegex.Proofs.Pattern.Reading
import BacktrackRegex.Proofs.Program.Loops

/-!
# Searches end

Every step of a path goes on in the text, or begins an iteration of a guarded loop whose latest one
began elsewhere, or takes a quiet way out of a node. The number of bytes that are left, the number
of guarded loops that may still begin an iteration at the place, and the rank of the node therefore
descend lexicographically. The bound of a search is large enough for trees of that height.
-/

namespace BacktrackRegex.Program

open Search History

/-- Whether a node may begin an iteration of a guarded loop at a place. -/
def mayIterate (h : History) (pos : Nat) (node : Node) : Bool :=
  match node.op with
  | .loop index _ _ => (places (.loop index) h).head? != some pos
  | _ => false

/-- The nodes that may begin an iteration of a guarded loop at a spot. -/
def waiting (prog : Program) (s : Spot) : Finset Nat :=
  (Finset.range prog.size).filter fun i => (prog.nodes[i]?).any (mayIterate s.history s.pos)

/-- The rank of a spot, from the ranks of the nodes. -/
def spotRank (prog : Program) (rank : Nat → Nat) (length : Nat) (s : Spot) : Nat :=
  (length - s.pos) * ((prog.size + 1) * (prog.size + 1)) +
    ((prog.waiting s).card * (prog.size + 1) + rank s.node)

variable {prog : Program} {text : String} {rank : Nat → Nat}

/-- No more nodes wait than there are. -/
theorem card_waiting_le (prog : Program) (s : Spot) : (prog.waiting s).card ≤ prog.size :=
  (Finset.card_filter_le _ _).trans_eq (Finset.card_range _)

/-- The part of the rank of a spot that does not come from the text is bounded. -/
theorem waiting_add_rank_lt (hrank : ∀ i, rank i ≤ prog.size) (s : Spot) :
    (prog.waiting s).card * (prog.size + 1) + rank s.node <
      (prog.size + 1) * (prog.size + 1) := by
  have hw := Nat.mul_le_mul_right (prog.size + 1) (card_waiting_le prog s)
  have hr := hrank s.node
  rw [Nat.add_one_mul prog.size (prog.size + 1)]
  omega

/-- The rank of a spot is less than that of any spot with fewer bytes matched. -/
theorem spotRank_lt_of_pos_lt (hrank : ∀ i, rank i ≤ prog.size) {length : Nat} {s s' : Spot}
    (hlt : s.pos < s'.pos) (hle : s'.pos ≤ length) :
    prog.spotRank rank length s' < prog.spotRank rank length s := by
  have hsmall := waiting_add_rank_lt hrank s'
  have hleft : length - s'.pos + 1 ≤ length - s.pos := by omega
  have hmul := Nat.mul_le_mul_right ((prog.size + 1) * (prog.size + 1)) hleft
  rw [Nat.add_one_mul] at hmul
  rw [spotRank, spotRank]
  omega

/-- The same nodes wait where the same iterations were recorded. -/
theorem waiting_eq {s s' : Spot} (hpos : s'.pos = s.pos)
    (h : ∀ i, places (.loop i) s'.history = places (.loop i) s.history) :
    prog.waiting s' = prog.waiting s := by
  have hiter : mayIterate s'.history s'.pos = mayIterate s.history s.pos := by
    funext node
    rw [mayIterate, mayIterate]
    cases node.op with
    | loop index _ _ => simp only [h, hpos]
    | _ => rfl
  rw [waiting, waiting, hiter]

/-- A node that begins an iteration does not wait any longer. -/
theorem card_waiting_lt {s : Spot} {node : Node} {index body exit : Nat}
    (hn : prog.nodes[s.node]? = some node) (hop : node.op = .loop index body exit)
    (hne : (places (.loop index) s.history).head? ≠ some s.pos) :
    (prog.waiting ⟨body, s.pos, ⟨.loop index, s.pos⟩ :: s.history⟩).card <
      (prog.waiting s).card := by
  have hself : s.node ∈ prog.waiting s := by
    refine Finset.mem_filter.mpr ⟨Finset.mem_range.mpr (Array.getElem?_eq_some_iff.mp hn).1, ?_⟩
    simpa [hn, mayIterate, hop] using hne
  refine Finset.card_lt_card ⟨fun i hi => ?_, fun hsub => ?_⟩
  · obtain ⟨hi, hany⟩ := Finset.mem_filter.mp hi
    refine Finset.mem_filter.mpr ⟨hi, ?_⟩
    obtain ⟨node', hn', hiter⟩ := Option.any_eq_true _ _ |>.mp hany
    refine Option.any_eq_true _ _ |>.mpr ⟨node', hn', ?_⟩
    rw [mayIterate] at hiter ⊢
    cases hop' : node'.op with
    | loop index' _ _ =>
      by_cases hi : index' = index
      · simpa [hop', hi] using hne
      · have hkey : Key.loop index ≠ .loop index' := fun h => hi (Key.loop.inj h).symm
        simpa [hop', places_cons_of_ne hkey] using hiter
    | _ => simp [hop'] at hiter
  · have := (Finset.mem_filter.mp (hsub hself)).2
    simp [hn, mayIterate, hop] at this

/-- Ranks of spots descend along paths. -/
theorem spotRank_lt (hrank : ∀ i, rank i ≤ prog.size)
    (hquiet : ∀ i node, prog.nodes[i]? = some node → ∀ j ∈ node.op.quiet, rank j < rank i)
    {s s' : Spot} (h : Leads (prog.unprunedMove text) s s') :
    s'.pos ≤ text.utf8ByteSize ∧
      prog.spotRank rank text.utf8ByteSize s' < prog.spotRank rank text.utf8ByteSize s := by
  obtain ⟨hpos, node, hn, hs⟩ := leaving_of_leads h
  cases hs with
  | onward hlt hle => exact ⟨hle, spotRank_lt_of_pos_lt hrank hlt hle⟩
  | @quiet next hq =>
    have hlt := hquiet s.node node hn next hq
    have hw : prog.waiting ⟨next, s.pos, s.history⟩ = prog.waiting s := waiting_eq rfl fun _ => rfl
    refine ⟨hpos, ?_⟩
    rw [spotRank, spotRank, hw]
    exact Nat.add_lt_add_left (Nat.add_lt_add_left hlt _) _
  | @mark group next hq =>
    have hlt := hquiet s.node node hn next hq
    have hw : prog.waiting ⟨next, s.pos, ⟨.group group, s.pos⟩ :: s.history⟩ = prog.waiting s :=
      waiting_eq rfl fun _ => places_cons_of_ne (by simp) _ _
    refine ⟨hpos, ?_⟩
    rw [spotRank, spotRank, hw]
    exact Nat.add_lt_add_left (Nat.add_lt_add_left hlt _) _
  | @iterate index body exit hop hne =>
    have hw := Nat.mul_le_mul_right (prog.size + 1) (card_waiting_lt hn hop hne)
    have hr := hrank body
    rw [Nat.add_one_mul] at hw
    refine ⟨hpos, ?_⟩
    rw [spotRank, spotRank]
    dsimp only
    omega

/-- The nodes of a program can be ranked, by ranks not above their number, so that ranks descend
along the quiet ways out of nodes. -/
def Ranked (prog : Program) : Prop :=
  ∃ rank : Nat → Nat, (∀ i, rank i ≤ prog.size) ∧
    ∀ i node, prog.nodes[i]? = some node → ∀ j ∈ node.op.quiet, rank j < rank i

/-- The nodes of a compiled program can be ranked. -/
theorem ranked_of_compile? {p : Pattern} (hp : p.hasOptions = true) {limit : Nat}
    (hc : p.compile? limit = some prog) : prog.Ranked := by
  obtain ⟨kinds, hlays⟩ := Pattern.lays_of_compile? hc
  obtain ⟨bound, hranked⟩ := hlays.laid.sweep (sweeps_ranked _) (fun _ _ hq => hq) hp (by simp)
    Nat.one_pos
  obtain ⟨rank, hr, -⟩ := hranked fun _ => 0
  have hdescends : Descends prog.nodes rank 0 prog.nodes.size := by
    intro i node _ hi hn j hj
    by_cases hzero : i = 0
    · subst hzero
      obtain rfl := Option.some.inj (hlays.success.symm.trans hn)
      simp [Op.quiet] at hj
    · exact hr.descends i node (by omega) hi hn j hj
  exact hdescends.exists_le

/-- The bound of a search is large enough for the rank of any spot. -/
theorem spotRank_add_one_le (hrank : ∀ i, rank i ≤ prog.size) (text : String) (s : Spot) :
    prog.spotRank rank text.utf8ByteSize s + 1 ≤ prog.rounds text := by
  have hsmall := waiting_add_rank_lt hrank s
  have hmul := Nat.mul_le_mul_right ((prog.size + 1) * (prog.size + 1))
    (Nat.sub_le text.utf8ByteSize s.pos)
  rw [rounds, roundsFor, Nat.add_one_mul, spotRank]
  omega

/-- In a compiled program, exploring the root ends within the bound of a search. -/
theorem exists_explores {p : Pattern} (hp : p.hasOptions = true) {limit : Nat}
    (hc : p.compile? limit = some prog) (text : String) {pos : Nat}
    (hpos : pos ≤ text.utf8ByteSize) (h : History) :
    ∃ r k, Explores (prog.move text) (fun s => s.pos ≤ text.utf8ByteSize) ⟨prog.root, pos, h⟩ r k ∧
      k < 2 ^ prog.rounds text := by
  obtain ⟨rank, hle, hquiet⟩ := ranked_of_compile? hp hc
  obtain ⟨r, k, he, hk⟩ := Search.exists_explores (fun s => s.pos ≤ text.utf8ByteSize)
    (prog.spotRank rank text.utf8ByteSize)
    (fun s s' _ hl => spotRank_lt hle hquiet (leads_unpruned hl)) (s := ⟨prog.root, pos, h⟩) hpos
  exact ⟨r, k, he, Nat.lt_of_lt_of_le hk
    (Nat.pow_le_pow_right (by decide) (spotRank_add_one_le hle text _))⟩

/-- Patterns that are read have options in all alternations, and so have simplified ones. A search
for such a pattern ends, whatever the trail it begins on: the machine stops after finitely many
steps and within its bound. On no path does a guarded loop begin two iterations at the same place.
A plain loop is a decision in front of its body, and each path from its own body back to the
decision consumes something; a guarded loop around it may come back to it at the same place. -/
theorem exec_ends :
    (∀ limit source p, Pattern.read limit source = .ok p → p.hasOptions = true) ∧
    (∀ p : Pattern, p.hasOptions = true → p.simplify.hasOptions = true) ∧
    ∀ (p : Pattern) (limit : Nat) (prog : Program), p.hasOptions = true →
      p.compile? limit = some prog → ∀ (text : String) (pos : Nat) (trail : Trail),
      pos ≤ text.utf8ByteSize →
        prog.exec text pos trail ≠ .unfinished ∧
        (∃ n outcome,
          advance (step (prog.move text)) n ⟨prog.root, pos, trail, []⟩ = .inr outcome) ∧
        (∀ s s₁ s' s₁', s.pos ≤ text.utf8ByteSize → prog.Iterates text s s₁ →
          Relation.ReflTransGen (Leads (prog.move text)) s₁ s' → s'.node = s.node →
          prog.Iterates text s' s₁' → s.pos < s'.pos) ∧
        ∀ id body exit least s s', prog.nodes[id]? = some ⟨.branch body exit, least⟩ → id < body →
          s.pos ≤ text.utf8ByteSize → s.node = body →
          Relation.ReflTransGen (Leads (prog.move text)) s s' → s'.node = id → s.pos < s'.pos := by
  refine ⟨fun _ _ _ h => Pattern.hasOptions_of_isWellFormed (Pattern.isWellFormed_of_read h),
    fun _ => Pattern.hasOptions_simplify, fun p limit prog hp hc text pos trail hpos => ?_⟩
  obtain ⟨r, k, he, hk⟩ := exists_explores hp hc text hpos trail.history
  have hshows : (prog.exec text pos trail).Shows r :=
    he.run_shows (s := ⟨prog.root, pos, trail, []⟩) (prog.readsHistory text) rfl hk
  refine ⟨fun hu => ?_, ?_, fun s s₁ s' s₁' hs h hpath hnode h' => ?_,
    fun id body exit least s s' hn hb hs hbody hpath hs' => ?_⟩
  · rw [hu] at hshows
    cases r <;> exact hshows
  · obtain ⟨outcome, ho, -⟩ := he.ends (prog.readsHistory text) trail rfl
    exact ⟨k, outcome, ho⟩
  · exact pos_lt_of_iterates hs h hpath hnode h'
  · exact pos_lt_of_plain hp hc hn hb hs hbody hpath hs'

/-- In a loop around a loop, each of them begins its next iteration behind a character. -/
theorem exec_ends_nested_loops :
    ∃ p prog, Pattern.read 255 "(?:a*)*" = .ok p ∧ p.compile? 100 = some prog ∧
      prog.exec "a" 0 .empty ≠ .unfinished ∧
      (∃ n outcome, advance (step (prog.move "a")) n ⟨prog.root, 0, .empty, []⟩ = .inr outcome) ∧
      (∃ s s₁ s' s₁', prog.Iterates "a" s s₁ ∧
        Relation.ReflTransGen (Leads (prog.move "a")) s₁ s' ∧ s'.node = s.node ∧
        prog.Iterates "a" s' s₁' ∧ s.pos < s'.pos) ∧
      ∃ s s', prog.nodes[2]? = some ⟨.branch 3 1, 0⟩ ∧ s.node = 3 ∧
        Relation.ReflTransGen (Leads (prog.move "a")) s s' ∧ s'.node = 2 ∧ s.pos < s'.pos := by
  let p : Pattern := .repetition (.repetition (.literal "a") 0 none) 0 none
  let prog : Program :=
    ⟨#[⟨.success, 0⟩, ⟨.loop 1 2 0, 0⟩, ⟨.branch 3 1, 0⟩, ⟨.literal "a" 2, 1⟩], 1, 0, false⟩
  have hread : Pattern.read 255 "(?:a*)*" = .ok p :=
    Pattern.read_eq_ok_iff.mpr (by decide +kernel)
  have hc : p.compile? 100 = some prog := by decide +kernel
  obtain ⟨hends, hstops, hguarded, hplain⟩ :=
    exec_ends.2.2 p 100 prog (exec_ends.1 255 _ p hread) hc "a" 0 .empty (by decide)
  let h : History := [⟨.loop 1, 0⟩]
  have hiterates : prog.Iterates "a" ⟨1, 0, []⟩ ⟨2, 0, h⟩ :=
    ⟨1, 2, 0, 0, rfl, by decide +kernel, rfl⟩
  have hfirst : Spot.move (prog.move "a") ⟨2, 0, h⟩ = .choose 3 1 none := by decide +kernel
  have hgoto : Spot.move (prog.move "a") ⟨3, 0, h⟩ = .goto 2 1 := by decide +kernel
  have hsecond : Spot.move (prog.move "a") ⟨2, 1, h⟩ = .choose 3 1 none := by decide +kernel
  have hiterates' : prog.Iterates "a" ⟨1, 1, h⟩ ⟨2, 1, ⟨.loop 1, 1⟩ :: h⟩ :=
    ⟨1, 2, 0, 0, rfl, by decide +kernel, rfl⟩
  have hbody : Relation.ReflTransGen (Leads (prog.move "a")) ⟨3, 0, h⟩ ⟨2, 1, h⟩ :=
    .single (.goto hgoto)
  have hpath : Relation.ReflTransGen (Leads (prog.move "a")) ⟨2, 0, h⟩ ⟨1, 1, h⟩ :=
    .head (.first hfirst) (hbody.tail (.second hsecond))
  exact ⟨p, prog, hread, hc, hends, hstops,
    ⟨_, _, _, _, hiterates, hpath, rfl, hiterates',
      hguarded _ _ _ _ (by decide) hiterates hpath rfl hiterates'⟩,
    _, _, rfl, rfl, hbody, rfl, hplain 2 3 1 0 _ _ rfl (by decide) (by decide) rfl hbody rfl⟩

end BacktrackRegex.Program
