import BacktrackRegex.Proofs.Program.Layout

/-!
# Ways through a layout

A node may be left without going on in the text. Such idle ways join the nodes of a part with each
other and with its follower. A property of the ways through a part that passes from parts to the
parts that they make up holds of all layouts; whether a part may match the empty text says whether
there may be an idle way from its start to its follower.
-/

namespace BacktrackRegex

namespace Op

/-- The nodes that may follow without going on in the text, unless they begin an iteration of a
guarded loop. -/
def quiet : Op → List Nat
  | .success => []
  | .literal s next => if s.isEmpty then [next] else []
  | .branch first second => [first, second]
  | .loop _ _ exit => [exit]
  | .charClass _ _ => []
  | .anyChar _ => []
  | .mark _ next => [next]
  | .backReference _ next => [next]
  | .textStart next => [next]
  | .textEnd next => [next]

/-- The nodes that may follow without going on in the text. -/
def idle : Op → List Nat
  | .loop _ body exit => [body, exit]
  | op => op.quiet

/-- Quiet ways are idle ones. -/
theorem mem_idle_of_mem_quiet {op : Op} {j : Nat} (h : j ∈ op.quiet) : j ∈ op.idle := by
  cases op with
  | loop _ _ _ => exact List.mem_cons_of_mem _ h
  | _ => exact h

end Op

/-- A leaf that is left without going on in the text may match the empty text. -/
theorem Pattern.idle_of_leafOp? {p : Pattern} {next width : Nat} {op : Op}
    (h : p.leafOp? next = some (op, width)) : ∀ j ∈ op.idle, j = next ∧ p.isNullable = true := by
  cases p with
  | literal s =>
    rw [leafOp?] at h
    split at h
    · simp at h
    · next hs =>
      obtain ⟨rfl, -⟩ := Prod.mk.inj (Option.some.inj h)
      simp [Op.idle, Op.quiet, hs]
  | anyChar | charClass _ =>
    obtain ⟨rfl, -⟩ := Prod.mk.inj (Option.some.inj h)
    simp [Op.idle, Op.quiet]
  | backReference _ | textStart | textEnd =>
    obtain ⟨rfl, -⟩ := Prod.mk.inj (Option.some.inj h)
    simp [Op.idle, Op.quiet, isNullable]
  | _ => simp [leafOp?] at h

/-- A property of parts that are laid out, by the groups around them, by whether they may match the
empty text and by their followers, starts and intervals, that passes to the parts that they make
up. -/
structure Composes (nodes : Array Node) (test : List Nat → Pattern → Bool)
    (holds : List Nat → Bool → (next start lo hi : Nat) → Prop) : Prop where
  nothing : ∀ {groups next lo}, next < lo → holds groups true next next lo lo
  leaf : ∀ {groups} {p : Pattern} {next lo op width}, p.leafOp? next = some (op, width) →
    test groups p = true → nodes[lo]? = some ⟨op, leastFrom nodes next + width⟩ → next < lo →
    holds groups p.isNullable next lo lo (lo + 1)
  seq : ∀ {groups nullable nullable' next mid start lo m hi}, holds groups nullable next mid lo m →
    holds groups nullable' mid start m hi → next < lo → lo ≤ m → m ≤ hi → mid < m →
    holds groups (nullable' && nullable) next start lo hi
  branch : ∀ {groups nullable nullable' next start mid lo m hi},
    holds groups nullable next start lo m → holds groups nullable' next mid m hi →
    nodes[hi]? = some ⟨.branch start mid, min (leastFrom nodes start) (leastFrom nodes mid)⟩ →
    next < lo → lo ≤ m → m ≤ hi → start < m → mid < hi →
    holds groups (nullable || nullable') next hi lo (hi + 1)
  loop : ∀ {groups} {kind : LoopKind} {next body lo hi},
    holds groups kind.isGuarded lo body (lo + 1) hi →
    nodes[lo]? = some ⟨kind.op body next, leastFrom nodes next⟩ → next < lo → lo + 1 ≤ hi →
    body < hi → holds groups true next lo lo hi
  capture : ∀ {groups i p nullable next body lo hi}, test groups (.capture i p) = true →
    nodes[lo]? = some ⟨.mark i next, leastFrom nodes next⟩ →
    holds (i :: groups) nullable lo body (lo + 1) hi →
    nodes[hi]? = some ⟨.mark i body, leastFrom nodes body⟩ → next < lo → lo + 1 ≤ hi → body < hi →
    holds groups nullable next hi lo (hi + 1)

/-- Such a property holds of a part whose alternations have options. -/
theorem Laid.compose {nodes : Array Node} {test : List Nat → Pattern → Bool}
    {holds : List Nat → Bool → Nat → Nat → Nat → Nat → Prop} (co : Composes nodes test holds)
    (ht : ∀ groups q, test groups q = true → q.hasOption = true) {kinds : LoopKinds}
    {part : Part} {o : Occurrence} {next start lo hi : Nat}
    (hl : Laid nodes kinds part o next start lo hi) {groups : List Nat}
    (hw : part.everywhere test groups = true) (hne : part ≠ .options []) (hnext : next < lo) :
    holds groups part.isNullable next start lo hi := by
  induction hl generalizing groups with
  | @empty s _ next lo hs =>
    have hnull : (Part.one (.literal s)).isNullable = true := hs
    rw [hnull]
    exact co.nothing hnext
  | leaf hp hn =>
    rw [Part.everywhere, Pattern.everywhere_leaf (Pattern.isLeaf_of_leafOp? hp)] at hw
    exact co.leaf hp hw hn hnext
  | sequence _ ih =>
    simp only [Part.everywhere, Pattern.everywhere, Bool.and_eq_true] at hw
    exact ih hw.2 (by simp) hnext
  | alternation _ ih =>
    simp only [Part.everywhere, Pattern.everywhere, Bool.and_eq_true] at hw
    exact ih hw.2 (by rintro ⟨⟩; simpa [Pattern.hasOption] using ht _ _ hw.1) hnext
  | noItems => exact co.nothing hnext
  | item hrest hfirst ih ih' =>
    simp only [Part.everywhere, Pattern.everywhereIn, Bool.and_eq_true] at hw
    have hr := hrest.range
    exact co.seq (ih hw.2 (by simp) hnext) (ih' hw.1 (by simp) (by omega)) hnext hrest.le
      hfirst.le (by omega)
  | noOptions => exact absurd rfl hne
  | lastOption _ ih =>
    simp only [Part.everywhere, Pattern.everywhereIn, Bool.and_eq_true] at hw
    have hone := ih hw.1 (by simp) hnext
    rwa [← Bool.or_false (Part.isNullable _)] at hone
  | option hfirst hrest hn ih ih' =>
    simp only [Part.everywhere, Pattern.everywhereIn, Bool.and_eq_true] at hw ih'
    have hle := hfirst.le
    have hr := hfirst.range
    have hr' := hrest.range
    exact co.branch (ih hw.1 (by simp) hnext) (ih' hw.2 (by simp) (by omega)) hn hnext hle
      hrest.le (by omega) (by omega)
  | @repetition p least most _ _ _ _ _ _ _ hmore hcopies ih ih' =>
    simp only [Part.everywhere, Pattern.everywhere, Bool.and_eq_true] at hw
    have hr := hmore.range
    have hnull : (Part.more p least most).isNullable = true := by cases most <;> rfl
    have hmore' := ih (by rw [Part.everywhere_more]; exact hw.2)
      (Part.more_ne_options _ _ _ _) hnext
    have hboth := co.seq hmore' (ih' hw.2 (by simp) (by omega)) hnext hmore.le hcopies.le
      (by omega)
    rwa [hnull, Bool.and_true] at hboth
  | @noCopies p n _ _ _ h =>
    have hs : (Part.copies p n).isSilent = true := by simpa [Part.isSilent] using h
    rw [Part.isNullable_of_isSilent ht hs hw hne]
    exact co.nothing hnext
  | @copy p n _ _ _ _ _ _ _ hlast hothers ih ih' =>
    have hr := hlast.range
    have hboth := co.seq (ih hw (by simp) hnext) (ih' hw (by simp) (by omega)) hnext hlast.le
      hothers.le (by omega)
    have hnull : ((Part.copies p n).isNullable && (Part.one p).isNullable) =
        (Part.copies p (n + 1)).isNullable := by
      simp only [Part.isNullable]
      cases p.isNullable <;> simp
    rwa [hnull] at hboth
  | noOptionals h => exact co.nothing hnext
  | optional _ hinner hfirst hn ih ih' =>
    have hr := hinner.range
    have hr' := hfirst.range
    have hboth := co.seq (ih hw (by simp) hnext) (ih' hw (by simp) (by omega)) hnext hinner.le
      hfirst.le (by omega)
    have hall := co.branch hboth (co.nothing (by omega)) hn hnext (by omega) (Nat.le_refl _)
      (by omega) (by omega)
    rwa [Bool.or_true] at hall
  | loop hg _ hn hbody ih =>
    have hr := hbody.range
    have hbody' := ih hw (by simp) (Nat.lt_succ_self _)
    rw [Part.isNullable, ← hg] at hbody'
    exact co.loop hbody' hn hnext hbody.le (by omega)
  | capture hstop hbody hstart ih =>
    simp only [Part.everywhere, Pattern.everywhere, Bool.and_eq_true] at hw
    have hr := hbody.range
    exact co.capture hw.1 hstop (ih hw.2 (by simp) (Nat.lt_succ_self _)) hstart hnext hbody.le
      (by omega)

/-- A property of the ways through parts, by whether they may match the empty text and by their
followers, starts and intervals, that passes to the parts that they make up. -/
structure Sweeps (nodes : Array Node) (holds : Bool → (next start lo hi : Nat) → Prop) : Prop where
  nothing : ∀ {next lo}, next < lo → holds true next next lo lo
  leaf : ∀ {nullable next lo node}, nodes[lo]? = some node →
    (∀ j ∈ node.op.idle, j = next ∧ nullable = true) → next < lo →
    holds nullable next lo lo (lo + 1)
  seq : ∀ {nullable nullable' next mid start lo m hi}, holds nullable next mid lo m →
    holds nullable' mid start m hi → next < lo → lo ≤ m → m ≤ hi → mid < m →
    holds (nullable' && nullable) next start lo hi
  branch : ∀ {nullable nullable' next start mid lo m hi least}, holds nullable next start lo m →
    holds nullable' next mid m hi → nodes[hi]? = some ⟨.branch start mid, least⟩ → next < lo →
    lo ≤ m → m ≤ hi → start < m → mid < hi → holds (nullable || nullable') next hi lo (hi + 1)
  loop : ∀ {kind : LoopKind} {next body lo hi least}, holds kind.isGuarded lo body (lo + 1) hi →
    nodes[lo]? = some ⟨kind.op body next, least⟩ → next < lo → lo + 1 ≤ hi → body < hi →
    holds true next lo lo hi

/-- The ways through a capture group lead over the nodes that record its ends. -/
theorem Sweeps.composes {nodes : Array Node} {holds : Bool → Nat → Nat → Nat → Nat → Prop}
    (sw : Sweeps nodes holds) (test : List Nat → Pattern → Bool) :
    Composes nodes test fun _ => holds where
  nothing := sw.nothing
  leaf hp _ hn hnext := sw.leaf hn (Pattern.idle_of_leafOp? hp) hnext
  seq := sw.seq
  branch := sw.branch
  loop := sw.loop
  capture _ hstop hbody hstart hnext hle hlt := by
    have hend := sw.leaf hstop (fun j hj => ⟨List.mem_singleton.mp hj, rfl⟩) hnext
    have hbody' := sw.seq hend hbody hnext (Nat.le_succ _) hle (Nat.lt_succ_self _)
    have hall := sw.seq hbody' (sw.leaf hstart (fun j hj => ⟨List.mem_singleton.mp hj, rfl⟩) hlt)
      hnext (by omega) (Nat.le_succ _) hlt
    rwa [Bool.and_true, Bool.true_and] at hall

/-- Such a property holds of the ways through a part whose alternations have options. -/
theorem Laid.sweep {nodes : Array Node} {holds : Bool → Nat → Nat → Nat → Nat → Prop}
    (sw : Sweeps nodes holds) {test : List Nat → Pattern → Bool}
    (ht : ∀ groups q, test groups q = true → q.hasOption = true) {kinds : LoopKinds}
    {part : Part} {o : Occurrence} {next start lo hi : Nat}
    (hl : Laid nodes kinds part o next start lo hi) {enclosing : List Nat}
    (hw : part.everywhere test enclosing = true) (hne : part ≠ .options []) (hnext : next < lo) :
    holds part.isNullable next start lo hi :=
  hl.compose (sw.composes test) ht hw hne hnext

end BacktrackRegex
