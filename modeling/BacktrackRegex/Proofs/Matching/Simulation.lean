import BacktrackRegex.Proofs.Matching.Agreement
import BacktrackRegex.Proofs.Matching.Continuation

/-!
# Programs follow the reference matcher

Exploring the start of a part that is laid out comes to what the reference matcher comes to in the
part and its continuation, if exploring the follower of the part does so for the continuation. The
induction is on the layout, and inside a loop on the number of bytes that are left.

A guarded loop stops when its latest iteration began at the same place, as the reference matcher
does. A plain loop never asks: its body always consumes something, so its latest iteration began
earlier. Nothing is lost where the search gives up because too few bytes are left, since the least
length from a node on is one that all ways of matching from there on need.
-/

namespace BacktrackRegex

open Search History Text Progress

namespace Attempt

variable {a : Attempt} {opened opened' : List (Nat × Nat)} {c c' : Progress} {id next : Nat}
  {node : Node} {result result' : Option Progress}

/-- A valid match has not left the text. -/
theorem Valid.pos_le (hv : a.Valid c) : c.pos ≤ a.text.utf8ByteSize :=
  le_of_isBoundary hv.boundary

/-- A spot of a valid match at a node makes the move of the node. -/
theorem move_eq (hn : a.program.nodes[id]? = some node) (hv : a.Valid c) (h : History) :
    Spot.move a.moves ⟨id, c.pos, h⟩ =
      Program.moveAt a.text node (a.left c) c.pos (.ofHistory h) :=
  Program.move_eq hn hv.pos_le

/-- A spot of a valid match is one that the reference matcher may come to. -/
theorem visits (hn : a.program.nodes[id]? = some node) (hv : a.Valid c) {h : History}
    (ha : a.Agrees opened c h) (hadm : a.Admits opened node.op) :
    a.Visits ⟨id, c.pos, h⟩ :=
  ⟨node, opened, c, hn, rfl, hv, ha, hadm⟩

/-- The search finds what the first of two results is, or else what the second one is. -/
theorem Yields.or {r r' : Finding} (h : a.Yields result r) (h' : a.Yields result' r') :
    a.Yields (result.or result') (if r = .failed then r' else r) := by
  cases result with
  | none =>
    obtain rfl : r = .failed := h
    exact h'
  | some c =>
    obtain ⟨h, rfl, hc⟩ := h
    rw [if_neg (by simp)]
    exact ⟨h, rfl, hc⟩

namespace Resumes

/-- A move that goes on at the follower resumes what the follower resumes. -/
theorem explores_goto (hn : a.program.nodes[id]? = some node) (hv : a.Valid c)
    (hadm : a.Admits opened node.op) {h : History} (ha : a.Agrees opened c h)
    (hmove : Program.moveAt a.text node (a.left c) c.pos (.ofHistory h) = .goto next c'.pos)
    (hnext : a.Resumes opened' next c' result) (ha' : a.Agrees opened' c' h) :
    ∃ r k, Explores a.moves a.Visits ⟨id, c.pos, h⟩ r k ∧ a.Yields result r := by
  obtain ⟨r, k, hr, hy⟩ := hnext.explores h ha'
  exact ⟨r, k + 1, .goto (visits hn hv ha hadm) ((move_eq hn hv h).trans hmove) hr, hy⟩

/-- A node that does not match finds nothing. -/
theorem explores_reject (hn : a.program.nodes[id]? = some node) (hv : a.Valid c)
    (hadm : a.Admits opened node.op) {h : History} (ha : a.Agrees opened c h)
    (hmove : Program.moveAt a.text node (a.left c) c.pos (.ofHistory h) = .reject) :
    ∃ r k, Explores a.moves a.Visits ⟨id, c.pos, h⟩ r k ∧ a.Yields none r :=
  ⟨.failed, 1, .reject (visits hn hv ha hadm) ((move_eq hn hv h).trans hmove), rfl⟩

/-- A node that records its place resumes what its follower resumes with the record. -/
theorem mark {group : Nat} (c' : Progress)
    (hn : a.program.nodes[id]? = some ⟨.mark group next, leastFrom a.program.nodes next⟩)
    (hv : a.Valid c) (hpos : c'.pos = c.pos)
    (hagrees : ∀ h, a.Agrees opened c h → a.Agrees opened' c' (⟨.group group, c.pos⟩ :: h))
    (hnext : a.Resumes opened' next c' result) : a.Resumes opened id c result where
  eq_none hl := by
    rw [leastFrom_eq hn] at hl
    exact hnext.eq_none (by rwa [left, hpos])
  explores h ha := by
    obtain ⟨r, k, hr, hy⟩ := hnext.explores _ (hagrees h ha)
    rw [hpos] at hr
    exact ⟨r, k + 1, .mark (visits hn hv ha trivial) (move_eq hn hv h) hr, hy⟩

/-- A decision resumes what its first node resumes, or else what its second one does. -/
theorem choose {first second : Nat} {key : Option Key} (c' : Progress)
    (hn : a.program.nodes[id]? = some node) (hv : a.Valid c) (hadm : a.Admits opened node.op)
    (hmove : ∀ h, a.Agrees opened c h →
      Program.moveAt a.text node (a.left c) c.pos (.ofHistory h) =
        needing node.minLength (a.left c) (.choose first second key))
    (hpos : c'.pos = c.pos)
    (hagrees : ∀ h, a.Agrees opened c h → a.Agrees opened c' (noted key c.pos h))
    (hfirst : a.Resumes opened first c' result) (hsecond : a.Resumes opened second c result')
    (hle : node.minLength ≤ leastFrom a.program.nodes first)
    (hle' : node.minLength ≤ leastFrom a.program.nodes second) :
    a.Resumes opened id c (result.or result') := by
  have hnone (hl : a.left c < node.minLength) : result.or result' = none := by
    rw [hfirst.eq_none (by rw [left, hpos]; exact Nat.lt_of_lt_of_le hl hle),
      hsecond.eq_none (Nat.lt_of_lt_of_le hl hle'), Option.or_none]
  refine ⟨fun hl => hnone (by rwa [leastFrom_eq hn] at hl), fun h ha => ?_⟩
  by_cases hl : a.left c < node.minLength
  · rw [hnone hl]
    exact explores_reject hn hv hadm ha ((hmove h ha).trans (if_pos hl))
  · obtain ⟨r, k, hr, hy⟩ := hfirst.explores _ (hagrees h ha)
    obtain ⟨r', k', hr', hy'⟩ := hsecond.explores h ha
    rw [hpos] at hr
    obtain ⟨n, hc⟩ := hr.choose (visits hn hv ha hadm)
      ((move_eq hn hv h).trans ((hmove h ha).trans (if_neg hl))) hr'
    exact ⟨_, n, hc, hy.or hy'⟩

/-- A mere decision resumes what its first node resumes, or else what its second one does. -/
theorem branch {first second : Nat}
    (hn : a.program.nodes[id]? = some ⟨.branch first second,
      min (leastFrom a.program.nodes first) (leastFrom a.program.nodes second)⟩)
    (hv : a.Valid c) (hfirst : a.Resumes opened first c result)
    (hsecond : a.Resumes opened second c result') :
    a.Resumes opened id c (result.or result') :=
  choose c hn hv trivial (fun _ _ => rfl) rfl (fun _ ha => ha) hfirst hsecond
    (Nat.min_le_left _ _) (Nat.min_le_right _ _)

/-- Success completes group 0. -/
theorem success (hn : a.program.nodes[id]? = some ⟨.success, 0⟩) (hv : a.Valid c) :
    a.Resumes [(0, a.origin)] id c (some (c.close 0 a.origin)) where
  eq_none hl := by
    rw [leastFrom_eq hn] at hl
    exact absurd hl (Nat.not_lt_zero _)
  explores h ha := by
    refine ⟨_, 1, .accept (visits hn hv ha rfl) (move_eq hn hv h), _, rfl,
      ha.closes hv (by simp), ?_⟩
    simp [Progress.close]

end Resumes

/-! ## Leaves -/

/-- A node that consumes a character goes on where the character stops. -/
theorem consumeChar_eq (text : String) (pos : Nat) (accepts : Char → Bool) (next : Nat) :
    consumeChar text pos accepts next =
      match Pattern.charStop? text accepts pos with
      | some pos' => .goto next pos'
      | none => .reject := by
  rw [consumeChar, Pattern.charStop?]
  cases charAt? text pos with
  | none => rfl
  | some ch =>
    dsimp only
    split <;> rfl

/-- A node that is made of a leaf goes on where the leaf stops to match, unless too few bytes are
left for it. -/
theorem moveAt_leaf {p : Pattern} {op : Op} {width least : Nat}
    (hp : p.leafOp? next = some (op, width)) (hv : a.Valid c) {h : History}
    (ha : a.Agrees opened c h) (hadm : a.Admits opened op) :
    let here : Move := match p.stop? a.text c with
      | some pos => .goto next pos
      | none => .reject
    let move := Program.moveAt a.text ⟨op, least⟩ (a.left c) c.pos (.ofHistory h)
    move = here ∨ (move = .reject ∧ a.left c < least) := by
  intro here move
  have hneeding (m : Move) (hm : m = here) (hmove : move = needing least (a.left c) m) :
      move = here ∨ (move = .reject ∧ a.left c < least) := by
    rw [hmove, needing]
    split
    · next hl => exact Or.inr ⟨rfl, hl⟩
    · exact Or.inl hm
  cases p with
  | literal s =>
    rw [Pattern.leafOp?] at hp
    split at hp
    · simp at hp
    · obtain ⟨rfl, rfl⟩ := Prod.mk.inj (Option.some.inj hp)
      refine hneeding _ ?_ rfl
      simp only [here, consumeText, Pattern.stop?]
      split <;> rfl
  | anyChar | charClass _ =>
    obtain ⟨rfl, rfl⟩ := Prod.mk.inj (Option.some.inj hp)
    exact hneeding _ (consumeChar_eq a.text c.pos _ next) rfl
  | textStart | textEnd =>
    obtain ⟨rfl, rfl⟩ := Prod.mk.inj (Option.some.inj hp)
    left
    simp only [move, here, Program.moveAt, assertPlace, Pattern.stop?, beq_iff_eq]
    split <;> rfl
  | backReference i =>
    obtain ⟨rfl, rfl⟩ := Prod.mk.inj (Option.some.inj hp)
    left
    have hspan : (Trail.ofHistory h).captured i = .ok (c.spans i) := by
      rw [Trail.captured_eq, Trail.history_ofHistory]
      exact ha.closed i hadm
    simp only [move, here, Program.moveAt, consumeGroup, hspan, Pattern.stop?]
    cases hs : c.spans i with
    | none => rfl
    | some span =>
      obtain ⟨-, hle, hle', -⟩ := hv.spans i span hs
      have hinside : ¬ (span.stop < span.start ∨ a.text.utf8ByteSize < span.stop) := by
        have := Valid.pos_le hv
        omega
      dsimp only
      rw [if_neg hinside]
      split <;> rfl
  | _ => simp [Pattern.leafOp?] at hp

/-- A proper leaf may be met inside the groups around it. -/
theorem admits_leaf {p : Pattern} {op : Op} {width : Nat}
    (hp : p.leafOp? next = some (op, width))
    (hw : p.everywhere Pattern.isProper (opened.map Prod.fst) = true) : a.Admits opened op := by
  cases p with
  | literal s =>
    rw [Pattern.leafOp?] at hp
    split at hp
    · simp at hp
    · obtain ⟨rfl, -⟩ := Prod.mk.inj (Option.some.inj hp)
      trivial
  | backReference i =>
    obtain ⟨rfl, -⟩ := Prod.mk.inj (Option.some.inj hp)
    simpa [Pattern.everywhere, Pattern.isProper, Admits] using hw
  | anyChar | charClass _ | textStart | textEnd =>
    obtain ⟨rfl, -⟩ := Prod.mk.inj (Option.some.inj hp)
    trivial
  | _ => simp [Pattern.leafOp?] at hp

/-- A node that is made of a leaf resumes what its follower resumes where the leaf stops. -/
theorem Resumes.leaf {p : Pattern} {op : Op} {width : Nat}
    (hp : p.leafOp? next = some (op, width))
    (hn : a.program.nodes[id]? = some ⟨op, leastFrom a.program.nodes next + width⟩)
    (hv : a.Valid c) (hadm : a.Admits opened op) (k : Continuation)
    (hk : ∀ pos, p.stop? a.text c = some pos →
      a.Resumes opened next (c.moveTo pos) (k (c.moveTo pos))) :
    a.Resumes opened id c ((p.stop? a.text c).bind fun pos => k (c.moveTo pos)) := by
  have hnone (hl : a.left c < leastFrom a.program.nodes next + width) :
      ((p.stop? a.text c).bind fun pos => k (c.moveTo pos)) = none := by
    cases hs : p.stop? a.text c with
    | none => rfl
    | some pos =>
      have hw := Pattern.stop?_width hp hs
      have hle := le_of_isBoundary (Pattern.stop?_spec hv hs).1
      refine (hk pos hs).eq_none ?_
      have hpos : a.left (c.moveTo pos) = a.text.utf8ByteSize - pos := rfl
      rw [left] at hl
      omega
  refine ⟨fun hl => hnone (by rwa [leastFrom_eq hn] at hl), fun h ha => ?_⟩
  rcases moveAt_leaf hp hv ha hadm with hmove | ⟨hmove, hl⟩
  · cases hs : p.stop? a.text c with
    | none =>
      rw [hs] at hmove
      exact explores_reject hn hv hadm ha hmove
    | some pos =>
      rw [hs] at hmove
      exact explores_goto hn hv hadm ha hmove (hk pos hs)
        (ha.moveTo (Pattern.stop?_spec hv hs).2)
  · rw [hnone hl]
    exact explores_reject hn hv hadm ha hmove

/-! ## Layouts -/

end Attempt

/-- The least length from the start of a part on is not less than that from its follower on. -/
theorem Laid.leastFrom_le {nodes : Array Node} {kinds : LoopKinds} {part : Part} {o : Occurrence}
    {next start lo hi : Nat} (hl : Laid nodes kinds part o next start lo hi) :
    leastFrom nodes next ≤ leastFrom nodes start := by
  induction hl with
  | empty | noItems | noOptions | noCopies | noOptionals => exact Nat.le_refl _
  | leaf _ hn => exact (leastFrom_eq hn) ▸ Nat.le_add_right _ _
  | sequence _ ih | alternation _ ih | lastOption _ ih => exact ih
  | item _ _ ih ih' | repetition _ _ ih ih' | copy _ _ ih ih' => exact Nat.le_trans ih ih'
  | option _ _ hn ih ih' => exact (leastFrom_eq hn) ▸ Nat.le_min.mpr ⟨ih, ih'⟩
  | optional _ _ _ hn ih ih' =>
    exact (leastFrom_eq hn) ▸ Nat.le_min.mpr ⟨Nat.le_trans ih ih', Nat.le_refl _⟩
  | loop _ _ hn _ _ => exact Nat.le_of_eq (leastFrom_eq hn).symm
  | capture hstop _ hstart ih =>
    rw [leastFrom_eq hstop] at ih
    exact (leastFrom_eq hstart) ▸ ih

namespace Attempt

variable {a : Attempt} {part : Part} {o : Occurrence} {next start lo hi : Nat}

/-- The move of the deciding node of a loop whose latest iteration began elsewhere. -/
theorem moveAt_loop {opened : List (Nat × Nat)} {c : Progress} {h : History} {kind : LoopKind}
    {body exit least : Nat} (hk : a.kinds o = some kind) (ha : a.Agrees opened c h)
    (hb : c.begun o ≠ some c.pos) :
    Program.moveAt a.text ⟨kind.op body exit, least⟩ (a.left c) c.pos (.ofHistory h) =
      needing least (a.left c) (.choose body exit kind.key?) := by
  cases kind with
  | plain => rfl
  | guarded index =>
    have hfind : (Trail.ofHistory h).find? (.loop index) = c.begun o := by
      rw [Trail.find?_eq, Trail.history_ofHistory, ha.begun o index hk]
    simp only [LoopKind.op, Program.moveAt, iterateBody, hfind, hb, ite_false, LoopKind.key?]

/-- A loop whose latest iteration began at the same place resumes what its exit resumes. -/
theorem Resumes.exit {opened : List (Nat × Nat)} {c : Progress} {result : Option Progress}
    {kind : LoopKind} {id body next : Nat} (hk : a.kinds o = some kind)
    (hn : a.program.nodes[id]? = some ⟨kind.op body next, leastFrom a.program.nodes next⟩)
    (hv : a.Valid c) (hp : c.Past a.Plain o) (hb : c.begun o = some c.pos)
    (hnext : a.Resumes opened next c result) : a.Resumes opened id c result := by
  cases kind with
  | plain => exact absurd (hp o List.suffix_rfl hk c.pos hb) (Nat.lt_irrefl _)
  | guarded index =>
    refine ⟨fun hl => hnext.eq_none (by rwa [leastFrom_eq hn] at hl), fun h ha => ?_⟩
    have hfind : (Trail.ofHistory h).find? (.loop index) = some c.pos := by
      rw [Trail.find?_eq, Trail.history_ofHistory, ha.begun o index hk, hb]
    have hmove : Program.moveAt a.text
          ⟨(LoopKind.guarded index).op body next, leastFrom a.program.nodes next⟩ (a.left c) c.pos
          (.ofHistory h) =
        needing (leastFrom a.program.nodes next) (a.left c) (.goto next c.pos) := by
      simp only [LoopKind.op, Program.moveAt, iterateBody, hfind, ite_true]
    by_cases hl : a.left c < leastFrom a.program.nodes next
    · rw [hnext.eq_none hl]
      exact explores_reject hn hv trivial ha (hmove.trans (if_pos hl))
    · exact explores_goto hn hv trivial ha (hmove.trans (if_neg hl)) hnext ha

/-- The deciding node of a loop resumes what the reference matcher comes to in the loop. -/
theorem Resumes.loop {opened : List (Nat × Nat)} {p : Pattern} {kind : LoopKind} {body : Nat}
    (hg : kind.isGuarded = p.isNullable) (hk : a.kinds o = some kind)
    (hn : a.program.nodes[lo]? = some ⟨kind.op body next, leastFrom a.program.nodes next⟩)
    (hle : leastFrom a.program.nodes next ≤ leastFrom a.program.nodes body)
    {k : Continuation}
    (hbody : ∀ c, a.Valid c → c.Past a.Plain (.first :: o) → ∀ k' : Continuation,
      (∀ c', Keeps a.text a.origin a.Plain (.first :: o) c c' →
        (p.isNullable = false → c.pos < c'.pos) → a.Resumes opened lo c' (k' c')) →
      a.Resumes opened body c ((Part.one p).tries a.text (.first :: o) k' c))
    {c : Progress} (hv : a.Valid c) (hp : c.Past a.Plain o)
    (hnext : ∀ c', Keeps a.text a.origin a.Plain o c c' → a.Resumes opened next c' (k c')) :
    a.Resumes opened lo c ((Part.loop p).tries a.text o k c) := by
  have hplain (ho : a.Plain o) : p.isNullable = false := by
    obtain rfl : kind = .plain := Option.some.inj (hk.symm.trans ho)
    exact hg.symm
  induction hm : a.left c using Nat.strongRecOn generalizing c with
  | ind m ih =>
    rw [Part.tries_loop p o k hv]
    split
    · next hb => exact .exit hk hn hv hp hb (hnext c (.refl hv hp))
    · next hb =>
      have hadm : a.Admits opened (kind.op body next) := by cases kind <;> trivial
      suffices hfirst : a.Resumes opened body (c.iterate o)
          ((Part.one p).tries a.text (.first :: o) ((Part.loop p).tries a.text o k)
            (c.iterate o)) from
        .choose (c.iterate o) hn hv hadm (fun h ha => moveAt_loop hk ha hb) rfl
          (fun h ha => ha.iterate hv hk) hfirst (hnext c (.refl hv hp)) hle (Nat.le_refl _)
      refine hbody _ (hv.iterate o) (hp.iterate .first) _ ?_
      intro c' hc' hlt
      have hkeeps : Keeps a.text a.origin a.Plain o c c' :=
        .of_iterate hp hc' fun ho => hlt (hplain ho)
      have hnext' : ∀ c'', Keeps a.text a.origin a.Plain o c' c'' →
          a.Resumes opened next c'' (k c'') := fun c'' hc'' => hnext c'' (hkeeps.trans hc'')
      rcases Nat.eq_or_lt_of_le hkeeps.le with he | hpos
      · have hb' : c'.begun o = some c'.pos := he ▸ hc'.begun_eq
        rw [Part.tries_loop p o k hc'.valid, if_pos hb']
        exact .exit hk hn hc'.valid hkeeps.past hb' (hnext' c' (.refl hc'.valid hkeeps.past))
      · have hleft : a.left c' < m := by
          have := Valid.pos_le hc'.valid
          rw [left] at hm ⊢
          omega
        exact ih _ hleft hc'.valid hkeeps.past hnext' rfl

/-- The start of a part resumes what the reference matcher comes to in the part, if the follower
resumes what comes after it. -/
theorem resumes_of_laid (hl : Laid a.program.nodes a.kinds part o next start lo hi)
    {opened : List (Nat × Nat)}
    (hw : part.everywhere Pattern.isProper (opened.map Prod.fst) = true)
    (hne : part ≠ .options []) {c : Progress} (hv : a.Valid c) (hp : c.Past a.Plain o)
    (k : Continuation)
    (hk : ∀ c', Keeps a.text a.origin a.Plain o c c' →
      (part.isNullable = false → c.pos < c'.pos) → a.Resumes opened next c' (k c')) :
    a.Resumes opened start c (part.tries a.text o k c) := by
  induction hl generalizing opened c k with
  | @empty s _ _ _ hs =>
    have hs : (Part.one (.literal s)).isSilent = true := hs
    rw [Part.tries_silent Pattern.hasOption_of_isProper hs hw hne]
    have hnull := Part.isNullable_of_isSilent Pattern.hasOption_of_isProper hs hw hne
    exact hk c (.refl hv hp) (by simp [hnull])
  | leaf hleaf hn =>
    rw [Part.tries_leaf (Pattern.isLeaf_of_leafOp? hleaf)]
    refine .leaf hleaf hn hv (admits_leaf hleaf hw) k fun pos hpos => ?_
    obtain ⟨hb, hle⟩ := Pattern.stop?_spec hv hpos
    exact hk _ (.moveTo hv hp hb hle) fun hnull => Pattern.stop?_lt hnull hpos
  | sequence _ ih =>
    simp only [Part.everywhere, Pattern.everywhere, Bool.and_eq_true] at hw
    exact ih hw.2 (by simp) hv hp k hk
  | alternation _ ih =>
    simp only [Part.everywhere, Pattern.everywhere, Bool.and_eq_true] at hw
    exact ih hw.2 (by rintro ⟨⟩; simp [Pattern.isProper] at hw) hv hp k hk
  | noItems => exact hk c (.refl hv hp) (by simp [Part.isNullable, Pattern.allNullable])
  | item _ _ ih ih' =>
    simp only [Part.everywhere, Pattern.everywhereIn, Bool.and_eq_true] at hw
    refine ih' hw.1 (by simp) hv (hp.turn .first) _ fun c' hc' hlt => ?_
    have hkeeps := hc'.of_turn hp
    refine ih hw.2 (by simp) hc'.valid (hkeeps.past.turn .rest) k fun c'' hc'' hlt' => ?_
    refine hk c'' (hkeeps.trans (hc''.of_turn hkeeps.past)) fun hnull => ?_
    have hle : c.pos ≤ c'.pos := hc'.le
    have hle' : c'.pos ≤ c''.pos := hc''.le
    rcases Bool.and_eq_false_iff.mp hnull with hnull | hnull
    · exact Nat.lt_of_lt_of_le (hlt hnull) hle'
    · exact Nat.lt_of_le_of_lt hle (hlt' hnull)
  | noOptions => exact absurd rfl hne
  | lastOption _ ih =>
    simp only [Part.everywhere, Pattern.everywhereIn, Bool.and_eq_true] at hw
    rw [Part.tries_option]
    refine Option.or_none.symm ▸ ih hw.1 (by simp) hv (hp.turn .first) k fun c' hc' hlt => ?_
    exact hk c' (hc'.of_turn hp) fun hnull => hlt (Bool.or_eq_false_iff.mp hnull).1
  | option _ _ hn ih ih' =>
    simp only [Part.everywhere, Pattern.everywhereIn, Bool.and_eq_true] at hw ih'
    rw [Part.tries_option]
    refine .branch hn hv (ih hw.1 (by simp) hv (hp.turn .first) k fun c' hc' hlt => ?_)
      (ih' hw.2 (by simp) hv (hp.turn .rest) k fun c' hc' hlt => ?_)
    · exact hk c' (hc'.of_turn hp) fun hnull => hlt (Bool.or_eq_false_iff.mp hnull).1
    · exact hk c' (hc'.of_turn hp) fun hnull => hlt (Bool.or_eq_false_iff.mp hnull).2
  | @repetition p least most _ _ _ _ _ _ _ _ _ ih ih' =>
    simp only [Part.everywhere, Pattern.everywhere, Bool.and_eq_true] at hw
    rw [Part.tries_repetition]
    refine ih' hw.2 (by simp) hv (hp.turn .rest) _ fun c' hc' hlt => ?_
    have hkeeps := hc'.of_turn hp
    have hmore : (Part.more p least most).everywhere Pattern.isProper (opened.map Prod.fst) =
        true := by
      rw [Part.everywhere_more]
      exact hw.2
    refine ih hmore (Part.more_ne_options _ _ _ _) hc'.valid (hkeeps.past.turn .first) k
      fun c'' hc'' _ => ?_
    refine hk c'' (hkeeps.trans (hc''.of_turn hkeeps.past)) fun hnull => ?_
    exact Nat.lt_of_lt_of_le (hlt hnull) hc''.le
  | @noCopies p n _ _ _ h =>
    have hs : (Part.copies p n).isSilent = true := by simpa [Part.isSilent] using h
    rw [Part.tries_silent Pattern.hasOption_of_isProper hs hw hne]
    have hnull := Part.isNullable_of_isSilent Pattern.hasOption_of_isProper hs hw hne
    exact hk c (.refl hv hp) (by simp [hnull])
  | copy _ _ ih ih' =>
    refine ih' hw (by simp) hv (hp.turn .rest) _ fun c' hc' _ => ?_
    have hkeeps := hc'.of_turn hp
    refine ih hw (by simp) hc'.valid (hkeeps.past.turn .first) k fun c'' hc'' hlt => ?_
    refine hk c'' (hkeeps.trans (hc''.of_turn hkeeps.past)) fun hnull => ?_
    exact Nat.lt_of_le_of_lt hc'.le (hlt hnull)
  | @noOptionals p n _ _ _ h =>
    have hs : (Part.optionals p n).isSilent = true := by simpa [Part.isSilent] using h
    rw [Part.tries_silent Pattern.hasOption_of_isProper hs hw hne]
    exact hk c (.refl hv hp) (by simp [Part.isNullable])
  | optional _ _ _ hn ih ih' =>
    rw [Part.tries_optional]
    refine .branch hn hv (ih' hw (by simp) hv (hp.turn .first) _ fun c' hc' _ => ?_)
      (hk c (.refl hv hp) (by simp [Part.isNullable]))
    have hkeeps := hc'.of_turn hp
    refine ih hw (by simp) hc'.valid (hkeeps.past.turn .rest) k fun c'' hc'' _ => ?_
    exact hk c'' (hkeeps.trans (hc''.of_turn hkeeps.past)) (by simp [Part.isNullable])
  | loop hg hkind hn hbody ih =>
    have hle := (leastFrom_eq hn) ▸ hbody.leastFrom_le
    exact .loop hg hkind hn hle
      (fun c hv hp k' hk' => ih hw (by simp) hv hp k' hk') hv hp
      fun c' hc' => hk c' hc' (by simp [Part.isNullable])
  | @capture i _ _ _ _ _ _ hstop _ hstart ih =>
    simp only [Part.everywhere, Pattern.everywhere, Bool.and_eq_true] at hw
    have hi : i ∉ opened.map Prod.fst := by simpa [Pattern.isProper] using hw.1
    refine .mark c hstart hv rfl (fun h ha => ha.opens hv hi) ?_
    have hw' : (Part.one _).everywhere Pattern.isProper (((i, c.pos) :: opened).map Prod.fst) =
        true := hw.2
    refine ih hw' (by simp) hv (hp.turn .first) _ fun c' hc' hlt => ?_
    refine .mark (c'.close i c.pos) hstop hc'.valid rfl (fun h ha => ha.closes hc'.valid hi) ?_
    exact hk _ ((hc'.of_turn hp).close hv i) hlt

end Attempt

end BacktrackRegex
