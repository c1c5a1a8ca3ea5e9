import BacktrackRegex.Proofs.Program.Compilation

/-!
# The size of programs

The number of nodes of a program is known from the shape of its pattern: unrolled copies count each
time, and silent parts do not count at all. A pattern is compiled exactly if the limit leaves room
for its nodes and for the node of success, and never to more or fewer nodes.
-/

namespace BacktrackRegex

namespace Pattern

/-- The number of nodes of `n` nested optional copies of a body with `body` nodes. Each has a
decision of its own, unless the body is silent. -/
def optionalCount (body n : Nat) : Nat :=
  if body = 0 then 0 else n * (body + 1)

mutual
/-- The number of nodes that a pattern is compiled to. -/
def nodeCount : Pattern → Nat
  | .literal s => if s.isEmpty then 0 else 1
  | .sequence ps => nodeCounts ps
  | .alternation ps => nodeCounts ps + (ps.length - 1)
  | .repetition p min none => 1 + nodeCount p + min * nodeCount p
  | .repetition p min (some max) => optionalCount (nodeCount p) (max - min) + min * nodeCount p
  | .capture _ p => nodeCount p + 2
  | _ => 1

/-- The number of nodes that the patterns of a list are compiled to. -/
def nodeCounts : List Pattern → Nat
  | [] => 0
  | p :: ps => nodeCount p + nodeCounts ps
end

end Pattern

namespace Part

open Pattern

/-- The number of nodes that a part is compiled to. -/
def nodeCount : Part → Nat
  | .one p => p.nodeCount
  | .items ps => nodeCounts ps
  | .options ps => nodeCounts ps + (ps.length - 1)
  | .copies p n => n * p.nodeCount
  | .optionals p n => optionalCount p.nodeCount n
  | .loop p => 1 + p.nodeCount

/-- The nodes of a repetition are those of its two parts. -/
theorem nodeCount_repetition (p : Pattern) (min : Nat) (max : Option Nat) :
    (Part.one (.repetition p min max)).nodeCount =
      (more p min max).nodeCount + (Part.copies p min).nodeCount := by
  cases max <;> simp only [nodeCount, Pattern.nodeCount, more]

/-- Exactly the silent parts need no nodes. -/
theorem nodeCount_eq_zero_iff {part : Part} : part.nodeCount = 0 ↔ part.isSilent = true := by
  induction part using Part.induct with
  | leaf p hp =>
    cases p with
    | literal s => simp [nodeCount, Pattern.nodeCount, isSilent, Pattern.isSilent]
    | sequence _ | alternation _ | repetition _ _ _ | capture _ _ => simp [isLeaf] at hp
    | _ => simp [nodeCount, Pattern.nodeCount, isSilent, Pattern.isSilent]
  | sequence ps ih => exact ih
  | alternation ps ih => exact ih
  | repetition p min max ihmore ihcopies =>
    rw [nodeCount_repetition, Nat.add_eq_zero_iff, ihmore, ihcopies]
    cases max <;> simp [more, isSilent, Pattern.isSilent]
  | capture i p _ => simp [nodeCount, Pattern.nodeCount, isSilent, Pattern.isSilent]
  | noItems => simp [nodeCount, nodeCounts, isSilent, allSilent]
  | item p ps ihp ihps =>
    simp only [nodeCount, isSilent] at ihp ihps
    simp only [nodeCount, nodeCounts, isSilent, allSilent, Nat.add_eq_zero_iff, Bool.and_eq_true,
      ihp, ihps]
  | noOptions => simp [nodeCount, nodeCounts, isSilent, Pattern.isSilent]
  | option p ps ihp _ =>
    cases ps with
    | nil => simpa [nodeCount, nodeCounts, isSilent, Pattern.isSilent] using ihp
    | cons q qs => simp [nodeCount, isSilent, Pattern.isSilent]
  | noCopies p | noOptionals p => simp [nodeCount, optionalCount, isSilent]
  | copy p n ihp _ =>
    have hzero : (n + 1) * p.nodeCount = 0 ↔ p.nodeCount = 0 :=
      Nat.mul_eq_zero.trans (or_iff_right (Nat.succ_ne_zero n))
    exact hzero.trans ihp
  | optional p n ihp _ =>
    simp only [nodeCount, isSilent] at ihp
    simp [nodeCount, optionalCount, isSilent, ← ihp]
  | loop p _ => simp [nodeCount, isSilent]

end Part

/-- Exactly the silent patterns need no nodes. -/
theorem Pattern.nodeCount_eq_zero_iff {p : Pattern} : p.nodeCount = 0 ↔ p.isSilent = true :=
  @Part.nodeCount_eq_zero_iff (.one p)

/-- The nodes of a part that is laid out are as many as it needs. -/
theorem Laid.size_eq {nodes : Array Node} {kinds : LoopKinds} {part : Part} {o : Occurrence}
    {next start lo hi : Nat} (h : Laid nodes kinds part o next start lo hi) :
    hi = lo + part.nodeCount := by
  induction h with
  | empty hs => simp [Part.nodeCount, Pattern.nodeCount, hs]
  | @leaf p _ next _ _ _ hp _ =>
    cases p with
    | literal s =>
      rw [Pattern.leafOp?] at hp
      split at hp
      · simp at hp
      · next hs => simp [Part.nodeCount, Pattern.nodeCount, hs]
    | sequence _ | alternation _ | repetition _ _ _ | capture _ _ => simp [Pattern.leafOp?] at hp
    | _ => rfl
  | sequence _ ih | alternation _ ih => exact ih
  | noItems | noOptions => rfl
  | item _ _ ih ih' =>
    simp only [Part.nodeCount, Pattern.nodeCounts] at ih ih' ⊢
    omega
  | lastOption _ ih => exact ih
  | option _ _ _ ih ih' =>
    simp only [Part.nodeCount, Pattern.nodeCounts, List.length_cons] at ih ih' ⊢
    omega
  | repetition _ _ ih ih' =>
    rw [Part.nodeCount_repetition]
    omega
  | noCopies h | noOptionals h =>
    rcases h with rfl | h
    · simp [Part.nodeCount, Pattern.optionalCount]
    · simp [Part.nodeCount, Pattern.optionalCount, Pattern.nodeCount_eq_zero_iff.mpr h]
  | copy _ _ ih ih' =>
    simp only [Part.nodeCount, Nat.succ_mul] at ih ih' ⊢
    omega
  | @optional p n _ _ _ _ _ _ _ hs _ _ _ ih ih' =>
    have hne : p.nodeCount ≠ 0 := by simp [Pattern.nodeCount_eq_zero_iff, hs]
    simp only [Part.nodeCount, Pattern.optionalCount, hne, ite_false, Nat.succ_mul] at ih ih' ⊢
    omega
  | loop _ _ _ _ ih =>
    simp only [Part.nodeCount] at ih ⊢
    omega
  | capture _ _ _ ih =>
    simp only [Part.nodeCount, Pattern.nodeCount] at ih ⊢
    omega

/-! ## The limit -/

/-- A part is compiled exactly if the limit leaves room for its nodes. -/
def Part.Fits (limit : Nat) (part : Part) (compile : Nat → Draft → Option (Nat × Draft)) : Prop :=
  ∀ next d, next < d.nodes.size → d.nodes.size ≤ limit →
    ((compile next d).isSome = true ↔ d.nodes.size + part.nodeCount ≤ limit)

namespace Part

/-- A part that was compiled has made its nodes, and starts at its follower if it has none. -/
theorem Builds.size {part : Part} {compile : Nat → Draft → Option (Nat × Draft)}
    (h : part.Builds compile) {next start : Nat} {d d' : Draft}
    (hc : compile next d = some (start, d')) (hnext : next < d.nodes.size) :
    d'.nodes.size = d.nodes.size + part.nodeCount ∧ start < d'.nodes.size ∧
      (start = next ↔ part.nodeCount = 0) := by
  obtain ⟨he, kinds, -, hl⟩ := h [] next d start d' hc hnext
  have := hl.size_eq
  have := hl.range
  omega

namespace Fits

variable {limit : Nat} {part : Part} {compile compile' : Nat → Draft → Option (Nat × Draft)}

/-- The limit counts the same for parts that are compiled alike and need as many nodes. -/
theorem congr {part' : Part} (h : part.Fits limit compile)
    (hcount : part'.nodeCount = part.nodeCount)
    (hc : ∀ next d, compile' next d = compile next d) : part'.Fits limit compile' := by
  intro next d hnext hd
  rw [hc, hcount]
  exact h next d hnext hd

/-- What is compiled to nothing fits. -/
theorem nothing (hcount : part.nodeCount = 0) (hc : ∀ next d, compile next d = some (next, d)) :
    part.Fits limit compile := by
  intro next d _ hd
  simp [hc, hcount, hd]

/-- A node fits below the limit. -/
theorem emit_isSome {op : Op} {least : Nat} {d : Draft} :
    (d.emit limit op least).isSome = true ↔ d.nodes.size + 1 ≤ limit := by
  rw [Draft.emit]
  split <;> simp <;> omega

/-- Something is compiled after something else if there is room for both. -/
theorem bind_isSome {α β : Type} {size n m : Nat} {first : Option α} {rest : α → Option β}
    (hfirst : first.isSome = true ↔ size + n ≤ limit)
    (hrest : ∀ a, first = some a → size + n ≤ limit →
      ((rest a).isSome = true ↔ size + n + m ≤ limit)) :
    (first.bind rest).isSome = true ↔ size + (n + m) ≤ limit := by
  cases first with
  | none =>
    have : ¬ size + n ≤ limit := fun h => by simpa using hfirst.mpr h
    simp only [Option.bind_none, Option.isSome_none, Bool.false_eq_true, false_iff]
    omega
  | some a =>
    rw [Option.bind_some, hrest a rfl (hfirst.mp rfl), Nat.add_assoc]

/-- A part that is compiled in front of another one fits if there is room for both. -/
theorem seq {first rest : Part} {compileRest compileFirst : Nat → Draft → Option (Nat × Draft)}
    (hbuilds : rest.Builds compileRest) (hrest : rest.Fits limit compileRest)
    (hfirst : first.Fits limit compileFirst)
    (hcount : part.nodeCount = rest.nodeCount + first.nodeCount) :
    part.Fits limit (fun next d => do
      let (mid, d) ← compileRest next d
      compileFirst mid d) := by
  intro next d hnext hd
  rw [hcount]
  refine bind_isSome (hrest next d hnext hd) fun (mid, d₁) h₁ hle => ?_
  obtain ⟨hsize, hmid, -⟩ := hbuilds.size h₁ hnext
  rw [← hsize]
  exact hfirst mid d₁ hmid (by omega)

/-- The copies of a part fit if there is room for all of them. -/
theorem copies {p : Pattern} (hbuilds : Builds (.one p) compile) (hp : Fits limit (.one p) compile)
    (n : Nat) : Fits limit (.copies p n) (Draft.copies compile n) := by
  induction n with
  | zero => exact nothing (by simp [nodeCount]) fun _ _ => rfl
  | succ n ih =>
    intro next d hnext hd
    have hcount : (Part.copies p (n + 1)).nodeCount =
        (Part.one p).nodeCount + (Part.copies p n).nodeCount := by
      simp only [nodeCount, Nat.succ_mul, Nat.add_comm]
    rw [hcount]
    refine bind_isSome (hp next d hnext hd) fun (mid, d₁) h₁ hle => ?_
    obtain ⟨hsize, hmid, hsame⟩ := hbuilds.size h₁ hnext
    dsimp only
    split
    · next he =>
      have hzero : p.nodeCount = 0 := hsame.mp he
      simp only [nodeCount, hzero, Nat.mul_zero, Nat.add_zero, Option.isSome_some, true_iff]
      exact hd
    · rw [← hsize]
      exact ih mid d₁ hmid (by omega)

/-- Optional copies fit if there is room for all of them and for their decisions. -/
theorem optionals {p : Pattern} (hbuilds : Builds (.one p) compile)
    (hp : Fits limit (.one p) compile) {exit : Nat} (n : Nat) :
    Fits limit (.optionals p n) (Draft.optionalCopies limit compile exit n) := by
  induction n with
  | zero => exact nothing (by simp [nodeCount, Pattern.optionalCount]) fun _ _ => rfl
  | succ n ih =>
    intro next d hnext hd
    have hcount : (Part.optionals p (n + 1)).nodeCount = (Part.one p).nodeCount +
        if p.nodeCount = 0 then 0 else 1 + (Part.optionals p n).nodeCount := by
      simp only [nodeCount, Pattern.optionalCount]
      split
      · next he => simp [he]
      · rw [Nat.succ_mul]
        omega
    rw [hcount]
    refine bind_isSome (hp next d hnext hd) fun (mid, d₁) h₁ hle => ?_
    obtain ⟨hsize, hmid, hsame⟩ := hbuilds.size h₁ hnext
    dsimp only
    by_cases he : mid = next
    · have hzero : p.nodeCount = 0 := hsame.mp he
      rw [if_pos he, if_pos hzero]
      simp only [nodeCount, hzero, Nat.add_zero, Option.isSome_some, true_iff]
      exact hd
    · have hne : p.nodeCount ≠ 0 := fun hzero => he (hsame.mpr hzero)
      rw [if_neg he, if_neg hne, ← hsize]
      refine bind_isSome emit_isSome fun (id, d₂) h₂ hle => ?_
      obtain ⟨rfl, rfl⟩ := Draft.emitBranch_eq h₂
      have hsize₂ : (d₁.nodes.push ⟨.branch mid exit, min (leastFrom d₁.nodes mid)
          (leastFrom d₁.nodes exit)⟩).size = d₁.nodes.size + 1 := Array.size_push _
      rw [← hsize₂]
      exact ih d₁.nodes.size _ (by rw [hsize₂]; exact Nat.lt_succ_self _) (by rwa [hsize₂])

/-- A loop fits if there is room for its body and its decision. -/
theorem loop {p : Pattern} (hp : Fits limit (.one p) compile) :
    Fits limit (.loop p) (fun next d => do
      let (id, d) ← d.emitLoop limit p.isNullable next
      let (body, d) ← compile id d
      some (id, d.closeLoop id body)) := by
  intro next d hnext hd
  have hdecision : (d.emitLoop limit p.isNullable next).isSome = true ↔
      d.nodes.size + 1 ≤ limit := by
    rw [Draft.emitLoop]
    split
    · exact emit_isSome
    · exact emit_isSome
  refine bind_isSome hdecision ?_
  rintro ⟨id, d₁⟩ h₁ hle
  obtain ⟨kind, -, rfl, hnodes, -⟩ := Draft.emitLoop_eq h₁
  have hsize : d₁.nodes.size = d.nodes.size + 1 := by rw [hnodes, Array.size_push]
  have hbody := hp d.nodes.size d₁ (by omega) (by omega)
  dsimp only
  rw [← hsize]
  refine (bind_isSome hbody (m := 0) fun a _ hle => ?_)
  simpa using hle

/-- A capture group fits if there is room for its body and its two marks. -/
theorem capture {i : Nat} {p : Pattern} (hbuilds : Builds (.one p) compile)
    (hp : Fits limit (.one p) compile) :
    Fits limit (.one (.capture i p)) (fun next d => do
      let (stop, d) ← d.emit limit (.mark i next) (d.minLength next)
      let (body, d) ← compile stop d
      d.emit limit (.mark i body) (d.minLength body)) := by
  intro next d hnext hd
  have hcount : (Part.one (.capture i p)).nodeCount = 1 + ((Part.one p).nodeCount + 1) := by
    simp only [nodeCount, Pattern.nodeCount]
    omega
  rw [hcount]
  refine bind_isSome emit_isSome fun (stop, d₁) h₁ hle => ?_
  obtain ⟨rfl, rfl⟩ := Draft.emit_eq h₁
  dsimp only
  have hsize : (d.nodes.push ⟨.mark i next, d.minLength next⟩).size = d.nodes.size + 1 :=
    Array.size_push _
  have hstop : d.nodes.size < (d.nodes.push ⟨.mark i next, d.minLength next⟩).size := by
    rw [hsize]
    exact Nat.lt_succ_self _
  rw [← hsize]
  refine bind_isSome (hp _ _ hstop (by rwa [hsize])) fun (body, d₂) h₂ hle => ?_
  obtain ⟨hsize₂, -, -⟩ := hbuilds.size h₂ hstop
  rw [← hsize₂]
  exact emit_isSome

/-- The first option fits together with the other ones and the decision between them. -/
theorem option {p q : Pattern} {ps : List Pattern}
    {compileRest : Nat → Draft → Option (Nat × Draft)} (hbuilds : Builds (.one p) compile)
    (hp : Fits limit (.one p) compile) (hbuildsRest : Builds (.options (q :: ps)) compileRest)
    (hrest : Fits limit (.options (q :: ps)) compileRest) :
    Fits limit (.options (p :: q :: ps)) (fun next d => do
      let (first, d) ← compile next d
      let (rest, d) ← compileRest next d
      d.emitBranch limit first rest) := by
  intro next d hnext hd
  have hcount : (Part.options (p :: q :: ps)).nodeCount =
      (Part.one p).nodeCount + ((Part.options (q :: ps)).nodeCount + 1) := by
    simp only [nodeCount, Pattern.nodeCounts, List.length_cons]
    omega
  rw [hcount]
  refine bind_isSome (hp next d hnext hd) fun (first, d₁) h₁ hle => ?_
  obtain ⟨hsize, -, -⟩ := hbuilds.size h₁ hnext
  have hnext₁ : next < d₁.nodes.size := by omega
  dsimp only
  rw [← hsize]
  refine bind_isSome (hrest next d₁ hnext₁ (by omega)) fun (rest, d₂) h₂ hle => ?_
  obtain ⟨hsize₂, -, -⟩ := hbuildsRest.size h₂ hnext₁
  rw [← hsize₂]
  exact emit_isSome

/-- A pattern without patterns inside it fits if there is room for its node. -/
theorem leaf {p : Pattern} (hp : p.isLeaf = true) :
    Fits limit (.one p) (p.compileFor limit) := by
  have emit {op : Nat → Op} {least : Nat → Draft → Nat} (hcount : (Part.one p).nodeCount = 1)
      (hc : ∀ next d, p.compileFor limit next d = d.emit limit (op next) (least next d)) :
      Fits limit (.one p) (p.compileFor limit) := by
    intro next d _ _
    rw [hc, hcount]
    exact emit_isSome
  cases p with
  | literal s =>
    by_cases hs : s.isEmpty = true
    · refine nothing (by simp [nodeCount, Pattern.nodeCount, hs]) fun next d => ?_
      rw [Pattern.compileFor, if_pos hs]
    · exact emit (by simp [nodeCount, Pattern.nodeCount, hs]) fun _ _ => by
        rw [Pattern.compileFor, if_neg hs]
  | anyChar | charClass _ | backReference _ | textStart | textEnd =>
    exact emit rfl fun _ _ => by rw [Pattern.compileFor]
  | _ => simp [Pattern.isLeaf] at hp

end Fits

/-- A part is compiled exactly if the limit leaves room for its nodes. -/
theorem fits (limit : Nat) (part : Part) : part.Fits limit (part.compile limit) := by
  induction part using Part.induct with
  | leaf p hp => exact Fits.leaf hp
  | sequence ps ih => exact ih.congr rfl fun _ _ => by rw [compile, compile, Pattern.compileFor]
  | alternation ps ih => exact ih.congr rfl fun _ _ => rfl
  | repetition p min max ihmore ihcopies =>
    exact (Fits.seq (builds limit _) ihmore ihcopies (nodeCount_repetition p min max)).congr rfl
      (compile_repetition limit p min max)
  | capture i p ih =>
    exact (Fits.capture (builds limit _) ih).congr rfl fun _ _ => by
      rw [compile, Pattern.compileFor]; rfl
  | noItems => exact Fits.nothing rfl fun _ _ => rfl
  | item p ps ihp ihps =>
    exact (Fits.seq (builds limit _) ihps ihp (Nat.add_comm _ _)).congr rfl fun _ _ => rfl
  | noOptions => exact Fits.nothing rfl fun _ _ => rfl
  | option p ps ihp ihps =>
    cases ps with
    | nil => exact ihp.congr rfl (Pattern.compileFor_option limit p)
    | cons q ps =>
      exact (Fits.option (builds limit _) ihp (builds limit _) ihps).congr rfl
        (compile_options limit p q ps)
  | noCopies p => exact Fits.nothing (by simp [nodeCount]) fun _ _ => rfl
  | copy p n ih _ => exact Fits.copies (builds limit _) ih (n + 1)
  | noOptionals p => exact Fits.nothing (by simp [nodeCount, Pattern.optionalCount]) fun _ _ => rfl
  | optional p n ih _ =>
    exact fun next d => Fits.optionals (builds limit (.one p)) ih (n + 1) next d
  | loop p ih => exact Fits.loop ih

end Part

namespace Pattern

variable {limit : Nat} {p : Pattern}

/-- A pattern is compiled exactly if the limit leaves room for its nodes and that of success. -/
theorem compile?_isSome_iff : (p.compile? limit).isSome = true ↔ p.nodeCount + 1 ≤ limit := by
  have hsuccess : (Draft.emit limit .success 0 ⟨#[], 0⟩).isSome = true ↔ 0 + 1 ≤ limit :=
    Part.Fits.emit_isSome
  rw [compile?, Nat.add_comm, ← Nat.zero_add (1 + p.nodeCount)]
  refine Part.Fits.bind_isSome hsuccess fun (success, d) h hle => ?_
  obtain ⟨rfl, rfl⟩ := Draft.emit_eq h
  have hp := Part.fits limit (.one p) 0 ⟨#[⟨.success, 0⟩], 0⟩ (by decide) hle
  exact Part.Fits.bind_isSome (m := 0) hp fun _ _ hle => by simpa using hle

/-- A compiled pattern has its own nodes and that of success. -/
theorem size_of_compile? {prog : Program} (h : p.compile? limit = some prog) :
    prog.size = p.nodeCount + 1 := by
  obtain ⟨kinds, hlays⟩ := lays_of_compile? h
  have := hlays.laid.size_eq
  simp only [Part.nodeCount] at this
  rw [Program.size]
  omega

end Pattern

end BacktrackRegex
