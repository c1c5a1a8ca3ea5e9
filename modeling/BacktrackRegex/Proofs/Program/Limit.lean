import BacktrackRegex.Proofs.Program.Size

/-!
# The limit on the size of programs

The limit decides only whether a pattern is compiled, and not what it is compiled to: each node is
made below every larger limit if it is made below a smaller one. Parts that need no nodes are
compiled to nothing below any limit, so that they can be repeated any number of times.
-/

namespace BacktrackRegex

/-- What one way of compiling gives, another one gives too. -/
def Draft.Relaxes (compile compile' : Nat → Draft → Option (Nat × Draft)) : Prop :=
  ∀ next d result, compile next d = some result → compile' next d = some result

namespace Draft.Relaxes

variable {limit limit' : Nat} {compile compile' : Nat → Draft → Option (Nat × Draft)}

/-- What one step gives that another one gives too, and then one continuation that another one gives
too, the other step and continuation give together. -/
theorem bind {α β : Type} {first first' : Option α} {rest rest' : α → Option β} {b : β}
    (hfirst : ∀ a, first = some a → first' = some a)
    (hrest : ∀ a, rest a = some b → rest' a = some b) (h : first.bind rest = some b) :
    first'.bind rest' = some b := by
  obtain ⟨a, ha, hb⟩ := Option.bind_eq_some_iff.mp h
  exact Option.bind_eq_some_iff.mpr ⟨a, hfirst a ha, hrest a hb⟩

/-- A node that is made below a limit is made below a larger one. -/
theorem emit (hle : limit ≤ limit') {op : Op} {least : Nat} {d : Draft} {result : Nat × Draft}
    (h : d.emit limit op least = some result) : d.emit limit' op least = some result := by
  rw [Draft.emit] at h ⊢
  split at h
  · next hlt => rwa [if_pos (Nat.lt_of_lt_of_le hlt hle)]
  · simp at h

/-- The deciding node of a loop is made below a larger limit too. -/
theorem emitLoop (hle : limit ≤ limit') {guarded : Bool} {exit : Nat} {d : Draft}
    {result : Nat × Draft} (h : d.emitLoop limit guarded exit = some result) :
    d.emitLoop limit' guarded exit = some result := by
  rw [Draft.emitLoop] at h ⊢
  split at h
  · next hg => rw [if_pos hg]; exact emit hle h
  · next hg => rw [if_neg hg]; exact emit hle h

/-- Mandatory copies of what is compiled alike are compiled alike. -/
theorem copies (hp : Relaxes compile compile') (n : Nat) :
    Relaxes (Draft.copies compile n) (Draft.copies compile' n) := by
  induction n with
  | zero => exact fun _ _ _ => id
  | succ n ih =>
    intro next d result
    refine bind (hp next d) ?_
    rintro ⟨start, d₁⟩ h
    dsimp only at h ⊢
    split at h
    · next he => rwa [if_pos he]
    · next he => rw [if_neg he]; exact ih start d₁ result h

/-- Optional copies of what is compiled alike are compiled alike below a larger limit. -/
theorem optionalCopies (hle : limit ≤ limit') (hp : Relaxes compile compile') (exit n : Nat) :
    Relaxes (Draft.optionalCopies limit compile exit n)
      (Draft.optionalCopies limit' compile' exit n) := by
  induction n with
  | zero => exact fun _ _ _ => id
  | succ n ih =>
    intro next d result
    refine bind (hp next d) ?_
    rintro ⟨start, d₁⟩ h
    dsimp only at h ⊢
    split at h
    · next he => rwa [if_pos he]
    · next he =>
      rw [if_neg he]
      refine bind (fun _ => emit hle) ?_ h
      rintro ⟨id, d₂⟩
      exact ih id d₂ result

end Draft.Relaxes

namespace Part

open Draft

/-- A part that is compiled below a limit is compiled to the same below a larger one. -/
theorem compile_relaxes {limit limit' : Nat} (hle : limit ≤ limit') (part : Part) :
    Relaxes (part.compile limit) (part.compile limit') := by
  induction part using Part.induct with
  | leaf p hp =>
    intro next d result h
    cases p with
    | literal s =>
      simp only [compile, Pattern.compileFor] at h ⊢
      split at h
      · next hs => rwa [if_pos hs]
      · next hs => rw [if_neg hs]; exact Relaxes.emit hle h
    | anyChar | charClass _ | backReference _ | textStart | textEnd =>
      simp only [compile, Pattern.compileFor] at h ⊢
      exact Relaxes.emit hle h
    | _ => simp [Pattern.isLeaf] at hp
  | sequence ps ih =>
    intro next d result h
    simp only [compile, Pattern.compileFor] at h ih ⊢
    exact ih next d result h
  | alternation ps ih => exact ih
  | repetition p min max ihmore ihcopies =>
    intro next d result h
    rw [compile, compile_repetition] at h ⊢
    refine Relaxes.bind (ihmore next d) ?_ h
    rintro ⟨mid, d₁⟩
    exact ihcopies mid d₁ result
  | capture i p ih =>
    intro next d result h
    simp only [compile, Pattern.compileFor] at h ih ⊢
    refine Relaxes.bind (fun _ => Relaxes.emit hle) ?_ h
    rintro ⟨stop, d₁⟩
    refine Relaxes.bind (ih stop d₁) ?_
    rintro ⟨body, d₂⟩
    exact Relaxes.emit hle
  | noItems | noOptions | noCopies p | noOptionals p => exact fun _ _ _ => id
  | item p ps ihp ihps =>
    intro next d result h
    refine Relaxes.bind (ihps next d) ?_ h
    rintro ⟨start, d₁⟩
    exact ihp start d₁ result
  | option p ps ihp ihps =>
    intro next d result h
    cases ps with
    | nil =>
      rw [compile, Pattern.compileFor_option] at h ⊢
      exact ihp next d result h
    | cons q ps =>
      rw [compile_options] at h ⊢
      refine Relaxes.bind (ihp next d) ?_ h
      rintro ⟨first, d₁⟩
      refine Relaxes.bind (ihps next d₁) ?_
      rintro ⟨rest, d₂⟩
      exact Relaxes.emit hle
  | copy p n ih _ => exact Relaxes.copies ih (n + 1)
  | optional p n ih _ =>
    exact fun next => Relaxes.optionalCopies hle ih next (n + 1) next
  | loop p ih =>
    intro next d result h
    refine Relaxes.bind (fun _ => Relaxes.emitLoop hle) ?_ h
    rintro ⟨decision, d₁⟩
    exact Relaxes.bind (ih decision d₁) fun _ => id

/-- A silent part is compiled to nothing, whatever the limit. -/
theorem compile_of_isSilent (limit : Nat) {part : Part} (hs : part.isSilent = true) (next : Nat)
    (d : Draft) : part.compile limit next d = some (next, d) := by
  induction part using Part.induct generalizing next d with
  | leaf p hp =>
    cases p with
    | literal s =>
      rw [compile, Pattern.compileFor]
      exact if_pos hs
    | sequence _ | alternation _ | repetition _ _ _ | capture _ _ => simp [Pattern.isLeaf] at hp
    | _ => simp [isSilent, Pattern.isSilent] at hs
  | sequence ps ih =>
    rw [compile, Pattern.compileFor]
    exact ih hs next d
  | alternation ps ih => exact ih hs next d
  | repetition p min max ihmore ihcopies =>
    rw [compile, compile_repetition]
    cases max with
    | none => simp [isSilent, Pattern.isSilent] at hs
    | some max =>
      simp only [isSilent, Pattern.isSilent, Bool.and_eq_true] at hs
      rw [ihmore hs.1]
      exact ihcopies hs.2 next d
  | capture i p _ => simp [isSilent, Pattern.isSilent] at hs
  | noItems | noOptions | noCopies p | noOptionals p => rfl
  | item p ps ihp ihps =>
    simp only [isSilent, Pattern.allSilent, Bool.and_eq_true] at hs
    simp only [compile, Pattern.compileItems] at ihp ihps ⊢
    rw [ihps hs.2]
    exact ihp hs.1 next d
  | option p ps ihp _ =>
    cases ps with
    | nil =>
      rw [compile, Pattern.compileFor_option]
      exact ihp hs next d
    | cons q qs => simp [isSilent, Pattern.isSilent] at hs
  | copy p n ihp _ =>
    have hp : p.isSilent = true := by simpa [isSilent] using hs
    have := ihp hp next d
    simp only [compile] at this ⊢
    simp [Draft.copies, this]
  | optional p n ihp _ =>
    have hp : p.isSilent = true := by simpa [isSilent] using hs
    have := ihp hp next d
    simp only [compile] at this ⊢
    simp [Draft.optionalCopies, this]
  | loop p _ => simp [isSilent] at hs

end Part

namespace Pattern

variable {limit limit' : Nat} {p : Pattern}

/-- A pattern that is compiled below a limit is compiled to the same program below a larger one. -/
theorem compile?_of_le (hle : limit ≤ limit') {prog : Program} (h : p.compile? limit = some prog) :
    p.compile? limit' = some prog := by
  refine Draft.Relaxes.bind (fun _ => Draft.Relaxes.emit hle) ?_ h
  rintro ⟨success, d⟩
  exact Draft.Relaxes.bind (Part.compile_relaxes hle (.one p) success d) fun _ => id

/-- A pattern is too large exactly if it needs more nodes than the limit. -/
theorem compile?_eq_none_iff : p.compile? limit = none ↔ limit < p.nodeCount + 1 := by
  rw [← Option.isNone_iff_eq_none, ← Option.not_isSome, Bool.not_eq_true', ← Bool.not_eq_true,
    compile?_isSome_iff, Nat.not_le]

/-- A bounded repetition of a pattern that made no node makes none, whatever its counts. -/
theorem compileFor_repetition_of_no_node {next start : Nat} {d d' : Draft}
    (hnext : next < d.nodes.size) (h : p.compileFor limit next d = some (start, d'))
    (hsize : d'.nodes.size = d.nodes.size) (min max : Nat) :
    (repetition p min (some max)).compileFor limit next d = some (next, d) := by
  obtain ⟨hcount, -, -⟩ := (Part.builds limit (.one p)).size h hnext
  have hs : p.isSilent = true := nodeCount_eq_zero_iff.mp (by
    simp only [Part.nodeCount] at hcount
    omega)
  have hrepetition : (Part.one (.repetition p min (some max))).isSilent = true := by
    simp [Part.isSilent, isSilent, hs]
  exact Part.compile_of_isSilent limit hrepetition next d

/-- A larger limit gives the same program, and a smaller one none exactly if it is smaller than the
program. A bounded repetition of a pattern that makes no node makes none, whatever its counts. -/
theorem compile?_limits (p : Pattern) {limit limit' : Nat} (hle : limit ≤ limit') :
    (∀ prog, p.compile? limit = some prog →
      prog.size ≤ limit ∧ p.compile? limit' = some prog) ∧
    (∀ prog, p.compile? limit' = some prog → (p.compile? limit = none ↔ limit < prog.size)) ∧
    ∀ next start d d', next < d.nodes.size → p.compileFor limit next d = some (start, d') →
      d'.nodes.size = d.nodes.size → ∀ min max,
        (repetition p min (some max)).compileFor limit next d = some (next, d) := by
  refine ⟨fun prog h => ⟨?_, compile?_of_le hle h⟩, fun prog h => ?_, fun next start d d' => ?_⟩
  · rw [size_of_compile? h]
    exact compile?_isSome_iff.mp (by rw [h]; rfl)
  · rw [size_of_compile? h]
    exact compile?_eq_none_iff
  · exact compileFor_repetition_of_no_node

/-- Ten letters need eleven nodes, and the empty text repeated as often as can be, as often as can
be, none. -/
theorem compile?_limits_ten_letters :
    10 ≤ 11 ∧
    (∃ prog, (repetition (.literal "a") 10 (some 10)).compile? 11 = some prog ∧ prog.size = 11 ∧
      (repetition (.literal "a") 10 (some 10)).compile? 12 = some prog ∧
      (repetition (.literal "a") 10 (some 10)).compile? 10 = none) ∧
    (repetition (.repetition (.literal "") 4294967295 (some 4294967295)) 0
      (some 4294967295)).compileFor 1 0 ⟨#[⟨.success, 0⟩], 0⟩ =
        some (0, ⟨#[⟨.success, 0⟩], 0⟩) := by
  refine ⟨by decide, ?_, ?_⟩
  · have hsome : ((repetition (.literal "a") 10 (some 10)).compile? 11).isSome = true := by decide
    obtain ⟨prog, hprog⟩ := Option.isSome_iff_exists.mp hsome
    have hsize : prog.size = 11 := size_of_compile? hprog
    obtain ⟨hsame, -, -⟩ := compile?_limits (repetition (.literal "a") 10 (some 10))
      (show 11 ≤ 12 by decide)
    obtain ⟨-, hnone, -⟩ := compile?_limits (repetition (.literal "a") 10 (some 10))
      (show 10 ≤ 11 by decide)
    exact ⟨prog, hprog, hsize, (hsame prog hprog).2,
      (hnone prog hprog).mpr (by rw [hsize]; decide)⟩
  · obtain ⟨-, -, hempty⟩ := compile?_limits (.literal "") (Nat.le_refl 1)
    obtain ⟨-, -, hcopies⟩ := compile?_limits
      (repetition (.literal "") 4294967295 (some 4294967295)) (Nat.le_refl 1)
    have hliteral : (literal "").compileFor 1 0 ⟨#[⟨.success, 0⟩], 0⟩ =
        some (0, ⟨#[⟨.success, 0⟩], 0⟩) := by rfl
    have hinner := hempty 0 0 _ _ (by decide) hliteral rfl 4294967295 4294967295
    exact hcopies 0 0 _ _ (by decide) hinner rfl 0 4294967295

end Pattern

end BacktrackRegex
