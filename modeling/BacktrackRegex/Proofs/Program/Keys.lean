import BacktrackRegex.Proofs.Program.Compilation

/-!
# Keys of guarded loops

Guarded loops get their keys as their deciding nodes are made. In the order of the nodes the keys
are therefore numbered from one on, without gaps and without repetitions, however often the body of
a repetition is compiled.
-/

namespace BacktrackRegex

/-- The number of the key under which an operation records iterations. -/
def Op.loopIndex? : Op → Option Nat
  | .loop index _ _ => some index
  | _ => none

/-- The numbers of the keys of all guarded loops, in the order of the nodes. -/
def loopIndices (nodes : Array Node) : List Nat :=
  nodes.toList.filterMap fun node => node.op.loopIndex?

namespace Draft

/-- The guarded loops so far are numbered in the order of their nodes. -/
def Numbered (d : Draft) : Prop :=
  loopIndices d.nodes = List.range' 1 d.loops

/-- Compiling keeps the loops numbered. -/
def Numbers (compile : Nat → Draft → Option (Nat × Draft)) : Prop :=
  ∀ next d start d', compile next d = some (start, d') → d.Numbered → d'.Numbered

/-- One more node has its key behind the others. -/
theorem loopIndices_push (nodes : Array Node) (node : Node) :
    loopIndices (nodes.push node) = loopIndices nodes ++ node.op.loopIndex?.toList := by
  rw [loopIndices, Array.toList_push, List.filterMap_append]
  cases h : node.op.loopIndex? <;> simp [loopIndices, h]

namespace Numbered

variable {limit id : Nat} {d d' : Draft}

/-- A node that is not the deciding node of a guarded loop takes no number. -/
theorem emit {op : Op} {least : Nat} (hop : op.loopIndex? = none) (h : d.Numbered)
    (he : d.emit limit op least = some (id, d')) : d'.Numbered := by
  obtain ⟨-, rfl⟩ := emit_eq he
  unfold Numbered
  rw [loopIndices_push, hop]
  exact (List.append_nil _).trans h

/-- The deciding node of a guarded loop takes the next number. -/
theorem emitLoop {guarded : Bool} {exit : Nat} (h : d.Numbered)
    (he : d.emitLoop limit guarded exit = some (id, d')) : d'.Numbered := by
  rw [Draft.emitLoop] at he
  split at he
  · obtain ⟨-, rfl⟩ := emit_eq he
    unfold Numbered at h ⊢
    rw [loopIndices_push, h, List.range'_concat]
    simp [Op.loopIndex?, Nat.add_comm]
  · exact emit rfl h he

/-- Putting in the body of a loop changes no number. -/
theorem closeLoop (h : d.Numbered) (self body : Nat) : (d.closeLoop self body).Numbered := by
  have hmap : (d.closeLoop self body).nodes.map (fun node => node.op.loopIndex?) =
      d.nodes.map fun node => node.op.loopIndex? := by
    apply Array.ext_getElem?
    intro i
    rw [Array.getElem?_map, Array.getElem?_map, Draft.closeLoop, Array.getElem?_modify]
    split
    · rw [Option.map_map]
      refine Option.map_congr fun node _ => ?_
      rw [Function.comp_apply]
      split <;> simp [Op.loopIndex?, *]
    · rfl
  have hlist := congrArg (fun indices => indices.toList.filterMap id) hmap
  simp only [Array.toList_map, List.filterMap_map] at hlist
  exact hlist.trans h

end Numbered

/-! ## Compiling -/

namespace Numbers

variable {limit : Nat} {compile : Nat → Draft → Option (Nat × Draft)}

/-- What is compiled to nothing has no loops. -/
theorem nothing (hc : ∀ next d, compile next d = some (next, d)) : Numbers compile := by
  intro next d start d' h hd
  obtain ⟨-, rfl⟩ := Prod.mk.inj (Option.some.inj ((hc next d).symm.trans h))
  exact hd

/-- Mandatory copies. -/
theorem copies (hp : Numbers compile) (n : Nat) : Numbers (Draft.copies compile n) := by
  induction n with
  | zero => exact .nothing fun _ _ => rfl
  | succ n ih =>
    intro next d start d' hc h
    obtain ⟨⟨mid, d₁⟩, h₁, hc⟩ := Option.bind_eq_some_iff.mp hc
    have hmid := hp next d mid d₁ h₁ h
    dsimp only at hc
    split at hc
    · obtain ⟨-, rfl⟩ := Prod.mk.inj (Option.some.inj hc)
      exact hmid
    · exact ih mid d₁ start d' hc hmid

/-- Optional copies, with the decisions between them. -/
theorem optionalCopies (hp : Numbers compile) (exit n : Nat) :
    Numbers (Draft.optionalCopies limit compile exit n) := by
  induction n with
  | zero => exact .nothing fun _ _ => rfl
  | succ n ih =>
    intro next d start d' hc h
    obtain ⟨⟨mid, d₁⟩, h₁, hc⟩ := Option.bind_eq_some_iff.mp hc
    have hmid := hp next d mid d₁ h₁ h
    dsimp only at hc
    split at hc
    · obtain ⟨-, rfl⟩ := Prod.mk.inj (Option.some.inj hc)
      exact hmid
    · obtain ⟨⟨id, d₂⟩, h₂, h₃⟩ := Option.bind_eq_some_iff.mp hc
      exact ih id d₂ start d' h₃ (hmid.emit rfl h₂)

end Numbers

end Draft

open Draft

/-- Compiling a part numbers its loops behind the others. -/
theorem Part.compile_numbers (limit : Nat) (part : Part) : Numbers (part.compile limit) := by
  induction part using Part.induct with
  | leaf p hp =>
    intro next d start d' hc h
    cases p with
    | literal s =>
      simp only [compile, Pattern.compileFor] at hc
      split at hc
      · obtain ⟨-, rfl⟩ := Prod.mk.inj (Option.some.inj hc)
        exact h
      · exact h.emit rfl hc
    | anyChar | charClass _ | backReference _ | textStart | textEnd =>
      simp only [compile, Pattern.compileFor] at hc
      exact h.emit rfl hc
    | _ => simp [Pattern.isLeaf] at hp
  | sequence ps ih =>
    intro next d start d' hc h
    simp only [compile, Pattern.compileFor] at hc ih
    exact ih next d start d' hc h
  | alternation ps ih => exact ih
  | repetition p min max ihmore ihcopies =>
    intro next d start d' hc h
    rw [compile, compile_repetition] at hc
    obtain ⟨⟨mid, d₁⟩, h₁, h₂⟩ := Option.bind_eq_some_iff.mp hc
    exact ihcopies mid d₁ start d' h₂ (ihmore next d mid d₁ h₁ h)
  | capture i p ih =>
    intro next d start d' hc h
    simp only [compile, Pattern.compileFor] at hc ih
    obtain ⟨⟨stop, d₁⟩, h₁, hc⟩ := Option.bind_eq_some_iff.mp hc
    obtain ⟨⟨body, d₂⟩, h₂, h₃⟩ := Option.bind_eq_some_iff.mp hc
    exact (ih stop d₁ body d₂ h₂ (h.emit rfl h₁)).emit rfl h₃
  | noItems | noOptions | noCopies p | noOptionals p => exact .nothing fun _ _ => rfl
  | item p ps ihp ihps =>
    intro next d start d' hc h
    obtain ⟨⟨mid, d₁⟩, h₁, h₂⟩ := Option.bind_eq_some_iff.mp hc
    exact ihp mid d₁ start d' h₂ (ihps next d mid d₁ h₁ h)
  | option p ps ihp ihps =>
    intro next d start d' hc h
    cases ps with
    | nil =>
      rw [compile, Pattern.compileFor_option] at hc
      exact ihp next d start d' hc h
    | cons q ps =>
      rw [compile_options] at hc
      obtain ⟨⟨first, d₁⟩, h₁, hc⟩ := Option.bind_eq_some_iff.mp hc
      obtain ⟨⟨rest, d₂⟩, h₂, h₃⟩ := Option.bind_eq_some_iff.mp hc
      exact (ihps next d₁ rest d₂ h₂ (ihp next d first d₁ h₁ h)).emit rfl h₃
  | copy p n ih _ => exact ih.copies (n + 1)
  | optional p n ih _ => exact fun next => ih.optionalCopies next (n + 1) next
  | loop p ih =>
    intro next d start d' hc h
    obtain ⟨⟨id, d₁⟩, h₁, hc⟩ := Option.bind_eq_some_iff.mp hc
    obtain ⟨⟨body, d₂⟩, h₂, h₃⟩ := Option.bind_eq_some_iff.mp hc
    obtain ⟨-, rfl⟩ := Prod.mk.inj (Option.some.inj h₃)
    exact (ih id d₁ body d₂ h₂ (h.emitLoop h₁)).closeLoop id body

/-- The guarded loops of a program are numbered from one on, in the order of their nodes. -/
theorem Program.loopIndices_of_compile? {limit : Nat} {p : Pattern} {prog : Program}
    (h : p.compile? limit = some prog) : ∃ n, loopIndices prog.nodes = List.range' 1 n := by
  obtain ⟨⟨success, d₁⟩, h₁, h'⟩ := Option.bind_eq_some_iff.mp h
  obtain ⟨⟨root, d₂⟩, h₂, h₃⟩ := Option.bind_eq_some_iff.mp h'
  obtain rfl := Option.some.inj h₃
  have hempty : Numbered ⟨#[], 0⟩ := rfl
  exact ⟨d₂.loops, Part.compile_numbers limit (.one p) success d₁ root d₂ h₂ (hempty.emit rfl h₁)⟩

end BacktrackRegex
