import BacktrackRegex.Program.Search
import BacktrackRegex.Proofs.Program.Rank
import BacktrackRegex.Proofs.Search.Path
import BacktrackRegex.Proofs.Text.Piece

/-!
# Moves of programs

The nodes of a program read nothing of a trail but its records. At a place inside the text a node
makes the move of its operation, unless it gives up because too few bytes are left. A search that
never gives up for that reason makes the moves of the operations alone.

A path consumes something or asserts something, or marks a place, or takes a side of a decision, or
begins an iteration of a guarded loop. It therefore either goes on in the text, or takes a quiet way
out of the node, or begins an iteration.
-/

namespace BacktrackRegex

/-- The node for which an operation is left when it has consumed or asserted something, and the
number of bytes it has consumed then at least. A guarded loop is left for its exit. -/
def Op.exit? : Op → Option (Nat × Nat)
  | .literal s next => some (next, s.utf8ByteSize)
  | .charClass _ next => some (next, 1)
  | .anyChar next => some (next, 1)
  | .loop _ _ exit => some (exit, 0)
  | .backReference _ next => some (next, 0)
  | .textStart next => some (next, 0)
  | .textEnd next => some (next, 0)
  | .success => none
  | .branch _ _ => none
  | .mark _ _ => none

/-- An operation that need not consume anything is left in a quiet way. -/
theorem Op.mem_quiet_of_exit? {op : Op} {next : Nat} (h : op.exit? = some (next, 0)) :
    next ∈ op.quiet := by
  cases op with
  | literal s next' =>
    obtain ⟨rfl, hs⟩ := Prod.mk.inj (Option.some.inj h)
    obtain rfl : s = "" := by simpa using hs
    simp [quiet]
  | charClass _ _ | anyChar _ => simp [exit?] at h
  | success | branch _ _ | mark _ _ => simp [exit?] at h
  | loop _ _ _ | backReference _ _ | textStart _ | textEnd _ =>
    obtain ⟨rfl, -⟩ := Prod.mk.inj (Option.some.inj h)
    simp [quiet]

namespace Program

open Search History

/-- The move of an operation, however many bytes are left. -/
def unprunedMoveAt (text : String) (op : Op) (pos : Nat) (trail : Trail) : Move :=
  match op with
  | .success => .accept
  | .literal s next => consumeText text pos s next
  | .charClass cls next => consumeChar text pos cls.accepts next
  | .anyChar next => consumeChar text pos (· != '\n') next
  | .branch first second => .choose first second none
  | .loop index body exit => iterateBody pos trail index body exit
  | .mark group next => .mark (.group group) next
  | .backReference group next => consumeGroup text pos trail group next
  | .textStart next => assertPlace (pos == 0) pos next
  | .textEnd next => assertPlace (pos == text.utf8ByteSize) pos next

/-- The moves of a search that never gives up because too few bytes are left. -/
def unprunedMove (p : Program) (text : String) : Moves := fun id pos trail =>
  if text.utf8ByteSize < pos then .fail .positionOutsideText
  else match p.nodes[id]? with
    | some node => unprunedMoveAt text node.op pos trail
    | none => .reject

/-- Consuming the text of a group reads its latest span only. -/
theorem consumeGroup_congr {t t' : Trail} {group : Nat} (h : t.captured group = t'.captured group)
    (text : String) (pos next : Nat) :
    consumeGroup text pos t group next = consumeGroup text pos t' group next := by
  rw [consumeGroup, consumeGroup, h]

/-- Deciding on an iteration reads the start of the latest one only. -/
theorem iterateBody_congr {t t' : Trail} {index : Nat}
    (h : t.find? (.loop index) = t'.find? (.loop index)) (pos body exit : Nat) :
    iterateBody pos t index body exit = iterateBody pos t' index body exit := by
  rw [iterateBody, iterateBody, h]

/-- Operations read the records of a trail, and not its storage. -/
theorem unprunedMoveAt_ofHistory (text : String) (op : Op) (pos : Nat) (t : Trail) :
    unprunedMoveAt text op pos t = unprunedMoveAt text op pos (.ofHistory t.history) := by
  cases op with
  | loop index body exit =>
    refine iterateBody_congr ?_ pos body exit
    rw [Trail.find?_eq, Trail.find?_eq, Trail.history_ofHistory]
  | backReference group next =>
    refine consumeGroup_congr ?_ text pos next
    rw [Trail.captured_eq, Trail.captured_eq, Trail.history_ofHistory]
  | _ => rfl

/-- Whether a node gives up where too few bytes are left. -/
def prunes : Op → Bool
  | .literal _ _ => true
  | .charClass _ _ => true
  | .anyChar _ => true
  | .branch _ _ => true
  | .loop _ _ _ => true
  | _ => false

/-- A node makes the move of its operation, unless it gives up because too few bytes are left. -/
theorem moveAt_eq (text : String) (node : Node) (left pos : Nat) (t : Trail) :
    moveAt text node left pos t =
      if prunes node.op = true ∧ left < node.minLength then .reject
      else unprunedMoveAt text node.op pos t := by
  obtain ⟨op, least⟩ := node
  cases op <;> simp [moveAt, unprunedMoveAt, needing, prunes]

/-- Nodes read the records of a trail, and not its storage. -/
theorem readsHistory (prog : Program) (text : String) : ReadsHistory (prog.move text) := by
  intro id pos t
  rw [move, move]
  split
  · rfl
  · cases prog.nodes[id]? with
    | none => rfl
    | some node =>
      dsimp only
      rw [moveAt_eq, moveAt_eq, unprunedMoveAt_ofHistory]

/-- Nodes that never give up read the records of a trail, and not its storage. -/
theorem readsHistory_unpruned (prog : Program) (text : String) :
    ReadsHistory (prog.unprunedMove text) := by
  intro id pos t
  rw [unprunedMove, unprunedMove]
  split
  · rfl
  · cases prog.nodes[id]? with
    | none => rfl
    | some node => exact unprunedMoveAt_ofHistory text node.op pos t

/-- A node makes the move of its operation. -/
theorem move_eq {prog : Program} {text : String} {s : Spot} {node : Node}
    (hn : prog.nodes[s.node]? = some node) (hle : s.pos ≤ text.utf8ByteSize) :
    s.move (prog.move text) =
      moveAt text node (text.utf8ByteSize - s.pos) s.pos (.ofHistory s.history) := by
  rw [Spot.move, move, if_neg (Nat.not_lt.mpr hle), hn]

/-- A node that never gives up makes the move of its operation. -/
theorem unprunedMove_eq {prog : Program} {text : String} {s : Spot} {node : Node}
    (hn : prog.nodes[s.node]? = some node) (hle : s.pos ≤ text.utf8ByteSize) :
    s.move (prog.unprunedMove text) =
      unprunedMoveAt text node.op s.pos (.ofHistory s.history) := by
  rw [Spot.move, unprunedMove, if_neg (Nat.not_lt.mpr hle), hn]

/-- A spot that does not fail lies inside the text. -/
theorem le_of_move {prog : Program} {text : String} {s : Spot} {m : Move}
    (hm : s.move (prog.unprunedMove text) = m) (hf : ∀ fault, m ≠ .fail fault) :
    s.pos ≤ text.utf8ByteSize := by
  by_contra hle
  rw [Spot.move, unprunedMove, if_pos (Nat.lt_of_not_le hle)] at hm
  exact hf _ hm.symm

/-- A spot inside the text that does not reject stands at a node, whose operation makes the move. -/
theorem exists_node_of_move {prog : Program} {text : String} {s : Spot} {m : Move}
    (hle : s.pos ≤ text.utf8ByteSize) (hm : s.move (prog.unprunedMove text) = m)
    (hne : m ≠ .reject) : ∃ node, prog.nodes[s.node]? = some node ∧
      unprunedMoveAt text node.op s.pos (.ofHistory s.history) = m := by
  cases hn : prog.nodes[s.node]? with
  | none =>
    rw [Spot.move, unprunedMove, if_neg (Nat.not_lt.mpr hle), hn] at hm
    exact absurd hm.symm hne
  | some node => exact ⟨node, rfl, (unprunedMove_eq hn hle).symm.trans hm⟩

/-- A spot makes the same move in a search that never gives up, or it gives up at a node that needs
more bytes than are left. -/
theorem move_eq_or (prog : Program) (text : String) (s : Spot) :
    s.move (prog.move text) = s.move (prog.unprunedMove text) ∨
      s.move (prog.move text) = .reject ∧ s.pos ≤ text.utf8ByteSize ∧
        ∃ node, prog.nodes[s.node]? = some node ∧
          text.utf8ByteSize - s.pos < node.minLength := by
  by_cases hle : s.pos ≤ text.utf8ByteSize
  · cases hn : prog.nodes[s.node]? with
    | none => exact Or.inl (by simp only [Spot.move, move, unprunedMove, hn])
    | some node =>
      rw [move_eq hn hle, unprunedMove_eq hn hle, moveAt_eq]
      split
      · next h => exact Or.inr ⟨rfl, hle, node, rfl, h.2⟩
      · exact Or.inl rfl
  · exact Or.inl (by simp only [Spot.move, move, unprunedMove, if_pos (Nat.lt_of_not_le hle)])

/-- What a spot does, it does in a search that never gives up. -/
theorem unprunedMove_of_move {prog : Program} {text : String} {s : Spot} {m : Move}
    (hm : s.move (prog.move text) = m) (hne : m ≠ .reject) :
    s.move (prog.unprunedMove text) = m := by
  rcases move_eq_or prog text s with he | ⟨he, -⟩
  · exact he.symm.trans hm
  · exact absurd (hm.symm.trans he) hne

/-- The paths of a search are paths of one that never gives up. -/
theorem leads_unpruned {prog : Program} {text : String} {s s' : Spot}
    (h : Leads (prog.move text) s s') : Leads (prog.unprunedMove text) s s' := by
  cases h with
  | goto hm => exact .goto (unprunedMove_of_move hm (by simp))
  | mark hm => exact .mark (unprunedMove_of_move hm (by simp))
  | first hm => exact .first (unprunedMove_of_move hm (by simp))
  | second hm => exact .second (unprunedMove_of_move hm (by simp))

/-! ## Steps of a path -/

/-- A path takes a step from a spot by the operation of its node. -/
inductive Steps (length : Nat) (s : Spot) : Op → Spot → Prop where
  | onward {op next width pos} (hop : op.exit? = some (next, width)) (hw : s.pos + width ≤ pos)
      (hle : pos ≤ length) : Steps length s op ⟨next, pos, s.history⟩
  | mark {group next} :
      Steps length s (.mark group next) ⟨next, s.pos, ⟨.group group, s.pos⟩ :: s.history⟩
  | first {first second} : Steps length s (.branch first second) ⟨first, s.pos, s.history⟩
  | second {first second} : Steps length s (.branch first second) ⟨second, s.pos, s.history⟩
  | iterate {index body exit} (hne : (places (.loop index) s.history).head? ≠ some s.pos) :
      Steps length s (.loop index body exit) ⟨body, s.pos, ⟨.loop index, s.pos⟩ :: s.history⟩

section Moves

variable {text : String} {op : Op} {pos : Nat} {t : Trail}

/-- A node that goes on has consumed at least what its operation consumes. -/
theorem unprunedMoveAt_goto (hpos : pos ≤ text.utf8ByteSize) {next pos' : Nat}
    (h : unprunedMoveAt text op pos t = .goto next pos') :
    pos' ≤ text.utf8ByteSize ∧ ∃ width, op.exit? = some (next, width) ∧ pos + width ≤ pos' := by
  cases op with
  | success | mark _ _ | branch _ _ => simp [unprunedMoveAt] at h
  | literal s next' =>
    rw [unprunedMoveAt, consumeText] at h
    split at h
    · next ho =>
      obtain ⟨rfl, rfl⟩ := Move.goto.inj h
      exact ⟨Text.le_of_sameBytes hpos ho, _, rfl, Nat.le_refl _⟩
    · simp at h
  | charClass _ _ | anyChar _ =>
    rw [unprunedMoveAt, consumeChar] at h
    split at h
    · next ch hc =>
      split at h
      · obtain ⟨rfl, rfl⟩ := Move.goto.inj h
        exact ⟨Text.le_of_charAt? hc, 1, rfl, Nat.add_le_add_left ch.utf8Size_pos _⟩
      · simp at h
    · simp at h
  | loop _ _ _ =>
    rw [unprunedMoveAt, iterateBody] at h
    split at h
    · obtain ⟨rfl, rfl⟩ := Move.goto.inj h
      exact ⟨hpos, 0, rfl, Nat.le_refl _⟩
    · simp at h
  | backReference _ _ =>
    simp only [unprunedMoveAt, consumeGroup] at h
    split at h
    · simp at h
    · simp at h
    · split at h
      · simp at h
      · split at h
        · next hs =>
          obtain ⟨rfl, rfl⟩ := Move.goto.inj h
          exact ⟨Text.le_of_sameBytes hpos hs, 0, rfl, Nat.le_add_right _ _⟩
        · simp at h
  | textStart _ | textEnd _ =>
    simp only [unprunedMoveAt, assertPlace] at h
    split at h
    · obtain ⟨rfl, rfl⟩ := Move.goto.inj h
      exact ⟨hpos, 0, rfl, Nat.le_refl _⟩
    · simp at h

/-- Only success accepts. -/
theorem unprunedMoveAt_accept (h : unprunedMoveAt text op pos t = .accept) : op = .success := by
  cases op with
  | success => rfl
  | branch _ _ | mark _ _ => simp [unprunedMoveAt] at h
  | _ =>
    simp only [unprunedMoveAt, consumeText, consumeChar, iterateBody, consumeGroup,
      assertPlace] at h
    repeat' split at h
    all_goals simp at h

/-- Only a back-reference fails. -/
theorem unprunedMoveAt_fail {fault : Fault} (h : unprunedMoveAt text op pos t = .fail fault) :
    ∃ group next, op = .backReference group next := by
  cases op with
  | backReference group next => exact ⟨group, next, rfl⟩
  | success | branch _ _ | mark _ _ => simp [unprunedMoveAt] at h
  | _ =>
    simp only [unprunedMoveAt, consumeText, consumeChar, iterateBody, assertPlace] at h
    repeat' split at h
    all_goals simp at h

/-- Only the ends of groups are marked. -/
theorem unprunedMoveAt_mark {key : Key} {next : Nat}
    (h : unprunedMoveAt text op pos t = .mark key next) :
    ∃ group, key = .group group ∧ op = .mark group next := by
  cases op with
  | mark group next' =>
    obtain ⟨rfl, rfl⟩ := Move.mark.inj h
    exact ⟨group, rfl, rfl⟩
  | success | branch _ _ => simp [unprunedMoveAt] at h
  | _ =>
    simp only [unprunedMoveAt, consumeText, consumeChar, iterateBody, consumeGroup,
      assertPlace] at h
    repeat' split at h
    all_goals simp at h

/-- Decisions are mere ones or begin an iteration of a guarded loop. -/
theorem unprunedMoveAt_choose {first second : Nat} {key : Option Key}
    (h : unprunedMoveAt text op pos t = .choose first second key) :
    (key = none ∧ op = .branch first second) ∨ ∃ index, key = some (.loop index) ∧
      op = .loop index first second ∧ t.find? (.loop index) ≠ some pos := by
  cases op with
  | branch first' second' =>
    obtain ⟨rfl, rfl, rfl⟩ := Move.choose.inj h
    exact Or.inl ⟨rfl, rfl⟩
  | loop index body exit =>
    rw [unprunedMoveAt, iterateBody] at h
    split at h
    · simp at h
    · next hf =>
      obtain ⟨rfl, rfl, rfl⟩ := Move.choose.inj h
      exact Or.inr ⟨index, rfl, rfl, hf⟩
  | success | mark _ _ => simp [unprunedMoveAt] at h
  | _ =>
    simp only [unprunedMoveAt, consumeText, consumeChar, consumeGroup, assertPlace] at h
    repeat' split at h
    all_goals simp at h

end Moves

/-- Each step of a path is one by the operation of a node of the program, at a place inside the
text. -/
theorem steps_of_leads {prog : Program} {text : String} {s s' : Spot}
    (h : Leads (prog.unprunedMove text) s s') :
    s.pos ≤ text.utf8ByteSize ∧ ∃ node, prog.nodes[s.node]? = some node ∧
      Steps text.utf8ByteSize s node.op s' := by
  have hnode {m : Move} (hm : s.move (prog.unprunedMove text) = m) (hne : m ≠ .reject)
      (hf : ∀ fault, m ≠ .fail fault) : s.pos ≤ text.utf8ByteSize ∧
        ∃ node, prog.nodes[s.node]? = some node ∧
          unprunedMoveAt text node.op s.pos (.ofHistory s.history) = m :=
    ⟨le_of_move hm hf, exists_node_of_move (le_of_move hm hf) hm hne⟩
  cases h with
  | goto hm =>
    obtain ⟨hle, node, hn, hmove⟩ := hnode hm (by simp) (by simp)
    obtain ⟨hle', width, hop, hw⟩ := unprunedMoveAt_goto hle hmove
    exact ⟨hle, node, hn, .onward hop hw hle'⟩
  | mark hm =>
    obtain ⟨hle, ⟨op, least⟩, hn, hmove⟩ := hnode hm (by simp) (by simp)
    obtain ⟨group, rfl, rfl⟩ := unprunedMoveAt_mark hmove
    exact ⟨hle, _, hn, .mark⟩
  | first hm =>
    obtain ⟨hle, ⟨op, least⟩, hn, hmove⟩ := hnode hm (by simp) (by simp)
    rcases unprunedMoveAt_choose hmove with ⟨rfl, rfl⟩ | ⟨index, rfl, rfl, hf⟩
    · exact ⟨hle, _, hn, .first⟩
    · rw [Trail.find?_eq, Trail.history_ofHistory] at hf
      exact ⟨hle, _, hn, .iterate hf⟩
  | second hm =>
    obtain ⟨hle, ⟨op, least⟩, hn, hmove⟩ := hnode hm (by simp) (by simp)
    rcases unprunedMoveAt_choose hmove with ⟨rfl, rfl⟩ | ⟨index, rfl, rfl, -⟩
    · exact ⟨hle, _, hn, .second⟩
    · exact ⟨hle, _, hn, .onward rfl (Nat.le_refl (s.pos + 0)) hle⟩

/-- A path leads from one spot to another one that is further on in the text, or in a quiet way, or
by an iteration of a guarded loop whose latest one began elsewhere. -/
inductive Leaving (length : Nat) (op : Op) (s : Spot) : Spot → Prop where
  | onward {node pos} (hlt : s.pos < pos) (hle : pos ≤ length) :
      Leaving length op s ⟨node, pos, s.history⟩
  | quiet {node} (hq : node ∈ op.quiet) : Leaving length op s ⟨node, s.pos, s.history⟩
  | mark {group node} (hq : node ∈ op.quiet) :
      Leaving length op s ⟨node, s.pos, ⟨.group group, s.pos⟩ :: s.history⟩
  | iterate {index body exit} (hop : op = .loop index body exit)
      (hne : (places (.loop index) s.history).head? ≠ some s.pos) :
      Leaving length op s ⟨body, s.pos, ⟨.loop index, s.pos⟩ :: s.history⟩

/-- Each step of a path is one of these ways to leave a node. -/
theorem Steps.leaving {length : Nat} {s s' : Spot} {op : Op} (h : Steps length s op s') :
    Leaving length op s s' := by
  cases h with
  | @onward _ next width pos hop hw hle =>
    rcases Nat.eq_or_lt_of_le (Nat.le_trans (Nat.le_add_right _ _) hw) with rfl | hlt
    · obtain rfl : width = 0 := by omega
      exact .quiet (Op.mem_quiet_of_exit? hop)
    · exact .onward hlt hle
  | mark => exact .mark (by simp [Op.quiet])
  | first | second => exact .quiet (by simp [Op.quiet])
  | iterate hne => exact .iterate rfl hne

/-- Each step of a path leaves a node of the program in one of these ways. -/
theorem leaving_of_leads {prog : Program} {text : String} {s s' : Spot}
    (h : Leads (prog.unprunedMove text) s s') : s.pos ≤ text.utf8ByteSize ∧
      ∃ node, prog.nodes[s.node]? = some node ∧ Leaving text.utf8ByteSize node.op s s' := by
  obtain ⟨hle, node, hn, hs⟩ := steps_of_leads h
  exact ⟨hle, node, hn, hs.leaving⟩

end Program

end BacktrackRegex
