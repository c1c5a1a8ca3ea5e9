import BacktrackRegex.Proofs.Matching.FirstMatch
import BacktrackRegex.Proofs.Program.Balance
import BacktrackRegex.Proofs.Search.Sharing
import BacktrackRegex.Proofs.Search.Storage

/-!
# Searches above older records

A search may begin on a trail that holds records already, in a storage with others above them. It
writes to the storage behind these records only, also where its decisions are shared and one side of
them works on the same storage. It restores what a choice was kept with when it goes back to the
choice, and does not read what the storage holds above the trail. If none of the older records
belongs to a group of the program, the marks on each path are balanced as if they were not there,
and the search ends without a fault.
-/

namespace BacktrackRegex.Program

open Search History Text

/-! ## Paths above older records -/

/-- None of the records belongs to a group that the program marks or refers to. -/
def IsForeign (prog : Program) (es : List Entry) : Prop :=
  ∀ e ∈ es, ∀ group, e.key = .group group → ∀ node ∈ prog.nodes, node.op.key? ≠ some (.group group)

/-- What holds of each spot on a path that begins above older records: without them, the path would
be steady. -/
def SteadyAbove (met : Nat → List Nat → Prop) (length : Nat) (older : History) (s : Spot) : Prop :=
  ∃ newer, s.history = newer ++ older ∧ Steady met length ⟨s.node, s.pos, newer⟩

section Above

variable {prog : Program} {text : String} {met : Nat → List Nat → Prop} {length : Nat}
  {older : History} {s s' : Spot}

/-- A step above older records would be taken without them, too. -/
theorem Steps.above {op : Op} (h : Steps length s op s') {newer : History}
    (hs : s.history = newer ++ older) : ∃ newer', s'.history = newer' ++ older ∧
      Steps length ⟨s.node, s.pos, newer⟩ op ⟨s'.node, s'.pos, newer'⟩ := by
  cases h with
  | onward hop hw hle => exact ⟨newer, hs, .onward hop hw hle⟩
  | mark => exact ⟨_ :: newer, congrArg (_ :: ·) hs, .mark⟩
  | first => exact ⟨newer, hs, .first⟩
  | second => exact ⟨newer, hs, .second⟩
  | @iterate index body exit hne =>
    refine ⟨_ :: newer, congrArg (_ :: ·) hs, .iterate fun hhead => hne ?_⟩
    rw [hs, places_append, List.head?_append, hhead, Option.some_or]

/-- Paths above older records stay steady. -/
theorem SteadyAbove.step (hm : prog.Closes met) (h : SteadyAbove met text.utf8ByteSize older s)
    (hl : Leads (prog.unprunedMove text) s s') : SteadyAbove met text.utf8ByteSize older s' := by
  obtain ⟨newer, hs, hsteady⟩ := h
  obtain ⟨hle, node, hn, hstep⟩ := steps_of_leads hl
  obtain ⟨newer', hs', hstep'⟩ := hstep.above hs
  obtain ⟨opened, hmet, ho⟩ := hsteady.opens
  obtain ⟨hle', hordered⟩ := hstep'.ordered hle hsteady.ordered
  exact ⟨newer', hs', hle', hordered, hstep'.opens (hm _ _ node hmet hn) ho⟩

/-- No spot on a path above foreign records meets a fault: a node that does would do so without
them. -/
theorem SteadyAbove.noFault (hm : prog.Closes met) (hf : prog.IsForeign older)
    (h : SteadyAbove met text.utf8ByteSize older s) (fault : Fault) :
    s.move (prog.unprunedMove text) ≠ .fail fault := by
  obtain ⟨newer, hs, hsteady⟩ := h
  have hle : s.pos ≤ text.utf8ByteSize := hsteady.pos_le
  intro hmove
  refine hsteady.noFault hm fault ?_
  obtain ⟨⟨op, least⟩, hn, hmove⟩ := exists_node_of_move hle hmove (by simp)
  obtain ⟨group, next, rfl⟩ := unprunedMoveAt_fail hmove
  have hnone : places (.group group) older = [] :=
    places_eq_nil fun e he hk => hf e he group hk _ (Array.mem_of_getElem? hn) rfl
  have hcaptured : (Trail.ofHistory newer).captured group =
      (Trail.ofHistory s.history).captured group := by
    rw [Trail.captured_eq, Trail.captured_eq, Trail.history_ofHistory, Trail.history_ofHistory,
      hs, places_append, hnone, List.append_nil]
  rw [@unprunedMove_eq prog text ⟨s.node, s.pos, newer⟩ _ hn hle, ← hmove]
  exact consumeGroup_congr hcaptured text s.pos next

/-- All paths from the root of a compiled program above foreign records end, and none in a fault.
Their number is below the bound of a search. -/
theorem exists_exhausts_above {p : Pattern} (hw : p.isWellFormed [0] = true) {limit : Nat}
    (hc : p.compile? limit = some prog) (text : String) {start : Nat}
    (hstart : start ≤ text.utf8ByteSize) (hf : prog.IsForeign older) :
    ∃ found k, Exhausts (prog.move text) ⟨prog.root, start, older⟩ found k ∧
      k < 2 ^ prog.rounds text := by
  obtain ⟨rank, hle, hquiet⟩ := ranked_of_compile? (Pattern.hasOptions_of_isWellFormed hw) hc
  obtain ⟨met, hroot, hm⟩ :=
    exists_closes (Pattern.isWellFormed_of_subset (List.nil_subset _) hw) hc
  have hfault (s : Spot) (fault : Fault) (hs : SteadyAbove met text.utf8ByteSize older s) :
      s.move (prog.move text) ≠ .fail fault := fun hmove =>
    hs.noFault hm hf fault (unprunedMove_of_move hmove (by simp))
  have hroot' : SteadyAbove met text.utf8ByteSize older ⟨prog.root, start, older⟩ :=
    ⟨[], rfl, hstart, ⟨by simp, .nil⟩, [], hroot, fun _ => by simp [places]⟩
  obtain ⟨found, k, he, hk⟩ := Search.exists_exhausts _ (prog.spotRank rank text.utf8ByteSize)
    (fun s s' hs hl => ⟨hs.step hm (leads_unpruned hl),
      (spotRank_lt hle hquiet (leads_unpruned hl)).2⟩) hfault hroot'
  exact ⟨found, k, he, Nat.lt_of_lt_of_le hk
    (Nat.pow_le_pow_right (by decide) (spotRank_add_one_le hle text _))⟩

end Above

/-! ## What a search leaves as it is -/

/-- What a search that begins on a trail leaves as it is, and what it restores, with its decisions
shared out to workers or not. -/
structure Undisturbed (prog : Program) (text : String) (start : Nat) (trail : Trail) : Prop where
  /-- The search ends within its bound. -/
  ends : prog.exec text start trail ≠ .unfinished
  /-- It ends with a match or without one, however its decisions are shared, if no record belongs to
  a group of the program. -/
  result : prog.IsForeign trail.entries →
    (∃ t, prog.exec text start trail = .matched t ∨ prog.exec text start trail = .failed t) ∧
      ∀ terms, ∃ own, (∃ t, prog.endShared terms text start trail = .matched t own) ∨
        prog.endShared terms text start trail = .failed own
  /-- On its way, the trail always begins with the records that it began on. -/
  kept : ∀ n s, advance (step (prog.move text)) n ⟨prog.root, start, trail, []⟩ = .inl s →
    trail.entries <+: s.trail.entries
  /-- So does the trail at its end, whether it has matched or not. The trail of a match that a
  worker has found begins with these records, too. -/
  keptAtEnd : (prog.exec text start trail).Holds trail.entries ∧
    ∀ terms, (prog.endShared terms text start trail).Holds trail.entries
  /-- Over the storage that the search leaves, the trail that it began on has the same records as
  before. -/
  unchanged : (∀ own, (Ended.of (prog.exec text start trail)).own? = some own →
      (trail.after own).entries = trail.entries) ∧
    ∀ terms own, (prog.endShared terms text start trail).own? = some own →
      (trail.after own).entries = trail.entries
  /-- Where a node does not match, the search goes back to the newest choice, with exactly the
  records that there were when the choice was kept. -/
  resumes : ∀ n s choice rest,
    advance (step (prog.move text)) n ⟨prog.root, start, trail, []⟩ = .inl s →
    prog.move text s.node s.pos s.trail = .reject → s.choices = choice :: rest →
      ∃ m d t, advance (step (prog.move text)) m ⟨prog.root, start, trail, []⟩ = .inl d ∧
        Waits (prog.move text) choice d s ∧ d.choices = rest ∧ t.entries = d.trail.entries ∧
        step (prog.move text) s = .inl ⟨choice.node, choice.pos, t, rest⟩
  /-- On another trail with the same records, the search comes to the same records in the end. -/
  storage : ∀ trail', trail.entries = trail'.entries →
    (prog.exec text start trail).Alike (prog.exec text start trail') ∧
      ∀ terms, (prog.endShared terms text start trail).Alike
        (prog.endShared terms text start trail')

/-- A search holds the records that it begins on. -/
theorem exec_holds (prog : Program) (text : String) (start : Nat) (trail : Trail) :
    (prog.exec text start trail).Holds trail.entries ∧
      ∀ terms, (prog.endShared terms text start trail).Holds trail.entries := by
  have h : State.Holds trail.entries [] ⟨prog.root, start, trail, []⟩ :=
    .start ⟨prog.root, start, trail, []⟩
  exact ⟨run_holds _ _ h, fun terms => runShared_holds _ terms _ _ h⟩

/-- Searches on trails with the same records end alike. -/
theorem exec_alike (prog : Program) (text : String) (start : Nat) {trail trail' : Trail}
    (ht : trail.entries = trail'.entries) :
    (prog.exec text start trail).Alike (prog.exec text start trail') ∧
      ∀ terms, (prog.endShared terms text start trail).Alike
        (prog.endShared terms text start trail') := by
  have h : State.Alike ⟨prog.root, start, trail, []⟩ ⟨prog.root, start, trail', []⟩ := .mk ht
  exact ⟨run_alike (prog.readsHistory text) h _,
    fun terms => runShared_alike (prog.readsHistory text) h terms _ _⟩

/-- A search for a pattern that was read leaves the records that it begins on as they are, restores
those that a choice was kept with, and does not depend on what the storage holds above the trail. -/
theorem exec_undisturbed {limit : Nat} {source : String} {p q : Pattern}
    (hread : Pattern.read limit source = .ok p) (hq : q = p ∨ q = p.simplify) {maxNodes : Nat}
    {prog : Program} (hc : q.compile? maxNodes = some prog) (text : String) {start : Nat}
    (hstart : isBoundary text start = true) (trail : Trail) :
    prog.Undisturbed text start trail := by
  have hw := Pattern.isWellFormed_of_read_or hread hq
  have hle := le_of_isBoundary hstart
  have hm := prog.readsHistory text
  let s₀ : State := ⟨prog.root, start, trail, []⟩
  obtain ⟨hends, -⟩ :=
    exec_ends.2.2 q maxNodes prog (Pattern.hasOptions_of_isWellFormed hw) hc text start trail hle
  obtain ⟨hholds, hshared⟩ := prog.exec_holds text start trail
  refine ⟨hends, fun hf => ?_, fun n s hs => ?_, ⟨hholds, hshared⟩, ⟨fun own ho => ?_,
    fun terms own ho => ?_⟩, fun n s choice rest hs hmove hc => ?_,
    fun trail' ht => prog.exec_alike text start ht⟩
  · have hf' : prog.IsForeign trail.history := fun e he => hf e (List.mem_reverse.mp he)
    obtain ⟨found, k, he, hk⟩ := exists_exhausts_above hw hc text hle hf'
    have hshows := Exhausts.run_shows hm (s := s₀) he rfl hk
    refine ⟨(Outcome.Stands.of_shows hshows .sequential false).ends, fun terms => ?_⟩
    rcases Ended.cases_of_stands (Exhausts.runShared_stands hm (s := s₀) he rfl hk terms _) with
      ⟨t, own, he⟩ | ⟨own, he⟩
    · exact ⟨own, Or.inl ⟨t, he⟩⟩
    · exact ⟨own, Or.inr he⟩
  · have hheld := advance_invariant (State.Holds trail.entries [])
      (fun s s' h hs => h.of_effect (effect_of_act hs) List.nil_suffix) (.start s₀) hs
    exact hheld.records
  · exact Trail.entries_after_of_prefix ((Ended.Holds.of hholds).own ho)
  · exact Trail.entries_after_of_prefix ((hshared terms).own ho)
  · have hsuffix : choice :: rest <:+ s.choices := hc ▸ List.suffix_rfl
    obtain ⟨m, d, hd, hwaits, rfl⟩ := exists_waits rfl hs hsuffix
    obtain ⟨t, ht, hstep⟩ := hwaits.resume hmove hc
    exact ⟨m, d, t, hd, hwaits, rfl, ht, hstep⟩

/-- A search above records of other groups and loops, in a storage with records of its own ones. The
records stay below what is left of the trail, whatever the workers do. -/
theorem exec_undisturbed_above_others :
    ∃ p prog trail, Pattern.read 255 "(a*)*b" = .ok p ∧ p.compile? 100 = some prog ∧
      trail.storage.toList.drop trail.top = [⟨.group 1, 9⟩, ⟨.loop 1, 0⟩] ∧
      prog.Undisturbed "aab" 0 trail ∧
      (∃ t, (prog.exec "aab" 0 trail = .matched t ∨ prog.exec "aab" 0 trail = .failed t) ∧
        [⟨.group 5, 1⟩, ⟨.loop 7, 2⟩, ⟨.group 0, 0⟩] <+: t.entries) ∧
      ∀ terms, ∃ own, (prog.endShared terms "aab" 0 trail).own? = some own ∧
        [⟨.group 5, 1⟩, ⟨.loop 7, 2⟩, ⟨.group 0, 0⟩] <+: own.entries := by
  let p : Pattern := .sequence
    [.repetition (.capture 1 (.repetition (.literal "a") 0 none)) 0 none, .literal "b"]
  let prog : Program :=
    ⟨#[⟨.success, 0⟩, ⟨.literal "b" 0, 1⟩, ⟨.loop 1 6 1, 1⟩, ⟨.mark 1 2, 1⟩, ⟨.branch 5 3, 1⟩,
      ⟨.literal "a" 4, 2⟩, ⟨.mark 1 4, 1⟩], 2, 1, false⟩
  let trail : Trail :=
    ⟨#[⟨.group 5, 1⟩, ⟨.loop 7, 2⟩, ⟨.group 0, 0⟩, ⟨.group 1, 9⟩, ⟨.loop 1, 0⟩], 3, by decide⟩
  have hread : Pattern.read 255 "(a*)*b" = .ok p :=
    Pattern.read_eq_ok_iff.mpr (by decide +kernel)
  have hc : p.compile? 100 = some prog := by decide +kernel
  have hund : prog.Undisturbed "aab" 0 trail :=
    exec_undisturbed hread (Or.inl rfl) hc "aab" (by decide) trail
  have hforeign : prog.IsForeign trail.entries := by
    have hkeys : ∀ e ∈ trail.entries, e.key ≠ .group 1 := by decide
    have hgroups : ∀ node ∈ prog.nodes, node.op.key? = some (.group 1) ∨
        node.op.key? = some (.loop 1) ∨ node.op.key? = none := by decide
    intro e he group hkey node hnode hmentions
    rcases hgroups node hnode with h | h | h
    · exact hkeys e he (hkey.trans (Option.some.inj (hmentions.symm.trans h)))
    · simp [h] at hmentions
    · simp [h] at hmentions
  obtain ⟨⟨t, ht⟩, hshared⟩ := hund.result hforeign
  refine ⟨p, prog, trail, hread, hc, rfl, hund, ⟨t, ht, hund.keptAtEnd.1.entries ht⟩,
    fun terms => ?_⟩
  obtain ⟨own, hend⟩ := hshared terms
  have hown : (prog.endShared terms "aab" 0 trail).own? = some own := by
    rcases hend with ⟨t, he⟩ | he <;> rw [he] <;> rfl
  exact ⟨own, hown, (hund.keptAtEnd.2 terms).own hown⟩

end BacktrackRegex.Program
