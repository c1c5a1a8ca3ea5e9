import BacktrackRegex.Proofs.Program.Compilation
import BacktrackRegex.Proofs.Program.Moves
import BacktrackRegex.Proofs.Search.Exhaustion

/-!
# Balanced marks

Whatever way leads to a node, it is met inside the same capture groups: those that the pattern has
around the place where the node comes from. On each path the marks of a group therefore open and
close it in turn, and a back-reference is met only where its group is closed. Its latest span can be
read then, and lies inside the text. No path meets a fault, whether the search gives up where too
few bytes are left or not.
-/

namespace BacktrackRegex

open Search History

/-- An operation may be met inside some groups if those that follow it may be met inside the groups
that are open then. A mark opens or closes its group, and a back-reference is not met inside it. -/
def Op.Threads (met : Nat → List Nat → Prop) (opened : List Nat) : Op → Prop
  | .success => True
  | .literal _ next => met next opened
  | .branch first second => met first opened ∧ met second opened
  | .loop _ body exit => met body opened ∧ met exit opened
  | .charClass _ next => met next opened
  | .anyChar next => met next opened
  | .mark group next => (group ∉ opened ∧ met next (group :: opened)) ∨
      ∃ rest, opened = group :: rest ∧ group ∉ rest ∧ met next rest
  | .backReference group next => group ∉ opened ∧ met next opened
  | .textStart next => met next opened
  | .textEnd next => met next opened

/-- An operation may be met where more nodes may be met. -/
theorem Op.Threads.mono {met met' : Nat → List Nat → Prop} {opened : List Nat} {op : Op}
    (h : op.Threads met opened) (hle : ∀ i groups, met i groups → met' i groups) :
    op.Threads met' opened := by
  cases op with
  | success => trivial
  | literal _ _ | charClass _ _ | anyChar _ | textStart _ | textEnd _ => exact hle _ _ h
  | branch _ _ | loop _ _ _ => exact h.imp (hle _ _) (hle _ _)
  | backReference _ _ => exact h.imp_right (hle _ _)
  | mark _ _ =>
    exact h.imp (And.imp_right (hle _ _)) fun ⟨rest, ho, hn, hr⟩ => ⟨rest, ho, hn, hle _ _ hr⟩

/-- A proper pattern without patterns inside it is met, with its follower, inside the groups around
it. -/
theorem Pattern.threads_of_leafOp? {p : Pattern} {met : Nat → List Nat → Prop} {groups : List Nat}
    {next width : Nat} {op : Op} (h : p.leafOp? next = some (op, width))
    (hp : p.isProper groups = true) (hnext : met next groups) : op.Threads met groups := by
  cases p with
  | literal s =>
    rw [leafOp?] at h
    split at h
    · simp at h
    · obtain ⟨rfl, -⟩ := Prod.mk.inj (Option.some.inj h)
      exact hnext
  | backReference i =>
    obtain ⟨rfl, -⟩ := Prod.mk.inj (Option.some.inj h)
    exact ⟨by simpa [isProper] using hp, hnext⟩
  | anyChar | charClass _ | textStart | textEnd =>
    obtain ⟨rfl, -⟩ := Prod.mk.inj (Option.some.inj h)
    exact hnext
  | _ => simp [leafOp?] at h

/-- Some nodes, each inside some groups, with the start of a part inside the groups around the part,
lead to each other only. They lie among the nodes of the part, but for its follower. -/
structure Threads (nodes : Array Node) (met : Nat → List Nat → Prop) (groups : List Nat)
    (next start lo hi : Nat) : Prop where
  start : met start groups
  range : ∀ i opened, met i opened → (lo ≤ i ∧ i < hi) ∨ (i = next ∧ opened = groups)
  closed : ∀ i opened node, met i opened → lo ≤ i → nodes[i]? = some node →
    node.op.Threads met opened

/-- The nodes of a part can be met inside certain groups only. -/
def Threaded (nodes : Array Node) (groups : List Nat) (next start lo hi : Nat) : Prop :=
  ∃ met, Threads nodes met groups next start lo hi

namespace Threaded

variable {nodes : Array Node} {groups : List Nat} {next mid start lo m hi : Nat}

/-- A part without nodes is met as its follower. -/
theorem nothing (nodes : Array Node) (groups : List Nat) (hnext : next < lo) :
    Threaded nodes groups next next lo lo := by
  refine ⟨fun i opened => i = next ∧ opened = groups, ⟨rfl, rfl⟩, fun _ _ h => Or.inr h, ?_⟩
  rintro i opened node ⟨rfl, rfl⟩ hlo
  omega

/-- A single node of a proper pattern. -/
theorem leaf {p : Pattern} {op : Op} {width least : Nat} (hp : p.leafOp? next = some (op, width))
    (hw : p.isProper groups = true) (hn : nodes[lo]? = some ⟨op, least⟩) (hnext : next < lo) :
    Threaded nodes groups next lo lo (lo + 1) := by
  refine ⟨fun i opened => (i = lo ∨ i = next) ∧ opened = groups, ⟨Or.inl rfl, rfl⟩, ?_, ?_⟩
  · rintro i opened ⟨rfl | rfl, rfl⟩
    · exact Or.inl (by omega)
    · exact Or.inr ⟨rfl, rfl⟩
  · rintro i opened node ⟨rfl | rfl, rfl⟩ hlo hn'
    · obtain rfl := Option.some.inj (hn.symm.trans hn')
      exact Pattern.threads_of_leafOp? hp hw ⟨Or.inr rfl, rfl⟩
    · omega

/-- A part in front of another one. -/
theorem seq (h : Threaded nodes groups next mid lo m) (h' : Threaded nodes groups mid start m hi)
    (hlo : lo ≤ m) (hhi : m ≤ hi) : Threaded nodes groups next start lo hi := by
  obtain ⟨met, h⟩ := h
  obtain ⟨met', h'⟩ := h'
  refine ⟨fun i opened => met i opened ∨ met' i opened, Or.inr h'.start, ?_, ?_⟩
  · have hrest {i : Nat} {opened : List Nat} (hi' : met i opened) :
        (lo ≤ i ∧ i < hi) ∨ (i = next ∧ opened = groups) :=
      (h.range i opened hi').imp_left (by omega)
    rintro i opened (hi' | hi')
    · exact hrest hi'
    · rcases h'.range i opened hi' with hr | ⟨rfl, rfl⟩
      · exact Or.inl (by omega)
      · exact hrest h.start
  · have hrest {i : Nat} {opened : List Nat} {node : Node} (hi' : met i opened) (hl : lo ≤ i)
        (hn : nodes[i]? = some node) :
        node.op.Threads (fun i opened => met i opened ∨ met' i opened) opened :=
      (h.closed i opened node hi' hl hn).mono fun _ _ => Or.inl
    rintro i opened node (hi' | hi') hl hn
    · exact hrest hi' hl hn
    · rcases h'.range i opened hi' with hr | ⟨rfl, rfl⟩
      · exact (h'.closed i opened node hi' hr.1 hn).mono fun _ _ => Or.inr
      · exact hrest h.start hl hn

/-- A decision behind two parts with the same follower. -/
theorem branch {least : Nat} (h : Threaded nodes groups next start lo m)
    (h' : Threaded nodes groups next mid m hi)
    (hn : nodes[hi]? = some ⟨.branch start mid, least⟩) (hnext : next < lo) (hlo : lo ≤ m)
    (hhi : m ≤ hi) : Threaded nodes groups next hi lo (hi + 1) := by
  obtain ⟨met, h⟩ := h
  obtain ⟨met', h'⟩ := h'
  refine ⟨fun i opened => (i = hi ∧ opened = groups) ∨ met i opened ∨ met' i opened,
    Or.inl ⟨rfl, rfl⟩, ?_, ?_⟩
  · rintro i opened (⟨rfl, rfl⟩ | hi' | hi')
    · exact Or.inl (by omega)
    · exact (h.range i opened hi').imp_left (by omega)
    · exact (h'.range i opened hi').imp_left (by omega)
  · rintro i opened node (⟨rfl, rfl⟩ | hi' | hi') hl hn'
    · obtain rfl := Option.some.inj (hn.symm.trans hn')
      exact ⟨Or.inr (Or.inl h.start), Or.inr (Or.inr h'.start)⟩
    · exact (h.closed i opened node hi' hl hn').mono fun _ _ hj => Or.inr (Or.inl hj)
    · rcases h'.range i opened hi' with hr | ⟨rfl, -⟩
      · exact (h'.closed i opened node hi' hr.1 hn').mono fun _ _ hj => Or.inr (Or.inr hj)
      · omega

/-- The deciding node of a loop in front of its body. -/
theorem loop {kind : LoopKind} {body least : Nat} (h : Threaded nodes groups lo body (lo + 1) hi)
    (hn : nodes[lo]? = some ⟨kind.op body next, least⟩) (hnext : next < lo) (hle : lo + 1 ≤ hi) :
    Threaded nodes groups next lo lo hi := by
  obtain ⟨met, h⟩ := h
  refine ⟨fun i opened => ((i = lo ∨ i = next) ∧ opened = groups) ∨ met i opened,
    Or.inl ⟨Or.inl rfl, rfl⟩, ?_, ?_⟩
  · rintro i opened (⟨rfl | rfl, rfl⟩ | hi')
    · exact Or.inl (by omega)
    · exact Or.inr ⟨rfl, rfl⟩
    · exact Or.inl (by have := h.range i opened hi'; omega)
  · have hself {node : Node} (hn' : nodes[lo]? = some node) : node.op.Threads
        (fun i opened => ((i = lo ∨ i = next) ∧ opened = groups) ∨ met i opened) groups := by
      obtain rfl := Option.some.inj (hn.symm.trans hn')
      cases kind <;> exact ⟨Or.inr h.start, Or.inl ⟨Or.inr rfl, rfl⟩⟩
    rintro i opened node (⟨rfl | rfl, rfl⟩ | hi') hl hn'
    · exact hself hn'
    · omega
    · rcases h.range i opened hi' with hr | ⟨rfl, rfl⟩
      · exact (h.closed i opened node hi' hr.1 hn').mono fun _ _ => Or.inr
      · exact hself hn'

/-- The body of a capture group is met inside the group, between the marks of its ends. -/
theorem capture {i body least least' : Nat} (hw : i ∉ groups)
    (hstop : nodes[lo]? = some ⟨.mark i next, least⟩)
    (h : Threaded nodes (i :: groups) lo body (lo + 1) hi)
    (hstart : nodes[hi]? = some ⟨.mark i body, least'⟩) (hnext : next < lo) (hle : lo + 1 ≤ hi) :
    Threaded nodes groups next hi lo (hi + 1) := by
  obtain ⟨met, h⟩ := h
  refine ⟨fun j opened => ((j = hi ∨ j = next) ∧ opened = groups) ∨
    (j = lo ∧ opened = i :: groups) ∨ met j opened, Or.inl ⟨Or.inl rfl, rfl⟩, ?_, ?_⟩
  · rintro j opened (⟨rfl | rfl, rfl⟩ | ⟨rfl, -⟩ | hj)
    · exact Or.inl (by omega)
    · exact Or.inr ⟨rfl, rfl⟩
    · exact Or.inl (by omega)
    · exact Or.inl (by have := h.range j opened hj; omega)
  · have hend {node : Node} (hn : nodes[lo]? = some node) : node.op.Threads
        (fun j opened => ((j = hi ∨ j = next) ∧ opened = groups) ∨
          (j = lo ∧ opened = i :: groups) ∨ met j opened) (i :: groups) := by
      obtain rfl := Option.some.inj (hstop.symm.trans hn)
      exact Or.inr ⟨groups, rfl, hw, Or.inl ⟨Or.inr rfl, rfl⟩⟩
    rintro j opened node (⟨rfl | rfl, rfl⟩ | ⟨rfl, rfl⟩ | hj) hl hn
    · obtain rfl := Option.some.inj (hstart.symm.trans hn)
      exact Or.inl ⟨hw, Or.inr (Or.inr h.start)⟩
    · omega
    · exact hend hn
    · rcases h.range j opened hj with hr | ⟨rfl, rfl⟩
      · exact (h.closed j opened node hj hr.1 hn).mono fun _ _ hk => Or.inr (Or.inr hk)
      · exact hend hn

end Threaded

/-- The nodes of all layouts of proper patterns can be met inside certain groups only. -/
theorem composes_threaded (nodes : Array Node) :
    Composes nodes Pattern.isProper fun groups _ next start lo hi =>
      Threaded nodes groups next start lo hi where
  nothing hnext := .nothing nodes _ hnext
  leaf hp hw hn hnext := .leaf hp hw hn hnext
  seq h h' _ hlo hhi _ := h.seq h' hlo hhi
  branch h h' hn hnext hlo hhi _ _ := h.branch h' hn hnext hlo hhi
  loop h hn hnext hle _ := h.loop hn hnext hle
  capture hw hstop h hstart hnext hle _ :=
    .capture (by simpa [Pattern.isProper] using hw) hstop h hstart hnext hle

/-- The nodes of a program, each inside some groups, lead to each other only, from the root inside
group 0 on. -/
structure Program.Meets (prog : Program) (met : Nat → List Nat → Prop) : Prop where
  root : met prog.root [0]
  closed : ∀ i opened node, met i opened → prog.nodes[i]? = some node → node.op.Threads met opened

/-- The nodes of a program can be met inside certain groups only. -/
def Program.Balanced (prog : Program) : Prop :=
  ∃ met, prog.Meets met

/-- The nodes of a program, each inside some groups, lead to each other only. -/
def Program.Closes (prog : Program) (met : Nat → List Nat → Prop) : Prop :=
  ∀ (i : Nat) (opened : List Nat) (node : Node), met i opened → prog.nodes[i]? = some node →
    node.op.Threads met opened

/-- The nodes of a compiled program can be met inside certain groups only, from the root on inside
those around the pattern. -/
theorem Program.exists_closes {p : Pattern} {groups : List Nat}
    (hw : p.isWellFormed groups = true) {limit : Nat} {prog : Program}
    (hc : p.compile? limit = some prog) :
    ∃ met, met prog.root groups ∧ prog.Closes met := by
  obtain ⟨kinds, hlays⟩ := Pattern.lays_of_compile? hc
  obtain ⟨met, h⟩ := hlays.laid.compose (composes_threaded _) Pattern.hasOption_of_isProper hw
    (by simp) Nat.one_pos
  refine ⟨met, h.start, fun i opened node hi hn => ?_⟩
  rcases Nat.eq_zero_or_pos i with rfl | hpos
  · obtain rfl := Option.some.inj (hlays.success.symm.trans hn)
    trivial
  · exact h.closed i opened node hi hpos hn

/-- The nodes of a compiled program can be met inside certain groups only. -/
theorem Program.balanced_of_compile? {p : Pattern} (hw : p.isWellFormed [0] = true) {limit : Nat}
    {prog : Program} (hc : p.compile? limit = some prog) : prog.Balanced := by
  obtain ⟨met, hroot, hcloses⟩ := exists_closes hw hc
  exact ⟨met, hroot, hcloses⟩

/-! ## Groups that are open -/

namespace History

/-- Exactly some groups are open: they have been marked an odd number of times. -/
def Opens (h : History) (opened : List Nat) : Prop :=
  ∀ group, (places (.group group) h).length % 2 = if group ∈ opened then 1 else 0

variable {h : History} {opened : List Nat} {pos : Nat}

/-- Records of iterations open and close no group. -/
theorem Opens.iterate (ho : h.Opens opened) (index : Nat) :
    Opens (⟨.loop index, pos⟩ :: h) opened := fun group => by
  rw [places_cons_of_ne (by simp)]
  exact ho group

/-- A mark opens a group that is closed. -/
theorem Opens.opens (ho : h.Opens opened) {group : Nat} (hg : group ∉ opened) :
    Opens (⟨.group group, pos⟩ :: h) (group :: opened) := fun other => by
  have hother := ho other
  by_cases he : other = group
  · subst he
    rw [if_neg hg] at hother
    rw [places_cons_self, List.length_cons, if_pos List.mem_cons_self]
    omega
  · rw [places_cons_of_ne (by simpa using Ne.symm he), hother]
    simp [he]

/-- A mark closes the group that was opened last. -/
theorem Opens.closes {group : Nat} (ho : h.Opens (group :: opened)) (hg : group ∉ opened) :
    Opens (⟨.group group, pos⟩ :: h) opened := fun other => by
  have hother := ho other
  by_cases he : other = group
  · subst he
    rw [if_pos List.mem_cons_self] at hother
    rw [places_cons_self, List.length_cons, if_neg hg]
    omega
  · rw [places_cons_of_ne (by simpa using Ne.symm he), hother]
    simp [he]

/-- A group that is closed has a span that can be read, or none. -/
theorem Opens.latestSpan_ne_error (ho : h.Opens opened) {group : Nat} (hg : group ∉ opened)
    (fault : Fault) : latestSpan group (places (.group group) h) ≠ .error fault := by
  have hgroup := ho group
  rw [if_neg hg] at hgroup
  cases hp : places (.group group) h with
  | nil => simp [latestSpan]
  | cons stop rest =>
    cases rest with
    | nil => simp [hp] at hgroup
    | cons start _ => simp [latestSpan]

/-- The places under a key are places of records. -/
theorem places_sublist (key : Key) (h : History) : (places key h).Sublist (h.map Entry.pos) := by
  induction h with
  | nil => exact List.nil_sublist _
  | cons e h ih =>
    rw [places, List.map_cons]
    split
    · exact ih.cons_cons _
    · exact ih.cons _

/-- The latest span of a group does not end before it starts, nor behind the place of the search. -/
theorem Ordered.latestSpan_le {origin : Nat} (ho : Ordered origin pos h) {group : Nat} {span : Span}
    (hs : latestSpan group (places (.group group) h) = .ok (some span)) :
    span.start ≤ span.stop ∧ span.stop ≤ pos := by
  have hsorted : (h.map Entry.pos).Pairwise fun newer older => older ≤ newer :=
    List.pairwise_map.mpr ho.sorted
  have hplaces := hsorted.sublist (places_sublist (.group group) h)
  have hmem : ∀ q ∈ places (.group group) h, q ≤ pos := fun q hq => by
    obtain ⟨e, he, rfl⟩ := List.mem_map.mp ((places_sublist _ _).subset hq)
    exact (ho.bounds e he).2
  cases hp : places (.group group) h with
  | nil => simp [hp, latestSpan] at hs
  | cons stop rest =>
    cases rest with
    | nil => simp [hp, latestSpan] at hs
    | cons start rest =>
      rw [hp] at hs hplaces hmem
      obtain rfl := Option.some.inj (Except.ok.inj hs)
      exact ⟨(List.pairwise_cons.mp hplaces).1 start List.mem_cons_self,
        hmem stop List.mem_cons_self⟩

end History

/-! ## Paths without faults -/

namespace Program

/-- What holds of each spot on a path: the search stands inside the text, the records are of places
up to there, in their order, and the groups that are open are those inside which the node is met. -/
structure Steady (met : Nat → List Nat → Prop) (length : Nat) (s : Spot) : Prop where
  pos_le : s.pos ≤ length
  ordered : Ordered 0 s.pos s.history
  opens : ∃ opened, met s.node opened ∧ s.history.Opens opened

variable {prog : Program} {text : String} {met : Nat → List Nat → Prop} {length : Nat}
  {s s' : Spot} {op : Op}

/-- The step of an operation leads to a node inside the groups that are open then. -/
theorem Steps.opens (h : Steps length s op s') {opened : List Nat} (ht : op.Threads met opened)
    (ho : s.history.Opens opened) : ∃ opened', met s'.node opened' ∧ s'.history.Opens opened' := by
  cases h with
  | onward hop hw hle =>
    refine ⟨opened, ?_, ho⟩
    cases op with
    | success | branch _ _ | mark _ _ => simp [Op.exit?] at hop
    | loop _ _ _ | backReference _ _ =>
      obtain ⟨rfl, -⟩ := Prod.mk.inj (Option.some.inj hop)
      exact ht.2
    | _ =>
      obtain ⟨rfl, -⟩ := Prod.mk.inj (Option.some.inj hop)
      exact ht
  | mark =>
    rcases ht with ⟨hg, hnext⟩ | ⟨rest, rfl, hg, hnext⟩
    · exact ⟨_, hnext, ho.opens hg⟩
    · exact ⟨rest, hnext, ho.closes hg⟩
  | first => exact ⟨opened, ht.1, ho⟩
  | second => exact ⟨opened, ht.2, ho⟩
  | @iterate index _ _ _ => exact ⟨opened, ht.1, ho.iterate index⟩

/-- The step of an operation leads to a place that is not before it, and records its own place if
any. -/
theorem Steps.ordered (h : Steps length s op s') (hle : s.pos ≤ length)
    (ho : Ordered 0 s.pos s.history) : s'.pos ≤ length ∧ Ordered 0 s'.pos s'.history := by
  cases h with
  | onward hop hw hle' => exact ⟨hle', ho.moveTo (Nat.le_trans (Nat.le_add_right _ _) hw)⟩
  | mark | iterate _ => exact ⟨hle, ho.cons (Nat.zero_le _) _⟩
  | first | second => exact ⟨hle, ho⟩

/-- What holds of the spots on a path is kept by each step. -/
theorem Steady.step (hm : prog.Closes met) (h : Steady met text.utf8ByteSize s)
    (hl : Leads (prog.unprunedMove text) s s') : Steady met text.utf8ByteSize s' := by
  obtain ⟨hle, node, hn, hs⟩ := steps_of_leads hl
  obtain ⟨opened, hmet, ho⟩ := h.opens
  obtain ⟨hle', hordered⟩ := hs.ordered hle h.ordered
  exact ⟨hle', hordered, hs.opens (hm _ _ node hmet hn) ho⟩

/-- A search begins inside group 0. -/
theorem Steady.root (hm : prog.Meets met) {start : Nat} (hstart : start ≤ length) :
    Steady met length ⟨prog.root, start, [⟨.group 0, start⟩]⟩ where
  pos_le := hstart
  ordered := ⟨by simp, List.pairwise_singleton _ _⟩
  opens := ⟨[0], hm.root, Opens.opens (fun _ => by simp [places]) (by simp)⟩

/-- No spot on a path meets a fault. -/
theorem Steady.noFault (hm : prog.Closes met) (h : Steady met text.utf8ByteSize s) (fault : Fault) :
    s.move (prog.unprunedMove text) ≠ .fail fault := by
  intro hmove
  obtain ⟨⟨op, least⟩, hn, hmove⟩ := exists_node_of_move h.pos_le hmove (by simp)
  obtain ⟨group, next, rfl⟩ := unprunedMoveAt_fail hmove
  obtain ⟨opened, hmet, ho⟩ := h.opens
  have ht := hm _ _ _ hmet hn
  simp only [unprunedMoveAt, consumeGroup, Trail.captured_eq, Trail.history_ofHistory] at hmove
  split at hmove
  · next fault' hc => exact ho.latestSpan_ne_error ht.1 fault' hc
  · simp at hmove
  · next span hc =>
    obtain ⟨hle, hle'⟩ := h.ordered.latestSpan_le hc
    have := h.pos_le
    rw [if_neg (by omega)] at hmove
    split at hmove <;> simp at hmove

end Program

end BacktrackRegex
