import BacktrackRegex.Proofs.Matching.Progress
import BacktrackRegex.Proofs.Program.Compilation
import BacktrackRegex.Proofs.Program.Moves

/-!
# Searches that follow the reference matcher

The records of a search tell how far the reference matcher has come. A guarded loop looks up where
its latest iteration began. A group that is completed spans what its latest two records say; one
that is still open has the record of its start in front of those.

A search resumes a match at a node if exploring the node comes to what the reference matcher comes
to, whatever records agree with it. Each kind of node has a lemma that takes it from the nodes that
follow.
-/

namespace BacktrackRegex

open Search History Text

/-- A search for a match that begins at `origin`, in a program whose loops are of known kinds. -/
structure Attempt where
  program : Program
  kinds : LoopKinds
  unique : kinds.Unique
  text : String
  origin : Nat

/-- The key under which the loop records its iterations. -/
def LoopKind.key? : LoopKind → Option Key
  | .guarded index => some (.loop index)
  | .plain => none

namespace Attempt

variable {a : Attempt}

/-- The moves of the search. -/
def moves (a : Attempt) : Moves :=
  a.program.move a.text

/-- The number of bytes that are left. -/
def left (a : Attempt) (c : Progress) : Nat :=
  a.text.utf8ByteSize - c.pos

/-- The loop at an occurrence does not record its iterations. -/
def Plain (a : Attempt) (o : Occurrence) : Prop :=
  a.kinds o = some .plain

/-- The match is one that the reference matcher may come to. -/
abbrev Valid (a : Attempt) (c : Progress) : Prop :=
  c.Valid a.text a.origin

/-- The records tell how far the reference matcher has come, inside some groups that are open and
their starts. -/
structure Agrees (a : Attempt) (opened : List (Nat × Nat)) (c : Progress) (h : History) :
    Prop where
  begun : ∀ o i, a.kinds o = some (.guarded i) → (places (.loop i) h).head? = c.begun o
  closed : ∀ g, g ∉ opened.map Prod.fst →
    latestSpan g (places (.group g) h) = .ok (c.spans g)
  started : ∀ g start, (g, start) ∈ opened → ∃ earlier,
    places (.group g) h = start :: earlier ∧ latestSpan g earlier = .ok (c.spans g)
  ordered : Ordered a.origin c.pos h

/-- The operation may be met inside these open groups. -/
def Admits (a : Attempt) (opened : List (Nat × Nat)) : Op → Prop
  | .success => opened = [(0, a.origin)]
  | .backReference g _ => g ∉ opened.map Prod.fst
  | _ => True

/-- The spot is one that the reference matcher may come to. -/
structure Sound (a : Attempt) (s : Spot) (node : Node) (opened : List (Nat × Nat))
    (c : Progress) : Prop where
  isNode : a.program.nodes[s.node]? = some node
  pos : c.pos = s.pos
  valid : a.Valid c
  agrees : a.Agrees opened c s.history
  admits : a.Admits opened node.op

/-- Some match of the reference matcher makes the spot sound. -/
def Visits (a : Attempt) (s : Spot) : Prop :=
  ∃ node opened c, a.Sound s node opened c

/-- A finding of the search is the result of the reference matcher. -/
def Yields (a : Attempt) : Option Progress → Finding → Prop
  | none, r => r = .failed
  | some c, r => ∃ h, r = .matched h ∧ a.Agrees [] c h ∧ c.spans 0 = some ⟨a.origin, c.pos⟩

/-- Exploring a node comes to what the reference matcher comes to, and finds nothing where too few
bytes are left. -/
structure Resumes (a : Attempt) (opened : List (Nat × Nat)) (id : Nat) (c : Progress)
    (result : Option Progress) : Prop where
  eq_none : a.left c < leastFrom a.program.nodes id → result = none
  explores : ∀ h, a.Agrees opened c h →
    ∃ r k, Explores a.moves a.Visits ⟨id, c.pos, h⟩ r k ∧ a.Yields result r

/-! ## Agreement -/

namespace Agrees

variable {opened : List (Nat × Nat)} {c c' : Progress} {h : History} {i start : Nat}

/-- A match that goes on agrees with the same records. -/
theorem moveTo (ha : a.Agrees opened c h) {pos : Nat} (hle : c.pos ≤ pos) :
    a.Agrees opened (c.moveTo pos) h :=
  ⟨ha.begun, ha.closed, ha.started, ha.ordered.moveTo hle⟩

/-- A loop that begins an iteration records its place, if it is guarded. -/
theorem iterate (ha : a.Agrees opened c h) (hv : a.Valid c) {o : Occurrence} {kind : LoopKind}
    (hk : a.kinds o = some kind) : a.Agrees opened (c.iterate o) (noted kind.key? c.pos h) := by
  cases kind with
  | plain =>
    refine ⟨?_, ha.closed, ha.started, ha.ordered⟩
    intro o' i hi
    have hne : o' ≠ o := by
      rintro rfl
      simp [hk] at hi
    simp only [Progress.iterate, hne, ite_false]
    exact ha.begun o' i hi
  | guarded index =>
    constructor
    case begun =>
      intro o' i hi
      by_cases he : o' = o
      · subst he
        obtain rfl : index = i := by simpa using hk.symm.trans hi
        simp [LoopKind.key?, noted, Progress.iterate]
      · have hne : (Key.loop index) ≠ .loop i := by
          intro hk'
          exact he (a.unique o' o i hi (Key.loop.inj hk' ▸ hk))
        simp only [LoopKind.key?, noted, places_cons_of_ne hne, Progress.iterate, he, ite_false]
        exact ha.begun o' i hi
    case closed =>
      intro g hg
      rw [LoopKind.key?, noted, places_cons_of_ne (by simp)]
      exact ha.closed g hg
    case started =>
      intro g start hg
      rw [LoopKind.key?, noted, places_cons_of_ne (by simp)]
      exact ha.started g start hg
    case ordered => exact ha.ordered.cons hv.le _

/-- A group that begins is open. -/
theorem opens (ha : a.Agrees opened c h) (hv : a.Valid c) (hi : i ∉ opened.map Prod.fst) :
    a.Agrees ((i, c.pos) :: opened) c (⟨.group i, c.pos⟩ :: h) := by
  constructor
  case begun =>
    intro o j hj
    rw [places_cons_of_ne (by simp)]
    exact ha.begun o j hj
  case closed =>
    intro g hg
    simp only [List.map_cons, List.mem_cons, not_or] at hg
    rw [places_cons_of_ne (by simpa using Ne.symm hg.1)]
    exact ha.closed g hg.2
  case started =>
    intro g start hg
    rcases List.mem_cons.mp hg with he | hg
    · obtain ⟨rfl, rfl⟩ := Prod.mk.inj he
      exact ⟨places (.group g) h, places_cons_self _ _ _, ha.closed g hi⟩
    · have hne : i ≠ g := by
        rintro rfl
        exact hi (List.mem_map_of_mem hg)
      rw [places_cons_of_ne (by simpa using hne)]
      exact ha.started g start hg
  case ordered => exact ha.ordered.cons hv.le _

/-- A group that ends spans what was matched since it began. -/
theorem closes (ha : a.Agrees ((i, start) :: opened) c h) (hv : a.Valid c)
    (hi : i ∉ opened.map Prod.fst) :
    a.Agrees opened (c.close i start) (⟨.group i, c.pos⟩ :: h) := by
  constructor
  case begun =>
    intro o j hj
    rw [places_cons_of_ne (by simp)]
    exact ha.begun o j hj
  case closed =>
    intro g hg
    by_cases hgi : g = i
    · subst hgi
      obtain ⟨earlier, he, -⟩ := ha.started g start List.mem_cons_self
      simp [places_cons_self, he, latestSpan, Progress.close]
    · rw [places_cons_of_ne (by simpa using Ne.symm hgi)]
      simp only [Progress.close, hgi, ite_false]
      exact ha.closed g (by simpa [hgi] using hg)
  case started =>
    intro g start' hg
    have hgi : g ≠ i := by
      rintro rfl
      exact hi (List.mem_map_of_mem hg)
    rw [places_cons_of_ne (by simpa using Ne.symm hgi)]
    simp only [Progress.close, hgi, ite_false]
    exact ha.started g start' (List.mem_cons_of_mem _ hg)
  case ordered => exact ha.ordered.cons hv.le _

end Agrees

end Attempt

end BacktrackRegex
