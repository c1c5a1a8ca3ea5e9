import BacktrackRegex.Proofs.Search.History
import Mathlib.Data.List.Forall2
import Mathlib.Data.List.Induction

/-!
# Forks of a trail

A trail and its forks write to one storage. Only the innermost of them is in use; when it ends, the
trail that it was forked from is used again, over the storage as the fork has left it. Beside them
stands the plain view, in which each trail has a list of records of its own, and a fork begins with
a copy.

The trails show what the lists hold for exactly as long as no record is written over another one
that an outer trail still holds. This only happens when a fork was cut back below the length at
which it was forked, and then pushes a record there: the check on cutting back does not prevent it.
-/

namespace BacktrackRegex

open History

namespace Trail

/-- The trail shows the records of a list, from the oldest to the newest, and nothing else of its
storage. -/
structure Shows (t : Trail) (es : List Entry) : Prop where
  top : t.top = es.length
  entries : t.entries = es
  find? : ∀ key, t.find? key = (places key es.reverse).head?
  captured : ∀ group, t.captured group = latestSpan group (places (.group group) es.reverse)

/-- All that a trail shows follows from its records. -/
theorem shows_iff {t : Trail} {es : List Entry} : t.Shows es ↔ t.entries = es := by
  refine ⟨Shows.entries, ?_⟩
  rintro rfl
  exact ⟨t.length_entries.symm, rfl, t.find?_eq, t.captured_eq⟩

/-! ## What pushing writes to the storage -/

/-- A record is written behind those of the trail, and nothing else is. -/
theorem getElem?_storage_push (t : Trail) (key : Key) (pos i : Nat) :
    (t.push key pos).storage[i]? = if i = t.top then some ⟨key, pos⟩ else t.storage[i]? := by
  rw [push]
  split
  · next h => simp only [Array.getElem?_set h, eq_comm]
  · next h =>
    have htop : t.top = t.storage.size := Nat.le_antisymm t.top_le (Nat.le_of_not_lt h)
    simp only [htop, Array.getElem?_push]

/-- A storage never shrinks. -/
theorem size_le_size_push (t : Trail) (key : Key) (pos : Nat) :
    t.storage.size ≤ (t.push key pos).storage.size := by
  rw [push]
  split <;> simp

/-- A trail cut back to its first `top` records, if it has as many. -/
def cutOrKept (t : Trail) (top : Nat) : Trail :=
  match t.cut top with
  | .ok t => t
  | .error _ => t

/-- Cutting back leaves the storage as it is. -/
@[simp] theorem storage_cutOrKept (t : Trail) (top : Nat) :
    (t.cutOrKept top).storage = t.storage := by
  rw [cutOrKept, cut]
  split
  · next h =>
    split at h
    · rw [← Except.ok.inj h]
    · simp at h
  · rfl

/-- Cutting back keeps the oldest records. -/
theorem entries_cutOrKept (t : Trail) (top : Nat) :
    (t.cutOrKept top).entries = t.entries.take top := by
  by_cases h : top ≤ t.top
  · obtain ⟨t', hcut, ht'⟩ := exists_cut h
    simp only [cutOrKept, hcut, ht']
  · have hlen : t.entries.length ≤ top := by
      rw [length_entries]
      omega
    simp only [cutOrKept, cut, dif_neg h, List.take_of_length_le hlen]

/-- The records of a trail over the storage of another one are those that are written there. -/
theorem getElem?_entries_after {t u : Trail} (h : t.top ≤ u.storage.size) (i : Nat) :
    (t.after u).entries[i]? = if i < t.top then u.storage[i]? else none := by
  simp only [entries, after, Nat.min_eq_left h, List.getElem?_take, Array.getElem?_toList]

/-- A record that is pushed to a trail is written over the one that another trail over the same
storage has at its place, if it has one there. -/
theorem entries_after_push {t u : Trail} (h : t.top ≤ u.storage.size) (key : Key) (pos : Nat) :
    (t.after (u.push key pos)).entries = (t.after u).entries.set u.top ⟨key, pos⟩ := by
  have hlen : (t.after u).entries.length = t.top := by
    rw [length_entries]
    exact Nat.min_eq_left h
  refine List.ext_getElem? fun i => ?_
  rw [getElem?_entries_after (Nat.le_trans h (u.size_le_size_push key pos)),
    getElem?_storage_push, List.getElem?_set, getElem?_entries_after h, hlen]
  by_cases hi : i = u.top
  · simp only [hi, ite_true]
  · simp only [hi, Ne.symm hi, ite_false]

/-- A record that is pushed to a trail spares the records of another one over the same storage
exactly if it is written behind them, or over the same record. -/
theorem entries_after_push_iff {t u : Trail} (h : t.top ≤ u.storage.size) (key : Key) (pos : Nat) :
    (t.after (u.push key pos)).entries = (t.after u).entries ↔
      ∀ e, (t.after u).entries[u.top]? = some e → e = ⟨key, pos⟩ := by
  rw [entries_after_push h]
  constructor
  · intro heq e he
    have hlt := (List.getElem?_eq_some_iff.mp he).1
    rw [← heq, List.getElem?_set_self hlt] at he
    exact (Option.some.inj he).symm
  · intro hspares
    cases he : (t.after u).entries[u.top]? with
    | none => exact List.set_eq_of_length_le (List.getElem?_eq_none_iff.mp he)
    | some e =>
      obtain ⟨hlt, hget⟩ := List.getElem?_eq_some_iff.mp he
      rw [← hspares e he, ← hget, List.set_getElem_self]

end Trail

/-! ## Trails and lists side by side -/

/-- An operation on the innermost of a trail and its forks. -/
inductive Trail.Action where
  /-- The place is recorded under a key. -/
  | push (key : Key) (pos : Nat)
  /-- The newest records are dropped; nothing happens if there are fewer than `top` ones. -/
  | cut (top : Nat)
  /-- A fork is used from now on. -/
  | fork
  /-- The fork ends, and the trail that it was forked from is used again. -/
  | join
  deriving DecidableEq, Repr

/-- A trail in use, and those that it was forked from, the nearest one first. -/
structure Forks where
  inner : Trail
  outer : List Trail
  fits : ∀ t ∈ outer, t.top ≤ inner.storage.size

/-- The lists of records of a trail in use and of those that it was forked from. -/
structure Copies where
  inner : List Entry
  outer : List (List Entry)

namespace Copies

/-- A list of records that has no forks. -/
def start (es : List Entry) : Copies :=
  ⟨es, []⟩

/-- The lists after an operation. -/
def perform (c : Copies) : Trail.Action → Copies
  | .push key pos => { c with inner := c.inner ++ [⟨key, pos⟩] }
  | .cut top => { c with inner := c.inner.take top }
  | .fork => ⟨c.inner, c.inner :: c.outer⟩
  | .join =>
    match c.outer with
    | [] => c
    | es :: outer => ⟨es, outer⟩

/-- The lists after some operations. -/
def run (c : Copies) (actions : List Trail.Action) : Copies :=
  actions.foldl perform c

/-- Whether an operation, if it cuts the trail in use back, leaves it at least as long as the outer
ones. -/
def StaysAbove (c : Copies) : Trail.Action → Prop
  | .cut top => ∀ es ∈ c.outer, es.length ≤ top
  | _ => True

/-- Whether an operation spares the outer trails: none of them has another record at the place where
a record is pushed. -/
def Spares (c : Copies) : Trail.Action → Prop
  | .push key pos => ∀ es ∈ c.outer, ∀ e, es[c.inner.length]? = some e → e = ⟨key, pos⟩
  | _ => True

/-- No outer list is longer than those inside it. -/
def Nested (c : Copies) : Prop :=
  (c.inner :: c.outer).Pairwise fun newer older => older.length ≤ newer.length

/-- Lists stay nested where none is cut back below an outer one. -/
theorem Nested.perform {c : Copies} (h : c.Nested) {action : Trail.Action}
    (ha : c.StaysAbove action) : (c.perform action).Nested := by
  obtain ⟨hinner, houter⟩ := List.pairwise_cons.mp h
  cases action with
  | push key pos =>
    refine List.pairwise_cons.mpr ⟨fun es hes => ?_, houter⟩
    exact Nat.le_trans (hinner es hes) (by simp [Copies.perform])
  | cut top =>
    refine List.pairwise_cons.mpr ⟨fun es hes => ?_, houter⟩
    exact Nat.le_trans (Nat.le_min.mpr ⟨ha es hes, hinner es hes⟩)
      (Nat.le_of_eq List.length_take.symm)
  | fork =>
    exact List.pairwise_cons.mpr ⟨List.forall_mem_cons.mpr ⟨Nat.le_refl _, hinner⟩, h⟩
  | join =>
    obtain ⟨es, _ | ⟨es', outer⟩⟩ := c
    · exact h
    · exact houter

/-- What is pushed to the innermost of nested lists spares the outer trails. -/
theorem Nested.spares {c : Copies} (h : c.Nested) (action : Trail.Action) : c.Spares action := by
  cases action with
  | push key pos =>
    intro es hes e he
    rw [List.getElem?_eq_none ((List.pairwise_cons.mp h).1 es hes)] at he
    simp at he
  | _ => trivial

end Copies

namespace Forks

/-- A trail that has no forks. -/
def start (t : Trail) : Forks :=
  ⟨t, [], by simp⟩

/-- The trails after an operation. -/
def perform (s : Forks) : Trail.Action → Forks
  | .push key pos => ⟨s.inner.push key pos, s.outer,
      fun t ht => Nat.le_trans (s.fits t ht) (s.inner.size_le_size_push key pos)⟩
  | .cut top => ⟨s.inner.cutOrKept top, s.outer, by simpa using s.fits⟩
  | .fork => ⟨s.inner.fork, s.inner :: s.outer, List.forall_mem_cons.mpr ⟨s.inner.top_le, s.fits⟩⟩
  | .join =>
    match s with
    | ⟨_, [], _⟩ => s
    | ⟨t, u :: outer, fits⟩ => ⟨u.after t, outer, (List.forall_mem_cons.mp fits).2⟩

/-- The trails after some operations. -/
def run (s : Forks) (actions : List Trail.Action) : Forks :=
  actions.foldl perform s

/-- The trail in use shows its list, and so does each trail that it was forked from, as it will be
when it is used again. -/
def Shows (s : Forks) (c : Copies) : Prop :=
  List.Forall₂ Trail.Shows (s.inner :: s.outer.map (·.after s.inner)) (c.inner :: c.outer)

/-- What the trails show follows from their records. -/
theorem shows_iff {s : Forks} {c : Copies} : s.Shows c ↔
    s.inner.entries = c.inner ∧ s.outer.map (fun t => (t.after s.inner).entries) = c.outer := by
  have hrel : Trail.Shows = fun t es => t.entries = es := by
    funext t es
    exact propext Trail.shows_iff
  have houter : s.outer.map (fun t => (t.after s.inner).entries) = c.outer ↔
      List.Forall₂ (fun t es => (t.after s.inner).entries = es) s.outer c.outer := by
    rw [← List.forall₂_eq_eq_eq, List.forall₂_map_left_iff]
  rw [Shows, List.forall₂_cons, Trail.shows_iff, hrel, List.forall₂_map_left_iff, houter]

/-- An operation keeps trails and lists together exactly if it spares the outer trails. -/
theorem shows_perform_iff {s : Forks} {c : Copies} (h : s.Shows c) (action : Trail.Action) :
    (s.perform action).Shows (c.perform action) ↔ c.Spares action := by
  obtain ⟨inner, outer⟩ := c
  obtain ⟨rfl, rfl⟩ := shows_iff.mp h
  rw [shows_iff]
  cases action with
  | push key pos =>
    simp only [perform, Copies.perform, Copies.Spares, Trail.entries_push, true_and,
      List.map_inj_left, List.forall_mem_map, Trail.length_entries]
    exact forall₂_congr fun t ht => Trail.entries_after_push_iff (s.fits t ht) key pos
  | cut top =>
    simp [perform, Copies.perform, Copies.Spares, Trail.entries_cutOrKept, Trail.after]
  | fork =>
    have hself : (s.inner.after s.inner).entries = s.inner.entries := by
      simp only [Trail.entries, Trail.after, Nat.min_eq_left s.inner.top_le]
    simp [perform, Copies.perform, Copies.Spares, Trail.fork, hself]
  | join =>
    obtain ⟨t, _ | ⟨u, outer⟩, fits⟩ := s <;>
      simp [perform, Copies.perform, Copies.Spares, Trail.after]

/-- A trail that has no forks shows its records. -/
theorem shows_start (t : Trail) : (start t).Shows (.start t.entries) :=
  shows_iff.mpr ⟨rfl, rfl⟩

/-- An operation more keeps trails and lists together exactly if it spares the outer trails. -/
theorem shows_run_append_iff {t : Trail} {done : List Trail.Action} {action : Trail.Action}
    (h : ((start t).run done).Shows ((Copies.start t.entries).run done)) :
    ((start t).run (done ++ [action])).Shows ((Copies.start t.entries).run (done ++ [action])) ↔
      ((Copies.start t.entries).run done).Spares action := by
  simp only [run, Copies.run, List.foldl_append, List.foldl_cons, List.foldl_nil]
  exact shows_perform_iff h action

/-- Operations that spare the outer trails keep trails and lists together. -/
theorem shows_of_spares {t : Trail} {actions : List Trail.Action}
    (h : ∀ done action, done ++ [action] <+: actions →
      ((Copies.start t.entries).run done).Spares action) :
    ∀ done, done <+: actions →
      ((start t).run done).Shows ((Copies.start t.entries).run done) := by
  intro done
  induction done using List.reverseRecOn with
  | nil => exact fun _ => shows_start t
  | append_singleton done action ih =>
    intro hdone
    have hshows := ih ((List.prefix_append _ _).trans hdone)
    exact (shows_run_append_iff hshows).mpr (h done action hdone)

/-- A trail and its forks show what lists of records would hold after each of some operations
exactly if each of the operations spares the outer trails. -/
theorem shows_iff_spares (t : Trail) (actions : List Trail.Action) :
    (∀ done, done <+: actions → ((start t).run done).Shows ((Copies.start t.entries).run done)) ↔
      ∀ done action, done ++ [action] <+: actions →
        ((Copies.start t.entries).run done).Spares action := by
  refine ⟨fun hshows done action hdone => ?_, shows_of_spares⟩
  have hbefore := hshows done ((List.prefix_append _ _).trans hdone)
  exact (shows_run_append_iff hbefore).mp (hshows _ hdone)

/-- Trails that are never cut back below the length at which they were forked show what the lists
hold. -/
theorem shows_of_staysAbove {t : Trail} {actions : List Trail.Action}
    (h : ∀ done action, done ++ [action] <+: actions →
      ((Copies.start t.entries).run done).StaysAbove action) :
    ∀ done, done <+: actions →
      ((start t).run done).Shows ((Copies.start t.entries).run done) := by
  have hnested (done : List Trail.Action) (hdone : done <+: actions) :
      ((Copies.start t.entries).run done).Nested := by
    induction done using List.reverseRecOn with
    | nil => exact List.pairwise_singleton _ _
    | append_singleton done action ih =>
      simp only [Copies.run, List.foldl_append, List.foldl_cons, List.foldl_nil]
      exact (ih ((List.prefix_append _ _).trans hdone)).perform (h done action hdone)
  exact shows_of_spares fun done action hdone =>
    (hnested done ((List.prefix_append _ _).trans hdone)).spares action

/-- A fork that is cut back to nothing writes over the record of the trail it was forked from, which
then shows the record of the fork. -/
theorem not_shows_of_undercut :
    let actions : List Trail.Action :=
      [.push (.group 0) 0, .fork, .cut 0, .push (.group 1) 1, .join]
    ((start .empty).run actions).inner.entries = [⟨.group 1, 1⟩] ∧
      ((Copies.start []).run actions).inner = [⟨.group 0, 0⟩] ∧
      ¬ ((start .empty).run actions).Shows ((Copies.start []).run actions) := by
  have htrail : ((start .empty).run
      [.push (.group 0) 0, .fork, .cut 0, .push (.group 1) 1, .join]).inner.entries =
        [⟨.group 1, 1⟩] := by decide
  refine ⟨htrail, rfl, fun h => ?_⟩
  have hlist := (shows_iff.mp h).1
  rw [htrail] at hlist
  exact absurd hlist (by decide)

end Forks

end BacktrackRegex
