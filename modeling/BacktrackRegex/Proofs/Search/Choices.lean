import BacktrackRegex.Proofs.Search.Path

/-!
# The stack of choices

A choice is kept with the length that the trail has at that moment, and the trail only grows above
it until the search comes back to it. The lengths of the choices therefore never exceed that of the
trail, nor those of newer choices, and the trail can always be cut back.

What a choice was kept with is restored when the search comes back to it. No record below its length
is written over in the meantime, since all choices that are kept and given up in between have at
least that length.
-/

namespace BacktrackRegex.Search

/-- What a step does to the trail and the choices. It goes on with both and at most adds to the
trail, or keeps a choice beside that for the trail as it was, or goes back to the newest choice. -/
inductive Effect (s : State) : State → Prop where
  | onward {node pos t} (ht : s.trail.entries <+: t.entries) : Effect s ⟨node, pos, t, s.choices⟩
  | decide {first second t} (ht : s.trail.entries <+: t.entries) :
      Effect s ⟨first, s.pos, t, ⟨second, s.pos, s.trail.top⟩ :: s.choices⟩
  | back {choice rest t} (hc : s.choices = choice :: rest) (hle : choice.top ≤ s.trail.top)
      (ht : t.entries = s.trail.entries.take choice.top) :
      Effect s ⟨choice.node, choice.pos, t, rest⟩

/-- Recording at most adds to a trail. -/
theorem prefix_record (t : Trail) (key : Option Key) (pos : Nat) :
    t.entries <+: (record t key pos).entries := by
  cases key with
  | none => exact List.prefix_rfl
  | some key =>
    rw [record, Trail.entries_push]
    exact List.prefix_append _ _

/-- Going back leads to the newest choice. -/
theorem effect_of_retreat {s s' : State} (h : retreat s.trail s.choices = .inl s') :
    Effect s s' := by
  cases hc : s.choices with
  | nil => simp [hc, retreat] at h
  | cons choice rest =>
    rw [hc, retreat] at h
    split at h
    · next t hcut =>
      obtain ⟨hle, ht⟩ := Trail.entries_of_cut hcut
      obtain rfl := Sum.inl.inj h
      exact .back hc hle ht
    · simp at h

/-- A move does one of these things, if the search goes on. -/
theorem effect_of_act {move : Move} {s s' : State} (h : act move s = .inl s') : Effect s s' := by
  obtain ⟨node, pos, trail, choices⟩ := s
  cases move with
  | accept | fail _ => simp [act] at h
  | goto node' pos' =>
    obtain rfl := Sum.inl.inj h
    exact .onward List.prefix_rfl
  | mark key node' =>
    obtain rfl := Sum.inl.inj h
    exact .onward (prefix_record trail (some key) pos)
  | choose first second key =>
    obtain rfl := Sum.inl.inj h
    exact .decide (prefix_record trail key pos)
  | reject => exact effect_of_retreat h

/-- The newest choice has no more records than the trail, nor any other one than the newer ones. -/
def State.Stacked (s : State) : Prop :=
  (s.trail.top :: s.choices.map Choice.top).Pairwise fun newer older => older ≤ newer

namespace State.Stacked

variable {moves : Moves} {s s' : State}

/-- A choice that is kept has no more records than the trail. -/
theorem top_le (h : s.Stacked) {choice : Choice} (hc : choice ∈ s.choices) :
    choice.top ≤ s.trail.top :=
  (List.pairwise_cons.mp h).1 _ (List.mem_map_of_mem hc)

/-- The choices may lie below a longer trail. -/
theorem grow (h : s.Stacked) {t : Trail} (ht : s.trail.entries <+: t.entries) (node pos : Nat) :
    Stacked ⟨node, pos, t, s.choices⟩ := by
  have hle : s.trail.top ≤ t.top := by simpa using ht.length_le
  exact List.pairwise_cons.mpr ⟨fun _ hc => Nat.le_trans ((List.pairwise_cons.mp h).1 _ hc) hle,
    (List.pairwise_cons.mp h).2⟩

/-- A step keeps the choices stacked. -/
theorem of_effect (h : s.Stacked) (ht : Effect s s') : s'.Stacked := by
  cases ht with
  | onward ht => exact h.grow ht _ _
  | @decide first second t ht =>
    have hkept : Stacked ⟨first, s.pos, s.trail, ⟨second, s.pos, s.trail.top⟩ :: s.choices⟩ :=
      List.pairwise_cons.mpr ⟨List.forall_mem_cons.mpr
        ⟨Nat.le_refl _, (List.pairwise_cons.mp h).1⟩, h⟩
    exact hkept.grow ht first s.pos
  | @back choice rest t hc hle ht =>
    have htop : t.top = choice.top := by
      rw [← t.length_entries, ht, List.length_take, Trail.length_entries, Nat.min_eq_left hle]
    have hrest := (List.pairwise_cons.mp h).2
    rw [hc] at hrest
    rw [Stacked, htop]
    exact hrest

/-- All steps keep the choices stacked. -/
theorem advance (h : s.Stacked) {n : Nat} (hs : advance (Search.step moves) n s = .inl s') :
    s'.Stacked :=
  advance_invariant Stacked (fun _ _ h hs => h.of_effect (effect_of_act hs)) h hs

end State.Stacked

/-! ## Records that stay -/

/-- The trail begins with some records, and each choice that is newer than the `older` ones has at
least these. -/
structure State.Holds (es : List Entry) (older : List Choice) (s : State) : Prop where
  records : es <+: s.trail.entries
  choices : ∃ newer, s.choices = newer ++ older ∧ ∀ choice ∈ newer, es.length ≤ choice.top

namespace State.Holds

variable {moves : Moves} {es : List Entry} {older : List Choice} {s s' : State}

/-- A search whose choices are the older ones, or that has none, holds all its records. -/
theorem start (s : State) : s.Holds s.trail.entries s.choices :=
  ⟨List.prefix_rfl, [], rfl, by simp⟩

/-- The trail has as many records. -/
theorem length_le (h : s.Holds es older) : es.length ≤ s.trail.top := by
  simpa using h.records.length_le

/-- A step that does not go back to one of the older choices keeps the records. -/
theorem of_effect (h : s.Holds es older) (ht : Effect s s') (ho : older <:+ s'.choices) :
    s'.Holds es older := by
  obtain ⟨newer, hnewer, hle⟩ := h.choices
  cases ht with
  | onward ht => exact ⟨h.records.trans ht, newer, hnewer, hle⟩
  | decide ht =>
    exact ⟨h.records.trans ht, _ :: newer, congrArg (_ :: ·) hnewer,
      List.forall_mem_cons.mpr ⟨h.length_le, hle⟩⟩
  | @back choice rest t hc _ ht =>
    cases newer with
    | nil =>
      have holder : choice :: rest <:+ rest := by
        rw [← hc, hnewer]
        exact ho
      exact absurd holder.length_le (by simp)
    | cons first newer =>
      obtain ⟨rfl, rfl⟩ := List.cons.inj (hc.symm.trans hnewer)
      obtain ⟨hfirst, hle⟩ := List.forall_mem_cons.mp hle
      refine ⟨?_, newer, rfl, hle⟩
      rw [ht, List.prefix_take_iff]
      exact ⟨h.records, hfirst⟩

end State.Holds

/-- A choice was kept in the state `d`, and the steps since then have not gone back to it. -/
inductive Waits (moves : Moves) (choice : Choice) (d : State) : State → Prop where
  | kept {s} (hs : step moves d = .inl s) (hc : s.choices = choice :: d.choices) :
      Waits moves choice d s
  | onward {s s'} (h : Waits moves choice d s) (hs : step moves s = .inl s')
      (hc : choice :: d.choices <:+ s'.choices) : Waits moves choice d s'

namespace Waits

variable {moves : Moves} {choice : Choice} {d s : State}

/-- While a choice waits, the trail holds what it was kept with. -/
theorem holds (h : Waits moves choice d s) :
    choice.top = d.trail.top ∧ s.Holds d.trail.entries (choice :: d.choices) := by
  induction h with
  | kept hs hc =>
    cases effect_of_act hs with
    | onward _ => simp at hc
    | @decide _ second t ht =>
      obtain ⟨rfl, -⟩ := List.cons.inj hc
      exact ⟨rfl, ht, [], rfl, by simp⟩
    | back hd _ _ =>
      have hlength := congrArg List.length (hd.trans (congrArg (_ :: ·) hc))
      simp only [List.length_cons] at hlength
      omega
  | onward _ hs hc ih => exact ⟨ih.1, ih.2.of_effect (effect_of_act hs) hc⟩

/-- A search that goes back to a choice has exactly the records again that the choice was kept
with. -/
theorem resume (h : Waits moves choice d s) (hm : moves s.node s.pos s.trail = .reject)
    (hc : s.choices = choice :: d.choices) : ∃ t, t.entries = d.trail.entries ∧
      step moves s = .inl ⟨choice.node, choice.pos, t, d.choices⟩ := by
  obtain ⟨htop, hholds⟩ := h.holds
  have hle : choice.top ≤ s.trail.top := by
    rw [htop, ← Trail.length_entries]
    exact hholds.length_le
  obtain ⟨t, hcut, ht⟩ := Trail.exists_cut hle
  refine ⟨t, ?_, ?_⟩
  · rw [ht, htop, ← Trail.length_entries, ← List.prefix_iff_eq_take.mp hholds.records]
  · obtain ⟨node, pos, trail, choices⟩ := s
    obtain rfl : choices = choice :: d.choices := hc
    simp only [step, hm, act, retreat, hcut]

end Waits

/-- Each choice that is left was kept in some state that the search came through, above the choices
that are older. -/
theorem exists_waits {moves : Moves} {s₀ s : State} (h₀ : s₀.choices = []) {n : Nat}
    (hs : advance (step moves) n s₀ = .inl s) {choice : Choice} {rest : List Choice}
    (hc : choice :: rest <:+ s.choices) : ∃ m d, advance (step moves) m s₀ = .inl d ∧
      Waits moves choice d s ∧ d.choices = rest := by
  induction n generalizing s with
  | zero =>
    obtain rfl := Sum.inl.inj hs
    rw [h₀] at hc
    simp at hc
  | succ n ih =>
    obtain ⟨s₁, hs₁, hstep⟩ := exists_of_advance_succ hs
    have hbefore (hc₁ : choice :: rest <:+ s₁.choices) : ∃ m d,
        advance (step moves) m s₀ = .inl d ∧ Waits moves choice d s ∧ d.choices = rest := by
      obtain ⟨m, d, hd, hwaits, rfl⟩ := ih hs₁ hc₁
      exact ⟨m, d, hd, hwaits.onward hstep hc, rfl⟩
    cases effect_of_act hstep with
    | onward _ => exact hbefore hc
    | decide _ =>
      rcases List.suffix_cons_iff.mp hc with heq | hc₁
      · obtain ⟨rfl, rfl⟩ := List.cons.inj heq
        exact ⟨n, s₁, hs₁, .kept hstep rfl, rfl⟩
      · exact hbefore hc₁
    | @back _ rest₁ _ hc₁ _ _ =>
      rw [hc₁] at hbefore
      exact hbefore (hc.trans (List.suffix_cons _ _))

end BacktrackRegex.Search
