import BacktrackRegex.Trail

/-!
# Histories

What a search reads from a trail depends on its records alone, never on the storage above them. The
records with the newest one first form the history of the trail: pushing puts a record in front, and
cutting back drops the newest ones. Looking up a key reads the places that a history holds for it.
-/

namespace BacktrackRegex

/-- The records of a trail, the newest first. -/
abbrev History := List Entry

namespace History

/-- The places that are recorded under a key, the newest first. -/
def places (key : Key) : History → List Nat
  | [] => []
  | e :: h => if e.key = key then e.pos :: places key h else places key h

/-- A record is a place of its own key. -/
@[simp] theorem places_cons_self (key : Key) (pos : Nat) (h : History) :
    places key (⟨key, pos⟩ :: h) = pos :: places key h := by
  simp only [places, ite_true]

/-- A record is no place of another key. -/
theorem places_cons_of_ne {key other : Key} (hne : key ≠ other) (pos : Nat) (h : History) :
    places other (⟨key, pos⟩ :: h) = places other h := by
  simp only [places, hne, ite_false]

/-- The places of the newer records come before those of the older ones. -/
theorem places_append (key : Key) (h h' : History) :
    places key (h ++ h') = places key h ++ places key h' := by
  induction h with
  | nil => rfl
  | cons e h ih =>
    rw [List.cons_append, places, places, ih]
    split <;> rfl

/-- A key without records has no places. -/
theorem places_eq_nil {key : Key} {h : History} (hk : ∀ e ∈ h, e.key ≠ key) :
    places key h = [] := by
  induction h with
  | nil => rfl
  | cons e h ih =>
    obtain ⟨hne, hk⟩ := List.forall_mem_cons.mp hk
    rw [places, if_neg hne, ih hk]

/-- A history with the place recorded under a key, if there is a key. -/
def noted (key : Option Key) (pos : Nat) (h : History) : History :=
  match key with
  | some key => ⟨key, pos⟩ :: h
  | none => h

/-- The places of the records do not decrease, and lie between `origin` and `pos`. -/
structure Ordered (origin pos : Nat) (h : History) : Prop where
  bounds : ∀ e ∈ h, origin ≤ e.pos ∧ e.pos ≤ pos
  sorted : h.Pairwise fun newer older => older.pos ≤ newer.pos

namespace Ordered

variable {origin pos pos' : Nat} {h : History}

/-- A search may go on to later places. -/
theorem moveTo (ho : Ordered origin pos h) (hle : pos ≤ pos') : Ordered origin pos' h :=
  ⟨fun e he => ⟨(ho.bounds e he).1, Nat.le_trans (ho.bounds e he).2 hle⟩, ho.sorted⟩

/-- The place of the search may be recorded. -/
theorem cons (ho : Ordered origin pos h) (hle : origin ≤ pos) (key : Key) :
    Ordered origin pos (⟨key, pos⟩ :: h) := by
  refine ⟨fun e he => ?_, List.pairwise_cons.mpr ⟨fun e he => (ho.bounds e he).2, ho.sorted⟩⟩
  rcases List.mem_cons.mp he with rfl | he
  · exact ⟨hle, Nat.le_refl _⟩
  · exact ho.bounds e he

end Ordered

end History

/-- What a capture group spans by the places recorded for it, the newest first: the latest two are
its end and its start. -/
def latestSpan (group : Nat) : List Nat → Except Fault (Option Span)
  | [] => .ok none
  | [_] => .error (.undetermined group)
  | stop :: start :: _ => .ok (some ⟨start, stop⟩)

namespace Trail

open History

/-- The records of the trail, the newest first. -/
def history (t : Trail) : History :=
  t.entries.reverse

/-- The trail of exactly the records of a history. -/
def ofHistory (h : History) : Trail :=
  .holding h.reverse.toArray

@[simp] theorem length_entries (t : Trail) : t.entries.length = t.top := by
  rw [entries, List.length_take, Array.length_toList]
  exact Nat.min_eq_left t.top_le

@[simp] theorem length_history (t : Trail) : t.history.length = t.top := by
  rw [history, List.length_reverse, length_entries]

@[simp] theorem history_ofHistory (h : History) : (ofHistory h).history = h := by
  have htake : h.reverse.take h.length = h.reverse := List.take_of_length_le (by simp)
  simp [ofHistory, holding, history, entries, htake]

@[simp] theorem history_emptyOn (storage : Array Entry) : (emptyOn storage).history = [] := by
  simp [emptyOn, history, entries]

/-- Pushing adds one record at the end, whatever the storage holds above the trail. -/
theorem entries_push (t : Trail) (key : Key) (pos : Nat) :
    (t.push key pos).entries = t.entries ++ [⟨key, pos⟩] := by
  unfold push
  split
  · next h =>
    have hlen : t.top < t.storage.toList.length := by simpa using h
    simp only [entries, Array.toList_set]
    rw [List.take_add_one, List.take_set_of_le (Nat.le_refl _), List.getElem?_set_self hlen]
    rfl
  · next h =>
    have htop : t.top = t.storage.size := Nat.le_antisymm t.top_le (Nat.le_of_not_lt h)
    have hnew : (t.storage.toList ++ [(⟨key, pos⟩ : Entry)]).take (t.storage.size + 1) =
        t.storage.toList ++ [⟨key, pos⟩] := List.take_of_length_le (by simp)
    have hold : t.storage.toList.take t.storage.size = t.storage.toList :=
      List.take_of_length_le (by simp)
    simp only [entries, htop, Array.toList_push, hnew, hold]

@[simp] theorem history_push (t : Trail) (key : Key) (pos : Nat) :
    (t.push key pos).history = ⟨key, pos⟩ :: t.history := by
  simp [history, entries_push]

/-- A new record makes the trail longer by one. -/
@[simp] theorem top_push (t : Trail) (key : Key) (pos : Nat) :
    (t.push key pos).top = t.top + 1 := by
  rw [← length_history, history_push, List.length_cons, length_history]

/-- A trail can be cut back to any number of its records, and keeps the oldest ones. -/
theorem exists_cut {t : Trail} {top : Nat} (h : top ≤ t.top) :
    ∃ t', t.cut top = .ok t' ∧ t'.entries = t.entries.take top := by
  refine ⟨⟨t.storage, top, Nat.le_trans h t.top_le⟩, by rw [cut, dif_pos h], ?_⟩
  rw [entries, entries, List.take_take, Nat.min_eq_left h]

/-- A trail that was cut back had as many records as were asked for, and keeps the oldest ones. -/
theorem entries_of_cut {t t' : Trail} {top : Nat} (h : t.cut top = .ok t') :
    top ≤ t.top ∧ t'.entries = t.entries.take top := by
  by_cases hle : top ≤ t.top
  · obtain ⟨t₁, hcut, ht₁⟩ := exists_cut hle
    obtain rfl := Except.ok.inj (hcut.symm.trans h)
    exact ⟨hle, ht₁⟩
  · rw [cut, dif_neg hle] at h
    simp at h

/-- A copy has the same records. -/
@[simp] theorem entries_copy (t : Trail) : t.copy.entries = t.entries := by
  simp [copy, holding, entries, List.extract_eq_take_drop, List.take_take]

/-- A trail still has its records over a storage where another one begins with them. -/
theorem entries_after_of_prefix {t u : Trail} (h : t.entries <+: u.entries) :
    (t.after u).entries = t.entries := by
  have hle : t.top ≤ u.top := by simpa using h.length_le
  have hafter : (t.after u).entries = u.entries.take t.top := by
    simp only [entries, after, List.take_take, Nat.min_eq_left hle,
      Nat.min_eq_left (Nat.le_trans hle u.top_le)]
  rw [hafter, ← t.length_entries, ← List.prefix_iff_eq_take.mp h]

/-- A trail can be cut back to the length of any end piece of its history, which then is all that is
left of it. -/
theorem cut_of_suffix {t : Trail} {h : History} (hs : h <:+ t.history) :
    ∃ t', t.cut h.length = .ok t' ∧ t'.history = h := by
  obtain ⟨t', hcut, ht'⟩ := @exists_cut t h.length (by simpa using hs.length_le)
  have hbegins : h.reverse <+: t.entries := List.reverse_suffix.mp (by rwa [List.reverse_reverse])
  rw [List.prefix_iff_eq_take, List.length_reverse] at hbegins
  exact ⟨t', hcut, by rw [history, ht', ← hbegins, List.reverse_reverse]⟩

/-- The search for the newest record of a key below an index finds the newest place among the
records below it. -/
theorem places_take (t : Trail) (key : Key) {n : Nat} (hn : n ≤ t.top) :
    match t.indexBelow key n with
    | none => places key (t.entries.take n).reverse = []
    | some i => i < n ∧ ∃ pos, t.posAt i = some pos ∧
        places key (t.entries.take n).reverse = pos :: places key (t.entries.take i).reverse := by
  induction n with
  | zero => simp [indexBelow, places]
  | succ n ih =>
    have hlt : n < t.entries.length := by rw [length_entries]; omega
    have hget : t.storage[n]? = some t.entries[n] := by
      rw [← Array.getElem?_toList, ← List.getElem?_eq_getElem hlt, entries,
        List.getElem?_take_of_lt (by omega)]
    have htake : (t.entries.take (n + 1)).reverse =
        t.entries[n] :: (t.entries.take n).reverse := by
      rw [List.take_add_one, List.getElem?_eq_getElem hlt]
      simp
    rw [indexBelow, hget, htake]
    by_cases hk : t.entries[n].key = key
    · simp only [Option.any_some, hk, beq_self_eq_true, ite_true]
      refine ⟨Nat.lt_succ_self n, t.entries[n].pos, by rw [posAt, hget]; rfl, ?_⟩
      simp only [places, hk, ite_true]
    · have hb : (t.entries[n].key == key) = false := by simpa using hk
      simp only [Option.any_some, hb, Bool.false_eq_true, ite_false]
      have hp : places key (t.entries[n] :: (t.entries.take n).reverse) =
          places key (t.entries.take n).reverse := by
        simp only [places, hk, ite_false]
      have := ih (by omega)
      rw [hp]
      split at this
      · exact this
      · exact ⟨by omega, this.2⟩

/-- The history is that of the records below the top. -/
theorem history_eq_take (t : Trail) : t.history = (t.entries.take t.top).reverse := by
  rw [history, List.take_of_length_le (Nat.le_of_eq t.length_entries)]

/-- Looking up a key finds the newest place that the history holds for it. -/
theorem find?_eq (t : Trail) (key : Key) : t.find? key = (places key t.history).head? := by
  have h := places_take t key (Nat.le_refl t.top)
  rw [find?, history_eq_take]
  cases hi : t.indexBelow key t.top with
  | none =>
    simp only [hi] at h
    rw [h]
    rfl
  | some i =>
    simp only [hi] at h
    obtain ⟨-, pos, hpos, hp⟩ := h
    rw [hp, Option.bind_some, hpos]
    rfl

/-- The span of a capture group is read from the newest two places that the history holds for it. -/
theorem captured_eq (t : Trail) (group : Nat) :
    t.captured group = latestSpan group (places (.group group) t.history) := by
  have h := places_take t (.group group) (Nat.le_refl t.top)
  rw [captured, history_eq_take]
  cases hi : t.indexBelow (.group group) t.top with
  | none =>
    simp only [hi] at h
    rw [h]
    rfl
  | some stop =>
    simp only [hi] at h
    obtain ⟨hlt, pos, hpos, hp⟩ := h
    have h' := places_take t (.group group) (Nat.le_of_lt hlt)
    rw [hp]
    cases hj : t.indexBelow (.group group) stop with
    | none =>
      simp only [hj] at h'
      simp [hj, h', latestSpan]
    | some start =>
      simp only [hj] at h'
      obtain ⟨-, pos', hpos', hp'⟩ := h'
      simp [hj, hp', hpos, hpos', latestSpan]

end Trail

end BacktrackRegex
