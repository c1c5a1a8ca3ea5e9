import BacktrackRegex.Pattern.Reader
import BacktrackRegex.Proofs.Pattern.Simplified
import Mathlib.Data.Nat.Init

/-!
# Patterns that are read are well-formed

Capture groups get larger indices the later they are opened, so that a new group is none of those
that are still open, and a back-reference to an open group is refused. Group 0 is open around the
whole pattern, but no group and no back-reference that is read has this index. Every alternation
that is read has an option.
-/

namespace BacktrackRegex.Pattern

/-- Two readers one after the other both read something if they do together. -/
theorem exists_of_bind_eq_ok {ε α β : Type} {first : Except ε α} {rest : α → Except ε β}
    {b : β} (h : (do rest (← first)) = .ok b) : ∃ a, first = .ok a ∧ rest a = .ok b := by
  cases first with
  | error _ => nomatch h
  | ok a => exact ⟨a, rfl, h⟩

/-! ## What the readers do -/

/-- How options are read: items, and after a bar more options. -/
inductive OptionsRead (limit : Nat) (enclosing : List Nat) (s : Cursor) :
    Reading (List Pattern) (s.left + 1) → Prop where
  | one {first hlt} (hfirst : readItems limit enclosing s = .ok first)
      (hlast : first.next.peek 0 ≠ some '|') :
      OptionsRead limit enclosing s ⟨[ofItems first.value], first.next, hlt⟩
  | bar {first more hlt} (hfirst : readItems limit enclosing s = .ok first)
      (hbar : first.next.peek 0 = some '|')
      (hmore : readOptions limit enclosing (first.next.skip 1) = .ok more) :
      OptionsRead limit enclosing s ⟨ofItems first.value :: more.value, more.next, hlt⟩

/-- How an atom is read: a group, or any other character on its own. -/
inductive AtomRead (limit : Nat) (enclosing : List Nat) (s : Cursor) :
    Reading Pattern s.left → Prop where
  | group {atom} (hc : s.peek 0 = some '(') (hleft : 0 < s.left)
      (h : readGroup limit enclosing s hleft = .ok atom) : AtomRead limit enclosing s atom
  | leaf {c atom} (hc : s.peek 0 = some c) (hother : c ∉ ['|', ')', '('])
      (h : readLeaf enclosing s c hc = .ok atom) : AtomRead limit enclosing s atom

/-- How items are read: an atom with its quantifier and more items, or none before a bar, a closing
parenthesis or the end. -/
inductive ItemsRead (limit : Nat) (enclosing : List Nat) (s : Cursor) :
    Reading (List Pattern) (s.left + 1) → Prop where
  | nil {hlt} : ItemsRead limit enclosing s ⟨[], s, hlt⟩
  | cons {atom item more hlt} (hatom : AtomRead limit enclosing s atom)
      (hitem : readQuantifier atom.value atom.next = .ok item)
      (hmore : readItems limit enclosing item.next = .ok more) :
      ItemsRead limit enclosing s ⟨item.value :: more.value, more.next, hlt⟩

/-- How a group is read: options up to its closing parenthesis. -/
inductive GroupRead (limit : Nat) (enclosing : List Nat) (s : Cursor) :
    Reading Pattern s.left → Prop where
  | plain {inner closing hlt} (hmark : s.peek 1 = some '?') (hcolon : s.peek 2 = some ':')
      (hinner : readOptions limit enclosing (s.skip 3) = .ok inner)
      (hclosing : readClosing s.position inner.next = .ok closing) :
      GroupRead limit enclosing s ⟨ofOptions inner.value, closing.next, hlt⟩
  | capture {inner closing hlt} (hmark : s.peek 1 ≠ some '?') (hlimit : s.groups ≠ limit)
      (hinner : readOptions limit ((s.groups + 1) :: enclosing) s.openGroup = .ok inner)
      (hclosing : readClosing s.position inner.next = .ok closing) :
      GroupRead limit enclosing s
        ⟨.capture (s.groups + 1) (ofOptions inner.value), closing.next, hlt⟩

section Readers

variable {limit : Nat} {enclosing : List Nat} {s : Cursor}

/-- Options are read in one of these ways. -/
theorem optionsRead_of_readOptions {r : Reading (List Pattern) (s.left + 1)}
    (h : readOptions limit enclosing s = .ok r) : OptionsRead limit enclosing s r := by
  rw [readOptions] at h
  obtain ⟨first, hfirst, h⟩ := exists_of_bind_eq_ok h
  dsimp only at h
  split at h
  · next hbar =>
    obtain ⟨more, hmore, h⟩ := exists_of_bind_eq_ok h
    obtain rfl := Except.ok.inj h
    exact .bar hfirst hbar hmore
  · next hlast =>
    obtain rfl := Except.ok.inj h
    exact .one hfirst hlast

/-- Items are read in one of these ways. -/
theorem itemsRead_of_readItems {r : Reading (List Pattern) (s.left + 1)}
    (h : readItems limit enclosing s = .ok r) : ItemsRead limit enclosing s r := by
  rw [readItems] at h
  split at h
  · obtain rfl := Except.ok.inj h
    exact .nil
  · next c hc =>
    split at h
    · obtain rfl := Except.ok.inj h
      exact .nil
    · next hstop =>
      dsimp only at h
      split at h
      · next hparen =>
        obtain ⟨atom, hatom, h⟩ := exists_of_bind_eq_ok h
        obtain ⟨item, hitem, h⟩ := exists_of_bind_eq_ok h
        obtain ⟨more, hmore, h⟩ := exists_of_bind_eq_ok h
        obtain rfl := Except.ok.inj h
        exact .cons (.group (hparen ▸ hc) _ hatom) hitem hmore
      · next hparen =>
        obtain ⟨atom, hatom, h⟩ := exists_of_bind_eq_ok h
        obtain ⟨item, hitem, h⟩ := exists_of_bind_eq_ok h
        obtain ⟨more, hmore, h⟩ := exists_of_bind_eq_ok h
        obtain rfl := Except.ok.inj h
        have hother : c ∉ ['|', ')', '('] := by
          simp only [List.mem_cons, List.not_mem_nil, or_false, not_or]
          exact ⟨fun he => hstop (Or.inl he), fun he => hstop (Or.inr he), hparen⟩
        exact .cons (.leaf hc hother hatom) hitem hmore

/-- Groups are read in one of these ways. -/
theorem groupRead_of_readGroup {hleft : 0 < s.left} {r : Reading Pattern s.left}
    (h : readGroup limit enclosing s hleft = .ok r) : GroupRead limit enclosing s r := by
  rw [readGroup] at h
  split at h
  · next hmark =>
    split at h
    · next hcolon =>
      obtain ⟨inner, hinner, h⟩ := exists_of_bind_eq_ok h
      obtain ⟨closing, hclosing, h⟩ := exists_of_bind_eq_ok h
      obtain rfl := Except.ok.inj h
      exact .plain hmark hcolon hinner hclosing
    · simp [failAt] at h
  · next hmark =>
    split at h
    · simp [failAt] at h
    · next hlimit =>
      obtain ⟨inner, hinner, h⟩ := exists_of_bind_eq_ok h
      obtain ⟨closing, hclosing, h⟩ := exists_of_bind_eq_ok h
      obtain rfl := Except.ok.inj h
      exact .capture hmark hlimit hinner hclosing

end Readers

/-! ## What was read is well-formed -/

/-- A group that is open around a place was opened before it. -/
def Encloses (enclosing : List Nat) (s : Cursor) : Prop :=
  ∀ g ∈ enclosing, g ≤ s.groups

/-- Patterns that were read inside some groups are well-formed, and groups were only opened. -/
structure WellRead (enclosing : List Nat) (s : Cursor) (ps : List Pattern) (next : Cursor) :
    Prop where
  wellFormed : ∀ p ∈ ps, p.isWellFormed (enclosing ++ [0]) = true
  groups : s.groups ≤ next.groups

variable {enclosing : List Nat} {s : Cursor}

/-- Digits refer to no group that is open, and not to group 0. -/
theorem readDigits_backReference {digit : Char} {after : List Char} {index n : Nat}
    (hd : digit.isDigit = true)
    (h : readDigits (some enclosing) digit after = .ok (.backReference index, n)) :
    index ≠ 0 ∧ index ∉ enclosing := by
  have halone (h : readDigits.alone (some enclosing) digit = .ok (.backReference index, n)) :
      index ≠ 0 ∧ index ∉ enclosing := by
    rw [readDigits.alone] at h
    split at h
    · simp at h
    · next hne =>
      dsimp only at h
      split at h
      · simp at h
      · next hc =>
        obtain ⟨he, -⟩ := Prod.mk.inj (Except.ok.inj h)
        obtain rfl := Escape.backReference.inj he
        refine ⟨fun hz => hne (Char.toNat_inj.mp ?_), by simpa using hc⟩
        have hle : '0'.toNat ≤ digit.toNat := by
          simp only [Char.isDigit, Bool.and_eq_true, decide_eq_true_eq] at hd
          exact hd.1
        omega
  rw [readDigits.eq_def] at h
  split at h
  · split at h
    · split at h <;> simp at h
    · exact halone h
  · exact halone h

/-- Escapes refer to no group that is open, and not to group 0. -/
theorem readEscape_backReference {after : List Char} {index n : Nat}
    (h : readEscape (some enclosing) after = .ok (.backReference index, n)) :
    index ≠ 0 ∧ index ∉ enclosing := by
  rw [readEscape.eq_def] at h
  split at h
  · simp at h
  · split at h
    · simp at h
    · split at h
      · simp at h
      · split at h
        · next hd => exact readDigits_backReference hd h
        · simp at h

/-- A character of a class is read without opening groups. -/
theorem groups_readClassChar {r : Reading Char s.left} (h : readClassChar s = .ok r) :
    r.next.groups = s.groups := by
  rw [readClassChar] at h
  split at h
  · simp [failAt] at h
  · dsimp only at h
    split at h
    · split at h
      · simp [failAt] at h
      · simp [failAt] at h
      · obtain rfl := Except.ok.inj h
        rfl
    · obtain rfl := Except.ok.inj h
      rfl

/-- The members of a class are read without opening groups. -/
theorem groups_readClassItems (start : Nat) (s : Cursor) (r : Reading (List (Char × Char)) s.left)
    (h : readClassItems start s = .ok r) : r.next.groups = s.groups := by
  rw [readClassItems] at h
  split at h
  · simp [failAt] at h
  · obtain rfl := Except.ok.inj h
    rfl
  · obtain ⟨lo, hlo, h⟩ := exists_of_bind_eq_ok h
    have hg := groups_readClassChar hlo
    have hshort := lo.shorter
    dsimp only at h
    split at h
    · split at h
      · simp [failAt] at h
      · obtain rfl := Except.ok.inj h
        exact hg
      · obtain ⟨hi, hhi, h⟩ := exists_of_bind_eq_ok h
        have hg' := groups_readClassChar hhi
        have hshort' := hi.shorter
        split at h
        · simp [failAt] at h
        · obtain ⟨more, hmore, h⟩ := exists_of_bind_eq_ok h
          obtain rfl := Except.ok.inj h
          have := Cursor.left_skip lo.next 1
          exact (groups_readClassItems start _ more hmore).trans (hg'.trans hg)
    · obtain ⟨more, hmore, h⟩ := exists_of_bind_eq_ok h
      obtain rfl := Except.ok.inj h
      exact (groups_readClassItems start _ more hmore).trans hg
termination_by s.left
decreasing_by all_goals omega

/-- A class is a proper pattern. -/
theorem wellRead_readClass {r : Reading Pattern s.left} (h : readClass s = .ok r) :
    WellRead enclosing s [r.value] r.next := by
  obtain ⟨items, hitems, h⟩ := exists_of_bind_eq_ok h
  obtain rfl := Except.ok.inj h
  have hg := groups_readClassItems _ _ items hitems
  exact ⟨fun p hp => by obtain rfl := List.mem_singleton.mp hp; rfl, Nat.le_of_eq hg.symm⟩

/-- An atom other than a group is a proper pattern. -/
theorem wellRead_readLeaf {c : Char} (hc : s.peek 0 = some c) {r : Reading Pattern s.left}
    (h : readLeaf enclosing s c hc = .ok r) : WellRead enclosing s [r.value] r.next := by
  have alone {p : Pattern} {next : Cursor} (hp : p.isWellFormed (enclosing ++ [0]) = true)
      (hg : next.groups = s.groups) : WellRead enclosing s [p] next :=
    ⟨fun q hq => by obtain rfl := List.mem_singleton.mp hq; exact hp, Nat.le_of_eq hg.symm⟩
  rw [readLeaf.eq_def] at h
  dsimp only at h
  split at h
  · obtain rfl := Except.ok.inj h
    exact alone rfl rfl
  · obtain rfl := Except.ok.inj h
    exact alone rfl rfl
  · obtain rfl := Except.ok.inj h
    exact alone rfl rfl
  · exact wellRead_readClass h
  · split at h
    · simp [failAt] at h
    · obtain rfl := Except.ok.inj h
      exact alone rfl rfl
    · next index n he =>
      obtain rfl := Except.ok.inj h
      obtain ⟨hz, hne⟩ := readEscape_backReference he
      exact alone (by simp [isWellFormed, everywhere, isProper, hz, hne]) rfl
  · split at h
    · simp [failAt] at h
    · obtain rfl := Except.ok.inj h
      exact alone rfl rfl

/-- A quantifier keeps a pattern well-formed. -/
theorem wellRead_readQuantifier {atom : Pattern} {s' : Cursor} {r : Reading Pattern (s'.left + 1)}
    (ha : WellRead enclosing s [atom] s') (h : readQuantifier atom s' = .ok r) :
    WellRead enclosing s [r.value] r.next := by
  have repeated {min : Nat} {max : Option Nat} {next : Cursor}
      (hb : inOrder min max = true) (hg : next.groups = s'.groups) :
      WellRead enclosing s [.repetition atom min max] next := by
    refine ⟨fun q hq => ?_, hg ▸ ha.groups⟩
    obtain rfl := List.mem_singleton.mp hq
    simp only [isWellFormed, everywhere, isProper, Bool.and_eq_true]
    exact ⟨hb, ha.wellFormed atom List.mem_cons_self⟩
  rw [readQuantifier.eq_def] at h
  split at h
  · obtain rfl := Except.ok.inj h
    exact repeated rfl rfl
  · obtain rfl := Except.ok.inj h
    exact repeated rfl rfl
  · obtain rfl := Except.ok.inj h
    exact repeated rfl rfl
  · split at h
    · simp [failAt] at h
    · obtain rfl := Except.ok.inj h
      exact repeated rfl rfl
    · split at h
      · simp [failAt] at h
      · next hb =>
        obtain rfl := Except.ok.inj h
        exact repeated (by simpa [inOrder] using hb) rfl
  · obtain rfl := Except.ok.inj h
    exact ha

/-- A closing parenthesis opens no group. -/
theorem groups_readClosing {start : Nat} {r : Reading Unit (s.left + 1)}
    (h : readClosing start s = .ok r) : r.next.groups = s.groups := by
  rw [readClosing.eq_def] at h
  split at h
  · obtain rfl := Except.ok.inj h
    rfl
  · simp [failAt] at h

/-- The sequence of well-formed items is well-formed. -/
theorem isWellFormed_ofItems {groups : List Nat} {ps : List Pattern}
    (h : ∀ p ∈ ps, p.isWellFormed groups = true) : (ofItems ps).isWellFormed groups = true := by
  rw [ofItems.eq_def]
  split
  · exact h _ List.mem_cons_self
  · simp only [isWellFormed, everywhere, isProper, Bool.true_and]
    exact everywhereIn_iff.mpr h

/-- The alternation of well-formed options is well-formed. -/
theorem isWellFormed_ofOptions {groups : List Nat} {ps : List Pattern}
    (h : ∀ p ∈ ps, p.isWellFormed groups = true) (hne : ps ≠ []) :
    (ofOptions ps).isWellFormed groups = true := by
  rw [ofOptions.eq_def]
  split
  · exact h _ List.mem_cons_self
  · simp only [isWellFormed, everywhere, isProper, Bool.and_eq_true]
    exact ⟨by simpa using hne, everywhereIn_iff.mpr h⟩

mutual
/-- There is at least one option, and options are well-formed. -/
theorem wellRead_readOptions (limit : Nat) (enclosing : List Nat) (s : Cursor)
    (hs : Encloses enclosing s) (r : Reading (List Pattern) (s.left + 1))
    (h : readOptions limit enclosing s = .ok r) :
    WellRead enclosing s r.value r.next ∧ r.value ≠ [] := by
  cases optionsRead_of_readOptions h with
  | @one first _ hfirst _ =>
    have hread := wellRead_readItems limit enclosing s hs first hfirst
    refine ⟨⟨fun p hp => ?_, hread.groups⟩, by simp⟩
    obtain rfl := List.mem_singleton.mp hp
    exact isWellFormed_ofItems hread.wellFormed
  | @bar first more _ hfirst hbar hmore =>
    have hread := wellRead_readItems limit enclosing s hs first hfirst
    have hshort := first.shorter
    have hlt := Cursor.lt_left_of_peek hbar
    have hskip := Cursor.left_skip first.next 1
    have hs' : Encloses enclosing (first.next.skip 1) :=
      fun g hg => Nat.le_trans (hs g hg) hread.groups
    obtain ⟨hrest, -⟩ := wellRead_readOptions limit enclosing _ hs' more hmore
    refine ⟨⟨fun p hp => ?_, Nat.le_trans hread.groups hrest.groups⟩, by simp⟩
    rcases List.mem_cons.mp hp with rfl | hp
    · exact isWellFormed_ofItems hread.wellFormed
    · exact hrest.wellFormed p hp
termination_by 3 * s.left + 2
decreasing_by all_goals omega

/-- Items are well-formed. -/
theorem wellRead_readItems (limit : Nat) (enclosing : List Nat) (s : Cursor)
    (hs : Encloses enclosing s) (r : Reading (List Pattern) (s.left + 1))
    (h : readItems limit enclosing s = .ok r) : WellRead enclosing s r.value r.next := by
  cases itemsRead_of_readItems h with
  | nil => exact ⟨by simp, Nat.le_refl _⟩
  | @cons atom item more _ hatom hitem hmore =>
    have hread : WellRead enclosing s [atom.value] atom.next := by
      cases hatom with
      | group _ hleft h => exact wellRead_readGroup limit enclosing s hs hleft atom h
      | leaf hc _ h => exact wellRead_readLeaf hc h
    have hshort := atom.shorter
    have hshort' := item.shorter
    have hquant := wellRead_readQuantifier hread hitem
    have hs' : Encloses enclosing item.next := fun g hg => Nat.le_trans (hs g hg) hquant.groups
    have hrest := wellRead_readItems limit enclosing _ hs' more hmore
    refine ⟨fun p hp => ?_, Nat.le_trans hquant.groups hrest.groups⟩
    rcases List.mem_cons.mp hp with rfl | hp
    · exact hquant.wellFormed _ List.mem_cons_self
    · exact hrest.wellFormed p hp
termination_by 3 * s.left + 1
decreasing_by all_goals omega

/-- Groups are well-formed: the index of a new one is larger than those of the open ones. -/
theorem wellRead_readGroup (limit : Nat) (enclosing : List Nat) (s : Cursor)
    (hs : Encloses enclosing s) (hleft : 0 < s.left) (r : Reading Pattern s.left)
    (h : readGroup limit enclosing s hleft = .ok r) : WellRead enclosing s [r.value] r.next := by
  cases groupRead_of_readGroup h with
  | @plain inner closing _ _ _ hinner hclosing =>
    have hskip := Cursor.left_skip s 3
    obtain ⟨hread, hne⟩ := wellRead_readOptions limit enclosing (s.skip 3) hs inner hinner
    refine ⟨fun p hp => ?_, ?_⟩
    · obtain rfl := List.mem_singleton.mp hp
      exact isWellFormed_ofOptions hread.wellFormed hne
    · rw [groups_readClosing hclosing]
      exact hread.groups
  | @capture inner closing _ _ _ hinner hclosing =>
    have hopen := Cursor.left_openGroup s
    have hs' : Encloses ((s.groups + 1) :: enclosing) s.openGroup := by
      intro g hg
      rcases List.mem_cons.mp hg with rfl | hg
      · exact Nat.le_refl _
      · exact Nat.le_succ_of_le (hs g hg)
    obtain ⟨hread, hne⟩ :=
      wellRead_readOptions limit ((s.groups + 1) :: enclosing) s.openGroup hs' inner hinner
    have hnew : s.groups + 1 ∉ enclosing := fun hg => Nat.not_succ_le_self _ (hs _ hg)
    refine ⟨fun p hp => ?_, ?_⟩
    · obtain rfl := List.mem_singleton.mp hp
      have hbody := isWellFormed_ofOptions hread.wellFormed hne
      simp only [isWellFormed, everywhere, Bool.and_eq_true]
      exact ⟨by simp [isProper, hnew], hbody⟩
    · rw [groups_readClosing hclosing]
      exact Nat.le_trans (Nat.le_succ _) hread.groups
termination_by 3 * s.left
decreasing_by all_goals omega
end

/-- A pattern that is read is well-formed inside group 0. -/
theorem isWellFormed_of_read {limit : Nat} {text : String} {p : Pattern}
    (h : read limit text = .ok p) : p.isWellFormed [0] = true := by
  obtain ⟨options, hoptions, h⟩ := exists_of_bind_eq_ok h
  split at h
  · obtain rfl := Except.ok.inj h
    obtain ⟨hread, hne⟩ := wellRead_readOptions limit [] _ (fun _ hg => nomatch hg) options hoptions
    exact isWellFormed_ofOptions hread.wellFormed hne
  · simp [failAt] at h

/-- Whether a pattern is read can be told without a proof about its error. -/
theorem read_eq_ok_iff {limit : Nat} {text : String} {p : Pattern} :
    read limit text = .ok p ↔ (read limit text).toOption = some p := by
  cases read limit text <;> simp [Except.toOption]

end BacktrackRegex.Pattern
