import BacktrackRegex.Proofs.Pattern.Reading

/-!
# Positions of cursors

A cursor stands in a text where its position says: what is left to be read is the text after the
position. Each reader that succeeds stops at such a place again, so the position that an error
reports can be taken at its word.
-/

namespace BacktrackRegex

/-- What is left to be read is the text after the position. -/
def Cursor.At (text : List Char) (s : Cursor) : Prop :=
  s.rest = text.drop s.position

namespace Cursor

variable {text : List Char} {s : Cursor}

/-- Skipping characters stays in the text. -/
theorem At.skip (h : s.At text) (n : Nat) : (s.skip n).At text := by
  unfold At at h ⊢
  rw [Cursor.skip, h, List.drop_drop]

/-- Opening a group skips its parenthesis. -/
theorem At.openGroup (h : s.At text) : s.openGroup.At text :=
  h.skip 1

/-- What was read and what is left make up the text. -/
theorem At.take_append (h : s.At text) : text.take s.position ++ s.rest = text := by
  rw [h, List.take_append_drop]

/-- What was read at a later place is what was read before and the text between the places. -/
theorem At.take_eq {t : Cursor} {between : List Char} (hs : s.At text) (ht : t.At text)
    (h : s.rest = between ++ t.rest) : text.take t.position = text.take s.position ++ between := by
  have hboth : text.take t.position ++ t.rest = text.take s.position ++ between ++ t.rest := by
    rw [ht.take_append, List.append_assoc, ← h, hs.take_append]
  exact List.append_cancel_right hboth

/-- Where something is left to be read, the position lies inside the text. -/
theorem At.position_lt (h : s.At text) {n : Nat} {c : Char} (hc : s.peek n = some c) :
    s.position + n < text.length := by
  have hleft := lt_left_of_peek hc
  rw [left, h, List.length_drop] at hleft
  omega

end Cursor

namespace Pattern

variable {text : List Char} {limit : Nat} {enclosing : List Nat} {s : Cursor}

/-- After a character of a class the cursor is in the text. -/
theorem at_readClassChar (hs : s.At text) {r : Reading Char s.left} (h : readClassChar s = .ok r) :
    r.next.At text := by
  rw [readClassChar] at h
  split at h
  · cases h
  · dsimp only at h
    split at h
    · split at h
      · cases h
      · cases h
      · cases h
        exact hs.skip _
    · cases h
      exact hs.skip 1

/-- After the members of a class the cursor is in the text. -/
theorem at_readClassItems (start : Nat) (s : Cursor) (hs : s.At text)
    (r : Reading (List (Char × Char)) s.left) (h : readClassItems start s = .ok r) :
    r.next.At text := by
  rw [readClassItems] at h
  split at h
  · cases h
  · cases h
    exact hs.skip 1
  · obtain ⟨lo, hlo, h⟩ := exists_of_bind_eq_ok h
    have hlower := at_readClassChar hs hlo
    have hshort := lo.shorter
    dsimp only at h
    split at h
    · split at h
      · cases h
      · cases h
        exact hlower.skip 2
      · obtain ⟨hi, hhi, h⟩ := exists_of_bind_eq_ok h
        have hupper := at_readClassChar (hlower.skip 1) hhi
        have hshort' := hi.shorter
        split at h
        · cases h
        · obtain ⟨more, hmore, h⟩ := exists_of_bind_eq_ok h
          cases h
          have := Cursor.left_skip lo.next 1
          exact at_readClassItems start hi.next hupper more hmore
    · obtain ⟨more, hmore, h⟩ := exists_of_bind_eq_ok h
      cases h
      exact at_readClassItems start lo.next hlower more hmore
termination_by s.left
decreasing_by all_goals omega

/-- After a class the cursor is in the text. -/
theorem at_readClass (hs : s.At text) {r : Reading Pattern s.left} (h : readClass s = .ok r) :
    r.next.At text := by
  obtain ⟨items, hitems, h⟩ := exists_of_bind_eq_ok h
  cases h
  exact at_readClassItems _ _ ((hs.skip _).skip _) items hitems

/-- After an atom that is not a group the cursor is in the text. -/
theorem at_readLeaf (hs : s.At text) {c : Char} (hc : s.peek 0 = some c)
    {r : Reading Pattern s.left} (h : readLeaf enclosing s c hc = .ok r) : r.next.At text := by
  rw [readLeaf.eq_def] at h
  dsimp only at h
  split at h
  · cases h
    exact hs.skip 1
  · cases h
    exact hs.skip 1
  · cases h
    exact hs.skip 1
  · exact at_readClass hs h
  · split at h
    · cases h
    · cases h
      exact hs.skip _
    · cases h
      exact hs.skip _
  · split at h
    · cases h
    · cases h
      exact hs.skip 1

/-- After a quantifier the cursor is in the text. -/
theorem at_readQuantifier (hs : s.At text) {atom : Pattern} {r : Reading Pattern (s.left + 1)}
    (h : readQuantifier atom s = .ok r) : r.next.At text := by
  rw [readQuantifier.eq_def] at h
  split at h
  · cases h
    exact hs.skip 1
  · cases h
    exact hs.skip 1
  · cases h
    exact hs.skip 1
  · split at h
    · cases h
    · cases h
      exact hs.skip _
    · split at h
      · cases h
      · cases h
        exact hs.skip _
  · cases h
    exact hs

/-- After a closing parenthesis the cursor is in the text. -/
theorem at_readClosing (hs : s.At text) {start : Nat} {r : Reading Unit (s.left + 1)}
    (h : readClosing start s = .ok r) : r.next.At text := by
  rw [readClosing.eq_def] at h
  split at h
  · cases h
    exact hs.skip 1
  · cases h

mutual
/-- After options the cursor is in the text. -/
theorem at_readOptions (limit : Nat) (enclosing : List Nat) (s : Cursor) (hs : s.At text)
    (r : Reading (List Pattern) (s.left + 1)) (h : readOptions limit enclosing s = .ok r) :
    r.next.At text := by
  cases optionsRead_of_readOptions h with
  | @one first _ hfirst _ => exact at_readItems limit enclosing s hs first hfirst
  | @bar first more _ hfirst hbar hmore =>
    have hnext := at_readItems limit enclosing s hs first hfirst
    have hshort := first.shorter
    have hlt := Cursor.lt_left_of_peek hbar
    have hskip := Cursor.left_skip first.next 1
    exact at_readOptions limit enclosing (first.next.skip 1) (hnext.skip 1) more hmore
termination_by 3 * s.left + 2
decreasing_by all_goals omega

/-- After items the cursor is in the text. -/
theorem at_readItems (limit : Nat) (enclosing : List Nat) (s : Cursor) (hs : s.At text)
    (r : Reading (List Pattern) (s.left + 1)) (h : readItems limit enclosing s = .ok r) :
    r.next.At text := by
  cases itemsRead_of_readItems h with
  | nil => exact hs
  | @cons atom item more _ hatom hitem hmore =>
    have hnext : atom.next.At text := by
      cases hatom with
      | group _ hleft h => exact at_readGroup limit enclosing s hs hleft atom h
      | leaf hc _ h => exact at_readLeaf hs hc h
    have hshort := atom.shorter
    have hshort' := item.shorter
    exact at_readItems limit enclosing item.next (at_readQuantifier hnext hitem) more hmore
termination_by 3 * s.left + 1
decreasing_by all_goals omega

/-- After a group the cursor is in the text. -/
theorem at_readGroup (limit : Nat) (enclosing : List Nat) (s : Cursor) (hs : s.At text)
    (hleft : 0 < s.left) (r : Reading Pattern s.left)
    (h : readGroup limit enclosing s hleft = .ok r) : r.next.At text := by
  cases groupRead_of_readGroup h with
  | @plain inner closing _ _ _ hinner hclosing =>
    have hskip := Cursor.left_skip s 3
    have hend := at_readOptions limit enclosing (s.skip 3) (hs.skip 3) inner hinner
    exact at_readClosing hend hclosing
  | @capture inner closing _ _ _ hinner hclosing =>
    have hopen := Cursor.left_openGroup s
    exact at_readClosing (at_readOptions limit ((s.groups + 1) :: enclosing) s.openGroup
      hs.openGroup inner hinner) hclosing
termination_by 3 * s.left
decreasing_by all_goals omega
end

/-- After a group or another atom the cursor is in the text. -/
theorem at_atomRead (hs : s.At text) {atom : Reading Pattern s.left}
    (h : AtomRead limit enclosing s atom) : atom.next.At text := by
  cases h with
  | group _ hleft h => exact at_readGroup limit enclosing s hs hleft atom h
  | leaf hc _ h => exact at_readLeaf hs hc h

end Pattern

end BacktrackRegex
