/-!
# The trail of a search

A search records places of the text under keys: where a capture group starts and ends, and where an
iteration of a guarded loop begins. The records form a trail that only grows at its end and is cut
back when the search gives up a choice. A trail lives in a storage that may hold older records above
its end. They are never read, and new records overwrite them.
-/

namespace BacktrackRegex

/-- What a record of a trail is about. -/
inductive Key where
  /-- A start or an end of a capture group; group 0 is the whole match. -/
  | group (index : Nat)
  /-- The start of an iteration of a guarded loop. -/
  | loop (index : Nat)
  deriving DecidableEq, Repr

/-- A place of the text recorded under a key. -/
structure Entry where
  key : Key
  pos : Nat
  deriving DecidableEq, Repr

/-- A piece of the text, from `start` up to but not including `stop`. -/
structure Span where
  start : Nat
  stop : Nat
  deriving DecidableEq, Repr

/-- What a search cannot go on from. No search of a pattern that was read from a text meets one. -/
inductive Fault where
  /-- A capture group has an end on the trail but no start. -/
  | undetermined (group : Nat)
  /-- A trail was to be cut back to more records than it has. -/
  | cutAboveTop
  /-- A captured span is reversed, or does not lie inside the text. -/
  | spanOutsideText
  /-- The search stands behind the end of the text. -/
  | positionOutsideText
  /-- A character was to be read from a place inside of one. -/
  | insideCharacter
  deriving DecidableEq, Repr

/-- A trail: the first `top` records of a storage. -/
structure Trail where
  storage : Array Entry
  top : Nat
  top_le : top ≤ storage.size
  deriving DecidableEq, Repr

namespace Trail

/-- The empty trail over a storage, whose records are not part of it. -/
def emptyOn (storage : Array Entry) : Trail :=
  ⟨storage, 0, Nat.zero_le _⟩

/-- The trail of all records of a storage. -/
def holding (storage : Array Entry) : Trail :=
  ⟨storage, storage.size, Nat.le_refl _⟩

/-- The trail without records. -/
def empty : Trail := emptyOn #[]

/-- The records of the trail, the oldest first. -/
def entries (t : Trail) : List Entry :=
  t.storage.toList.take t.top

/-- The trail with one more record. -/
def push (t : Trail) (key : Key) (pos : Nat) : Trail :=
  if h : t.top < t.storage.size then
    ⟨t.storage.set t.top ⟨key, pos⟩, t.top + 1, by simp only [Array.size_set]; exact h⟩
  else ⟨t.storage.push ⟨key, pos⟩, t.top + 1, by simpa using t.top_le⟩

/-- The trail cut back to its first `top` records. -/
def cut (t : Trail) (top : Nat) : Except Fault Trail :=
  if h : top ≤ t.top then .ok ⟨t.storage, top, Nat.le_trans h t.top_le⟩ else .error .cutAboveTop

/-- A trail that shares its storage and its records with this one. -/
def fork (t : Trail) : Trail := t

/-- A trail with the same records, in a storage of its own. -/
def copy (t : Trail) : Trail :=
  holding (t.storage.extract 0 t.top)

/-- The trail as it is after another one worked on the same storage. -/
def after (t : Trail) (fork : Trail) : Trail :=
  ⟨fork.storage, min t.top fork.storage.size, Nat.min_le_right _ _⟩

/-- The index of the newest record with a given key among the first `n`. -/
def indexBelow (t : Trail) (key : Key) : Nat → Option Nat
  | 0 => none
  | n + 1 =>
    if t.storage[n]?.any (·.key == key) then some n else indexBelow t key n

/-- The place of the record with a given index. -/
def posAt (t : Trail) (i : Nat) : Option Nat :=
  t.storage[i]?.map Entry.pos

/-- The place of the newest record with a given key. -/
def find? (t : Trail) (key : Key) : Option Nat :=
  (t.indexBelow key t.top).bind t.posAt

/-- The latest span of a capture group, from its newest record but one to its newest record. A group
without records took no part in the match. -/
def captured (t : Trail) (group : Nat) : Except Fault (Option Span) :=
  match t.indexBelow (.group group) t.top with
  | none => .ok none
  | some stop =>
    match t.indexBelow (.group group) stop with
    | none => .error (.undetermined group)
    | some start =>
      .ok (do some ⟨← t.posAt start, ← t.posAt stop⟩)

/-- The latest span of a capture group, if it has one. -/
def span? (t : Trail) (group : Nat) : Option Span :=
  (t.captured group).toOption.join

/-- The latest spans of group 0 and of `groups` capture groups. -/
def capturedAll (t : Trail) (groups : Nat) : Except Fault (List (Option Span)) :=
  (List.range (groups + 1)).mapM t.captured

end Trail

end BacktrackRegex
