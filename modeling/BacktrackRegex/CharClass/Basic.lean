import BacktrackRegex.CodePoint.AsciiMask

/-!
# Character classes

A character class is an ASCII mask, a range set, the complement of a class or a union of classes.
Masks and range sets of stride one are complemented and united directly; a complement or union is
written as such only around classes for which that is not possible. Unions are built flat, with at
most one range set of stride one among their members.
-/

namespace BacktrackRegex

/-- A set of characters that a single place of a pattern accepts. -/
inductive CharClass where
  /-- The set of an ASCII mask. -/
  | ascii (mask : AsciiMask)
  /-- The set of a list of ranges. -/
  | ranges (set : RangeSet)
  /-- Everything outside a class. -/
  | complement (inner : CharClass)
  /-- Everything in at least one of the classes. -/
  | union (members : List CharClass)
  deriving Repr

namespace CharClass

mutual
/-- Whether two classes are built alike. -/
def same : CharClass → CharClass → Bool
  | .ascii m, .ascii n => m == n
  | .ranges s, .ranges t => s == t
  | .complement c, .complement d => same c d
  | .union cs, .union ds => sameAll cs ds
  | _, _ => false

/-- Whether two lists of classes are built alike. -/
def sameAll : List CharClass → List CharClass → Bool
  | [], [] => true
  | c :: cs, d :: ds => same c d && sameAll cs ds
  | _, _ => false
end

mutual
/-- Classes that are built alike are equal. -/
theorem same_iff : (c d : CharClass) → (same c d = true ↔ c = d)
  | .ascii _, d => by cases d <;> simp [same]
  | .ranges _, d => by cases d <;> simp [same]
  | .complement c, d => by cases d <;> simp [same, same_iff c]
  | .union cs, d => by cases d <;> simp [same, sameAll_iff cs]

/-- Lists of classes that are built alike are equal. -/
theorem sameAll_iff : (cs ds : List CharClass) → (sameAll cs ds = true ↔ cs = ds)
  | [], ds => by cases ds <;> simp [sameAll]
  | c :: cs, ds => by cases ds <;> simp [sameAll, same_iff c, sameAll_iff cs]
end

instance : DecidableEq CharClass := fun c d =>
  decidable_of_iff (same c d = true) (same_iff c d)

mutual
/-- Whether a code point belongs to the class. -/
def contains : CharClass → Nat → Bool
  | .ascii mask, c => mask.contains c
  | .ranges set, c => set.contains c
  | .complement inner, c => !contains inner c
  | .union members, c => anyContains members c

/-- Whether a code point belongs to one of the classes. -/
def anyContains : List CharClass → Nat → Bool
  | [], _ => false
  | m :: ms, c => contains m c || anyContains ms c
end

/-- Whether a character belongs to the class. -/
def accepts (cls : CharClass) (c : Char) : Bool :=
  cls.contains c.toNat

/-- The class of all code points outside a class. -/
def negate : CharClass → CharClass
  | .ascii mask => .ascii mask.negate
  | .ranges set =>
    match set.complement? with
    | some gaps => .ranges gaps
    | none => .complement (.ranges set)
  | .complement inner => inner
  | .union members => .complement (.union members)

/-- The members of a union, or the class alone. -/
def members : CharClass → List CharClass
  | .union cs => cs
  | c => [c]

/-- The range set of a class that consists of ranges of stride one. -/
def unitSet? : CharClass → Option RangeSet
  | .ranges set => if set.isUnit then some set else none
  | _ => none

/-- The class of a list of classes that are not unions: the only one, or else their union. -/
def ofMembers : List CharClass → CharClass
  | [] => .ranges .empty
  | [c] => c
  | cs => .union cs

/-- The union of a non-empty list of range sets. -/
def unite : List RangeSet → Option RangeSet
  | [] => none
  | s :: rest => some (rest.foldl RangeSet.union s)

/-- A class with the code points of all the given ones. Unions among them are opened, and all range
sets of stride one are united into a single first member. -/
def merge (classes : List CharClass) : CharClass :=
  let flat := classes.flatMap members
  let united := unite (flat.filterMap unitSet?)
  let others := flat.filter fun c => c.unitSet?.isNone
  ofMembers ((united.map CharClass.ranges).toList ++ others)

/-- The mask of a non-empty range set that holds ASCII code points only; any other class stays as
it is. -/
def narrow : CharClass → CharClass
  | .ranges set =>
    match AsciiMask.ofRangeSet? set with
    | some mask => if set.isEmpty then .ranges set else .ascii mask
    | none => .ranges set
  | c => c

/-- The character of a mask or range set that consists of a single one. -/
def single? : CharClass → Option Char
  | .ascii mask =>
    if !mask.beyond && mask.count == 1 then mask.asciiRanges.single?.bind charOfCodePoint? else none
  | .ranges set => set.single?.bind charOfCodePoint?
  | _ => none

end CharClass

end BacktrackRegex
