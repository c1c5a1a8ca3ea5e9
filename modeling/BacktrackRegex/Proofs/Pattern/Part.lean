import BacktrackRegex.Pattern.Basic

/-!
# Parts of patterns

Besides the patterns inside it, a pattern has parts that are no patterns: the items of a sequence,
the options of an alternation, the mandatory and optional copies of a repetition, and the loop of an
unbounded one. Each part consists of smaller ones, so that what holds of the parts of all parts
holds of all patterns.

A local test passes everywhere in a pattern if it accepts all patterns inside it, each with the
capture groups that enclose it.
-/

namespace BacktrackRegex

/-- A part of a pattern. -/
inductive Part where
  /-- A pattern. -/
  | one (p : Pattern)
  /-- The items of a sequence, from some item on. -/
  | items (ps : List Pattern)
  /-- The options of an alternation, from some option on. -/
  | options (ps : List Pattern)
  /-- A number of mandatory copies. -/
  | copies (p : Pattern) (n : Nat)
  /-- A number of nested optional copies. -/
  | optionals (p : Pattern) (n : Nat)
  /-- Any number of iterations. -/
  | loop (p : Pattern)

namespace Pattern

/-- Whether a pattern has no patterns inside it. -/
def isLeaf : Pattern → Bool
  | .sequence _ => false
  | .alternation _ => false
  | .repetition _ _ _ => false
  | .capture _ _ => false
  | _ => true

end Pattern

namespace Part

/-- What a repetition tries after its mandatory copies. -/
def more (p : Pattern) (min : Nat) : Option Nat → Part
  | none => .loop p
  | some max => .optionals p (max - min)

/-- A property that each part has if the parts that it consists of have it. -/
structure Inductive (motive : Part → Prop) : Prop where
  leaf : ∀ p, p.isLeaf = true → motive (.one p)
  sequence : ∀ ps, motive (.items ps) → motive (.one (.sequence ps))
  alternation : ∀ ps, motive (.options ps) → motive (.one (.alternation ps))
  repetition : ∀ p min max, motive (more p min max) → motive (.copies p min) →
    motive (.one (.repetition p min max))
  capture : ∀ i p, motive (.one p) → motive (.one (.capture i p))
  noItems : motive (.items [])
  item : ∀ p ps, motive (.one p) → motive (.items ps) → motive (.items (p :: ps))
  noOptions : motive (.options [])
  option : ∀ p ps, motive (.one p) → motive (.options ps) → motive (.options (p :: ps))
  noCopies : ∀ p, motive (.copies p 0)
  copy : ∀ p n, motive (.one p) → motive (.copies p n) → motive (.copies p (n + 1))
  noOptionals : ∀ p, motive (.optionals p 0)
  optional : ∀ p n, motive (.one p) → motive (.optionals p n) → motive (.optionals p (n + 1))
  loop : ∀ p, motive (.one p) → motive (.loop p)

namespace Inductive

variable {motive : Part → Prop} (h : Inductive motive)
include h

private theorem of_copies {p : Pattern} (hp : motive (.one p)) : ∀ n, motive (.copies p n)
  | 0 => h.noCopies p
  | n + 1 => h.copy p n hp (of_copies hp n)

private theorem of_optionals {p : Pattern} (hp : motive (.one p)) : ∀ n, motive (.optionals p n)
  | 0 => h.noOptionals p
  | n + 1 => h.optional p n hp (of_optionals hp n)

private theorem of_more {p : Pattern} (hp : motive (.one p)) (min : Nat) :
    ∀ max, motive (more p min max)
  | none => h.loop p hp
  | some max => of_optionals h hp (max - min)

mutual
private theorem of_one : ∀ p, motive (.one p)
  | .literal s => h.leaf (.literal s) rfl
  | .sequence ps => h.sequence ps (of_items ps)
  | .alternation ps => h.alternation ps (of_options ps)
  | .anyChar => h.leaf .anyChar rfl
  | .repetition p min max =>
    h.repetition p min max (of_more h (of_one p) min max) (of_copies h (of_one p) min)
  | .capture i p => h.capture i p (of_one p)
  | .backReference i => h.leaf (.backReference i) rfl
  | .textStart => h.leaf .textStart rfl
  | .textEnd => h.leaf .textEnd rfl
  | .charClass cls => h.leaf (.charClass cls) rfl

private theorem of_items : ∀ ps, motive (.items ps)
  | [] => h.noItems
  | p :: ps => h.item p ps (of_one p) (of_items ps)

private theorem of_options : ∀ ps, motive (.options ps)
  | [] => h.noOptions
  | p :: ps => h.option p ps (of_one p) (of_options ps)
end

/-- Such a property holds of all parts. -/
theorem all : ∀ part, motive part
  | .one p => of_one h p
  | .items ps => of_items h ps
  | .options ps => of_options h ps
  | .copies p n => of_copies h (of_one h p) n
  | .optionals p n => of_optionals h (of_one h p) n
  | .loop p => h.loop p (of_one h p)

end Inductive

/-- What holds of a part whenever it holds of the parts that it consists of holds of all parts. -/
@[elab_as_elim]
theorem induct {motive : Part → Prop}
    (leaf : ∀ p, p.isLeaf = true → motive (.one p))
    (sequence : ∀ ps, motive (.items ps) → motive (.one (.sequence ps)))
    (alternation : ∀ ps, motive (.options ps) → motive (.one (.alternation ps)))
    (repetition : ∀ p min max, motive (more p min max) → motive (.copies p min) →
      motive (.one (.repetition p min max)))
    (capture : ∀ i p, motive (.one p) → motive (.one (.capture i p)))
    (noItems : motive (.items []))
    (item : ∀ p ps, motive (.one p) → motive (.items ps) → motive (.items (p :: ps)))
    (noOptions : motive (.options []))
    (option : ∀ p ps, motive (.one p) → motive (.options ps) → motive (.options (p :: ps)))
    (noCopies : ∀ p, motive (.copies p 0))
    (copy : ∀ p n, motive (.one p) → motive (.copies p n) → motive (.copies p (n + 1)))
    (noOptionals : ∀ p, motive (.optionals p 0))
    (optional : ∀ p n, motive (.one p) → motive (.optionals p n) →
      motive (.optionals p (n + 1)))
    (loop : ∀ p, motive (.one p) → motive (.loop p)) (part : Part) : motive part :=
  (Inductive.mk leaf sequence alternation repetition capture noItems item noOptions option noCopies
    copy noOptionals optional loop).all part

end Part

namespace Pattern

mutual
/-- Whether a local test accepts all patterns inside a pattern, each with the groups around it. -/
def everywhere (test : List Nat → Pattern → Bool) (enclosing : List Nat) : Pattern → Bool
  | .sequence ps => test enclosing (.sequence ps) && everywhereIn test enclosing ps
  | .alternation ps => test enclosing (.alternation ps) && everywhereIn test enclosing ps
  | .repetition p min max =>
    test enclosing (.repetition p min max) && everywhere test enclosing p
  | .capture i p => test enclosing (.capture i p) && everywhere test (i :: enclosing) p
  | p => test enclosing p

/-- Whether a local test accepts all patterns inside the patterns of a list. -/
def everywhereIn (test : List Nat → Pattern → Bool) (enclosing : List Nat) : List Pattern → Bool
  | [] => true
  | p :: ps => everywhere test enclosing p && everywhereIn test enclosing ps
end

/-- Whether the pattern is no empty alternation. -/
def hasOption : Pattern → Bool
  | .alternation ps => !ps.isEmpty
  | _ => true

/-- Whether every alternation in the pattern has an option. -/
def hasOptions (p : Pattern) : Bool :=
  p.everywhere (fun _ => hasOption) []

/-- Whether the bounds of a repetition are in order. -/
def inOrder (min : Nat) (max : Option Nat) : Bool :=
  max.all (min ≤ ·)

/-- Whether the pattern is no capture group inside itself, no back-reference inside its group, no
empty alternation and no repetition with fewer copies at most than at least. -/
def isProper (enclosing : List Nat) : Pattern → Bool
  | .alternation ps => !ps.isEmpty
  | .repetition _ min max => inOrder min max
  | .capture i _ => !enclosing.contains i
  | .backReference i => !enclosing.contains i
  | _ => true

/-- Whether all patterns inside the pattern are proper. -/
def isWellFormed (enclosing : List Nat) (p : Pattern) : Bool :=
  p.everywhere isProper enclosing

/-- Whether the pattern is no back-reference. -/
def isNoReference : Pattern → Bool
  | .backReference _ => false
  | _ => true

/-- Whether the pattern is no back-reference, and the bounds of a repetition are in order. -/
def isRegular : Pattern → Bool
  | .backReference _ => false
  | .repetition _ min max => inOrder min max
  | _ => true

/-- Whether the pattern has no back-references. -/
def isReferenceFree (p : Pattern) : Bool :=
  p.everywhere (fun _ => isNoReference) []

/-- In a pattern without patterns inside it, there is only the pattern itself to test. -/
theorem everywhere_leaf {test : List Nat → Pattern → Bool} {enclosing : List Nat} {p : Pattern}
    (hp : p.isLeaf = true) : p.everywhere test enclosing = test enclosing p := by
  cases p with
  | sequence _ | alternation _ | repetition _ _ _ | capture _ _ => simp [isLeaf] at hp
  | _ => simp only [everywhere]

section Both

variable {test₁ test₂ test : List Nat → Pattern → Bool}
  {R : List Nat → List Nat → List Nat → Prop}

mutual
/-- What two tests accept everywhere, a test that both imply does too. The three may see different
groups around a pattern, as long as these are related in a way that further groups keep. -/
theorem everywhere_of_both (hR : ∀ i g₁ g₂ g, R g₁ g₂ g → R (i :: g₁) (i :: g₂) (i :: g))
    (ht : ∀ g₁ g₂ g q, R g₁ g₂ g → test₁ g₁ q = true → test₂ g₂ q = true → test g q = true) :
    ∀ (p : Pattern) (g₁ g₂ g : List Nat), R g₁ g₂ g → p.everywhere test₁ g₁ = true →
      p.everywhere test₂ g₂ = true → p.everywhere test g = true
  | .sequence ps, g₁, g₂, g, hg, h₁, h₂ => by
    simp only [everywhere, Bool.and_eq_true] at h₁ h₂ ⊢
    exact ⟨ht _ _ _ _ hg h₁.1 h₂.1, everywhereIn_of_both hR ht ps g₁ g₂ g hg h₁.2 h₂.2⟩
  | .alternation ps, g₁, g₂, g, hg, h₁, h₂ => by
    simp only [everywhere, Bool.and_eq_true] at h₁ h₂ ⊢
    exact ⟨ht _ _ _ _ hg h₁.1 h₂.1, everywhereIn_of_both hR ht ps g₁ g₂ g hg h₁.2 h₂.2⟩
  | .repetition p min max, g₁, g₂, g, hg, h₁, h₂ => by
    simp only [everywhere, Bool.and_eq_true] at h₁ h₂ ⊢
    exact ⟨ht _ _ _ _ hg h₁.1 h₂.1, everywhere_of_both hR ht p g₁ g₂ g hg h₁.2 h₂.2⟩
  | .capture i p, g₁, g₂, g, hg, h₁, h₂ => by
    simp only [everywhere, Bool.and_eq_true] at h₁ h₂ ⊢
    exact ⟨ht _ _ _ _ hg h₁.1 h₂.1,
      everywhere_of_both hR ht p (i :: g₁) (i :: g₂) (i :: g) (hR i _ _ _ hg) h₁.2 h₂.2⟩
  | .literal _, _, _, _, hg, h₁, h₂ | .anyChar, _, _, _, hg, h₁, h₂
  | .charClass _, _, _, _, hg, h₁, h₂ | .backReference _, _, _, _, hg, h₁, h₂
  | .textStart, _, _, _, hg, h₁, h₂ | .textEnd, _, _, _, hg, h₁, h₂ => by
    simp only [everywhere] at h₁ h₂ ⊢
    exact ht _ _ _ _ hg h₁ h₂

/-- What two tests accept everywhere in the patterns of a list, a test that both imply does too. -/
theorem everywhereIn_of_both (hR : ∀ i g₁ g₂ g, R g₁ g₂ g → R (i :: g₁) (i :: g₂) (i :: g))
    (ht : ∀ g₁ g₂ g q, R g₁ g₂ g → test₁ g₁ q = true → test₂ g₂ q = true → test g q = true) :
    ∀ (ps : List Pattern) (g₁ g₂ g : List Nat), R g₁ g₂ g → everywhereIn test₁ g₁ ps = true →
      everywhereIn test₂ g₂ ps = true → everywhereIn test g ps = true
  | [], _, _, _, _, _, _ => rfl
  | p :: ps, g₁, g₂, g, hg, h₁, h₂ => by
    simp only [everywhereIn, Bool.and_eq_true] at h₁ h₂ ⊢
    exact ⟨everywhere_of_both hR ht p g₁ g₂ g hg h₁.1 h₂.1,
      everywhereIn_of_both hR ht ps g₁ g₂ g hg h₁.2 h₂.2⟩
end

end Both

/-- A test that does not look at the groups around a pattern is passed whatever they are. -/
theorem everywhere_change {test : Pattern → Bool} {p : Pattern} {g : List Nat} (g' : List Nat)
    (h : p.everywhere (fun _ => test) g = true) : p.everywhere (fun _ => test) g' = true := by
  refine everywhere_of_both (R := fun _ _ _ => True) (fun _ _ _ _ _ => trivial)
    (fun _ _ _ q _ hq _ => ?_) p g g g' trivial h h
  exact hq

mutual
/-- Two tests are passed everywhere together if each of them is. -/
theorem everywhere_and (t u : List Nat → Pattern → Bool) : ∀ (p : Pattern) (g : List Nat),
    p.everywhere (fun g q => t g q && u g q) g = (p.everywhere t g && p.everywhere u g)
  | .sequence ps, g => by
    simp only [everywhere, everywhereIn_and t u ps, Bool.and_assoc, Bool.and_left_comm]
  | .alternation ps, g => by
    simp only [everywhere, everywhereIn_and t u ps, Bool.and_assoc, Bool.and_left_comm]
  | .repetition p _ _, g => by
    simp only [everywhere, everywhere_and t u p, Bool.and_assoc, Bool.and_left_comm]
  | .capture _ p, g => by
    simp only [everywhere, everywhere_and t u p, Bool.and_assoc, Bool.and_left_comm]
  | .literal _, _ | .anyChar, _ | .backReference _, _ | .textStart, _ | .textEnd, _
  | .charClass _, _ => by
    simp only [everywhere]

/-- Two tests are passed everywhere in a list together if each of them is. -/
theorem everywhereIn_and (t u : List Nat → Pattern → Bool) : ∀ (ps : List Pattern) (g : List Nat),
    everywhereIn (fun g q => t g q && u g q) g ps = (everywhereIn t g ps && everywhereIn u g ps)
  | [], _ => rfl
  | p :: ps, g => by
    simp only [everywhereIn, everywhere_and t u p, everywhereIn_and t u ps, Bool.and_assoc,
      Bool.and_left_comm]
end

/-- A proper pattern is no empty alternation. -/
theorem hasOption_of_isProper (enclosing : List Nat) (p : Pattern)
    (h : p.isProper enclosing = true) : p.hasOption = true := by
  cases p with
  | alternation ps => exact h
  | _ => rfl

/-- A pattern that is well-formed inside some groups is so inside fewer. -/
theorem isWellFormed_of_subset {p : Pattern} {groups groups' : List Nat} (hs : groups' ⊆ groups)
    (h : p.isWellFormed groups = true) : p.isWellFormed groups' = true := by
  refine everywhere_of_both (R := fun around _ around' => around' ⊆ around)
    (fun i _ _ _ hs => List.cons_subset_cons i hs) (fun around _ around' q hs hq _ => ?_)
    p groups groups groups' hs h h
  cases q with
  | capture i _ | backReference i =>
    have hi : i ∉ around := by simpa [isProper] using hq
    simpa [isProper] using fun hmem => hi (hs hmem)
  | _ => exact hq

/-- The alternations of a well-formed pattern have options. -/
theorem hasOptions_of_isWellFormed {enclosing : List Nat} {p : Pattern}
    (h : p.isWellFormed enclosing = true) : p.hasOptions = true :=
  everywhere_of_both (R := fun _ _ _ => True) (fun _ _ _ _ _ => trivial)
    (fun groups _ _ q _ hq _ => hasOption_of_isProper groups q hq) p enclosing enclosing [] trivial
    h h

/-- The repetitions of a well-formed pattern without back-references have bounds in order. -/
theorem everywhere_isRegular {enclosing : List Nat} {p : Pattern}
    (h : p.isWellFormed enclosing = true) (hfree : p.isReferenceFree = true) :
    p.everywhere (fun _ => isRegular) enclosing = true := by
  refine everywhere_of_both (R := fun _ _ _ => True) (fun _ _ _ _ _ => trivial)
    (fun _ _ _ q _ hq hq' => ?_) p enclosing [] enclosing trivial h hfree
  cases q with
  | repetition _ _ _ => exact hq
  | backReference _ => exact hq'
  | _ => rfl

mutual
/-- Whether the pattern is compiled to no node at all. -/
def isSilent : Pattern → Bool
  | .literal s => s.isEmpty
  | .sequence ps => allSilent ps
  | .alternation [] => true
  | .alternation [p] => isSilent p
  | .repetition p min (some max) =>
    (max - min == 0 || isSilent p) && (min == 0 || isSilent p)
  | _ => false

/-- Whether no pattern of a list is compiled to any node. -/
def allSilent : List Pattern → Bool
  | [] => true
  | p :: ps => isSilent p && allSilent ps
end

end Pattern

namespace Part

/-- Whether a local test accepts all patterns inside a part. -/
def everywhere (test : List Nat → Pattern → Bool) (enclosing : List Nat) : Part → Bool
  | .one p => p.everywhere test enclosing
  | .items ps => Pattern.everywhereIn test enclosing ps
  | .options ps => Pattern.everywhereIn test enclosing ps
  | .copies p _ => p.everywhere test enclosing
  | .optionals p _ => p.everywhere test enclosing
  | .loop p => p.everywhere test enclosing

/-- Both kinds of what a repetition tries last consist of its body. -/
theorem everywhere_more {test : List Nat → Pattern → Bool} {enclosing : List Nat} (p : Pattern)
    (min : Nat) (max : Option Nat) :
    (more p min max).everywhere test enclosing = p.everywhere test enclosing := by
  cases max with
  | none => rfl
  | some max => rfl

/-- What a repetition tries last is not a choice of options. -/
theorem more_ne_options (p : Pattern) (min : Nat) (max : Option Nat) (ps : List Pattern) :
    more p min max ≠ .options ps := by
  cases max <;> simp [more]

/-- Whether the shape of a part lets it match the empty text somewhere. -/
def isNullable : Part → Bool
  | .one p => p.isNullable
  | .items ps => Pattern.allNullable ps
  | .options ps => Pattern.anyNullable ps
  | .copies p n => n == 0 || p.isNullable
  | .optionals _ _ => true
  | .loop _ => true

/-- Whether a part is compiled to no node at all. -/
def isSilent : Part → Bool
  | .one p => p.isSilent
  | .items ps => Pattern.allSilent ps
  | .options ps => Pattern.isSilent (.alternation ps)
  | .copies p n => n == 0 || p.isSilent
  | .optionals p n => n == 0 || p.isSilent
  | .loop _ => false

/-- Silent parts whose alternations have options match the empty text. -/
theorem isNullable_of_isSilent {test : List Nat → Pattern → Bool}
    (ht : ∀ groups q, test groups q = true → q.hasOption = true) {enclosing : List Nat}
    {part : Part} (hs : part.isSilent = true) (ho : part.everywhere test enclosing = true)
    (hne : part ≠ .options []) : part.isNullable = true := by
  induction part using Part.induct generalizing enclosing with
  | leaf p hp =>
    cases p with
    | literal s => exact hs
    | sequence _ | alternation _ | repetition _ _ _ | capture _ _ => simp [Pattern.isLeaf] at hp
    | _ => simp [isSilent, Pattern.isSilent] at hs
  | sequence ps ih =>
    simp only [everywhere, Pattern.everywhere, Bool.and_eq_true] at ho
    exact ih hs ho.2 (by simp)
  | alternation ps ih =>
    simp only [everywhere, Pattern.everywhere, Bool.and_eq_true] at ho
    exact ih hs ho.2 (by rintro ⟨⟩; simpa [Pattern.hasOption] using ht _ _ ho.1)
  | repetition p min max _ ihcopies =>
    simp only [everywhere, Pattern.everywhere, Bool.and_eq_true] at ho
    cases max with
    | none => simp [isSilent, Pattern.isSilent] at hs
    | some max =>
      simp only [isSilent, Pattern.isSilent, Bool.and_eq_true] at hs
      exact ihcopies hs.2 ho.2 (by simp)
  | capture i p _ => simp [isSilent, Pattern.isSilent] at hs
  | noItems | noCopies p | noOptionals p | optional p n _ _ => rfl
  | item p ps ihp ihps =>
    simp only [everywhere, Pattern.everywhereIn, Bool.and_eq_true] at ho
    simp only [isSilent, Pattern.allSilent, Bool.and_eq_true] at hs
    simp only [isNullable, Pattern.allNullable, Bool.and_eq_true]
    exact ⟨ihp hs.1 ho.1 (by simp), ihps hs.2 ho.2 (by simp)⟩
  | noOptions => exact absurd rfl hne
  | option p ps ihp _ =>
    simp only [everywhere, Pattern.everywhereIn, Bool.and_eq_true] at ho
    cases ps with
    | cons q qs => simp [isSilent, Pattern.isSilent] at hs
    | nil =>
      have hp : p.isNullable = true := ihp hs ho.1 (by simp)
      simp [isNullable, Pattern.anyNullable, hp]
  | copy p n ihp _ =>
    have hp : p.isNullable = true := ihp (by simpa [isSilent] using hs) ho (by simp)
    simp [isNullable, hp]
  | loop p _ => simp [isSilent] at hs

end Part

end BacktrackRegex
