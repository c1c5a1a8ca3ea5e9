import BacktrackRegex.MatcherSource.Generator
import Mathlib.Data.List.Forall2
import Mathlib.Data.List.Induction

/-!
# What a generator collects

A generator answers each pattern that it is offered as compiling that pattern alone does, whatever
it was offered before, and a pattern that it refuses changes nothing. After any offers it has the
matchers of the distinct patterns that can be compiled, in the order in which these were first
offered. Each is named by its number, and is registered with what a regular expression of its
pattern reports of itself.
-/

namespace BacktrackRegex

/-- The settings under which patterns are compiled even if they have a matcher of their own. -/
def Settings.runtime (settings : Settings) : Settings :=
  { settings with usePrecompiled := false }

/-- A pattern that is compiled whatever was precompiled gives a regular expression with its
program. -/
theorem Regex.compile_runtime (settings : Settings) (pattern : String) :
    Regex.compile settings.runtime pattern =
      (Program.ofText pattern).map fun p => ⟨pattern, .program p, settings.runtime⟩ := by
  rw [compile]
  cases Program.ofText pattern <;> rfl

namespace MatcherSource

/-- The lines that register a regular expression under a name, with the node that its searches start
with. -/
def registration (name : String) (re : Regex) (root : Nat) : List String :=
  ["#[distributed_slice(COMPILED_REGEXPS)]",
    "static " ++ Text.upper name ++ ": CompiledRegexp = CompiledRegexp \x7b",
    "    pattern: " ++ Text.quoted re.pattern ++ ",",
    "    anchored: " ++ toString re.isAnchored ++ ",",
    "    min_req: " ++ re.minLength.repr ++ ",",
    "    num_captures: " ++ re.groups.repr ++ ",",
    "    entry: " ++ root.repr ++ ",",
    "    exec: " ++ name ++ ",",
    "\x7d;"]

/-- A line that begins with a text is moved to the right as a whole. -/
theorem indent_append_cons {first : String} (hf : first ≠ "") (rest : String)
    (lines : List String) :
    indent ((first ++ rest) :: lines) = ("    " ++ first ++ rest) :: indent lines := by
  have hne : (first ++ rest).isEmpty = false := by
    simpa [Bool.eq_false_iff] using fun h => absurd h hf
  rw [indent, List.map_cons, hne, String.append_assoc]
  rfl

/-- The registry entry of a program is that of a regular expression with it. -/
theorem registryEntry_eq (name pattern : String) (p : Program) (settings : Settings) :
    registryEntry name pattern p = registration name ⟨pattern, .program p, settings⟩ p.root := by
  simp only [registryEntry, block, String.append_assoc, List.cons_append]
  repeat rw [indent_append_cons (by decide)]
  simp only [registration, indent, List.map_nil, String.append_assoc]
  rfl

/-- An element behind a list is one of its distinct elements if it is new. -/
theorem eraseDups_append_singleton {α : Type} [BEq α] [LawfulBEq α] (l : List α) (a : α) :
    (l ++ [a]).eraseDups = if a ∈ l then l.eraseDups else l.eraseDups ++ [a] := by
  rw [List.eraseDups_append]
  split
  · next h => simp [List.removeAll, h]
  · next h => simp [List.removeAll, h, List.eraseDups_cons]

namespace Generator

/-- Offers patterns one after the other, whatever becomes of them. -/
def offer (patterns : List String) : StateM Generator (List (Except RegexError Unit)) :=
  patterns.mapM fun pattern => (enter pattern).run

/-- The generator that some patterns were offered to. -/
def after (stem : String) (patterns : List String) : Generator :=
  ((offer patterns).run (empty stem)).2

/-- The distinct patterns that can be compiled, in the order in which they first occur. -/
def accepted (patterns : List String) : List String :=
  (patterns.filter fun pattern => (Program.ofText pattern).isOk).eraseDups

/-- The lines of a pattern with a number register the regular expression of the pattern and define
its matcher, under the name that has this number. -/
def IsMatcher (settings : Settings) (stem : String) (numbered : String × Nat)
    (lines : List String) : Prop :=
  let name := stem ++ "_" ++ numbered.2.repr
  ∃ re p, Regex.compile settings.runtime numbered.1 = .ok re ∧ re.program? = some p ∧
    lines = registration name re p.root ++ "" :: matcherFunction name p

/-! ## Accepted patterns -/

variable {stem : String} {patterns : List String} {pattern : String}

/-- A pattern is accepted if it can be compiled. -/
theorem mem_accepted : pattern ∈ accepted patterns ↔
    pattern ∈ patterns ∧ (Program.ofText pattern).isOk = true := by
  rw [accepted, List.mem_eraseDups, List.mem_filter]

/-- One more pattern is accepted if it can be compiled and was not accepted before. -/
theorem accepted_append_singleton (patterns : List String) (pattern : String) :
    accepted (patterns ++ [pattern]) =
      if (Program.ofText pattern).isOk = true ∧ pattern ∉ accepted patterns then
        accepted patterns ++ [pattern]
      else accepted patterns := by
  have hnew : (Program.ofText pattern).isOk = true →
      accepted (patterns ++ [pattern]) =
        if pattern ∈ patterns then accepted patterns else accepted patterns ++ [pattern] := by
    intro hok
    rw [accepted, List.filter_append, List.filter_singleton, hok, cond_true,
      eraseDups_append_singleton]
    simp only [List.mem_filter, hok, and_true]
    rfl
  by_cases hok : (Program.ofText pattern).isOk = true
  · rw [hnew hok]
    by_cases hmem : pattern ∈ patterns
    · rw [if_pos hmem, if_neg fun h => h.2 (mem_accepted.mpr ⟨hmem, hok⟩)]
    · rw [if_neg hmem, if_pos ⟨hok, fun h => hmem (mem_accepted.mp h).1⟩]
  · rw [if_neg fun h => hok h.1, accepted, List.filter_append, List.filter_singleton,
      Bool.eq_false_iff.mpr hok, cond_false, List.append_nil]
    rfl

/-- Accepted patterns are accepted again, and no others. -/
theorem accepted_accepted (patterns : List String) :
    accepted (accepted patterns) = accepted patterns := by
  induction patterns using List.reverseRecOn with
  | nil => rfl
  | append_singleton patterns pattern ih =>
    rw [accepted_append_singleton]
    split
    · next h => rw [accepted_append_singleton, ih, if_pos h]
    · exact ih

/-! ## Offers -/

/-- What becomes of a generator that is offered a pattern. -/
theorem run_enter (pattern : String) (g : Generator) :
    (enter pattern).run.run g =
      if g.patterns.contains pattern then (.ok (), g)
      else match Program.ofText pattern with
        | .ok p => (.ok (), ⟨g.stem, pattern :: g.patterns,
            g.matchers ++ [matcher (g.matcherName g.size) pattern p]⟩)
        | .error e => (.error e, g) := by
  change (ite (g.patterns.contains pattern = true) (pure ()) _ :
    ExceptT RegexError (StateM Generator) Unit).run.run g = _
  split
  · rfl
  · cases Program.ofText pattern <;> rfl

/-- A pattern is refused with the error of compiling it, and leaves the generator as it is. -/
theorem error_of_run_enter {g : Generator} {e : RegexError}
    (h : ((enter pattern).run.run g).1 = .error e) :
    Program.ofText pattern = .error e ∧ ((enter pattern).run.run g).2 = g := by
  rw [run_enter] at h ⊢
  split at h
  · cases h
  · next hnew =>
    rw [if_neg hnew]
    cases hp : Program.ofText pattern with
    | error e' =>
      rw [hp] at h
      exact ⟨congrArg Except.error (Except.error.inj h), rfl⟩
    | ok p =>
      rw [hp] at h
      cases h

/-- The lines of the matcher of a pattern that can be compiled, by its number. -/
def matcherLines (stem : String) (numbered : String × Nat) : List String :=
  match Program.ofText numbered.1 with
  | .ok p => matcher (stem ++ "_" ++ numbered.2.repr) numbered.1 p
  | .error _ => []

/-- The generator with the matchers of those patterns that can be compiled. -/
def collected (stem : String) (patterns : List String) : Generator :=
  ⟨stem, (accepted patterns).reverse, (accepted patterns).zipIdx.map (matcherLines stem)⟩

theorem size_collected (stem : String) (patterns : List String) :
    (collected stem patterns).size = (accepted patterns).length := by
  rw [size, collected, List.length_map, List.length_zipIdx]

/-- A pattern that is not accepted changes nothing. -/
theorem collected_append_of_old (stem : String)
    (h : ¬((Program.ofText pattern).isOk = true ∧ pattern ∉ accepted patterns)) :
    collected stem (patterns ++ [pattern]) = collected stem patterns := by
  unfold collected
  rw [accepted_append_singleton, if_neg h]

/-- A pattern that is accepted adds a matcher named by the number of those before it. -/
theorem collected_append_of_new {p : Program} (stem : String) (hp : Program.ofText pattern = .ok p)
    (hnew : pattern ∉ accepted patterns) :
    collected stem (patterns ++ [pattern]) =
      let g := collected stem patterns
      { g with
        patterns := pattern :: g.patterns
        matchers := g.matchers ++ [matcher (g.matcherName g.size) pattern p] } := by
  have hmore : accepted (patterns ++ [pattern]) = accepted patterns ++ [pattern] := by
    rw [accepted_append_singleton, if_pos]
    exact ⟨by rw [hp]; rfl, hnew⟩
  have hlines : matcherLines stem (pattern, (accepted patterns).length) =
      matcher (stem ++ "_" ++ (accepted patterns).length.repr) pattern p := by
    rw [matcherLines, hp]
  dsimp only
  rw [matcherName, size_collected]
  simp only [collected, hmore, List.reverse_append, List.reverse_singleton, List.singleton_append,
    List.zipIdx_append, List.zipIdx_singleton, List.map_append, List.map_singleton, Nat.zero_add,
    hlines]

/-- A generator that has collected patterns collects one more of them, and answers as if it were the
only one. -/
theorem run_enter_collected (stem : String) (patterns : List String) (pattern : String) :
    (enter pattern).run.run (collected stem patterns) =
      ((Program.ofText pattern).map fun _ => (), collected stem (patterns ++ [pattern])) := by
  have hknown : (collected stem patterns).patterns.contains pattern = true ↔
      pattern ∈ accepted patterns := by
    rw [List.contains_iff_mem, collected, List.mem_reverse]
  rw [run_enter]
  by_cases hmem : pattern ∈ accepted patterns
  · rw [if_pos (hknown.mpr hmem), collected_append_of_old stem fun h => h.2 hmem]
    obtain ⟨-, hok⟩ := mem_accepted.mp hmem
    cases hp : Program.ofText pattern with
    | error e =>
      rw [hp] at hok
      cases hok
    | ok p => rfl
  · rw [if_neg fun h => hmem (hknown.mp h)]
    cases hp : Program.ofText pattern with
    | error e =>
      rw [collected_append_of_old stem fun h => by rw [hp] at h; cases h.1]
      rfl
    | ok p =>
      rw [collected_append_of_new stem hp hmem]
      rfl

/-- Patterns are offered one after the other. -/
theorem run_offer_cons (pattern : String) (patterns : List String) (g : Generator) :
    (offer (pattern :: patterns)).run g =
      let (answer, g) := (enter pattern).run.run g
      let (answers, g) := (offer patterns).run g
      (answer :: answers, g) := by
  rw [offer, List.mapM_cons]
  rfl

/-- A generator that has collected patterns collects all that it is offered, and answers each of
them as if it were the only one. -/
theorem run_offer_collected (stem : String) (patterns more : List String) :
    (offer more).run (collected stem patterns) =
      (more.map fun pattern => (Program.ofText pattern).map fun _ => (),
        collected stem (patterns ++ more)) := by
  induction more generalizing patterns with
  | nil => rw [List.append_nil]; rfl
  | cons pattern more ih =>
    rw [run_offer_cons, run_enter_collected]
    dsimp only
    rw [ih, List.append_assoc]
    rfl

/-- A new generator collects all patterns that it is offered. -/
theorem run_offer_empty (stem : String) (patterns : List String) :
    (offer patterns).run (empty stem) =
      (patterns.map fun pattern => (Program.ofText pattern).map fun _ => (),
        collected stem patterns) :=
  run_offer_collected stem [] patterns

/-- A generator that patterns were offered to has collected them. -/
theorem after_eq (stem : String) (patterns : List String) :
    after stem patterns = collected stem patterns := by
  rw [after, run_offer_empty]

/-- The matchers that were collected are those of the accepted patterns. -/
theorem isMatcher_collected (settings : Settings) (stem : String) (patterns : List String) :
    List.Forall₂ (IsMatcher settings stem) (accepted patterns).zipIdx
      (collected stem patterns).matchers := by
  rw [collected, List.forall₂_map_right_iff, List.forall₂_same]
  intro (pattern, index) hmem
  obtain ⟨-, hok⟩ := mem_accepted.mp (List.fst_mem_of_mem_zipIdx hmem)
  rw [IsMatcher, matcherLines]
  cases hp : Program.ofText pattern with
  | error e => rw [hp] at hok; cases hok
  | ok p =>
    refine ⟨_, p, by rw [Regex.compile_runtime, hp]; rfl, rfl, ?_⟩
    rw [← registryEntry_eq]
    exact List.append_assoc ..

/-- A generator answers each pattern that it is offered as compiling that pattern does, and is left
as it was by one that it refuses. It has as many matchers as distinct patterns were accepted. Its
source is the header and, behind an empty line each, the matchers of these patterns in the order in
which they were first accepted, named by their numbers and registered with what their regular
expressions report; the patterns that were refused or repeated make no difference to it. -/
theorem offer_collects (settings : Settings) (stem : String) (patterns : List String) :
    ((offer patterns).run (empty stem)).1 =
      patterns.map (fun pattern => (Regex.compile settings.runtime pattern).map fun _ => ()) ∧
    (∀ pattern g e, ((enter pattern).run.run g).1 = .error e →
      Regex.compile settings.runtime pattern = .error e ∧ ((enter pattern).run.run g).2 = g) ∧
    (after stem patterns).size = (accepted patterns).length ∧
    (∃ matchers, List.Forall₂ (IsMatcher settings stem) (accepted patterns).zipIdx matchers ∧
      (after stem patterns).source =
        String.join ((header ++ (matchers.map ("" :: ·)).flatten).map (· ++ "\n"))) ∧
    (after stem patterns).source = (after stem (accepted patterns)).source := by
  refine ⟨?_, fun pattern g e he => ?_, ?_, ⟨(after stem patterns).matchers, ?_, rfl⟩, ?_⟩
  · rw [run_offer_empty]
    refine List.map_congr_left fun pattern _ => ?_
    rw [Regex.compile_runtime]
    cases Program.ofText pattern <;> rfl
  · obtain ⟨hp, hg⟩ := error_of_run_enter he
    exact ⟨by rw [Regex.compile_runtime, hp]; rfl, hg⟩
  · rw [after_eq, size_collected]
  · rw [after_eq]
    exact isMatcher_collected settings stem patterns
  · rw [after_eq, after_eq, collected, collected, accepted_accepted]

/-- A pattern that is offered twice has one matcher, and one that is refused has none. -/
theorem offer_collects_twiceAndRefused :
    accepted ["a", "(", "a", "b"] = ["a", "b"] ∧
    (∃ e, ((enter "(").run.run (after "p" ["a"])).1 = .error e ∧
      ((enter "(").run.run (after "p" ["a"])).2 = after "p" ["a"]) ∧
    (after "p" ["a", "(", "a", "b"]).size = 2 := by
  have haccepted : accepted ["a", "(", "a", "b"] = ["a", "b"] := by decide +kernel
  obtain ⟨-, hrefused, hsize, -⟩ := offer_collects .standard "p" ["a", "(", "a", "b"]
  refine ⟨haccepted, ?_, by rw [hsize, haccepted]; rfl⟩
  have herror : ∃ e, ((enter "(").run.run (after "p" ["a"])).1 = .error e := by
    cases h : ((enter "(").run.run (after "p" ["a"])).1 with
    | error e => exact ⟨e, rfl⟩
    | ok _ =>
      have hnot : (((enter "(").run.run (after "p" ["a"])).1).isOk = false := by decide +kernel
      rw [h] at hnot
      cases hnot
  obtain ⟨e, he⟩ := herror
  exact ⟨e, he, (hrefused _ _ e he).2⟩

end Generator

end MatcherSource

end BacktrackRegex
