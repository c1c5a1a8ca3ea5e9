import BacktrackRegex.Pattern.Reader
import BacktrackRegex.Pattern.Simplify
import BacktrackRegex.Precompiled
import BacktrackRegex.Program.Compile
import BacktrackRegex.Program.Search
import BacktrackRegex.Settings.Basic
import BacktrackRegex.Text.Quoted

/-!
# Regular expressions

A regular expression is a pattern with what it takes to search texts for it: a program, or a matcher
that was made beforehand. A search tries every place between characters from left to right where a
match can begin, and reports the first match with the spans of its capture groups, in bytes.
Settings choose how a search is carried out and never what it finds.
-/

namespace BacktrackRegex

open Search

/-- Why a text gives no regular expression. -/
inductive RegexError where
  /-- The text is no pattern. -/
  | invalid (error : SyntaxError)
  /-- The pattern needs too many nodes. -/
  | tooLarge
  deriving DecidableEq, Repr

/-- The wording of an error. -/
def RegexError.message : RegexError → String
  | .invalid error => "invalid regexp: " ++ error.message
  | .tooLarge => "regexp too large"

/-- What carries out the searches for a pattern. -/
inductive Matcher where
  | program (p : Program)
  | precompiled (m : Precompiled)

/-- A regular expression. -/
structure Regex where
  /-- The text of the pattern. -/
  pattern : String
  matcher : Matcher
  settings : Settings

/-- The behaviour of the workers in an attempt at each start. -/
abbrev Workers := Nat → Schedule

/-- A match in a text. -/
structure Match where
  text : String
  span : Span
  deriving DecidableEq, Repr

namespace Match

/-- The matched text. -/
def content (m : Match) : String :=
  (Text.slice? m.text m.span.start m.span.stop).getD ""

/-- The number of bytes matched. -/
def size (m : Match) : Nat :=
  m.span.stop - m.span.start

/-- Whether the match is empty. -/
def isEmpty (m : Match) : Bool :=
  m.span.start == m.span.stop

end Match

/-- The capture groups of a match, group 0 first. A group that took no part in it has no span. -/
structure Captures where
  text : String
  spans : List (Option Span)
  deriving DecidableEq, Repr

namespace Captures

/-- The number of groups, with group 0. -/
def size (c : Captures) : Nat :=
  c.spans.length

/-- The text of a capture group as a match of its own. -/
def get? (c : Captures) (group : Nat) : Option Match :=
  (c.spans[group]?.join).map (⟨c.text, ·⟩)

end Captures

/-- Compiles the text of a pattern to a program. -/
def Program.ofText (pattern : String) : Except RegexError Program :=
  match Pattern.read Pattern.maxGroups pattern with
  | .error error => .error (.invalid error)
  | .ok p =>
    match p.simplify.compile? Pattern.maxNodes with
    | some program => .ok program
    | none => .error .tooLarge

namespace Regex

/-- The regular expression of a pattern. -/
def compile (settings : Settings) (pattern : String) : Except RegexError Regex :=
  match if settings.usePrecompiled then Precompiled.lookup pattern else none with
  | some m => .ok ⟨pattern, .precompiled m, settings⟩
  | none => do return ⟨pattern, .program (← Program.ofText pattern), settings⟩

/-- The number of capture groups, without group 0. -/
def groups (re : Regex) : Nat :=
  match re.matcher with
  | .program p => p.groups
  | .precompiled m => m.groups

/-- Whether matches begin at the start of the text only. -/
def isAnchored (re : Regex) : Bool :=
  match re.matcher with
  | .program p => p.anchored
  | .precompiled m => m.anchored

/-- The least number of bytes that a match takes. -/
def minLength (re : Regex) : Nat :=
  match re.matcher with
  | .program p => p.minLength
  | .precompiled m => m.minLength

/-- Whether the pattern has a matcher that was made beforehand. -/
def isPrecompiled (re : Regex) : Bool :=
  match re.matcher with
  | .program _ => false
  | .precompiled _ => true

/-- The program of a pattern that was compiled to one. -/
def program? (re : Regex) : Option Program :=
  match re.matcher with
  | .program p => some p
  | .precompiled _ => none

/-- A description for diagnostics: the quoted pattern, and whether its matcher was precompiled. -/
def describe (re : Regex) : String :=
  "Regexp \x7b pattern: " ++ Text.quoted re.pattern
    ++ ", precompiled: " ++ toString re.isPrecompiled ++ " \x7d"

/-- The outcome of an attempt to match at a place, on a trail over a storage. -/
def attempt (re : Regex) (schedule : Schedule) (priority : Priority) (text : String) (start : Nat)
    (storage : Array Entry) : Outcome :=
  let trail := (Trail.emptyOn storage).push (.group 0) start
  match re.matcher with
  | .precompiled m => m.exec text start trail
  | .program p =>
    if re.settings.speculative then
      p.execShared ⟨priority, re.settings.threshold, schedule⟩ text start trail
    else p.exec text start trail

/-- The trail of the first match that begins at one of the `count` places from `start` on. All
attempts use one storage: each begins with an empty trail over what the one before has left there.
An attempt that cannot go on ends the search. -/
def searchFrom (re : Regex) (workers : Workers) (priority : Priority) (text : String) :
    Nat → Nat → Array Entry → Option Trail
  | 0, _, _ => none
  | count + 1, start, storage =>
    if Text.isBoundary text start then
      match re.attempt (workers start) priority text start storage with
      | .matched trail => some trail
      | .failed trail => searchFrom re workers priority text count (start + 1) trail.storage
      | .faulted _ | .unfinished => none
    else searchFrom re workers priority text count (start + 1) storage

/-- The trail of the leftmost match. An anchored pattern is tried at the start only, and no pattern
where too little of the text is left. -/
def search (re : Regex) (workers : Workers) (priority : Priority) (text : String) : Option Trail :=
  if text.utf8ByteSize < re.minLength then none
  else
    let last := if re.isAnchored then 0 else text.utf8ByteSize - re.minLength
    re.searchFrom workers priority text (last + 1) 0 #[]

/-- Whether the pattern matches somewhere in a text. -/
def isMatch (re : Regex) (workers : Workers) (text : String) : Bool :=
  (re.search workers .any text).isSome

/-- The leftmost match in a text. -/
def find? (re : Regex) (workers : Workers) (text : String) : Option Match := do
  let trail ← re.search workers .sequential text
  return ⟨text, ← trail.span? 0⟩

/-- The text of the leftmost match, or the empty text if there is none. -/
def findString (re : Regex) (workers : Workers) (text : String) : String :=
  ((re.find? workers text).map Match.content).getD ""

/-- The place of the leftmost match. -/
def findSpan? (re : Regex) (workers : Workers) (text : String) : Option Span :=
  (re.find? workers text).map Match.span

/-- The capture groups of the leftmost match. -/
def captures? (re : Regex) (workers : Workers) (text : String) : Option Captures := do
  let trail ← re.search workers .sequential text
  return ⟨text, (List.range (re.groups + 1)).map trail.span?⟩

end Regex

end BacktrackRegex
