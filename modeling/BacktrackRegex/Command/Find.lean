import BacktrackRegex.Command.Environment
import BacktrackRegex.Command.Request
import BacktrackRegex.Regex
import BacktrackRegex.Text.Lines

/-!
# Finding lines

The lines of a file or of the standard input are searched one after the other. A line that is not a
text ends the search after the lines before it were printed.
-/

namespace BacktrackRegex.Command

/-- A search of lines on its way. -/
structure LineSearch where
  /-- The number of lines read. -/
  linesRead : Nat
  /-- The number of lines that match. -/
  found : Nat
  printed : String
  /-- The number of the line that is not a text. -/
  unreadable : Option Nat
  deriving DecidableEq, Repr

namespace FindRequest

/-- What is printed for a line that matches. -/
def entry (r : FindRequest) (number : Nat) (line : String) (m : Match) : String :=
  if r.countOnly then ""
  else (if r.numbered then number.repr ++ ":" else "")
    ++ (if r.matchOnly then m.content else line) ++ "\n"

/-- Searches one more line. -/
def visit (r : FindRequest) (re : Regex) (s : LineSearch) (bytes : List UInt8) : LineSearch :=
  if s.unreadable.isSome then s
  else
    let number := s.linesRead + 1
    match Text.decode? bytes with
    | none => { s with unreadable := some number }
    | some line =>
      match re.find? (fun _ => .alone) line with
      | none => { s with linesRead := number }
      | some m => ⟨number, s.found + 1, s.printed ++ r.entry number line m, none⟩

/-- Searches the lines of some bytes. -/
def search (r : FindRequest) (re : Regex) (bytes : List UInt8) : LineSearch :=
  (Text.lines bytes).foldl (r.visit re) ⟨0, 0, "", none⟩

/-- The complaint about a line that can not be read. -/
def unreadableLine (number : Nat) (reason : String) : String :=
  "can not read line " ++ number.repr ++ ": " ++ reason

/-- Searches the lines of some bytes and reports what it prints. -/
def reportOn (r : FindRequest) (re : Regex) (bytes : List UInt8) : Report :=
  let s := r.search re bytes
  match s.unreadable with
  | some number =>
    .failure s.printed (unreadableLine number "stream did not contain valid UTF-8")
  | none => .success (if r.countOnly then s.found.repr ++ "\n" else s.printed)

/-- Carries out the request. -/
def run (r : FindRequest) (settings : Settings) (env : Environment) : Report :=
  let settings := { settings with speculative := settings.speculative || r.speculative }
  match Regex.compile settings r.pattern with
  | .error e => .failure "" ("can not compile `" ++ r.pattern ++ "`: " ++ e.message)
  | .ok re =>
    match r.file with
    | none => r.reportOn re env.input
    | some path =>
      match env.content path with
      | .ok bytes => r.reportOn re bytes
      | .error .isDirectory => .failure "" (unreadableLine 1 FileError.isDirectory.message)
      | .error e => .failure "" ("can not open `" ++ path ++ "`: " ++ e.message)

end FindRequest

end BacktrackRegex.Command
