import BacktrackRegex.Command.Arguments

/-!
# Requests

The arguments of the program are general options, the name of a command and the arguments of the
command. They make a request, or ask for help or the version, or are malformed.
-/

namespace BacktrackRegex.Command

/-- A request for the lines in which a pattern matches. -/
structure FindRequest where
  pattern : String
  /-- The file to read, instead of the standard input. -/
  file : Option String
  /-- Only the number of lines is wanted. -/
  countOnly : Bool
  /-- Lines are wanted with their numbers. -/
  numbered : Bool
  /-- Only the matched part of each line is wanted. -/
  matchOnly : Bool
  /-- Searches share decisions with idle workers. -/
  speculative : Bool
  deriving DecidableEq, Repr

/-- A request to show what becomes of a pattern. -/
structure DumpRequest where
  pattern : String
  showTree : Bool
  showProgram : Bool
  deriving DecidableEq, Repr

/-- A request to generate matchers. -/
structure GenerateRequest where
  /-- The file to write. -/
  path : String
  patterns : List String
  /-- What the names of the matchers begin with. -/
  stem : String
  deriving DecidableEq, Repr

/-- What a command has to do. -/
inductive Task where
  | find (r : FindRequest)
  | dump (r : DumpRequest)
  | generate (r : GenerateRequest)
  deriving DecidableEq, Repr

/-- A request to the program. -/
structure Request where
  /-- The settings file, instead of the one in the home folder. -/
  settingsFile : Option String
  /-- What to do, or what to show instead. -/
  task : Except Refusal Task

/-- Reads the arguments of the command that finds lines. -/
def FindRequest.read (args : List String) : Except Refusal FindRequest := do
  let forms : List OptionForm := [.flag "count" (some 'c'), .flag "line-number" (some 'n'),
    .flag "only-matching" (some 'o'), .flag "speculative" (some 's'), .help]
  let accepts (index : Nat) (s : String) := index == 0 || index == 1 && s != ""
  let a ← Arguments.read forms accepts args
  match a.positionals with
  | [] => .error .malformed
  | pattern :: rest =>
    return ⟨pattern, rest.head?, a.has "count", a.has "line-number", a.has "only-matching",
      a.has "speculative"⟩

/-- Reads the arguments of the command that shows patterns. Without options it shows everything. -/
def DumpRequest.read (args : List String) : Except Refusal DumpRequest := do
  let forms : List OptionForm := [.flag "ast" none, .flag "optree" none, .help]
  let a ← Arguments.read forms (fun index _ => index == 0) args
  let all := !a.has "ast" && !a.has "optree"
  match a.positionals with
  | [] => .error .malformed
  | pattern :: _ => return ⟨pattern, all || a.has "ast", all || a.has "optree"⟩

/-- Reads the arguments of the command that generates matchers. -/
def GenerateRequest.read (args : List String) : Except Refusal GenerateRequest := do
  let forms : List OptionForm :=
    [⟨"pattern", some 'p', true, true⟩, ⟨"prefix", none, true, false⟩, .help]
  let a ← Arguments.read forms (fun index s => index == 0 && s != "") args
  match a.positionals, a.values "pattern" with
  | path :: _, pattern :: patterns =>
    return ⟨path, pattern :: patterns, (a.values "prefix").head?.getD "yarex"⟩
  | _, _ => .error .malformed

/-- The names of the commands. -/
def commands : List String :=
  ["find", "dump", "gen", "help"]

/-- Reads the arguments of a command. -/
def Task.read (name : String) (args : List String) : Except Refusal Task :=
  match name with
  | "find" => .find <$> FindRequest.read args
  | "dump" => .dump <$> DumpRequest.read args
  | "gen" => .generate <$> GenerateRequest.read args
  | "help" =>
    match args with
    | [] => .error .help
    | [topic] => .error (if commands.contains topic then .help else .malformed)
    | _ => .error .malformed
  | _ => .error .malformed

/-- Reads the arguments of the program. -/
def Request.read (args : List String) : Request :=
  let forms : List OptionForm := [⟨"config", some 'C', true, false⟩, .help, .version]
  let (before, after) := splitPositional forms none args
  let task : Except Refusal Task := do
    let _ ← Arguments.read forms (fun _ _ => false) before
    match after with
    | [] => .error .malformed
    | name :: args => Task.read name args
  ⟨(scan forms none before).findSome? Item.value?, task⟩

end BacktrackRegex.Command
