import BacktrackRegex.Command.Dump
import BacktrackRegex.Command.Find
import BacktrackRegex.Command.Generate
import BacktrackRegex.Settings.File

/-!
# Running commands

The settings come from the file that the arguments name, which has to be a proper settings file, or
else from the one in the home folder, which may be missing or wrong.
-/

namespace BacktrackRegex.Command

/-- The settings that a file gives. -/
def settingsIn? (env : Environment) (path : String) : Option Settings :=
  match env.content path with
  | .ok bytes => Text.decode? bytes >>= Settings.ofText?
  | .error _ => none

/-- The path of the settings file in a home folder. -/
def homeSettings (home : String) : String :=
  home ++ "/.yarex.toml"

/-- The settings of a request. -/
def Request.settings? (r : Request) (env : Environment) : Option Settings :=
  match r.settingsFile, env.home with
  | some path, _ => settingsIn? env path
  | none, some home => some ((settingsIn? env (homeSettings home)).getD .standard)
  | none, none => some .standard

/-- The files whose content a request depends on. -/
def Request.files (r : Request) (home : Option String) : List String :=
  let input := match r.task with
    | .ok (.find r) => r.file.toList
    | _ => []
  r.settingsFile.toList ++ (home.map homeSettings).toList ++ input

/-- Whether a request depends on the standard input. -/
def Request.readsInput (r : Request) : Bool :=
  match r.task with
  | .ok (.find r) => r.file.isNone
  | _ => false

/-- The help. -/
def usage : String :=
  String.join ["Usage: yrx [-C FILE] COMMAND\n\n", "find [-c] [-n] [-o] [-s] PATTERN [FILE]\n",
    "dump [--ast] [--optree] PATTERN\n", "gen [--prefix PREFIX] -p PATTERN OUTPUT_PATH\n"]

/-- The report on malformed arguments. -/
def Report.misuse : Report :=
  ⟨2, "", "error: invalid arguments\n\n" ++ usage, none⟩

/-- Carries out a task. -/
def Task.run (settings : Settings) (env : Environment) : Task → Report
  | .find r => r.run settings env
  | .dump r => r.run
  | .generate r => r.run env

/-- Carries out a request. -/
def Request.run (r : Request) (env : Environment) : Report :=
  if r.settingsFile.any (!env.hasPath ·) then .misuse
  else
    match r.task with
    | .error .malformed => .misuse
    | .error .help => .success usage
    | .error .version => .success "yarex-cli 0.1.0\n"
    | .ok task =>
      match r.settings? env with
      | none => ⟨1, "", "Error: invalid settings file\n", none⟩
      | some settings => task.run settings env

end BacktrackRegex.Command
