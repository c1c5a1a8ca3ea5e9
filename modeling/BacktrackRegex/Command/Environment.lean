/-!
# Environments of commands

What a command meets when it runs: files, the home folder and the standard input.
-/

namespace BacktrackRegex.Command

/-- Why a file can not be read or written. -/
inductive FileError where
  | notFound
  | denied
  /-- A file stands where a folder was expected. -/
  | notDirectory
  /-- A folder stands where a file was expected. -/
  | isDirectory
  | nameTooLong
  | other (description : String)
  deriving DecidableEq, Repr

/-- The wording of an error. -/
def FileError.message : FileError → String
  | .notFound => "No such file or directory (os error 2)"
  | .denied => "Permission denied (os error 13)"
  | .notDirectory => "Not a directory (os error 20)"
  | .isDirectory => "Is a directory (os error 21)"
  | .nameTooLong => "File name too long (os error 36)"
  | .other description => description

/-- What a command meets when it runs. -/
structure Environment where
  /-- The content of a file. -/
  content : String → Except FileError (List UInt8)
  /-- What prevents a file from being written. -/
  obstacle? : String → Option FileError
  /-- The home folder. -/
  home : Option String
  /-- The standard input. -/
  input : List UInt8

namespace Environment

/-- Whether there is a file or a folder. -/
def hasPath (env : Environment) (path : String) : Bool :=
  match env.content path with
  | .ok _ => true
  | .error e => e = .isDirectory

end Environment

/-- What a command does when it runs. -/
structure Report where
  status : Nat
  output : String
  /-- What goes to the standard error. -/
  complaint : String
  /-- The path and the new content of a file. -/
  written : Option (String × String)
  deriving DecidableEq, Repr

namespace Report

/-- A command that succeeds with some output. -/
def success (output : String) : Report :=
  ⟨0, output, "", none⟩

/-- A command that fails after some output. -/
def failure (output message : String) : Report :=
  ⟨1, output, "error: " ++ message ++ "\n", none⟩

/-- The report of a command that could not write its file. -/
def unwritten (path : String) (e : FileError) : Report :=
  failure "" ("can not write `" ++ path ++ "`: " ++ e.message)

end Report

end BacktrackRegex.Command
