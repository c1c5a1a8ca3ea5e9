import BacktrackRegex.Command.Run

/-!
# The program

Reads the files that a request depends on, carries it out, and prints and writes what it reports.
-/

namespace BacktrackRegex.Command

/-- Whether the system gives an error a certain number. The sign of the number varies. -/
def hasNumber (code number : UInt32) : Bool :=
  code == number || code == 0 - number

/-- The error that a file operation ended with. -/
def FileError.ofSystemError : IO.Error → FileError
  | .noFileOrDirectory .. => .notFound
  | .permissionDenied .. => .denied
  | .inappropriateType _ code _ => if hasNumber code 20 then .notDirectory else .isDirectory
  | .invalidArgument _ code details => if hasNumber code 36 then .nameTooLong else .other details
  | e => .other (toString e)

/-- The content of a file. -/
def readContent (path : String) : IO (Except FileError (List UInt8)) := do
  try return .ok (← IO.FS.readBinFile path).toList
  catch e => return .error (.ofSystemError e)

/-- The environment of a request, with the content of the files that it depends on. A file that can
not be written is noticed later. -/
def gather (r : Request) : IO Environment := do
  let home := (← IO.getEnv "HOME").filter (· != "")
  let contents ← (r.files home).mapM fun path => return (path, ← readContent path)
  let input ← if r.readsInput then (← IO.getStdin).readBinToEnd else pure .empty
  return {
    content := fun path => (contents.lookup path).getD (.error .notFound)
    obstacle? := fun _ => none
    home
    input := input.toList }

/-- Writes the file of a report. -/
def writeFile (r : Report) : IO Report := do
  match r.written with
  | none => return r
  | some (path, content) =>
    try
      IO.FS.writeFile path content
      return r
    catch e => return .unwritten path (.ofSystemError e)

/-- Carries out the request that the arguments make. -/
def execute (args : List String) : IO UInt32 := do
  let request := Request.read args
  let report ← writeFile (request.run (← gather request))
  IO.print report.output
  IO.eprint report.complaint
  return report.status.toUInt32

end BacktrackRegex.Command

/-- Runs the program. -/
def main (args : List String) : IO UInt32 :=
  BacktrackRegex.Command.execute args
