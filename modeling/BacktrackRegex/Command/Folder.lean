import BacktrackRegex.Command.Environment

/-!
# Folders in memory

A folder of named files, in which commands can run without a file system. Paths are relative to it
or start at the root of the system. Of what is outside of it, only the standard folders and two
devices are known.
-/

namespace BacktrackRegex.Command

/-- A folder with files at paths, each a list of names. -/
structure Folder where
  files : List (List String × String)

namespace Folder

/-- A device that commands can read. -/
inductive Device where
  /-- Without content. -/
  | null
  /-- The standard input. -/
  | input
  deriving DecidableEq, Repr

/-- Where a path leads. -/
inductive Place where
  /-- A folder inside the folder, or the folder itself. -/
  | inside (names : List String)
  /-- A folder around the folder. -/
  | around
  /-- A folder of the system, by the names that lead to it from the root. -/
  | system (names : List String)
  | file (names : List String)
  | device (d : Device)
  | nowhere (e : FileError)
  deriving DecidableEq, Repr

/-- The names of the standard folders of the system. -/
def standardFolders : List String :=
  ["bin", "boot", "dev", "etc", "home", "lib", "media", "mnt", "opt", "proc", "root", "run", "sbin",
    "srv", "sys", "tmp", "usr", "var"]

/-- Where names lead from the root of the system. -/
def Place.ofSystem : List String → Place
  | ["dev", "null"] => .device .null
  | ["dev", "stdin"] => .device .input
  | [name] => if standardFolders.contains name then .system [name] else .nowhere .notFound
  | _ => .nowhere .notFound

/-- Whether names lead to a folder. -/
def isFolder (f : Folder) (names : List String) : Bool :=
  names.isEmpty || f.files.any fun (path, _) => names.isPrefixOf path && names != path

/-- The place around a place. -/
def parent : Place → Place
  | .inside [] => .around
  | .inside names => .inside names.dropLast
  | .system names => .system names.dropLast
  | place => place

/-- Where a name leads from a folder. -/
def child (f : Folder) : Place → String → Place
  | .inside names, name =>
    let path := names ++ [name]
    if (f.files.lookup path).isSome then .file path
    else if f.isFolder path then .inside path
    else .nowhere .notFound
  | .system names, name => .ofSystem (names ++ [name])
  | _, _ => .nowhere .notFound

/-- Where one more name leads from a place. A name has at most 255 bytes. -/
def enter (f : Folder) : Place → String → Place
  | .nowhere e, _ => .nowhere e
  | .file _, _ => .nowhere .notDirectory
  | .device _, _ => .nowhere .notDirectory
  | place, "" => place
  | place, "." => place
  | place, ".." => parent place
  | place, name => if 255 < name.utf8ByteSize then .nowhere .nameTooLong else f.child place name

/-- The place where a path begins, and the names in it. An empty path leads nowhere, and so does a
path of more than 4095 bytes. -/
def parts (path : String) : Place × List String :=
  let start : Place :=
    if path = "" then .nowhere .notFound
    else if 4095 < path.utf8ByteSize then .nowhere .nameTooLong
    else if path.startsWith "/" then .system []
    else .inside []
  (start, path.splitOn "/")

/-- Where a path leads. -/
def locate (f : Folder) (path : String) : Place :=
  let (start, names) := parts path
  names.foldl f.enter start

/-- The content of the file at a path. Devices have none. -/
def content (f : Folder) (path : String) : Except FileError String :=
  match f.locate path with
  | .file names => .ok ((f.files.lookup names).getD "")
  | .device _ => .ok ""
  | .nowhere e => .error e
  | _ => .error .isDirectory

/-- The place where a path begins, the names that lead to the last one, the last one, and whether a
slash follows it. -/
def splitLast (path : String) : Place × List String × Option String × Bool :=
  let (start, names) := parts path
  let named := (names.reverse.dropWhile (· == "")).reverse
  (start, named.dropLast, named.getLast?, named.length < names.length)

/-- What prevents a file at a path from being written. A name with a slash after it can only be that
of a folder. -/
def obstacle? (f : Folder) (path : String) : Option FileError :=
  let (start, names, last, slash) := splitLast path
  match names.foldl f.enter start, last with
  | .nowhere e, _ => some e
  | .file _, _ => some .notDirectory
  | .device _, _ => some .notDirectory
  | _, none => some .isDirectory
  | folder, some name =>
    if slash && name != "." && name != ".." then some .isDirectory
    else
      match f.enter folder name with
      | .file _ => none
      | .device _ => none
      | .nowhere .notFound => none
      | .nowhere e => some e
      | _ => some .isDirectory

/-- The folder after a file was written. -/
def write (f : Folder) (path content : String) : Folder :=
  let (start, names, last, _) := splitLast path
  match names.foldl f.enter start, last with
  | .inside folder, some name =>
    let path := folder ++ [name]
    ⟨(path, content) :: f.files.filter (·.1 != path)⟩
  | _, _ => f

/-- The environment of a command that runs in the folder, which is also the home folder. -/
def environment (f : Folder) (input : List UInt8) : Environment where
  content path :=
    if f.locate path = .device .input then .ok input else (f.content path).map (·.toUTF8.toList)
  obstacle? := f.obstacle?
  home := some "."
  input := input

/-- The folder after a command ran. -/
def after (f : Folder) (r : Report) : Folder :=
  match r.written with
  | some (path, content) => f.write path content
  | none => f

end Folder

end BacktrackRegex.Command
