import MiniCompiler.Path

/-!
# Files

The files that a command works on, as a value: a tree of folders and files, where every entry is
reached from the root by the names on the way. Reading and writing fail as they do on a disk; an
error names the operation and the path as it was written.
-/

namespace MiniCompiler

/-- The content of a file. -/
abbrev Content := List UInt8

/-- What a name stands for. -/
inductive DiskEntry where
  | file (content : Content)
  | folder
  deriving DecidableEq, Repr

/-- The entries of a disk by the names on the way to them. The root is not among them. -/
abbrev Disk := List (List String × DiskEntry)

/-- Why a file cannot be read or written. -/
inductive FileFault where
  | notFound
  | isDirectory
  | notDirectory
  | nameTooLong
  /-- A path cannot have the character NUL. -/
  | invalidPath
  deriving DecidableEq, Repr

def FileFault.text : FileFault → String
  | .notFound => "no such file or directory"
  | .isDirectory => "is a directory"
  | .notDirectory => "not a directory"
  | .nameTooLong => "file name too long"
  | .invalidPath => "invalid argument"

/-- A failed operation on a path. -/
structure FileError where
  operation : String
  path : String
  fault : FileFault
  deriving DecidableEq, Repr

def FileError.message (e : FileError) : String :=
  e.operation ++ " " ++ e.path ++ ": " ++ e.fault.text

/-- Where a path leads. -/
inductive Spot where
  | folder (way : List String)
  | file (way : List String) (content : Content)
  /-- Nothing has this name in an existing folder. -/
  | free (way : List String)
  deriving DecidableEq, Repr

namespace Disk

/-- The entry at the end of a way; the root is a folder. -/
def find? (d : Disk) (way : List String) : Option DiskEntry :=
  if way = [] then some .folder else List.lookup way d

/-- The most bytes that a name can have. -/
def longestName : Nat := 255

/-- The most bytes that a path can have. -/
def longestPath : Nat := 4095

/-- Follows names from a folder. Only the last name may be missing, and only folders lead on. -/
def walk (d : Disk) : List String → List String → Except FileFault Spot
  | way, [] => .ok (.folder way)
  | way, name :: rest =>
    if name = "" ∨ name = "." then d.walk way rest
    else if name = ".." then d.walk way.dropLast rest
    else if longestName < name.utf8ByteSize then .error .nameTooLong
    else
      let next := way ++ [name]
      match d.find? next with
      | some .folder => d.walk next rest
      | some (.file content) => if rest = [] then .ok (.file next content) else .error .notDirectory
      | none => if rest = [] then .ok (.free next) else .error .notFound

/-- Follows a path from the folder `home`. -/
def spot (d : Disk) (home : List String) (path : String) : Except FileFault Spot :=
  if path.toList.contains '\x00' then .error .invalidPath
  else if longestPath < path.utf8ByteSize then .error .nameTooLong
  else if path = "" then .error .notFound
  else d.walk (if Path.isAbsolute path then [] else home) (Path.names path)

def read (d : Disk) (home : List String) (path : String) : Except FileError Content :=
  match d.spot home path with
  | .ok (.file _ content) => .ok content
  | .ok (.folder _) => .error ⟨"read", path, .isDirectory⟩
  | .ok (.free _) => .error ⟨"open", path, .notFound⟩
  | .error fault => .error ⟨"open", path, fault⟩

/-- Sets an entry; a new one is added at the end. -/
def put (way : List String) (entry : DiskEntry) : Disk → Disk
  | [] => [(way, entry)]
  | (w, old) :: d => if w = way then (way, entry) :: d else (w, old) :: put way entry d

/-- What was put is found, and all else is as it was. -/
theorem lookup_put (d : Disk) (way other : List String) (entry : DiskEntry) :
    List.lookup other (put way entry d) =
      if other = way then some entry else List.lookup other d := by
  induction d with
  | nil =>
    by_cases h : other = way
    · simp [put, h]
    · have hb : (other == way) = false := by simpa using h
      simp [put, List.lookup_cons, h, hb]
  | cons e d ih =>
    obtain ⟨w, old⟩ := e
    rw [put]
    by_cases hw : w = way
    · subst hw
      by_cases h : other = w
      · simp [h]
      · have hb : (other == w) = false := by simpa using h
        simp [List.lookup_cons, h, hb]
    · rw [if_neg hw, List.lookup_cons, List.lookup_cons, ih]
      by_cases h : other = way
      · have hb : (other == w) = false := by simpa [h] using fun h' => hw h'.symm
        simp [h ▸ hb, h]
      · simp [h]

/-- A path without the slashes at its end. -/
def withoutSlashes (path : String) : String :=
  String.ofList (path.toList.reverse.dropWhile (· == '/')).reverse

/-- Where a file can be made. A slash at the end asks for a folder, which is not made here. -/
def target (d : Disk) (home : List String) (path : String) : Except FileFault (List String) := do
  let bare := withoutSlashes path
  match ← d.spot home (if bare = "" then path else bare) with
  | .folder _ => .error .isDirectory
  | .file way _ | .free way => if bare = path then .ok way else .error .isDirectory

def write (d : Disk) (home : List String) (path : String) (content : Content) :
    Except FileError Disk :=
  match d.target home path with
  | .ok way => .ok (put way (.file content) d)
  | .error fault => .error ⟨"open", path, fault⟩

/-- Makes the folder at the end of a path and those on the way to it. -/
def makeFolders (d : Disk) (home : List String) (path : String) : Disk :=
  let names := Path.names (Path.clean path)
  let start := if Path.isAbsolute path then [] else home
  (names.foldl (fun (d, way) name =>
    if name = "" ∨ name = "." then (d, way)
    else if name = ".." then (d, way.dropLast)
    else
      let next := way ++ [name]
      (if (d.find? next).isSome then d else put next .folder d, next)) (d, start)).1

/-- Writes a file after making the folders on the way to it. -/
def supply (d : Disk) (home : List String) (path : String) (content : Content) : Disk :=
  let d := d.makeFolders home (Path.parent path)
  (d.write home path content).toOption.getD d

def remove (d : Disk) (home : List String) (path : String) : Disk :=
  match d.spot home path with
  | .ok (.file way _) | .ok (.folder way) => d.filter (·.1 ≠ way)
  | .ok (.free _) | .error _ => d

/-- The names in a folder, in order. -/
def namesIn (d : Disk) (way : List String) : List String :=
  (d.filterMap fun e => if e.1.dropLast = way then e.1.getLast? else none).mergeSort (· ≤ ·)

/-- The files of `d` that `before` does not have with the same content. -/
def changedSince (d before : Disk) : List (List String × Content) :=
  d.filterMap fun
    | (way, .file content) =>
      if before.find? way = some (.file content) then none else some (way, content)
    | (_, .folder) => none

end Disk

end MiniCompiler
