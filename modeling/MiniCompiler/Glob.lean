import MiniCompiler.Disk
import MiniCompiler.Glob.Pattern
import MiniCompiler.Text.Blank

/-!
# Files that match patterns

A pattern with slashes is matched name by name along the way: the folders that its beginning matches
come first, and in each of them the names that its last part matches, in order.
-/

namespace MiniCompiler.Glob

/-- A pattern that proves malformed. -/
structure BadPattern where
  pattern : String
  deriving DecidableEq, Repr

def BadPattern.message (e : BadPattern) : String :=
  "bad pattern " ++ e.pattern ++ ": syntax error in pattern"

/-- Does a text have a character that is special in patterns? -/
def isPattern (text : String) : Bool := text.toList.any fun c => "*?[\\".toList.contains c

/-- Is there a file or a folder at the end of a path? -/
def leadsTo (d : Disk) (home : List String) (path : String) : Bool :=
  match d.spot home path with
  | .ok (.file _ _) | .ok (.folder _) => true
  | .ok (.free _) | .error _ => false

/-- The paths in a folder whose last name matches; `none` if the pattern proves malformed. -/
def inFolder? (d : Disk) (home : List String) (pattern folder : String) : Option (List String) :=
  match d.spot home folder with
  | .ok (.folder way) => do
    let names ← (d.namesIn way).filterM fun n => (Pattern.ofText pattern).fits? (Text.encodeUtf8 n)
    return names.map (Path.join folder)
  | .ok _ | .error _ => some []

/-- The folder that names lead to, the last name first. -/
def folderOf (back : List String) : String :=
  if back = [] then "." else if back = [""] then "/" else "/".intercalate back.reverse

/-- How many patterns may stand for folders along one way. -/
def deepest : Nat := 10000

/-- The paths that match a pattern, which is given by its names, the last one first. Its beginning is
    checked even where there is no file. At most `room` patterns are followed along the way. -/
def paths? (d : Disk) (home : List String) (room : Nat) : List String → Option (List String)
  | [] => some []
  | last :: before => do
    let pattern := "/".intercalate (last :: before).reverse
    if room = 0 then none
    else
      let _ ← (Pattern.ofText pattern).fits? []
      if !isPattern pattern then
        return if leadsTo d home pattern then [pattern] else []
      else if !isPattern (folderOf before) then inFolder? d home last (folderOf before)
      else
        let folders ← paths? d home (room - 1) before
        return (← folders.mapM (inFolder? d home last)).flatten

def folderPath (way : List String) : String := Path.ofNames true way

/-- The files that one of several patterns matches, each once, as paths from the root. The patterns
    stand in a text with blanks between them. -/
def files (d : Disk) (home : List String) (patterns : String) :
    Except BadPattern (List String) := do
  let found ← (Text.words patterns.toList).mapM fun word =>
    let pattern := String.ofList word
    match paths? d home deepest (Path.names pattern).reverse with
    | some paths => .ok (paths.map (Path.absolute (folderPath home)))
    | none => .error ⟨pattern⟩
  let isFile (path : String) : Bool := match d.spot [] path with
    | .ok (.file _ _) => true
    | _ => false
  return (found.flatten.filter isFile).eraseDups

end MiniCompiler.Glob
