import MiniCompiler.Text.Split

/-!
# Paths

A path is a text of names with slashes between them; one that starts with a slash leads from the
root. Paths are compared and joined by their shortest form, in which empty names, `.` and what `..`
takes back are gone.
-/

namespace MiniCompiler.Path

/-- The names of a path, with an empty one before, between and after slashes that no name
    separates. -/
def names (path : String) : List String := (Text.splitAt '/' path.toList).map String.ofList

def isAbsolute (path : String) : Bool := path.toList.head? == some '/'

/-- Appends a name to a path of names in shortest form, the last one first. -/
def step (absolute : Bool) (back : List String) (name : String) : List String :=
  if name = "" ∨ name = "." then back
  else if name = ".." then
    match back with
    | [] => if absolute then [] else [".."]
    | last :: before => if last = ".." then ".." :: back else before
  else name :: back

def ofNames (absolute : Bool) (names : List String) : String :=
  let text := "/".intercalate names
  if absolute then "/" ++ text else if names = [] then "." else text

/-- The shortest path that leads to the same place. -/
def clean (path : String) : String :=
  let absolute := isAbsolute path
  ofNames absolute ((names path).foldl (step absolute) []).reverse

/-- A path that leads on from another one. An empty path is left out. -/
def join (a b : String) : String :=
  if a = "" then (if b = "" then "" else clean b)
  else if b = "" then clean a
  else clean (a ++ "/" ++ b)

/-- The last name of a path: `.` if it is empty, and a slash if it has no name. -/
def base (path : String) : String :=
  if path = "" then "."
  else match ((names path).filter (· ≠ "")).getLast? with
    | some name => name
    | none => "/"

/-- What is before the last name of a path. -/
def parent (path : String) : String :=
  let before := (names path).dropLast
  clean ("/".intercalate before ++ if before = [] then "" else "/")

/-- The ending of the last name, from its last dot on. -/
def ending (path : String) : String :=
  let last := (path.toList.reverse.takeWhile (· ≠ '/'))
  if '.' ∈ last then String.ofList ('.' :: (last.takeWhile (· ≠ '.')).reverse) else ""

/-- A text without an ending, if it has it. -/
def withoutEnding (text ending : String) : String :=
  if ending.toList.isSuffixOf text.toList then
    String.ofList (text.toList.take (text.length - ending.length))
  else text

/-- A path from the root, where `home` is the directory that other paths start from. -/
def absolute (home path : String) : String :=
  if isAbsolute path then clean path else join home path

end MiniCompiler.Path
