import MiniCompiler.Token
import MiniCompiler.Word

/-!
# Diagnostics

A diagnostic is an error or a warning with a position. Next to its one-line text it is shown with
the source line it is about and a caret under the place.
-/

namespace MiniCompiler

/-- A source file as diagnostics show it. -/
structure SourceFile where
  name : String
  text : List Char
  deriving DecidableEq, Repr

inductive Severity where
  | error
  | warning
  deriving DecidableEq, Repr

/-- What is reported about a program. A warning names the flag that it belongs to. -/
structure Diagnostic where
  severity : Severity := .error
  flag : String := ""
  message : String
  pos : Pos
  deriving DecidableEq, Repr

/-- Why a diagnostic cannot be shown. -/
inductive ShowError where
  | negativeColumn
  /-- The line below the source would be longer than `longestText`. -/
  | lineTooLong
  deriving DecidableEq, Repr

/-- The message of an error, if it has one. -/
def ShowError.message? : ShowError → Option String
  | .negativeColumn => some "strings: negative Repeat count"
  | .lineTooLong => none

/-- The length of the longest text that memory has room for, 2^48. -/
def longestText : Int := 0x1000000000000

/-- A text of the same characters. Their number is a signed word. -/
def repeated (c : Char) (count : Int) : Except ShowError String :=
  if wrap count < 0 then .error .negativeColumn
  else if longestText < wrap count then .error .lineTooLong
  else .ok ("".pushn c (wrap count).toNat)

/-- A text in a color of the terminal, or as it is. -/
def paint (color : Bool) (code text : String) : String :=
  if color then "\x1b[" ++ code ++ "m" ++ text ++ "\x1b[0m" else text

def Pos.sourceFile? (p : Pos) (files : List SourceFile) : Option SourceFile :=
  match p.file with
  | .ofNat n => files[n]?
  | .negSucc _ => none

/-- The text after the first `n` newlines, or after the last if there are fewer. `start` is the text
    after the newest one. -/
def afterNewlines (start : List Char) : List Char → Nat → List Char
  | _, 0 => start
  | [], _ + 1 => start
  | c :: cs, n + 1 => if c = '\n' then afterNewlines cs cs n else afterNewlines start cs (n + 1)

/-- Line `n` of a text. Numbers up to 1 stand for the first line, numbers beyond the last line for
    the last. -/
def lineOf (text : List Char) (n : Int) : List Char :=
  (afterNewlines text text (n - 1).toNat).takeWhile (· != '\n')

namespace Diagnostic

/-- The name of the file, the line and the column. -/
def place (d : Diagnostic) (files : List SourceFile) : String :=
  let name := ((d.pos.sourceFile? files).map SourceFile.name).getD "unknown"
  name ++ ":" ++ toString d.pos.line ++ ":" ++ toString d.pos.column

/-- A diagnostic on one line, without its severity. -/
def text (d : Diagnostic) (files : List SourceFile) : String :=
  d.place files ++ ": " ++ d.message

/-- The caret under a lexeme of the given length. -/
def caret (length : Int) : Except ShowError String :=
  if 1 < length then ("^" ++ ·) <$> repeated '~' (length - 1) else .ok "^"

/-- The source line of a diagnostic and the caret below it. There is none without a source file, and
    none for a position in line or column 0. -/
def sourceLine (color : Bool) (d : Diagnostic) (files : List SourceFile) :
    Except ShowError String :=
  match d.pos.sourceFile? files with
  | none => .ok ""
  | some file =>
    if d.pos.line = 0 ∨ d.pos.column = 0 then .ok ""
    else do
      let mark ← caret d.pos.length
      let indent ← repeated ' ' (d.pos.column - 1)
      return "  " ++ String.ofList (lineOf file.text d.pos.line) ++ "\n  " ++ indent ++
        paint color "32" mark ++ "\n"

/-- A diagnostic as it is shown. -/
def render (color : Bool) (files : List SourceFile) (d : Diagnostic) : Except ShowError String := do
  let label := match d.severity with
    | .error => paint color "31" "error:"
    | .warning => paint color "33" "warning:"
  let flag := if d.flag = "" then "" else " [-W" ++ d.flag ++ "]"
  let shown ← d.sourceLine color files
  return d.place files ++ ": " ++ label ++ " " ++ d.message ++ flag ++ "\n" ++ shown

def isError (d : Diagnostic) : Bool := d.severity == .error

end Diagnostic

end MiniCompiler
