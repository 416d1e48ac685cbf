import MiniCompiler.Golden.Execution
import MiniCompiler.Json.Read
import MiniCompiler.Word

/-!
# Golden records

The record of how a source file compiled, kept as a JSON document next to it. Reading a record is
lenient: a member that is missing or null keeps its default, one with an unknown name is passed
over, and names may differ in case. A member of the wrong kind makes the record unreadable.
-/

namespace MiniCompiler.Golden

/-- What is kept of a source file: a digest of its content, and how it compiled and ran. -/
structure Record where
  sourceHash : String := ""
  compile : Execution := {}
  run : Option Execution := none
  deriving DecidableEq, Repr, Inhabited

/-- A record as a document. A run that did not happen is left out. -/
def Record.toJson (r : Record) : Json :=
  .object ([("source_hash", .string r.sourceHash), ("compile", r.compile.toJson)] ++
    (r.run.map fun e => ("run", e.toJson)).toList)

/-! ## Reading records -/

/-- A value that is not of the kind that is expected: what was found, the names that lead to it as
    the document writes them, and the expected kind. -/
structure Mismatch where
  found : String
  path : List String
  expected : String
  deriving DecidableEq, Repr

def Mismatch.message (m : Mismatch) : String :=
  "json: cannot unmarshal JSON " ++ m.found ++ " into" ++
    (if m.path = [] then "" else " " ++ ".".intercalate ("Golden" :: m.path) ++ " of") ++
    " Go type " ++ m.expected

/-- Why a record cannot be read. -/
inductive RecordError where
  | malformed (e : JsonError)
  | mismatch (m : Mismatch)
  deriving DecidableEq, Repr

def RecordError.message : RecordError → String
  | .malformed e => e.message
  | .mismatch m => m.message

/-- The kind of a value in words. -/
def kindOf : Json → String
  | .null => "null"
  | .bool _ => "bool"
  | .number _ => "number"
  | .string _ => "string"
  | .array _ => "array"
  | .object _ => "object"

/-- The whole number that is written in decimal, if it fits into 64 bits. -/
def wholeNumber? (text : String) : Option Int :=
  let (negative, digits) := match text.toList with
    | '-' :: digits => (true, digits)
    | digits => (false, digits)
  if digits = [] || !digits.all Char.isDigit then none
  else
    let n : Int := digits.foldl (fun n c => n * 10 + (c.toNat - '0'.toNat)) 0
    let n := if negative then -n else n
    if -wordBound ≤ n ∧ n < wordBound then some n else none

def readText (path : List String) (old : String) : Json → Except Mismatch String
  | .string s => .ok s
  | .null => .ok old
  | v => .error ⟨kindOf v, path, "string"⟩

def readNumber (path : List String) (expected : String) (old : Int) : Json → Except Mismatch Int
  | .number text =>
    match wholeNumber? text with
    | some n => .ok n
    | none => .error ⟨"number " ++ text, path, expected⟩
  | .null => .ok old
  | v => .error ⟨kindOf v, path, expected⟩

def readTruth (path : List String) (old : Bool) : Json → Except Mismatch Bool
  | .bool b => .ok b
  | .null => .ok old
  | v => .error ⟨kindOf v, path, "bool"⟩

/-- The small letter of ASCII that a character is a form of: the long s and the sign for kelvin are
    such forms too. -/
def smallForm (c : Char) : Char :=
  if c = '\u017f' then 's' else if c = '\u212a' then 'k' else c.toLower

/-- Are two names, one of which is in ASCII, equal up to the case of letters? -/
def sameName (a b : String) : Bool := a.toList.map smallForm == b.toList.map smallForm

def readExecutionMember (path : List String) (e : Execution) (member : String × Json) :
    Except Mismatch Execution :=
  let (name, v) := member
  let path := path ++ [name]
  if sameName name "stdout" then do
    return { e with stdout := ← readText path e.stdout v }
  else if sameName name "stderr" then do
    return { e with stderr := ← readText path e.stderr v }
  else if sameName name "exitCode" then do
    return { e with exitCode := ← readNumber path "int" e.exitCode v }
  else if sameName name "duration" then do
    return { e with duration := ← readNumber path "time.Duration" e.duration v }
  else if sameName name "timed_out" then do
    return { e with timedOut := ← readTruth path e.timedOut v }
  else .ok e

def readExecution (path : List String) (old : Execution) : Json → Except Mismatch Execution
  | .object members => members.foldlM (readExecutionMember path) old
  | .null => .ok old
  | v => .error ⟨kindOf v, path, "main.Execution"⟩

def readMember (r : Record) (member : String × Json) : Except Mismatch Record :=
  let (name, v) := member
  if sameName name "source_hash" then do
    return { r with sourceHash := ← readText [name] r.sourceHash v }
  else if sameName name "compile" then do
    return { r with compile := ← readExecution [name] r.compile v }
  else if sameName name "run" then
    match v with
    | .null => .ok { r with run := none }
    | v => do return { r with run := some (← readExecution [name] (r.run.getD {}) v) }
  else .ok r

/-- Reads a record from a document. -/
def Record.ofJson : Json → Except Mismatch Record
  | .object members => members.foldlM readMember {}
  | .null => .ok {}
  | v => .error ⟨kindOf v, [], "main.Golden"⟩

/-- Reads a record from the text of a document. -/
def Record.ofText (text : List Char) : Except RecordError Record :=
  match Json.read text with
  | .error e => .error (.malformed e)
  | .ok v =>
    match Record.ofJson v with
    | .error m => .error (.mismatch m)
    | .ok r => .ok r

end MiniCompiler.Golden
