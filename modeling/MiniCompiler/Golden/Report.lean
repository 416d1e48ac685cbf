import MiniCompiler.Json
import MiniCompiler.Text.Blank
import MiniCompiler.Text.Split

/-!
# Reports on tests

The result of every test, the summary that is printed of them in color, and the report that is kept
as a JSON document.
-/

namespace MiniCompiler.Golden

/-- How a test ended. -/
inductive Status where
  | pass
  | fail
  | skip
  | error
  | other (name : String)
  deriving DecidableEq, Repr

namespace Status

def text : Status → String
  | .pass => "PASS"
  | .fail => "FAIL"
  | .skip => "SKIP"
  | .error => "ERROR"
  | .other name => name

def ofText (name : String) : Status :=
  if name = "PASS" then .pass
  else if name = "FAIL" then .fail
  else if name = "SKIP" then .skip
  else if name = "ERROR" then .error
  else .other name

/-- Does a status make the whole run fail? -/
def isFailure : Status → Bool
  | .fail | .error => true
  | .pass | .skip | .other _ => false

end Status

/-- The result of one test. -/
structure TestResult where
  file : String
  status : Status
  message : String := ""
  diff : String := ""
  deriving DecidableEq, Repr

/-! ## The summary -/

def red : String := "\x1b[91m"
def yellow : String := "\x1b[93m"
def green : String := "\x1b[92m"
def bold : String := "\x1b[1m"
def plain : String := "\x1b[0m"

def Status.color : Status → String
  | .fail | .error => red
  | .skip => yellow
  | .pass | .other _ => green

/-- The color in which a line of a difference starts, by its first character that is not blank. -/
def diffColor (line : List Char) : String :=
  match line.dropWhile Text.isBlank with
  | '-' :: _ => red
  | '+' :: _ => green
  | _ => ""

/-- A difference as it is printed. -/
def diffText (diff : String) : String :=
  if diff = "" then ""
  else "    --- Diff ---\n" ++ String.join ((Text.splitAt '\n' diff.toList).map fun line =>
    diffColor line ++ "    " ++ String.ofList line ++ plain ++ "\n")

/-- What the summary says of a result. -/
def TestResult.text (r : TestResult) : String :=
  r.status.color ++ "[" ++ r.status.text ++ "]" ++ plain ++ " " ++ r.file ++
    (if r.message = "" then "" else ": " ++ r.message) ++ "\n" ++ diffText r.diff

/-- A number of results in words. -/
def countText (results : List TestResult) (s : Status) (word : String) : String :=
  s.color ++ toString (results.countP (·.status == s)) ++ " " ++ word ++ plain

/-- The summary of results. What passed is only listed on demand. -/
def summary (verbose : Bool) (results : List TestResult) : String :=
  "\n" ++ bold ++ "--- Test Summary ---" ++ plain ++ "\n" ++
    String.join ((results.filter fun r => verbose || r.status != .pass).map TestResult.text) ++
    "\n" ++ ", ".intercalate [countText results .pass "passed", countText results .fail "failed",
      countText results .error "errors", countText results .skip "skipped"] ++ "\n"

/-! ## The report -/

/-- A result as a member of the report. An empty message and an empty difference are left out. -/
def TestResult.toJson (r : TestResult) : Json :=
  .object ([("file", .string r.file), ("status", .string r.status.text)] ++
    (if r.message = "" then [] else [("message", .string r.message)]) ++
    if r.diff = "" then [] else [("diff", .string r.diff)])

/-- The last result of each file. -/
def lastResults : List TestResult → List TestResult
  | [] => []
  | r :: rs => if rs.any (·.file == r.file) then lastResults rs else r :: lastResults rs

/-- The report on results, by file. -/
def report (results : List TestResult) : Json :=
  let ordered := (lastResults results).mergeSort fun a b => a.file ≤ b.file
  .object (ordered.map fun r => (r.file, r.toJson))

/-- Did a test of the report fail? -/
def hasFailure (results : List TestResult) : Bool :=
  (lastResults results).any fun r => r.status.isFailure

end MiniCompiler.Golden
