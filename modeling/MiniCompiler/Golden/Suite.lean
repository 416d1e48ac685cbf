import MiniCompiler.Command
import MiniCompiler.Glob
import MiniCompiler.Golden.Record
import MiniCompiler.Golden.Report
import MiniCompiler.Text.Quoted

/-!
# Suites of golden tests

A suite compiles source files and keeps what the compiler said in golden records. Later the same
files are compiled again and compared with their records. Files with equal content are tested once.
-/

namespace MiniCompiler.Golden

/-- A compiler as a suite sees it: what it does in a folder with arguments. -/
abbrev Compiler := Disk → (home : List String) → (arguments : List String) → Execution

/-- The compiler of this library. -/
def standardCompiler (host : Host) : Compiler := fun d home arguments =>
  let (o, _) := Command.run host d home arguments
  { stdout := o.stdout, stderr := o.stderr, exitCode := o.status }

/-- What a suite works with. -/
structure Suite where
  compiler : Compiler
  /-- The hash of a content. -/
  digest : Content → UInt64
  /-- How differences of outputs are shown. -/
  diff : TextDiff
  /-- Arguments for the compiler before its own. -/
  arguments : List String := []
  /-- The folder of the records; empty if they stand next to the sources. -/
  folder : String := ""
  /-- The folder that paths start from. -/
  home : List String

/-- The path of the record of a source file. -/
def recordPath (folder source : String) : String :=
  let folder := if folder = "" then Path.parent source else folder
  Path.join folder ("." ++ Path.base source ++ ".json")

/-- A hash in hexadecimal, without leading zeros. -/
def hashText (h : UInt64) : String :=
  match (Text.hexDigits 16 h.toNat).dropWhile (· == '0') with
  | [] => "0"
  | digits => String.ofList digits

namespace Suite

/-- The hash of a file in words. -/
def fileHash (s : Suite) (d : Disk) (path : String) : Except FileError String := do
  return hashText (s.digest (← d.read s.home path))

/-- Makes a record of a source file. The compiler runs in the folder of the file. -/
def record (s : Suite) (d : Disk) (source : String) : Except FileError Record := do
  let sourceHash ← s.fileHash d source
  let folder := match d.spot s.home (Path.parent source) with
    | .ok (.folder way) => way
    | _ => s.home
  let arguments := s.arguments ++ ["--no-color", "-S", "-o", "-", Path.base source]
  return { sourceHash, compile := s.compiler d folder arguments }

/-! ## Making records -/

/-- Makes the record of a source file and keeps it on the disk. -/
def keepRecord (s : Suite) (d : Disk) (source : String) : Except FileError Disk := do
  let r ← s.record d source
  d.write s.home (recordPath s.folder source) (Text.encodeUtf8 r.toJson.write)

/-- The disk with the folder of the records. -/
def withFolder (s : Suite) (d : Disk) : Disk :=
  if s.folder = "" then d else d.makeFolders s.home s.folder

/-- Makes and keeps the records of source files, one after the other. -/
def keepAll (s : Suite) : Disk → List String → Except FileError Disk
  | d, [] => .ok d
  | d, source :: sources => do s.keepAll (← s.keepRecord d source) sources

/-- Why there is no record to read: its file cannot be read, or holds something else. -/
inductive RecordFault where
  | file (e : FileError)
  | corrupt (message : String)
  deriving DecidableEq, Repr

/-- The record that is kept of a source file. -/
def kept (s : Suite) (d : Disk) (source : String) : Except RecordFault Record :=
  let path := recordPath s.folder source
  match d.read s.home path with
  | .error e => .error (.file e)
  | .ok content =>
    match Record.ofText (Text.decodeUtf8 content) with
    | .error e => .error (.corrupt ("Corrupt golden file " ++ path ++ ": " ++ e.message))
    | .ok r => .ok r

/-! ## Testing against records -/

/-- How a new record differs from the one that is kept. -/
def difference (s : Suite) (want got : Record) : String :=
  (if want.sourceHash = got.sourceHash then ""
   else "Source changed since the golden file was recorded.\n") ++
    Execution.compare s.diff "compile" want.compile got.compile

/-- Tests a source file against its record. -/
def test (s : Suite) (d : Disk) (source : String) : TestResult :=
  match s.kept d source with
  | .error (.file e) =>
    if e.fault = .notFound then
      { file := source, status := .skip, message := "No golden file; use --generate-golden" }
    else { file := source, status := .error, message := e.message }
  | .error (.corrupt message) => { file := source, status := .error, message }
  | .ok want =>
    match s.record d source with
    | .error e => { file := source, status := .error, message := e.message }
    | .ok got =>
      let diff := s.difference want got
      if diff = "" then { file := source, status := .pass }
      else
        { file := source, status := .fail, message := "Output does not match the golden file", diff }

/-- Tests source files in order, after those whose digests are `seen`. A file that is to be skipped
    does not count as seen. -/
def testAll (s : Suite) (d : Disk) (skip : List String) (seen : List (String × String)) :
    List String → List TestResult
  | [] => []
  | source :: sources =>
    if source ∈ skip then
      { file := source, status := .skip, message := "Explicitly skipped" } ::
        s.testAll d skip seen sources
    else match s.fileHash d source with
      | .error e =>
        { file := source, status := .error,
          message := "Failed to read file for hashing: " ++ e.message } ::
          s.testAll d skip seen sources
      | .ok hash =>
        match seen.lookup hash with
        | some first =>
          { file := source, status := .skip, message := "Content is identical to " ++ first } ::
            s.testAll d skip seen sources
        | none => s.test d source :: s.testAll d skip ((hash, source) :: seen) sources

/-- The path of the report. -/
def reportPath (s : Suite) : String :=
  if s.folder = "" then ".test_results.json" else Path.join s.folder ".test_results.json"

/-- Keeps the report on the disk, and says where it is. -/
def keepReport (s : Suite) (d : Disk) (results : List TestResult) : String × Disk :=
  let d := s.withFolder d
  match d.write s.home s.reportPath (Text.encodeUtf8 (report results).write) with
  | .ok d => ("Full test report saved to " ++ s.reportPath ++ "\n", d)
  | .error _ => ("", d)

/-- The paths from the root of the files that are to be skipped, which stand in a text with blanks
    between them. -/
def skipList (s : Suite) (text : String) : List String :=
  (Text.words text.toList).map fun word =>
    Path.absolute (Glob.folderPath s.home) (String.ofList word)

/-- What a run of a suite gives: whether no test failed, what was printed, and the disk. -/
structure Run where
  passed : Bool
  printed : String
  disk : Disk

/-- Tests the source files. Without files there is nothing to say. -/
def run (s : Suite) (d : Disk) (skip : String) (verbose : Bool) (sources : List String) : Run :=
  if sources = [] then ⟨true, "", d⟩
  else
    let results := (s.testAll d (s.skipList skip) [] sources).mergeSort fun a b => a.file ≤ b.file
    let (saved, d) := s.keepReport d results
    ⟨!hasFailure results, summary verbose results ++ saved, d⟩

end Suite

end MiniCompiler.Golden
