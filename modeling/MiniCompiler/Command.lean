import MiniCompiler.Arguments.Help
import MiniCompiler.Compilation
import MiniCompiler.Host
import MiniCompiler.Settings.Flags
import MiniCompiler.Tree.Format

/-!
# The compiler as a command

The arguments of the command are made into a job. A job reads its input files, compiles them, and
delivers the assembly: to the output of the command, to a file, or to the linker. Reading and
writing files are the caller's: `Job.compile` is given the contents, and `Job.ending` says what is
to be written. `Command.run` does all of it on a disk.
-/

namespace MiniCompiler

open Arguments (Flag FlagSet Application)

namespace Command

/-! ## Flags -/

/-- The flags of the command, those for warnings and features apart. -/
def options : List Flag := [
    { name := "output", short := "o", value := .text "", expects := "file",
      usage := "Place the output into <file> ('-' for stdout)." },
    { name := "target", short := "t", value := .text "i386", expects := "target",
      usage := "Set the target machine (" ++ Target.supportedNames ++ ")." },
    { name := "asm", short := "S", value := .switch false,
      usage := "Emit assembly only; do not assemble or link." },
    { name := "watch", short := "w", value := .switch false,
      usage := "Recompile whenever an input file changes." },
    { name := "verbose", short := "v", value := .switch false,
      usage := "Report each compilation stage." },
    { name := "dump-ast", short := "d", value := .switch false,
      usage := "Dump the parsed syntax tree to stdout." },
    { name := "print-ast", short := "P", value := .switch false,
      usage := "Print the parsed program back as Mini source." },
    { name := "no-color", value := .switch false, usage := "Disable colored diagnostics." },
    { name := "Wall", value := .switch false, usage := "Enable all warnings except pedantic." },
    { name := "linker-arg", short := "L", value := .items (some []), expects := "arg",
      usage := "Pass an argument to the linker." }]

/-- The settings before any argument, and the flags that are offered. -/
def offered : Settings × FlagSet := Settings.offer {} { flags := options }

def application : Application where
  name := "gmini"
  synopsis := "[options] <input.mini> ..."
  description := "A compiler for Mini, a small imperative language with by-reference " ++
    "parameters, emitting x86 assembly."
  authors := ["xplshn"]
  repository := "https://github.com/xplshn/gmini"
  flags := offered.2

/-- The switches that the flags ask for: all warnings first, then what is said of a single one. -/
def switchedBy (flags : FlagSet) : Settings :=
  let s := if flags.isOn "Wall" then offered.1.applyText "-Wall" else offered.1
  s.applyFlags flags

end Command

/-! ## Jobs -/

/-- What the command is asked to do. A job is done once, also if it is to be watched. -/
structure Job where
  inputs : List String
  settings : Settings
  output : String
  assemblyOnly : Bool
  verbose : Bool
  /-- The text in which the tree is dumped, if it is. -/
  dump : Option (Program → String)
  prints : Bool
  color : Bool
  linkerArguments : List String

/-- Where the assembly goes. -/
inductive Delivery where
  | shown
  | file (path : String)
  | program (path : String)
  deriving DecidableEq, Repr

/-- What a job gives: what it says, and the assembly or the status with which it ends without one.
    -/
structure JobResult where
  stdout : String := ""
  stderr : String := ""
  assembly : Except Nat String

/-- How the command ends: its status and what it said. -/
structure Outcome where
  status : Nat
  stdout : String := ""
  stderr : String := ""
  deriving DecidableEq, Repr

/-- How a job ends: at once, or after a file has been written, which may fail. -/
inductive Ending where
  | now (o : Outcome)
  | write (path : String) (content : Content) (after : Option FileError → Outcome)

namespace Job

/-- The name of the output if none is given. -/
def defaultOutput (inputs : List String) (assemblyOnly : Bool) : String :=
  if assemblyOnly then
    let first := inputs.headD ""
    Path.withoutEnding (Path.base first) (Path.ending first) ++ ".s"
  else "a.out"

def delivery (job : Job) : Delivery :=
  if job.output = "-" then .shown
  else if job.assemblyOnly || ".s".toList.isSuffixOf job.output.toList then .file job.output
  else .program job.output

/-- A message about the stages of the job, if they are to be reported. -/
def log (job : Job) (message : String) : String := if job.verbose then message ++ "\n" else ""

/-- The diagnostics as they are shown, and the number of errors if the job ends with them. -/
def showDiagnostics (job : Job) (files : List SourceFile) (ds : List Diagnostic) (ends : Bool) :
    String :=
  let shown := String.join (ds.map fun d => (d.render job.color files).toOption.getD "")
  let errors := ds.countP Diagnostic.isError
  if ends && 0 < errors then shown ++ toString errors ++ " error(s) generated.\n" else shown

/-- The program as it is printed after it was read. -/
def showProgram (job : Job) (p : Program) : String :=
  (job.dump.elim "" fun dump => dump p) ++
    if job.prints then String.join (p.map fun f => f.format ++ "\n") else ""

/-- What a fault says on the way out. -/
def showFault (f : Fault) : String := "panic: " ++ f.message?.getD "runtime error" ++ "\n"

/-- What a compilation says and gives, after the tokens were gathered. -/
def conclude (job : Job) (files : List SourceFile) (c : Compilation) : JobResult :=
  let parsing := job.log "Parsing tokens into AST..."
  let checking (p : Program) :=
    parsing ++ job.log ("Type checking " ++ toString p.length ++ " function(s)...")
  let generating (p : Program) :=
    checking p ++ job.log ("Generating " ++ job.settings.target.name ++ " assembly...")
  let diagnostics := job.showDiagnostics files c.diagnostics
  match c with
  | .unreadable _ => ⟨"", parsing ++ diagnostics true, .error 1⟩
  | .unchecked p f => ⟨job.showProgram p, checking p ++ showFault f, .error 2⟩
  | .rejected p _ => ⟨job.showProgram p, checking p ++ diagnostics true, .error 1⟩
  | .lowered p _ (.error f) => ⟨job.showProgram p, generating p ++ showFault f, .error 2⟩
  | .lowered p _ (.ok lines) =>
    ⟨job.showProgram p, generating p ++ diagnostics false,
      .ok (Line.renderAll job.settings.target.suffix lines)⟩

/-- Compiles the inputs of a job. -/
def compile (job : Job) (read : String → Except FileError Content) : JobResult :=
  let first := job.log ("Tokenizing " ++ toString job.inputs.length ++ " source file(s) for " ++
    job.settings.target.name ++ "...")
  match job.settings.gather read 0 job.inputs with
  | .error e => ⟨"", first ++ "gmini: " ++ readMessage e ++ "\n", .error 1⟩
  | .ok (files, tokens) =>
    let r := job.conclude files (Compilation.run job.settings job.settings.allows tokens)
    { r with stderr := first ++ r.stderr }

/-- Writes a file at the end of a job. `message` is what is said of an error. -/
def writeFile (host : Host) (job : Job) (stdout stderr path : String) (content : Content)
    (message : FileError → String) : Ending :=
  .write path content fun
    | none =>
      let size := host.sizeText content.length
      ⟨0, stdout, stderr ++ job.log ("Wrote '" ++ path ++ "' (" ++ size ++ ")")⟩
    | some e => ⟨1, stdout, stderr ++ "gmini: " ++ message e ++ "\n"⟩

/-- The end of a job after the compilation. -/
def ending (host : Host) (job : Job) (r : JobResult) : Ending :=
  match r.assembly with
  | .error status => .now ⟨status, r.stdout, r.stderr⟩
  | .ok assembly =>
    match job.delivery with
    | .shown => .now ⟨0, r.stdout ++ assembly, r.stderr⟩
    | .file path =>
      job.writeFile host r.stdout r.stderr path (Text.encodeUtf8 assembly) fun e =>
        "writing '" ++ path ++ "': " ++ e.message
    | .program path =>
      let stderr := r.stderr ++ job.log ("Linking to create '" ++ path ++ "'...")
      let failed (message : String) := "assembler/linker failed: " ++ message
      match host.link job.settings.target job.linkerArguments assembly with
      | .error e => .now ⟨1, r.stdout, stderr ++ "gmini: " ++ failed e.message ++ "\n"⟩
      | .ok content => job.writeFile host r.stdout stderr path content fun e => failed e.message

end Job

/-! ## The command -/

/-- What the arguments of the command amount to. -/
inductive Request where
  | finished (o : Outcome)
  | build (job : Job)

namespace Command

/-- Ends the command with an error that belongs to no place in a file. -/
def complaint (host : Host) (message : String) : Outcome :=
  let d : Diagnostic := { message, pos := ⟨-1, 0, 0, 0⟩ }
  ⟨1, "", (d.render host.color []).toOption.getD ""⟩

/-- The job that the flags and the inputs describe. -/
def jobOf (host : Host) (flags : FlagSet) (inputs : List String) : Request :=
  if inputs = [] then .finished (complaint host "no input files specified.")
  else
    match (switchedBy flags).select host.system host.processor (flags.text "target") with
    | (_, some e) =>
      .finished (complaint { host with color := host.color && !flags.isOn "no-color" } e.message)
    | (settings, none) =>
      let assemblyOnly := flags.isOn "asm"
      let output := flags.text "output"
      .build {
        inputs, settings, assemblyOnly
        output := if output = "" then Job.defaultOutput inputs assemblyOnly else output
        verbose := flags.isOn "verbose"
        dump := if flags.isOn "dump-ast" then some host.dump else none
        prints := flags.isOn "print-ast"
        color := host.color && !flags.isOn "no-color"
        linkerArguments := match flags.value? "linker-arg" with
          | some (.items given) => given.getD []
          | _ => [] }

/-- Reads the arguments of the command. -/
def request (host : Host) (arguments : List String) : Request :=
  let (a, start) := application.start arguments
  match start with
  | .clash e => .finished ⟨2, "", "panic: " ++ e.message ++ "\n"⟩
  | .refused e => .finished ⟨1, "", a.usageText e⟩
  | .helped (.ok page) => .finished ⟨0, page, ""⟩
  | .helped (.error _) => .finished ⟨2, "", "panic: runtime error\n"⟩
  | .work inputs => jobOf host a.flags inputs

/-- Does a job on a disk, in the folder `home`. -/
def build (host : Host) (d : Disk) (home : List String) (job : Job) : Outcome × Disk :=
  match job.ending host (job.compile (d.read home)) with
  | .now o => (o, d)
  | .write path content after =>
    match d.write home path content with
    | .ok d => (after none, d)
    | .error e => (after (some e), d)

/-- Runs the command on a disk, in the folder `home`. -/
def run (host : Host) (d : Disk) (home : List String) (arguments : List String) : Outcome × Disk :=
  match request host arguments with
  | .finished o => (o, d)
  | .build job => build host d home job

end Command

end MiniCompiler
