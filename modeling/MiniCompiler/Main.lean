import MiniCompiler.Command

/-!
# The command line

Reads the input files of a job, compiles them, and writes what the command says and makes. All
decisions are made by `Command.request`, `Job.compile` and `Job.ending`.
-/

namespace MiniCompiler.Main

/-- The fault behind an error of the system. -/
def faultOf : IO.Error → FileFault
  | .inappropriateType _ _ _ => .isDirectory
  | .otherError 20 _ => .notDirectory
  | _ => .notFound

def readFile (path : String) : IO (Except FileError Content) := do
  try
    return .ok (← IO.FS.readBinFile path).toList
  catch e =>
    return .error ⟨if faultOf e = .isDirectory then "read" else "open", path, faultOf e⟩

/-- Writes a file; gives what went wrong. -/
def writeFile (path : String) (content : Content) : IO (Option FileError) := do
  try
    IO.FS.writeBinFile path ⟨content.toArray⟩
    return none
  catch e =>
    return some ⟨"open", path, faultOf e⟩

/-- Does a job on the files of the machine. -/
def build (host : Host) (job : Job) : IO Outcome := do
  let contents ← job.inputs.mapM fun path => do return (path, ← readFile path)
  let r := job.compile fun path =>
    (contents.lookup path).getD (.error ⟨"open", path, .notFound⟩)
  match job.ending host r with
  | .now o => return o
  | .write path content after => return after (← writeFile path content)

/-- The machine as the terminal shows it. -/
def host (dump : Program → String) (sizeText : Nat → String) : IO Host := do
  return { Host.linux64 dump sizeText with color := ← (← IO.getStderr).isTty }

/-- Runs the command, and gives its status. -/
def run (host : Host) (arguments : List String) : IO UInt32 := do
  let o ← match Command.request host arguments with
    | .finished o => pure o
    | .build job => build host job
  IO.print o.stdout
  IO.eprint o.stderr
  return o.status.toUInt32

end MiniCompiler.Main
