import MiniCompiler.Disk
import MiniCompiler.Lowering.Program
import MiniCompiler.Text.Utf8
import MiniCompiler.Token.Scan
import MiniCompiler.Tree.Parse
import MiniCompiler.Typing.Program

/-!
# Compiling source files

The files of a program are scanned one after the other into one list of tokens, which is read as a
program, checked, and lowered to assembly if no error was reported.
-/

namespace MiniCompiler

/-! ## Sources -/

/-- How the file of a number is scanned. -/
def Settings.scanOptions (s : Settings) (file : Int) : ScanOptions := ⟨file, s.allows .lineComments⟩

/-- Reads and scans files, the first of which has number `i`. Only the last one contributes an end
    of file, at no place in it; an illegal token ends the list, and no file after it is read. -/
def Settings.gather (s : Settings) (read : String → Except FileError Content) :
    Nat → List String → Except FileError (List SourceFile × List Token)
  | i, [] => .ok ([], [⟨.endOfFile, "", ⟨(i - 1 : Nat), 0, 0, 0⟩⟩])
  | i, path :: paths => do
    let text := Text.decodeUtf8 (← read path)
    let tokens := scan (s.scanOptions i) text
    if tokens.any (·.kind == .illegal) then return ([⟨path, text⟩], tokens)
    else
      let (files, more) ← s.gather read (i + 1) paths
      return (⟨path, text⟩ :: files, tokens.dropLast ++ more)

/-- What holds of the tokens of every file, alone and before others, holds of all tokens together. -/
theorem Settings.gather_rule {s : Settings} {read : String → Except FileError Content}
    {P : List Token → Prop} (hend : ∀ pos, P [⟨.endOfFile, "", pos⟩]) (hscan : ∀ o text, P (scan o text))
    (hjoin : ∀ o text more, P more → P ((scan o text).dropLast ++ more)) {paths : List String} :
    ∀ {i : Nat} {files : List SourceFile} {tokens : List Token},
      s.gather read i paths = .ok (files, tokens) → P tokens := by
  induction paths with
  | nil =>
    intro i files tokens h
    cases h
    exact hend _
  | cons path paths ih =>
    intro i files tokens h
    rw [Settings.gather] at h
    cases hread : read path with
    | error e => simp [hread, bind, Except.bind] at h
    | ok content =>
      simp only [hread, bind, Except.bind] at h
      split at h
      · cases h
        exact hscan _ _
      · cases hmore : s.gather read (i + 1) paths with
        | error e => simp [hmore] at h
        | ok more =>
          simp only [hmore] at h
          cases h
          exact hjoin _ _ _ (ih hmore)

/-- The wording of an error about a source file. -/
def readMessage (e : FileError) : String :=
  "could not read file '" ++ e.path ++ "': " ++ e.message

/-! ## Stages -/

/-- How far a program came. -/
inductive Compilation where
  /-- It could not be read. -/
  | unreadable (stop : ParseStop)
  /-- Checking it ended in a fault. -/
  | unchecked (program : Program) (fault : Fault)
  /-- An error was reported. -/
  | rejected (program : Program) (reports : List Report)
  /-- It was lowered, which may have ended in a fault. -/
  | lowered (program : Program) (reports : List Report) (assembly : Except Fault (List Line))

namespace Compilation

/-- Compiles a list of tokens. `allows` says which features may be used. -/
def run (s : Settings) (allows : Feature → Bool) (tokens : List Token) : Compilation :=
  match Program.parse allows tokens with
  | .error stop => .unreadable stop
  | .ok p =>
    let r := p.check s
    match r.fault with
    | some f => .unchecked p f
    | none =>
      if r.accepted then .lowered p r.reports (r.program.assembly s) else .rejected p r.reports

/-- What was reported, in order. -/
def diagnostics : Compilation → List Diagnostic
  | .unreadable (.refused pos e) => [⟨.error, "", e.message, pos⟩]
  | .unreadable .endless => []
  | .unchecked _ _ => []
  | .rejected _ reports | .lowered _ reports _ => reports.map Report.toDiagnostic

end Compilation

end MiniCompiler
