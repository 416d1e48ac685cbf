import MiniCompiler.Lowering.Expr

/-!
# Code of statements and programs

A loop has its test at the bottom:

    jump to test
    loop: body
    continue: step
    test: jump to loop if the test is true
    break:

The labels of `continue` and `break` are taken when the first such statement needs them.
-/

namespace MiniCompiler

/-! ## Loops -/

/-- The labels that a loop has taken for `continue` and `break`. -/
structure LoopLabels where
  continueLabel : Option Label := none
  breakLabel : Option Label := none
  deriving DecidableEq, Repr

/-- A label that is taken when it is first needed. -/
def labelOrNew (l : Option Label) : Emit Label :=
  match l with
  | some l => pure l
  | none => Emit.newLabel

/-- The labels of a loop after a jump out of its body. -/
def LoopLabels.jumpContinue (loop : Option LoopLabels) : Emit (Option LoopLabels) :=
  match loop with
  | none => Emit.fail .strayContinue
  | some labels => do
    let l ← labelOrNew labels.continueLabel
    Emit.instr (.jump l)
    return some { labels with continueLabel := some l }

/-- The labels of a loop after a jump behind it. -/
def LoopLabels.jumpBreak (loop : Option LoopLabels) : Emit (Option LoopLabels) :=
  match loop with
  | none => Emit.fail .strayBreak
  | some labels => do
    let l ← labelOrNew labels.breakLabel
    Emit.instr (.jump l)
    return some { labels with breakLabel := some l }

/-- Writes a label if it was taken. -/
def labelIfTaken (l : Option Label) : Emit Unit :=
  match l with
  | some l => Emit.label l
  | none => pure ()

/-- A loop. `body` gets the loop's labels and returns those it has taken. -/
def loopCode (s : Settings) (test step : Expr) (pushed : Int)
    (body : Option LoopLabels → Emit (Option LoopLabels)) : Emit Unit := do
  let start ← Emit.newLabel
  let testLabel ← Emit.newLabel
  Emit.instr (.jump testLabel)
  Emit.label start
  let labels := (← body (some {})).getD {}
  labelIfTaken labels.continueLabel
  if !step.isAbsent then (step.code s).value pushed 0
  Emit.label testLabel
  if test.isAbsent then Emit.instr (.jump start)
  else (test.code s).branch start true pushed 0
  labelIfTaken labels.breakLabel

/-! ## Statements -/

/-- The variables of a declaration get their initial values. -/
def localsCode (s : Settings) (pushed : Int) : List Local → Emit Unit
  | [] => pure ()
  | v :: vars => do
    if v.init.isAbsent then
      let b ← bindingOf ⟨v.pos, v.name, v.binding⟩
      Emit.instr (.mov (.imm 0) (s.target.slot b))
    else
      (v.init.code s).value pushed 0
      let r ← s.target.reg 0
      let b ← bindingOf ⟨v.pos, v.name, v.binding⟩
      Emit.instr (.mov r (s.target.slot b))
    localsCode s pushed vars

mutual

/-- The code of a statement in a function whose last part has the label `exit`. The labels of the
    innermost loop around it go in and come out. -/
def Stmt.code (s : Settings) (exit : Label) (pushed : Int) :
    Stmt → Option LoopLabels → Emit (Option LoopLabels)
  | .absent, _ => Emit.fail .codeOfAbsentStmt
  | .block _ stmts, loop => Stmt.codeAll s exit pushed stmts loop
  | .empty _, loop => return loop
  | .expr _ e, loop => do
    (e.code s).value pushed 0
    return loop
  | .locals _ _ vars, loop => do
    localsCode s pushed vars
    return loop
  | .cond _ test yes .absent, loop => do
    let done ← Emit.newLabel
    (test.code s).branch done false pushed 0
    let loop ← yes.code s exit pushed loop
    Emit.label done
    return loop
  | .cond _ test yes no, loop => do
    let done ← Emit.newLabel
    let otherwise ← Emit.newLabel
    (test.code s).branch otherwise false pushed 0
    let loop ← yes.code s exit pushed loop
    Emit.instr (.jump done)
    Emit.label otherwise
    let loop ← no.code s exit pushed loop
    Emit.label done
    return loop
  | .whileLoop _ test body, loop => do
    loopCode s test .absent pushed (body.code s exit pushed)
    return loop
  | .forLoop _ .absent test step body, loop => do
    loopCode s test step pushed (body.code s exit pushed)
    return loop
  | .forLoop _ init test step body, loop => do
    let loop ← init.code s exit pushed loop
    loopCode s test step pushed (body.code s exit pushed)
    return loop
  | .continueLoop _, loop => LoopLabels.jumpContinue loop
  | .breakLoop _, loop => LoopLabels.jumpBreak loop
  | .ret _ e, loop => do
    if !e.isAbsent then (e.code s).value pushed 0
    Emit.instr (.jump exit)
    return loop

/-- The code of statements, one after the other. -/
def Stmt.codeAll (s : Settings) (exit : Label) (pushed : Int) :
    List Stmt → Option LoopLabels → Emit (Option LoopLabels)
  | [], loop => return loop
  | st :: stmts, loop => do
    let loop ← st.code s exit pushed loop
    Stmt.codeAll s exit pushed stmts loop

end

/-! ## Programs -/

def Function.code (s : Settings) (f : Function) : Emit Unit := do
  let exit ← Emit.newLabel
  Emit.lines (s.target.prologue (s.symbolStart ++ f.name) f.frameBytes)
  match f.body with
  | none => Emit.fail .noBody
  | some b =>
    let _ ← Stmt.codeAll s exit (s.target.entryBytes f.frameBytes) b.stmts none
    Emit.label exit
    Emit.lines s.target.epilogue

/-- The code of functions; prototypes have none. -/
def Program.functionsCode (s : Settings) : List Function → Emit Unit
  | [] => pure ()
  | f :: fs => do
    if !f.isPrototype then f.code s
    Program.functionsCode s fs

/-- The code of a program. Except on `darwin`, a note says that the stack need not be executable. -/
def Program.code (s : Settings) (p : Program) : Emit Unit := do
  Emit.line (.comment ("generated by gmini for " ++ s.target.name))
  Emit.line (.directive ".text" [])
  Program.functionsCode s p
  if s.system ≠ "darwin" then
    Emit.line (.directive ".section" [".note.GNU-stack", "\"\"", "@progbits"])

def Program.assembly (s : Settings) (p : Program) : Except Fault (List Line) :=
  let r := p.code s 0
  r.result.map fun _ => r.lines

/-- The text of the assembly of a program. -/
def Program.assemblyText (s : Settings) (p : Program) : Except Fault String :=
  (p.assembly s).map (Line.renderAll s.target.suffix)

end MiniCompiler
