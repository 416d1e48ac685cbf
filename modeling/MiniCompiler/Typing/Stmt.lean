import MiniCompiler.Typing.Expr

/-!
# Checking statements

`checkStmt` checks a statement and returns it with bindings added, and the environment after it.
Besides it works on a `CheckState`: the frame of the function, whether the end of what was checked
so far cannot be reached, and a fault, if there was one. After a fault every step that would report
something or change a tree does nothing.
-/

namespace MiniCompiler

/-! ## Steps of checking -/

/-- What checking the statements of one function works on. -/
structure CheckState where
  frame : Frame := {}
  returns : Bool := false
  fault : Option Fault := none
  deriving DecidableEq, Repr

/-- The result of a step: a value, the reports of this step, and the state after it. -/
structure CheckResult (α : Type) where
  value : α
  reports : List Report
  state : CheckState

/-- A step of checking. -/
def Check (α : Type) : Type := CheckState → CheckResult α

namespace Check

protected def pure {α : Type} (a : α) : Check α := fun s => ⟨a, [], s⟩

protected def bind {α β : Type} (x : Check α) (f : α → Check β) : Check β := fun s =>
  let first := x s
  let second := f first.value first.state
  ⟨second.value, first.reports ++ second.reports, second.state⟩

instance : Monad Check where
  pure := Check.pure
  bind := Check.bind

/-- Does `step` unless there was a fault; then the value is `otherwise`. -/
def unlessFault {α : Type} (otherwise : α) (step : Check α) : Check α := fun s =>
  if s.fault.isSome then ⟨otherwise, [], s⟩ else step s

def report (rs : List Report) : Check Unit := unlessFault () fun s => ⟨(), rs, s⟩

/-- Ends checking with a fault. -/
def halt (f : Fault) : Check Unit := unlessFault () fun s => ⟨(), [], { s with fault := some f }⟩

def getReturns : Check Bool := fun s => ⟨s.returns, [], s⟩

def setReturns (b : Bool) : Check Unit := fun s => ⟨(), [], { s with returns := b }⟩

/-- Takes a place for a local and returns its offset. -/
def newLocal (wordSize : Int) : Check Int := fun s =>
  ⟨s.frame.push.offset wordSize, [], { s with frame := s.frame.push }⟩

/-- Gives back the places that a step takes. -/
def releasing {α : Type} (step : Check α) : Check α := fun s =>
  let r := step s
  { r with state.frame := r.state.frame.release s.frame.live }

/-- Takes over the result of looking for a type. A refusal is reported here. -/
def ofInference (before : Expr) (i : Inference) : Check (Expr × Option Ty) :=
  unlessFault (before, none) do
    report i.reports
    match i.verdict with
    | .ok t => return (i.expr, some t)
    | .error (.refused r) =>
      report [r]
      return (i.expr, none)
    | .error (.fault f) =>
      halt f
      return (i.expr, none)

end Check

/-! ## Parts of statements -/

/-- Can the next statement of a block be reached? -/
inductive Reach where
  | reachable
  | ended
  | reported
  deriving DecidableEq, Repr

namespace Stmt

/-- Does a statement end its block? -/
def endsBlock : Stmt → Bool
  | .ret .. | .breakLoop .. | .continueLoop .. => true
  | _ => false

def isAbsent : Stmt → Bool
  | .absent => true
  | _ => false

def pos : Stmt → Pos
  | .absent => {}
  | .block p _ | .empty p | .expr p _ | .locals p _ _ | .cond p _ _ _ | .whileLoop p _ _ => p
  | .forLoop p _ _ _ _ | .breakLoop p | .continueLoop p | .ret p _ => p

end Stmt

/-- What is known about the next statement after `s`. -/
def Reach.after (r : Reach) (s : Stmt) : Reach :=
  match r with
  | .reachable => if s.endsBlock then .ended else .reachable
  | .ended | .reported => .reported

namespace TypingContext

def note (c : TypingContext) (pos : Pos) (p : Problem) : Check Unit :=
  Check.report (c.settings.note pos p)

def checkExpr (c : TypingContext) (env : Env) (e : Expr) : Check (Expr × Option Ty) :=
  Check.ofInference e (c.infer env e)

/-- Checks the test of a conditional or of a loop. -/
def checkTest (c : TypingContext) (env : Env) (kind : TestKind) (e : Expr) : Check Expr := do
  let (e', t) ← c.checkExpr env e
  match t with
  | none | some .boolean => return e'
  | some _ =>
    c.note e.pos (.test kind)
    return e'

/-- Checks an expression that is a statement. A value that is not used is doubtful, unless it is
    that of an assignment or a call. -/
def checkExprStmt (c : TypingContext) (env : Env) (pos : Pos) (e : Expr) : Check Expr := do
  let (e', t) ← Check.ofInference e (c.inferStatement env e)
  match e, t with
  | .call .., _ | .assign .., _ | _, none => return e'
  | _, some _ =>
    c.note pos .unusedResult
    return e'

/-- Checks the initial value of a variable. -/
def checkInit (c : TypingContext) (env : Env) (type : Ty) (name : String) (e : Expr) :
    Check Expr := do
  if e.isAbsent then return e
  else
    let (e', t) ← c.checkExpr env e
    match t with
    | none => return e'
    | some t =>
      if t ≠ type then c.note e.pos (.initializer name type t)
      return e'

/-- Checks the variables of a declaration, from left to right. A variable is in scope after its
    initial value. -/
def checkLocals (c : TypingContext) (scope : Nat) (type : Ty) :
    Env → List Local → Check (List Local × Env)
  | env, [] => return ([], env)
  | env, v :: vars => do
    let init ← c.checkInit env type v.name v.init
    if env.bindsSince scope v.name then c.note v.pos (.redeclared v.name)
    else if (env.find? v.name).isSome then c.note v.pos (.shadowing v.name)
    Check.unlessFault ({ v with init } :: vars, env) do
      let offset ← Check.newLocal c.settings.wordSize
      let b : Binding := ⟨v.name, type, offset, false⟩
      let (rest, env) ← checkLocals c scope type (b :: env) vars
      return ({ v with init, binding := some b } :: rest, env)

/-- Checks the value that a function returns. -/
def checkReturn (c : TypingContext) (f : Function) (env : Env) (pos : Pos) (e : Expr) :
    Check Expr := do
  if e.isAbsent then
    if f.result ≠ .void then c.note pos (.missingValue f.name f.result)
    return e
  else
    let (e', t) ← c.checkExpr env e
    match t with
    | none => return e'
    | some t =>
      if f.result = .void then c.note pos (.valueInVoid f.name)
      else if t ≠ f.result then c.note e.pos (.returned f.name f.result t)
      return e'

/-- Checks the body of a loop by `step`. What it declares does not outlive it, and the end of a loop
    can be reached. -/
def checkLoopBody (c : TypingContext) (kind : LoopKind) (body : Stmt)
    (step : Check (Stmt × Env)) : Check Stmt := do
  match body with
  | .empty p => c.note p (.emptyBody kind)
  | _ => pure ()
  let (body, _) ← Check.releasing step
  Check.setReturns false
  return body

/-- Looks at the statement after one that ends its block. -/
def checkReach (c : TypingContext) (r : Reach) (s : Stmt) : Check Unit :=
  match r, s with
  | .ended, .absent => Check.halt .absentAfterEnd
  | .ended, s => c.note s.pos .unreachable
  | _, _ => pure ()

/-! ## Statements -/

mutual

/-- Checks a statement of function `f`. The innermost block or `for` header around it started with
    `scope` bindings. -/
def checkStmt (c : TypingContext) (f : Function) (inLoop : Bool) (scope : Nat) (env : Env) :
    Stmt → Check (Stmt × Env)
  | .absent => do
    Check.halt .checkOfAbsent
    return (.absent, env)
  | .block p stmts => do
    let stmts ← Check.releasing (checkStmts c f inLoop env.length env .reachable stmts)
    return (.block p stmts, env)
  | .empty p => return (.empty p, env)
  | .expr p e => do
    let e ← c.checkExprStmt env p e
    return (.expr p e, env)
  | .locals p type vars => do
    if !type.isValue then c.note p (.voidVariable type)
    let (vars, env) ← c.checkLocals scope type env vars
    return (.locals p type vars, env)
  | .cond p test yes no => do
    let test ← c.checkTest env .cond test
    Check.setReturns false
    let (yes, _) ← checkStmt c f inLoop scope env yes
    let yesReturns ← Check.getReturns
    Check.setReturns false
    let (no, _) ← if no.isAbsent then pure (no, env) else checkStmt c f inLoop scope env no
    let noReturns ← Check.getReturns
    Check.setReturns (yesReturns && noReturns)
    return (.cond p test yes no, env)
  | .whileLoop p test body => do
    let test ← c.checkTest env (.loop .whileLoop) test
    let body ← c.checkLoopBody .whileLoop body (checkStmt c f true scope env body)
    return (.whileLoop p test body, env)
  | .forLoop p init test step body => Check.releasing do
    let (init, inner) ←
      if init.isAbsent then pure (init, env) else checkStmt c f inLoop env.length env init
    let test ← if test.isAbsent then pure test else c.checkTest inner (.loop .forLoop) test
    let step ← if step.isAbsent then pure step else Prod.fst <$> c.checkExpr inner step
    let body ← c.checkLoopBody .forLoop body (checkStmt c f true env.length inner body)
    return (.forLoop p init test step body, env)
  | .breakLoop p => do
    if !inLoop then c.note p .strayBreak
    Check.setReturns false
    return (.breakLoop p, env)
  | .continueLoop p => do
    if !inLoop then c.note p .strayContinue
    Check.setReturns false
    return (.continueLoop p, env)
  | .ret p e => do
    let e ← c.checkReturn f env p e
    Check.setReturns true
    return (.ret p e, env)

/-- Checks the statements of a block in order. -/
def checkStmts (c : TypingContext) (f : Function) (inLoop : Bool) (scope : Nat) :
    Env → Reach → List Stmt → Check (List Stmt)
  | _, _, [] => return []
  | env, reach, s :: stmts => do
    c.checkReach reach s
    let (s', env) ← checkStmt c f inLoop scope env s
    let stmts ← checkStmts c f inLoop scope env (reach.after s) stmts
    return s' :: stmts

end

end TypingContext

end MiniCompiler
