import MiniCompiler.Fault
import MiniCompiler.Typing.Problem
import MiniCompiler.Word

/-!
# Types of expressions

`infer` finds the type of an expression. It returns the expression with bindings, callees and
by-reference marks added as far as it came, the problems it reported on the way, and either the type
or what ended the search: a refusal, which the statement around the expression reports, or a fault.
-/

namespace MiniCompiler

/-! ## Declared functions -/

/-- The functions that calls refer to, one for each name, with their numbers in the program. -/
abbrev Declared := List (Nat × Function)

def Declared.find? (d : Declared) (name : String) : Option (Nat × Function) :=
  List.find? (·.2.name == name) d

/-- What the type of an expression depends on, apart from the variables in scope. -/
structure TypingContext where
  settings : Settings
  declared : Declared

/-! ## Results -/

/-- Why an expression has no type. -/
inductive Halt where
  | refused (r : Report)
  | fault (f : Fault)
  deriving DecidableEq, Repr

def refuse {α : Type} (pos : Pos) (p : Problem) : Except Halt α := .error (.refused ⟨pos, p⟩)

/-- The result of looking for the type of an expression. -/
structure Inference where
  expr : Expr
  reports : List Report := []
  verdict : Except Halt Ty

/-- The result of looking at arguments. -/
structure ArgsInference where
  args : List (Bool × Expr)
  reports : List Report := []
  verdict : Except Halt Unit

/-- Refuses a type other than the one that is wanted. -/
def Inference.expecting (i : Inference) (want : Ty) (pos : Pos) (p : Ty → Problem) : Inference :=
  { i with verdict := do
      let found ← i.verdict
      if found = want then return found else refuse pos (p found) }

/-- Joins the results for two operands. If the left one has no type, the right one stays as it was
    before. -/
def Inference.pair (left right : Inference) (rightBefore : Expr) (node : Expr → Expr → Expr)
    (result : Ty → Ty → Except Halt Ty) : Inference :=
  match left.verdict with
  | .error h => ⟨node left.expr rightBefore, left.reports, .error h⟩
  | .ok l =>
    ⟨node left.expr right.expr, left.reports ++ right.reports, do result l (← right.verdict)⟩

/-! ## Leaves -/

/-- Looks a variable up. -/
def Variable.resolve (v : Variable) (env : Env) : Variable := { v with binding := env.find? v.name }

/-- The type of a variable that was looked up. -/
def Variable.verdict (v : Variable) : Except Halt Ty :=
  match v.binding with
  | some b => .ok b.type
  | none => refuse v.pos (.notInScope v.name)

namespace TypingContext

/-- The largest integer constant of a word of less than 8 bytes; a negated one may be one larger. -/
def intLimit (negated : Bool) : Int := if negated then halfBound else halfBound - 1

/-- Reports a constant that no word can hold. -/
def intReports (c : TypingContext) (pos : Pos) (value : Int) (negated : Bool) : List Report :=
  if c.settings.wordSize < 8 ∧ intLimit negated < value then
    c.settings.note pos (.intRange value c.settings.wordSize)
  else []

/-! ## Calls -/

/-- The type of a call. `inferArgs` looks at the arguments for the parameters of the function. -/
def inferCall (c : TypingContext) (allowVoid : Bool) (pos : Pos) (name : String)
    (args : List (Bool × Expr)) (callee : Option Nat) (inferArgs : Function → ArgsInference) :
    Inference :=
  match c.declared.find? name with
  | none => ⟨.call pos name args callee, [], refuse pos (.undefined name)⟩
  | some (i, f) =>
    if args.length ≠ f.params.length then
      ⟨.call pos name args (some i), [],
        refuse pos (.argumentCount name f.params.length args.length)⟩
    else
      let r := inferArgs f
      ⟨.call pos name r.args (some i), r.reports, do
        r.verdict
        if !allowVoid && !f.result.isValue then refuse pos (.voidValue name)
        else return f.result⟩

/-! ## Expressions -/

mutual

/-- Finds the type of an expression. -/
def infer (c : TypingContext) (env : Env) : Expr → Inference
  | .absent => ⟨.absent, [], .error (.fault .typeOfAbsent)⟩
  | .int p n => ⟨.int p n, c.intReports p n false, .ok .int⟩
  | .bool p b => ⟨.bool p b, [], .ok .boolean⟩
  | .var v => ⟨.var (v.resolve env), [], (v.resolve env).verdict⟩
  | .assign p v e =>
    match (v.resolve env).verdict with
    | .error h => ⟨.assign p (v.resolve env) e, [], .error h⟩
    | .ok t =>
      let r := infer c env e
      let mismatch := match r.verdict with
        | .ok u => if t = u then [] else c.settings.note p .assignment
        | .error _ => []
      ⟨.assign p (v.resolve env) r.expr, r.reports ++ mismatch, r.verdict⟩
  | .call p name args callee =>
    c.inferCall false p name args callee fun f => inferArgs c env name 1 f.params args
  | .unary p .neg (.int q n) => ⟨.unary p .neg (.int q n), c.intReports q n true, .ok .int⟩
  | .unary p op e =>
    let want := if op = .not then .boolean else .int
    let r := (infer c env e).expecting want p (.unaryOperand op.kind want)
    ⟨.unary p op r.expr, r.reports, r.verdict⟩
  | .arith p op l r =>
    .pair ((infer c env l).expecting .int p (.operand .left op.kind .int))
      ((infer c env r).expecting .int p (.operand .right op.kind .int)) r (.arith p op)
      fun _ _ => return .int
  | .comp p op l r =>
    if op = .eq ∨ op = .ne then
      .pair (infer c env l) (infer c env r) r (.comp p op) fun t u =>
        if t = u then return .boolean else refuse p (.compared op.kind t u)
    else
      .pair ((infer c env l).expecting .int p (.operand .left op.kind .int))
        ((infer c env r).expecting .int p (.operand .right op.kind .int)) r (.comp p op)
        fun _ _ => return .boolean
  | .logic p op l r =>
    .pair ((infer c env l).expecting .boolean p (.operand .left op.kind .boolean))
      ((infer c env r).expecting .boolean p (.operand .right op.kind .boolean)) r (.logic p op)
      fun _ _ => return .boolean

/-- Compares arguments with parameters, the first of which has number `i`. An argument that fits
    takes over the parameter's by-reference mark. -/
def inferArgs (c : TypingContext) (env : Env) (function : String) :
    Nat → List Param → List (Bool × Expr) → ArgsInference
  | i, p :: ps, (byRef, e) :: args =>
    let r := infer c env e
    match r.verdict with
    | .error h => ⟨(byRef, r.expr) :: args, r.reports, .error h⟩
    | .ok t =>
      if t ≠ p.type then
        ⟨(byRef, r.expr) :: args, r.reports, refuse e.pos (.argument i function t p.type)⟩
      else
        let discarded :=
          if p.byRef && !e.isVariable then c.settings.note e.pos (.discardedUpdate i function)
          else []
        let rest := inferArgs c env function (i + 1) ps args
        ⟨(p.byRef, r.expr) :: rest.args, r.reports ++ discarded ++ rest.reports, rest.verdict⟩
  | _, _, args => ⟨args, [], .ok ()⟩

end

/-- Finds the type of an expression that is a statement: a call may then be void. -/
def inferStatement (c : TypingContext) (env : Env) : Expr → Inference
  | .call p name args callee =>
    c.inferCall true p name args callee fun f => c.inferArgs env name 1 f.params args
  | e => c.infer env e

end TypingContext

end MiniCompiler
