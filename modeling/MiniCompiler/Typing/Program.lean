import MiniCompiler.Typing.Stmt

/-!
# Checking programs

First all functions are declared, then the body of each is checked. A program is accepted if no
error was reported.
-/

namespace MiniCompiler

/-! ## Declarations -/

/-- Do two declarations agree in their types and by-reference marks? -/
def Function.sameSignature (f g : Function) : Bool :=
  f.result == g.result &&
    f.params.map (fun p => (p.type, p.byRef)) == g.params.map (fun p => (p.type, p.byRef))

/-- Declares a function. A definition takes the place of a prototype. -/
def Declared.declare (s : Settings) (d : Declared) (i : Nat) (f : Function) :
    Declared × List Report :=
  match d.find? f.name with
  | none => (d ++ [(i, f)], [])
  | some (_, g) =>
    if !g.isPrototype && !f.isPrototype then (d, s.note f.pos (.redefinition f.name))
    else if !g.sameSignature f then (d, s.note f.pos (.conflict f.name))
    else if f.isPrototype then (d, [])
    else (d.map fun e => if e.2.name = f.name then (i, f) else e, [])

/-- Declares functions in order; the first of them has number `i`. -/
def Declared.declareAll (s : Settings) : Declared → Nat → List Function → Declared × List Report
  | d, _, [] => (d, [])
  | d, i, f :: fs =>
    let (d, first) := d.declare s i f
    let (d, rest) := Declared.declareAll s d (i + 1) fs
    (d, first ++ rest)

/-! ## Functions -/

/-- Binds parameters, the first of which has number `i`; `before` are the names of those before
    it. -/
def bindParams (s : Settings) : Nat → List String → Env → List Param →
    List Param × Env × List Report
  | _, _, env, [] => ([], env, [])
  | i, before, env, p :: ps =>
    let void := if p.type.isValue then [] else s.note p.pos (.voidParam p.name)
    let duplicate := if before.contains p.name then s.note p.pos (.duplicateParam p.name) else []
    let b : Binding := ⟨p.name, p.type, Frame.paramOffset s.wordSize i, p.byRef⟩
    let (ps, env, reports) := bindParams s (i + 1) (p.name :: before) (b :: env) ps
    ({ p with binding := some b } :: ps, env, void ++ duplicate ++ reports)

/-- The result of checking a function. -/
structure FunctionCheck where
  function : Function
  reports : List Report
  fault : Option Fault := none

/-- Checks a function that is no prototype. -/
def TypingContext.checkFunction (c : TypingContext) (f : Function) : FunctionCheck :=
  let (params, env, paramReports) := bindParams c.settings 0 [] [] f.params
  match f.body with
  | none => ⟨{ f with params }, paramReports, some .noBody⟩
  | some b =>
    let r := c.checkStmts f false env.length env .reachable b.stmts {}
    let f := { f with params, body := some { b with stmts := r.value } }
    match r.state.fault with
    | some fault => ⟨f, paramReports ++ r.reports, some fault⟩
    | none =>
      let open? := if !r.state.returns && f.result != .void
        then c.settings.note f.pos (.noReturn f.name) else []
      ⟨{ f with
          frameBytes := r.state.frame.bytes c.settings.wordSize
          returns := r.state.returns },
        paramReports ++ r.reports ++ open?, none⟩

/-! ## Programs -/

/-- The result of checking a program: the program with what was found out about it, the reports in
    order, and a fault, if one ended the work. -/
structure ProgramCheck where
  program : Program
  reports : List Report
  fault : Option Fault := none

/-- Checks functions in order, up to the first fault. Prototypes have nothing to check. -/
def TypingContext.checkFunctions (c : TypingContext) : List Function → ProgramCheck
  | [] => ⟨[], [], none⟩
  | f :: fs =>
    if f.isPrototype then
      let rest := c.checkFunctions fs
      ⟨f :: rest.program, rest.reports, rest.fault⟩
    else
      let first := c.checkFunction f
      match first.fault with
      | some fault => ⟨first.function :: fs, first.reports, some fault⟩
      | none =>
        let rest := c.checkFunctions fs
        ⟨first.function :: rest.program, first.reports ++ rest.reports, rest.fault⟩

/-- The context in which the bodies of a program are checked, and what its declarations report. -/
def Program.declare (s : Settings) (p : Program) : TypingContext × List Report :=
  let (declared, reports) := Declared.declareAll s [] 0 p
  (⟨s, declared⟩, reports)

def Program.check (s : Settings) (p : Program) : ProgramCheck :=
  let (c, reports) := p.declare s
  let r := c.checkFunctions p
  { r with reports := reports ++ r.reports }

/-- Was no error reported? -/
def ProgramCheck.accepted (r : ProgramCheck) : Bool := !r.reports.any Report.isError

end MiniCompiler
