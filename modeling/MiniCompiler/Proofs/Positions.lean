import MiniCompiler.Compilation
import MiniCompiler.Proofs.CheckRetelling
import MiniCompiler.Proofs.CodeRetelling

/-!
# What does not depend on positions

A position says where a token stood and is used for reports only. `bare` takes the positions out of a
tree, which is one way to retell a check: it finds the same problems in the bare tree, and the code of
that is the same.
-/

namespace MiniCompiler

/-! ## Without positions -/

def Variable.bare (v : Variable) : Variable := { v with pos := {} }

mutual

/-- An expression without its positions. -/
def Expr.bare : Expr → Expr
  | .absent => .absent
  | .int _ n => .int {} n
  | .bool _ b => .bool {} b
  | .var v => .var v.bare
  | .assign _ v e => .assign {} v.bare e.bare
  | .call _ name args callee => .call {} name (Expr.bareAll args) callee
  | .unary _ op e => .unary {} op e.bare
  | .arith _ op l r => .arith {} op l.bare r.bare
  | .comp _ op l r => .comp {} op l.bare r.bare
  | .logic _ op l r => .logic {} op l.bare r.bare

def Expr.bareAll : List (Bool × Expr) → List (Bool × Expr)
  | [] => []
  | (byRef, e) :: args => (byRef, e.bare) :: Expr.bareAll args

end

def Local.bare (v : Local) : Local := { v with pos := {}, init := v.init.bare }

mutual

def Stmt.bare : Stmt → Stmt
  | .absent => .absent
  | .block _ stmts => .block {} (Stmt.bareAll stmts)
  | .empty _ => .empty {}
  | .expr _ e => .expr {} e.bare
  | .locals _ type vars => .locals {} type (vars.map Local.bare)
  | .cond _ test yes no => .cond {} test.bare yes.bare no.bare
  | .whileLoop _ test body => .whileLoop {} test.bare body.bare
  | .forLoop _ init test step body => .forLoop {} init.bare test.bare step.bare body.bare
  | .breakLoop _ => .breakLoop {}
  | .continueLoop _ => .continueLoop {}
  | .ret _ e => .ret {} e.bare

def Stmt.bareAll : List Stmt → List Stmt
  | [] => []
  | s :: stmts => s.bare :: Stmt.bareAll stmts

end

def Param.bare (p : Param) : Param := { p with pos := {} }

def Body.bare (b : Body) : Body := ⟨{}, Stmt.bareAll b.stmts⟩

def Function.bare (f : Function) : Function :=
  { f with pos := {}, params := f.params.map Param.bare, body := f.body.map Body.bare }

def Program.bare (p : Program) : Program := p.map Function.bare

def Report.bare (r : Report) : Report := { r with pos := {} }

def Diagnostic.bare (d : Diagnostic) : Diagnostic := { d with pos := {} }

theorem Expr.bareAll_eq_map (args : List (Bool × Expr)) :
    Expr.bareAll args = args.map fun a => (a.1, a.2.bare) := by
  induction args with
  | nil => rfl
  | cons a args ih =>
    rw [Expr.bareAll, ih]
    rfl

theorem Stmt.bareAll_eq_map (stmts : List Stmt) : Stmt.bareAll stmts = stmts.map Stmt.bare := by
  induction stmts with
  | nil => rfl
  | cons s stmts ih =>
    rw [Stmt.bareAll, ih]
    rfl

theorem Expr.bare_binary (p : Pos) (op : BinaryOp) (l r : Expr) :
    (Expr.binary p op l r).bare = Expr.binary {} op l.bare r.bare := by
  cases op <;> rw [Expr.binary, Expr.bare] <;> rfl

theorem Expr.bare_eq_absent {e : Expr} : e.bare = .absent ↔ e = .absent := by
  cases e <;> simp [Expr.bare]

theorem Stmt.bare_eq_absent {s : Stmt} : s.bare = .absent ↔ s = .absent := by
  cases s <;> simp [Stmt.bare]

theorem Report.toDiagnostic_bare (r : Report) : r.bare.toDiagnostic = r.toDiagnostic.bare := by
  unfold Report.toDiagnostic
  cases h : r.problem.warning? <;> simp [Report.bare, Diagnostic.bare, h]

/-! ## Checks and code -/

/-- A check that is retold without its positions. -/
def Retelling.erasing : Retelling :=
  { Retelling.same with
    pos := fun _ => {}
    pos_default := rfl }

mutual

theorem Expr.bare_eq_retell (e : Expr) : e.bare = e.retell .erasing := by
  cases e with
  | absent | int | bool | var => rfl
  | assign p v e =>
    rw [Expr.bare, Expr.retell, e.bare_eq_retell]
    rfl
  | call p name args callee =>
    rw [Expr.bare, Expr.retell, Expr.bareAll_eq_retellAll args]
    rfl
  | unary p op e =>
    rw [Expr.bare, Expr.retell, e.bare_eq_retell]
    rfl
  | arith p op l r | comp p op l r | logic p op l r =>
    rw [Expr.bare, Expr.retell, l.bare_eq_retell, r.bare_eq_retell]
    rfl

theorem Expr.bareAll_eq_retellAll (args : List (Bool × Expr)) :
    Expr.bareAll args = Expr.retellAll .erasing args := by
  cases args with
  | nil => rfl
  | cons a args =>
    rw [Expr.bareAll, Expr.retellAll, a.2.bare_eq_retell, Expr.bareAll_eq_retellAll args]

end

theorem Local.bare_eq_retell : Local.bare = Local.retell .erasing := by
  funext v
  rw [Local.bare, Local.retell, v.init.bare_eq_retell]
  rfl

mutual

theorem Stmt.bare_eq_retell (s : Stmt) : s.bare = s.retell .erasing := by
  cases s with
  | absent | empty | breakLoop | continueLoop => rfl
  | block p stmts =>
    rw [Stmt.bare, Stmt.retell, Stmt.bareAll_eq_retellAll stmts]
    rfl
  | expr p e | ret p e =>
    rw [Stmt.bare, Stmt.retell, e.bare_eq_retell]
    rfl
  | locals p type vars =>
    rw [Stmt.bare, Stmt.retell, Local.bare_eq_retell]
    rfl
  | cond p test yes no =>
    rw [Stmt.bare, Stmt.retell, test.bare_eq_retell, yes.bare_eq_retell, no.bare_eq_retell]
    rfl
  | whileLoop p test body =>
    rw [Stmt.bare, Stmt.retell, test.bare_eq_retell, body.bare_eq_retell]
    rfl
  | forLoop p init test step body =>
    rw [Stmt.bare, Stmt.retell, init.bare_eq_retell, test.bare_eq_retell, step.bare_eq_retell,
      body.bare_eq_retell]
    rfl

theorem Stmt.bareAll_eq_retellAll (stmts : List Stmt) :
    Stmt.bareAll stmts = Stmt.retellAll .erasing stmts := by
  cases stmts with
  | nil => rfl
  | cons s stmts =>
    rw [Stmt.bareAll, Stmt.retellAll, s.bare_eq_retell, Stmt.bareAll_eq_retellAll stmts]

end

theorem Function.bare_eq_retell : Function.bare = Function.retell .erasing := by
  funext f
  have hbody : Body.bare = Body.retell .erasing := by
    funext b
    rw [Body.bare, Body.retell, Stmt.bareAll_eq_retellAll]
    rfl
  rw [Function.bare, Function.retell, hbody]
  rfl

theorem Retelling.reports_erasing (rs : List Report) :
    Retelling.erasing.reports rs = rs.map Report.bare := by
  have hall : rs.filter (fun r => Retelling.erasing.keeps r.problem) = rs :=
    List.filter_eq_self.2 fun _ _ => rfl
  rw [Retelling.reports, hall]
  rfl

def ProgramCheck.bare (r : ProgramCheck) : ProgramCheck :=
  ⟨r.program.bare, r.reports.map Report.bare, r.fault⟩

/-- Checking a program does not depend on positions. -/
theorem Program.check_bare (s : Settings) (p : Program) : p.bare.check s = (p.check s).bare := by
  have hs : s.Retold .erasing s := ⟨rfl, fun _ => (Bool.and_true _).symm⟩
  have hcheck := Program.check_retell (fun _ _ => rfl) hs p
  rw [ProgramCheck.retell, Retelling.reports_erasing, ← Function.bare_eq_retell] at hcheck
  exact hcheck

/-- The assembly of a program does not depend on positions. -/
theorem Program.assembly_bare (s : Settings) (p : Program) : p.bare.assembly s = p.assembly s := by
  have hassembly := Program.assembly_retell .erasing s s.switches.warning p
  rw [← Function.bare_eq_retell] at hassembly
  exact hassembly

theorem ProgramCheck.accepted_bare (r : ProgramCheck) : r.bare.accepted = r.accepted := by
  have herror : Report.isError ∘ Report.bare = Report.isError := rfl
  simp only [ProgramCheck.accepted, ProgramCheck.bare, List.any_map, herror]

/-! ## Compilation -/

def ParseStop.bare : ParseStop → ParseStop
  | .refused _ e => .refused {} e
  | .endless => .endless

/-- How far a program came, without positions. -/
def Compilation.bare : Compilation → Compilation
  | .unreadable stop => .unreadable stop.bare
  | .unchecked p f => .unchecked p.bare f
  | .rejected p reports => .rejected p.bare (reports.map Report.bare)
  | .lowered p reports assembly => .lowered p.bare (reports.map Report.bare) assembly

theorem Compilation.diagnostics_bare (r : Compilation) :
    r.bare.diagnostics = r.diagnostics.map Diagnostic.bare := by
  have hreports (reports : List Report) : (reports.map Report.bare).map Report.toDiagnostic =
      (reports.map Report.toDiagnostic).map Diagnostic.bare := by
    simp [Report.toDiagnostic_bare]
  cases r with
  | unreadable stop => cases stop <;> rfl
  | unchecked => rfl
  | rejected p reports => exact hreports reports
  | lowered p reports assembly => exact hreports reports

/-- The assembly of a program that came so far. -/
def Compilation.assembly? : Compilation → Option (Except Fault (List Line))
  | .lowered _ _ assembly => some assembly
  | _ => none

theorem Compilation.assembly?_bare (r : Compilation) : r.bare.assembly? = r.assembly? := by
  cases r <;> rfl

/-- Programs that differ in positions only are compiled alike. -/
theorem Compilation.run_bare {s : Settings} {allows : Feature → Bool} {tokens tokens' : List Token}
    {p p' : Program} (hp : Program.parse allows tokens = .ok p)
    (hp' : Program.parse allows tokens' = .ok p') (h : p'.bare = p.bare) :
    (Compilation.run s allows tokens').bare = (Compilation.run s allows tokens).bare := by
  have hcheck : (p'.check s).bare = (p.check s).bare := by
    rw [← Program.check_bare, ← Program.check_bare, h]
  have hfault : (p'.check s).bare.fault = (p.check s).bare.fault := by rw [hcheck]
  have hreports : (p'.check s).bare.reports = (p.check s).bare.reports := by rw [hcheck]
  have haccepted : (p'.check s).accepted = (p.check s).accepted := by
    rw [← ProgramCheck.accepted_bare, hcheck, ProgramCheck.accepted_bare]
  have hassembly : (p'.check s).program.assembly s = (p.check s).program.assembly s := by
    rw [← Program.assembly_bare, ← Program.assembly_bare s (p.check s).program]
    exact congrArg (fun r => r.program.assembly s) hcheck
  simp only [ProgramCheck.bare] at hfault hreports
  simp only [Compilation.run, hp, hp', hfault, haccepted, hassembly]
  cases (p.check s).fault with
  | some f => simp only [Compilation.bare, h]
  | none =>
    cases (p.check s).accepted with
    | true => simp [Compilation.bare, h, hreports]
    | false => simp [Compilation.bare, h, hreports]

end MiniCompiler
