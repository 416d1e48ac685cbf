import MiniCompiler.Settings
import MiniCompiler.Tree

/-!
# The static rules of the language

Which programs are well-formed, said without the checker: typing rules for expressions, rules for
statements in nested scopes, and what the functions of a program have to agree on.

A scope is opened by a function for its parameters, by a block and by the header of a `for` loop. The
branches of a conditional and the body of a loop open no scope of their own, so what they declare
must not be declared in the scope around them; but it is not in scope after them.
-/

namespace MiniCompiler

/-! ## Scopes and signatures -/

/-- The variables that a scope declares, the latest first. -/
abbrev Scope := List (String × Ty)

/-- The scopes around a part of a program, the innermost first. -/
abbrev Scopes := List Scope

namespace Scopes

/-- The type of a variable, as its innermost declaration gives it. -/
def type? (Γ : Scopes) (name : String) : Option Ty := Γ.flatten.lookup name

/-- Does the innermost scope declare `name`? -/
def Declares (Γ : Scopes) (name : String) : Prop := name ∈ (Γ.headD []).map Prod.fst

/-- Declares a variable in the innermost scope. -/
def declare (Γ : Scopes) (name : String) (type : Ty) : Scopes :=
  ((name, type) :: Γ.headD []) :: Γ.tail

/-- The scopes after a statement. Only a declaration changes them. -/
def after (Γ : Scopes) : Stmt → Scopes
  | .locals _ type vars => vars.foldl (fun Γ v => Γ.declare v.name type) Γ
  | _ => Γ

end Scopes

/-- What a function takes and returns: the type of its result, and the type and the by-reference mark
    of each parameter. -/
structure Signature where
  result : Ty
  params : List (Ty × Bool)
  deriving DecidableEq

def Function.signature (f : Function) : Signature :=
  ⟨f.result, f.params.map fun p => (p.type, p.byRef)⟩

/-- The scope of the parameters. -/
def Function.scope (f : Function) : Scope := (f.params.map fun p => (p.name, p.type)).reverse

/-! ## Expressions -/

mutual

/-- The type of an expression of program `p` where words have `wordSize` bytes. -/
inductive Expr.HasType (wordSize : Int) (p : Program) (Γ : Scopes) : Expr → Ty → Prop where
  | int {pos : Pos} {n : Int} : (wordSize = 4 → n ≤ 2147483647) →
    HasType wordSize p Γ (.int pos n) .int
  /-- The least integer has no literal of its own. -/
  | negated {pos pos' : Pos} {n : Int} : (wordSize = 4 → n ≤ 2147483648) →
    HasType wordSize p Γ (.unary pos .neg (.int pos' n)) .int
  | bool {pos : Pos} {b : Bool} : HasType wordSize p Γ (.bool pos b) .boolean
  | var {v : Variable} {type : Ty} : Γ.type? v.name = some type →
    HasType wordSize p Γ (.var v) type
  | assign {pos : Pos} {v : Variable} {e : Expr} {type : Ty} : Γ.type? v.name = some type →
    HasType wordSize p Γ e type → HasType wordSize p Γ (.assign pos v e) type
  | call {pos : Pos} {f : Function} {args : List (Bool × Expr)} {callee : Option Nat} : f ∈ p →
    f.result.isValue = true → Expr.ArgsFit wordSize p Γ f.params args →
    HasType wordSize p Γ (.call pos f.name args callee) f.result
  | neg {pos : Pos} {e : Expr} : HasType wordSize p Γ e .int →
    HasType wordSize p Γ (.unary pos .neg e) .int
  | not {pos : Pos} {e : Expr} : HasType wordSize p Γ e .boolean →
    HasType wordSize p Γ (.unary pos .not e) .boolean
  | arith {pos : Pos} {op : ArithOp} {l r : Expr} : HasType wordSize p Γ l .int →
    HasType wordSize p Γ r .int → HasType wordSize p Γ (.arith pos op l r) .int
  | order {pos : Pos} {op : CompOp} {l r : Expr} : op ≠ .eq → op ≠ .ne →
    HasType wordSize p Γ l .int → HasType wordSize p Γ r .int →
    HasType wordSize p Γ (.comp pos op l r) .boolean
  | equality {pos : Pos} {op : CompOp} {l r : Expr} {type : Ty} : op = .eq ∨ op = .ne →
    HasType wordSize p Γ l type → HasType wordSize p Γ r type →
    HasType wordSize p Γ (.comp pos op l r) .boolean
  | logic {pos : Pos} {op : LogicOp} {l r : Expr} : HasType wordSize p Γ l .boolean →
    HasType wordSize p Γ r .boolean → HasType wordSize p Γ (.logic pos op l r) .boolean

/-- There is one argument for each parameter, of its type. -/
inductive Expr.ArgsFit (wordSize : Int) (p : Program) (Γ : Scopes) :
    List Param → List (Bool × Expr) → Prop where
  | nil : ArgsFit wordSize p Γ [] []
  | cons {q : Param} {ps : List Param} {mark : Bool} {e : Expr} {args : List (Bool × Expr)} :
    Expr.HasType wordSize p Γ e q.type → ArgsFit wordSize p Γ ps args →
    ArgsFit wordSize p Γ (q :: ps) ((mark, e) :: args)

end

/-- An expression that is a statement: it has a type, or it is a call that returns nothing. -/
inductive Expr.Performs (wordSize : Int) (p : Program) (Γ : Scopes) : Expr → Prop where
  | value {e : Expr} {type : Ty} : e.HasType wordSize p Γ type → Performs wordSize p Γ e
  | call {pos : Pos} {f : Function} {args : List (Bool × Expr)} {callee : Option Nat} : f ∈ p →
    Expr.ArgsFit wordSize p Γ f.params args → Performs wordSize p Γ (.call pos f.name args callee)

/-! ## Statements -/

/-- The variables of a declaration. Each is in scope after its own initial value. -/
inductive Local.WellFormedAll (wordSize : Int) (p : Program) (type : Ty) :
    Scopes → List Local → Prop where
  | nil {Γ : Scopes} : WellFormedAll wordSize p type Γ []
  | cons {Γ : Scopes} {v : Local} {vars : List Local} :
    (v.init ≠ .absent → v.init.HasType wordSize p Γ type) → ¬ Γ.Declares v.name →
    WellFormedAll wordSize p type (Γ.declare v.name type) vars →
    WellFormedAll wordSize p type Γ (v :: vars)

mutual

/-- A statement of a function that returns `result`, inside a loop or not. -/
inductive Stmt.WellFormed (wordSize : Int) (p : Program) (result : Ty) :
    Bool → Scopes → Stmt → Prop where
  | block {inLoop : Bool} {Γ : Scopes} {pos : Pos} {stmts : List Stmt} :
    Stmt.WellFormedAll wordSize p result inLoop ([] :: Γ) stmts →
    WellFormed wordSize p result inLoop Γ (.block pos stmts)
  | empty {inLoop : Bool} {Γ : Scopes} {pos : Pos} :
    WellFormed wordSize p result inLoop Γ (.empty pos)
  | expr {inLoop : Bool} {Γ : Scopes} {pos : Pos} {e : Expr} : e.Performs wordSize p Γ →
    WellFormed wordSize p result inLoop Γ (.expr pos e)
  | locals {inLoop : Bool} {Γ : Scopes} {pos : Pos} {type : Ty} {vars : List Local} :
    type.isValue = true → Local.WellFormedAll wordSize p type Γ vars →
    WellFormed wordSize p result inLoop Γ (.locals pos type vars)
  | cond {inLoop : Bool} {Γ : Scopes} {pos : Pos} {test : Expr} {yes no : Stmt} :
    test.HasType wordSize p Γ .boolean → WellFormed wordSize p result inLoop Γ yes →
    (no ≠ .absent → WellFormed wordSize p result inLoop Γ no) →
    WellFormed wordSize p result inLoop Γ (.cond pos test yes no)
  | whileLoop {inLoop : Bool} {Γ : Scopes} {pos : Pos} {test : Expr} {body : Stmt} :
    test.HasType wordSize p Γ .boolean → WellFormed wordSize p result true Γ body →
    WellFormed wordSize p result inLoop Γ (.whileLoop pos test body)
  | forLoop {inLoop : Bool} {Γ : Scopes} {pos : Pos} {init : Stmt} {test step : Expr}
      {body : Stmt} :
    (init ≠ .absent → WellFormed wordSize p result inLoop ([] :: Γ) init) →
    (test ≠ .absent → test.HasType wordSize p (Scopes.after ([] :: Γ) init) .boolean) →
    (step ≠ .absent → ∃ type, step.HasType wordSize p (Scopes.after ([] :: Γ) init) type) →
    WellFormed wordSize p result true (Scopes.after ([] :: Γ) init) body →
    WellFormed wordSize p result inLoop Γ (.forLoop pos init test step body)
  | breakLoop {Γ : Scopes} {pos : Pos} : WellFormed wordSize p result true Γ (.breakLoop pos)
  | continueLoop {Γ : Scopes} {pos : Pos} :
    WellFormed wordSize p result true Γ (.continueLoop pos)
  | leave {inLoop : Bool} {Γ : Scopes} {pos : Pos} : result = .void →
    WellFormed wordSize p result inLoop Γ (.ret pos .absent)
  | ret {inLoop : Bool} {Γ : Scopes} {pos : Pos} {e : Expr} : result ≠ .void →
    e.HasType wordSize p Γ result → WellFormed wordSize p result inLoop Γ (.ret pos e)

inductive Stmt.WellFormedAll (wordSize : Int) (p : Program) (result : Ty) :
    Bool → Scopes → List Stmt → Prop where
  | nil {inLoop : Bool} {Γ : Scopes} : WellFormedAll wordSize p result inLoop Γ []
  | cons {inLoop : Bool} {Γ : Scopes} {s : Stmt} {stmts : List Stmt} :
    Stmt.WellFormed wordSize p result inLoop Γ s →
    WellFormedAll wordSize p result inLoop (Γ.after s) stmts →
    WellFormedAll wordSize p result inLoop Γ (s :: stmts)

end

section Inversion

variable {wordSize : Int} {p : Program} {result type : Ty} {inLoop : Bool} {Γ : Scopes} {pos : Pos}

theorem Local.wellFormedAll_cons {v : Local} {vars : List Local} :
    Local.WellFormedAll wordSize p type Γ (v :: vars) ↔
      (v.init ≠ .absent → v.init.HasType wordSize p Γ type) ∧ ¬ Γ.Declares v.name ∧
        Local.WellFormedAll wordSize p type (Γ.declare v.name type) vars :=
  ⟨fun | .cons hinit hname hvars => ⟨hinit, hname, hvars⟩,
    fun ⟨hinit, hname, hvars⟩ => .cons hinit hname hvars⟩

namespace Stmt

theorem wellFormed_block {stmts : List Stmt} :
    WellFormed wordSize p result inLoop Γ (.block pos stmts) ↔
      WellFormedAll wordSize p result inLoop ([] :: Γ) stmts :=
  ⟨fun | .block h => h, .block⟩

theorem wellFormed_expr {e : Expr} :
    WellFormed wordSize p result inLoop Γ (.expr pos e) ↔ e.Performs wordSize p Γ :=
  ⟨fun | .expr h => h, .expr⟩

theorem wellFormed_locals {vars : List Local} :
    WellFormed wordSize p result inLoop Γ (.locals pos type vars) ↔
      type.isValue = true ∧ Local.WellFormedAll wordSize p type Γ vars :=
  ⟨fun | .locals htype hvars => ⟨htype, hvars⟩, fun ⟨htype, hvars⟩ => .locals htype hvars⟩

theorem wellFormed_cond {test : Expr} {yes no : Stmt} :
    WellFormed wordSize p result inLoop Γ (.cond pos test yes no) ↔
      test.HasType wordSize p Γ .boolean ∧ WellFormed wordSize p result inLoop Γ yes ∧
        (no ≠ .absent → WellFormed wordSize p result inLoop Γ no) :=
  ⟨fun | .cond htest hyes hno => ⟨htest, hyes, hno⟩, fun ⟨htest, hyes, hno⟩ => .cond htest hyes hno⟩

theorem wellFormed_whileLoop {test : Expr} {body : Stmt} :
    WellFormed wordSize p result inLoop Γ (.whileLoop pos test body) ↔
      test.HasType wordSize p Γ .boolean ∧ WellFormed wordSize p result true Γ body :=
  ⟨fun | .whileLoop htest hbody => ⟨htest, hbody⟩, fun ⟨htest, hbody⟩ => .whileLoop htest hbody⟩

theorem wellFormed_forLoop {init : Stmt} {test step : Expr} {body : Stmt} :
    WellFormed wordSize p result inLoop Γ (.forLoop pos init test step body) ↔
      (init ≠ .absent → WellFormed wordSize p result inLoop ([] :: Γ) init) ∧
      (test ≠ .absent → test.HasType wordSize p (Scopes.after ([] :: Γ) init) .boolean) ∧
      (step ≠ .absent → ∃ type, step.HasType wordSize p (Scopes.after ([] :: Γ) init) type) ∧
      WellFormed wordSize p result true (Scopes.after ([] :: Γ) init) body :=
  ⟨fun | .forLoop hinit htest hstep hbody => ⟨hinit, htest, hstep, hbody⟩,
    fun ⟨hinit, htest, hstep, hbody⟩ => .forLoop hinit htest hstep hbody⟩

theorem wellFormed_breakLoop :
    WellFormed wordSize p result inLoop Γ (.breakLoop pos) ↔ inLoop = true := by
  constructor
  · rintro ⟨⟩
    rfl
  · rintro rfl
    exact .breakLoop

theorem wellFormed_continueLoop :
    WellFormed wordSize p result inLoop Γ (.continueLoop pos) ↔ inLoop = true := by
  constructor
  · rintro ⟨⟩
    rfl
  · rintro rfl
    exact .continueLoop

theorem wellFormed_ret {e : Expr} :
    WellFormed wordSize p result inLoop Γ (.ret pos e) ↔ (e = .absent → result = .void) ∧
      (e ≠ .absent → result ≠ .void ∧ e.HasType wordSize p Γ result) := by
  constructor
  · intro h
    cases h with
    | leave hvoid => exact ⟨fun _ => hvoid, fun hne => absurd rfl hne⟩
    | ret hvoid he =>
      refine ⟨?_, fun _ => ⟨hvoid, he⟩⟩
      rintro rfl
      cases he
  · rintro ⟨habsent, hpresent⟩
    by_cases he : e = .absent
    · exact he ▸ .leave (habsent he)
    · exact .ret (hpresent he).1 (hpresent he).2

theorem wellFormedAll_cons {s : Stmt} {stmts : List Stmt} :
    WellFormedAll wordSize p result inLoop Γ (s :: stmts) ↔
      WellFormed wordSize p result inLoop Γ s ∧
        WellFormedAll wordSize p result inLoop (Γ.after s) stmts :=
  ⟨fun | .cons hs hstmts => ⟨hs, hstmts⟩, fun ⟨hs, hstmts⟩ => .cons hs hstmts⟩

end Stmt

end Inversion

mutual

/-- Is the end of a statement out of reach because a value was returned? `before` says so of its
    start. A loop may be left by its test, and nothing is known after a jump out of one. -/
def Stmt.returnsAfter (before : Bool) : Stmt → Bool
  | .block _ stmts => Stmt.returnsAfterAll before stmts
  | .cond _ _ yes no => yes.returnsAfter false && no.returnsAfter false
  | .whileLoop .. | .forLoop .. | .breakLoop _ | .continueLoop _ => false
  | .ret .. => true
  | .absent | .empty _ | .expr .. | .locals .. => before

/-- The same for statements one after the other. -/
def Stmt.returnsAfterAll (before : Bool) : List Stmt → Bool
  | [] => before
  | s :: stmts => Stmt.returnsAfterAll (s.returnsAfter before) stmts

end

/-! ## Functions and programs -/

/-- A function of program `p` with body `b`. -/
structure Function.WellFormed (wordSize : Int) (p : Program) (f : Function) (b : Body) : Prop where
  values : ∀ q ∈ f.params, q.type.isValue = true
  distinct : (f.params.map Param.name).Nodup
  body : Stmt.WellFormedAll wordSize p f.result false [[], f.scope] b.stmts
  returns : f.result ≠ .void → Stmt.returnsAfterAll false b.stmts = true

/-- Functions of one name have one signature and at most one body, and every body obeys the rules. -/
structure Program.WellFormed (wordSize : Int) (p : Program) : Prop where
  agree : p.Pairwise fun f g => f.name = g.name →
    f.signature = g.signature ∧ (f.body = none ∨ g.body = none)
  functions : ∀ f ∈ p, ∀ b, f.body = some b → f.WellFormed wordSize p b

end MiniCompiler
