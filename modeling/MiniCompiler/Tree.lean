import MiniCompiler.Scope
import MiniCompiler.Token

/-!
# Programs as trees

Expressions, statements, functions and programs. Every node has the position of the token it was
read from. The checker adds bindings, callees and the by-reference marks of arguments.

`Expr.absent` and `Stmt.absent` stand for a part that was left out. That is part of the language for
the value of a bare `return`, an initial value, the parts of a `for` header and an `else` branch;
anywhere else it is a gap in a tree that was built by hand.
-/

namespace MiniCompiler

/-! ## Operators -/

/-- The operators with one operand. `other` is a token that is no such operator. -/
inductive UnaryOp where
  | neg
  | not
  | other (kind : TokenKind)
  deriving DecidableEq, Repr

/-- The arithmetic operators. `other` is a token that is no operator at all. -/
inductive ArithOp where
  | add
  | sub
  | mul
  | div
  | rem
  | other (kind : TokenKind)
  deriving DecidableEq, Repr

/-- The comparisons. -/
inductive CompOp where
  | lt
  | le
  | gt
  | ge
  | eq
  | ne
  deriving DecidableEq, Repr

/-- The operators that evaluate their right operand only if they have to. -/
inductive LogicOp where
  | and
  | or
  deriving DecidableEq, Repr

/-- An operator with two operands. -/
inductive BinaryOp where
  | arith (op : ArithOp)
  | comp (op : CompOp)
  | logic (op : LogicOp)
  deriving DecidableEq, Repr

def UnaryOp.ofKind : TokenKind → UnaryOp
  | .minus => .neg
  | .not => .not
  | k => .other k

def UnaryOp.kind : UnaryOp → TokenKind
  | .neg => .minus
  | .not => .not
  | .other k => k

def ArithOp.kind : ArithOp → TokenKind
  | .add => .plus
  | .sub => .minus
  | .mul => .star
  | .div => .slash
  | .rem => .percent
  | .other k => k

def CompOp.kind : CompOp → TokenKind
  | .lt => .less
  | .le => .lessEqual
  | .gt => .greater
  | .ge => .greaterEqual
  | .eq => .equal
  | .ne => .notEqual

def LogicOp.kind : LogicOp → TokenKind
  | .and => .andAnd
  | .or => .orOr

/-- The operator that a token stands for between two operands. -/
def BinaryOp.ofKind : TokenKind → BinaryOp
  | .plus => .arith .add
  | .minus => .arith .sub
  | .star => .arith .mul
  | .slash => .arith .div
  | .percent => .arith .rem
  | .less => .comp .lt
  | .lessEqual => .comp .le
  | .greater => .comp .gt
  | .greaterEqual => .comp .ge
  | .equal => .comp .eq
  | .notEqual => .comp .ne
  | .andAnd => .logic .and
  | .orOr => .logic .or
  | k => .arith (.other k)

def BinaryOp.kind : BinaryOp → TokenKind
  | .arith op => op.kind
  | .comp op => op.kind
  | .logic op => op.kind

theorem UnaryOp.kind_ofKind (k : TokenKind) : (UnaryOp.ofKind k).kind = k := by
  cases k <;> rfl

theorem BinaryOp.kind_ofKind (k : TokenKind) : (BinaryOp.ofKind k).kind = k := by
  cases k <;> rfl

/-! ## Expressions -/

/-- An occurrence of a variable. The checker adds its binding. -/
structure Variable where
  pos : Pos
  name : String
  binding : Option Binding := none
  deriving DecidableEq, Repr

/-- Expressions. A call has its arguments in order, each with a mark that says whether it is passed
    by reference, and the number of the function that it calls; both are added by the checker. -/
inductive Expr where
  | absent
  | int (pos : Pos) (value : Int)
  | bool (pos : Pos) (value : Bool)
  | var (v : Variable)
  | assign (pos : Pos) (target : Variable) (value : Expr)
  | call (pos : Pos) (name : String) (args : List (Bool × Expr)) (callee : Option Nat)
  | unary (pos : Pos) (op : UnaryOp) (operand : Expr)
  | arith (pos : Pos) (op : ArithOp) (left right : Expr)
  | comp (pos : Pos) (op : CompOp) (left right : Expr)
  | logic (pos : Pos) (op : LogicOp) (left right : Expr)
  deriving Repr, Inhabited

namespace Expr

def binary (pos : Pos) : BinaryOp → Expr → Expr → Expr
  | .arith op, l, r => .arith pos op l r
  | .comp op, l, r => .comp pos op l r
  | .logic op, l, r => .logic pos op l r

def pos : Expr → Pos
  | .absent => {}
  | .int p _ | .bool p _ | .assign p _ _ | .call p _ _ _ | .unary p _ _ => p
  | .arith p _ _ _ | .comp p _ _ _ | .logic p _ _ _ => p
  | .var v => v.pos

def isAbsent : Expr → Bool
  | .absent => true
  | _ => false

def isVariable : Expr → Bool
  | .var _ => true
  | _ => false

end Expr

/-! ## Statements -/

/-- A variable that a declaration introduces. The initial value may be absent; then it is zero. -/
structure Local where
  pos : Pos
  name : String
  init : Expr
  binding : Option Binding := none
  deriving Repr

inductive Stmt where
  | absent
  | block (pos : Pos) (stmts : List Stmt)
  | empty (pos : Pos)
  | expr (pos : Pos) (e : Expr)
  | locals (pos : Pos) (type : Ty) (vars : List Local)
  | cond (pos : Pos) (test : Expr) (yes no : Stmt)
  | whileLoop (pos : Pos) (test : Expr) (body : Stmt)
  | forLoop (pos : Pos) (init : Stmt) (test step : Expr) (body : Stmt)
  | breakLoop (pos : Pos)
  | continueLoop (pos : Pos)
  | ret (pos : Pos) (value : Expr)
  deriving Repr, Inhabited

/-! ## Functions -/

/-- A parameter of a function. The checker adds its binding. -/
structure Param where
  pos : Pos
  type : Ty
  name : String
  byRef : Bool
  binding : Option Binding := none
  deriving DecidableEq, Repr

/-- The body of a function, a block. -/
structure Body where
  pos : Pos
  stmts : List Stmt
  deriving Repr

/-- A function. The checker adds the size of its frame and whether its end cannot be reached. -/
structure Function where
  pos : Pos
  name : String
  result : Ty
  params : List Param
  body : Option Body
  isPrototype : Bool
  frameBytes : Int := 0
  returns : Bool := false
  deriving Repr

/-- A program is its functions in the order of their declarations. -/
abbrev Program := List Function

/-- The number of the first function of a name. -/
def Program.lookup? (p : Program) (name : String) : Option Nat :=
  List.findIdx? (·.name == name) p

end MiniCompiler
