import MiniCompiler.Tree

/-!
# Programs as text

Expressions are written with all their parentheses, so that the grouping is visible, and a statement
or a function on one line.
-/

namespace MiniCompiler

mutual

/-- The text of an expression; nothing for an absent one. -/
def Expr.format : Expr → String
  | .absent => ""
  | .int _ n => toString n
  | .bool _ b => if b then "true" else "false"
  | .var v => v.name
  | .assign _ v e => "(" ++ v.name ++ " = " ++ e.format ++ ")"
  | .call _ name args _ => name ++ "(" ++ ", ".intercalate (Expr.formatArgs args) ++ ")"
  | .unary _ op e => "(" ++ op.kind.text ++ e.format ++ ")"
  | .arith _ op l r => "(" ++ l.format ++ " " ++ op.kind.text ++ " " ++ r.format ++ ")"
  | .comp _ op l r => "(" ++ l.format ++ " " ++ op.kind.text ++ " " ++ r.format ++ ")"
  | .logic _ op l r => "(" ++ l.format ++ " " ++ op.kind.text ++ " " ++ r.format ++ ")"

/-- The texts of arguments; one that is passed by reference starts with `&`. -/
def Expr.formatArgs : List (Bool × Expr) → List String
  | [] => []
  | (byRef, e) :: args => ((if byRef then "&" else "") ++ e.format) :: Expr.formatArgs args

end

/-- The text of a variable in a declaration. -/
def Local.format (v : Local) : String :=
  if v.init.isAbsent then v.name else v.name ++ " = " ++ v.init.format

mutual

def Stmt.format : Stmt → String
  | .absent => "?"
  | .block _ stmts => "\x7b " ++ " ".intercalate (Stmt.formatAll stmts) ++ " \x7d"
  | .empty _ => ";"
  | .expr _ e => e.format ++ ";"
  | .locals _ t vars => t.text ++ " " ++ ", ".intercalate (vars.map Local.format) ++ ";"
  | .cond _ test yes .absent => "if (" ++ test.format ++ ") " ++ yes.format
  | .cond _ test yes no =>
    "if (" ++ test.format ++ ") " ++ yes.format ++ " else " ++ no.format
  | .whileLoop _ test body => "while (" ++ test.format ++ ") " ++ body.format
  | .forLoop _ .absent test step body =>
    "for (; " ++ test.format ++ "; " ++ step.format ++ ") " ++ body.format
  | .forLoop _ init test step body =>
    "for (" ++ init.format ++ " " ++ test.format ++ "; " ++ step.format ++ ") " ++ body.format
  | .breakLoop _ => "break;"
  | .continueLoop _ => "continue;"
  | .ret _ .absent => "return;"
  | .ret _ e => "return " ++ e.format ++ ";"

def Stmt.formatAll : List Stmt → List String
  | [] => []
  | s :: stmts => s.format :: Stmt.formatAll stmts

end

def Param.format (p : Param) : String :=
  p.type.text ++ " " ++ (if p.byRef then "&" else "") ++ p.name

/-- The text of a function: its header and its body, or a semicolon if it has none. -/
def Function.format (f : Function) : String :=
  let header := f.result.text ++ " " ++ f.name ++ "(" ++
    ", ".intercalate (f.params.map Param.format) ++ ")"
  match f.body with
  | none => header ++ ";"
  | some b => header ++ " " ++ (Stmt.block b.pos b.stmts).format

end MiniCompiler
