import MiniCompiler.Settings
import MiniCompiler.Tree
import MiniCompiler.Word

/-!
# Reading a program from tokens

A recursive descent over a stream of tokens. Reading stops at the first token that does not fit; an
illegal token is refused as soon as it becomes current.

The last token of a stream is never passed: it stays current. If it is the end of the file, no rule
wants to pass it. In any other list a rule may accept it again and again, so the recursion carries
fuel, and running out of it is an outcome of its own.
-/

namespace MiniCompiler

/-! ## Errors -/

/-- Why a list of tokens is no program. -/
inductive SyntaxError where
  /-- The text cannot be scanned, for the reason that the illegal token carries. -/
  | lexical (reason : String)
  | expected (what : String)
  | missing (kind : TokenKind) (after : String)
  | expectedBody (function : String)
  | unclosedBlock
  | elseWithoutIf
  | notAssignable
  | outOfRange (spelling : String)
  | disabled (kind : TokenKind) (feature : Feature)
  deriving DecidableEq, Repr

def SyntaxError.message : SyntaxError → String
  | .lexical reason => reason
  | .expected what => "Expected " ++ what ++ "."
  | .missing kind after => "Expected '" ++ kind.text ++ "' after " ++ after ++ "."
  | .expectedBody function =>
    "Expected '\x7b' to begin the body of '" ++ function ++ "', or ';' for a prototype."
  | .unclosedBlock => "Unclosed block: expected '\x7d' before end of file."
  | .elseWithoutIf => "'else' without a matching 'if'."
  | .notAssignable => "Left side of assignment must be a variable."
  | .outOfRange spelling => "Integer constant '" ++ spelling ++ "' is out of range."
  | .disabled kind feature =>
    "'" ++ kind.text ++ "' is not allowed: feature '" ++ feature.name ++ "' is disabled (-F" ++
      feature.name ++ ")"

/-- Why reading stopped: a token was refused, or the fuel ran out. -/
inductive ParseStop where
  | refused (pos : Pos) (e : SyntaxError)
  | endless
  deriving DecidableEq, Repr

/-! ## Streams -/

/-- The current token and those after it. -/
structure TokenStream where
  current : Token
  rest : List Token
  deriving DecidableEq, Repr

/-- A step of reading. -/
abbrev Parser := StateT TokenStream (Except ParseStop)

namespace Parser

def refuse {α : Type} (pos : Pos) (e : SyntaxError) : Parser α := throw (.refused pos e)

def current : Parser Token := do return (← get).current

/-- The kind of the token after the current one; the last token stands for all that follow it. -/
def nextKind : Parser TokenKind := do
  let s ← get
  return ((s.rest.head?).getD s.current).kind

/-- Makes the next token current, unless the current one is the last. -/
def advance : Parser Unit := do
  match (← get).rest with
  | [] => return ()
  | t :: rest =>
    if t.kind = .illegal then refuse t.pos (.lexical t.value)
    else set (⟨t, rest⟩ : TokenStream)

/-- Is the current token of this kind? -/
def sees (k : TokenKind) : Parser Bool := do return (← current).kind == k

/-- Passes the current token if it is of this kind, and says whether it was. -/
def accept (k : TokenKind) : Parser Bool := do
  if ← sees k then
    advance
    return true
  else
    return false

/-- Passes a token of this kind and returns it. -/
def expect (k : TokenKind) (e : SyntaxError) : Parser Token := do
  let t ← current
  if t.kind = k then
    advance
    return t
  else
    refuse t.pos e

end Parser

/-! ## Numbers -/

/-- The number that decimal digits denote, from the number denoted by those before them. -/
def decimalFrom : Nat → List Char → Option Nat
  | n, [] => some n
  | n, c :: cs =>
    if '0' ≤ c ∧ c ≤ '9' then decimalFrom (10 * n + (c.toNat - '0'.toNat)) cs else none

/-- The number that a non-empty list of decimal digits denotes. -/
def decimal? : List Char → Option Nat
  | [] => none
  | cs => decimalFrom 0 cs

/-- The signed 64-bit number that an optional sign and decimal digits denote. -/
def int64? : List Char → Option Int
  | '-' :: cs => (decimal? cs).bind fun n => if n ≤ wordBound then some (-(n : Int)) else none
  | '+' :: cs => (decimal? cs).bind fun n => if n < wordBound then some (n : Int) else none
  | cs => (decimal? cs).bind fun n => if n < wordBound then some (n : Int) else none

/-! ## Expressions -/

/-- How tightly an operator with two operands binds. -/
def BinaryOp.level? : TokenKind → Option Nat
  | .star | .slash | .percent => some 13
  | .plus | .minus => some 12
  | .less | .greater | .lessEqual | .greaterEqual => some 10
  | .equal | .notEqual => some 9
  | .andAnd => some 4
  | .orOr => some 3
  | _ => none

namespace Parser

mutual

/-- An expression: an assignment, or operators. -/
def expr : Nat → Parser Expr
  | 0 => throw .endless
  | fuel + 1 => do
    let t ← current
    if t.kind = .identifier ∧ (← nextKind) = .assign then
      advance
      let sign ← current
      advance
      let value ← expr fuel
      return .assign sign.pos ⟨t.pos, t.value, none⟩ value
    else
      let e ← operators fuel 0
      let t ← current
      if t.kind = .assign then refuse t.pos .notAssignable
      else return e

/-- Operators that bind at least as tightly as `level`. -/
def operators : Nat → Nat → Parser Expr
  | 0, _ => throw .endless
  | fuel + 1, level => do
    let left ← unary fuel
    operatorsAfter fuel level left

/-- The operators that follow a left operand. -/
def operatorsAfter : Nat → Nat → Expr → Parser Expr
  | 0, _, _ => throw .endless
  | fuel + 1, level, left => do
    let t ← current
    match BinaryOp.level? t.kind with
    | none => return left
    | some l =>
      if l < level then return left
      else
        advance
        let right ← operators fuel (l + 1)
        operatorsAfter fuel level (.binary t.pos (.ofKind t.kind) left right)

/-- A primary expression after any number of signs. -/
def unary : Nat → Parser Expr
  | 0 => throw .endless
  | fuel + 1 => do
    let t ← current
    if t.kind = .minus ∨ t.kind = .not then
      advance
      let e ← unary fuel
      return .unary t.pos (.ofKind t.kind) e
    else
      primary fuel

/-- A constant, a variable, a call or an expression in parentheses. -/
def primary : Nat → Parser Expr
  | 0 => throw .endless
  | fuel + 1 => do
    let t ← current
    match t.kind with
    | .number =>
      advance
      match int64? t.value.toList with
      | some n => return .int t.pos n
      | none => refuse t.pos (.outOfRange t.value)
    | .kwTrue =>
      advance
      return .bool t.pos true
    | .kwFalse =>
      advance
      return .bool t.pos false
    | .identifier =>
      advance
      if ← accept .leftParen then
        let args ← if ← sees .rightParen then pure [] else arguments fuel
        let _ ← expect .rightParen (.missing .rightParen "function arguments")
        return .call t.pos t.value (args.map (false, ·)) none
      else
        return .var ⟨t.pos, t.value, none⟩
    | .leftParen =>
      advance
      let e ← expr fuel
      let _ ← expect .rightParen (.missing .rightParen "expression")
      return e
    | _ => refuse t.pos (.expected "an expression")

/-- One or more expressions with commas between them. -/
def arguments : Nat → Parser (List Expr)
  | 0 => throw .endless
  | fuel + 1 => do
    let e ← expr fuel
    if ← accept .comma then
      let es ← arguments fuel
      return e :: es
    else
      return [e]

end

end Parser

/-! ## Statements -/

/-- The type that a keyword names. -/
def Ty.ofKind : TokenKind → Ty
  | .kwInt => .int
  | .kwBoolean => .boolean
  | .kwVoid => .void
  | _ => .unknown

namespace Parser

/-- Refuses a token of a feature that is not allowed. -/
def require (allows : Feature → Bool) (f : Feature) (t : Token) : Parser Unit :=
  if allows f then return () else refuse t.pos (.disabled t.kind f)

/-- The variables of a declaration. -/
def localVars : Nat → Parser (List Local)
  | 0 => throw .endless
  | fuel + 1 => do
    let name ← expect .identifier (.expected "variable name in declaration")
    let init ← if ← accept .assign then expr fuel else pure .absent
    let v : Local := ⟨name.pos, name.value, init, none⟩
    if ← accept .comma then
      let vs ← localVars fuel
      return v :: vs
    else
      return [v]

/-- A declaration of variables, without its semicolon. -/
def locals (fuel : Nat) : Parser Stmt := do
  let t ← current
  advance
  let vars ← localVars fuel
  return .locals t.pos (.ofKind t.kind) vars

/-- The test of a conditional or of a loop, in parentheses. -/
def condition (fuel : Nat) (keyword : String) : Parser Expr := do
  let _ ← expect .leftParen (.missing .leftParen ("'" ++ keyword ++ "'"))
  let test ← expr fuel
  let _ ← expect .rightParen (.missing .rightParen (keyword ++ " condition"))
  return test

/-- The first part of a `for` header: a declaration, an expression or nothing. -/
def forInit (fuel : Nat) : Parser Stmt := do
  let t ← current
  if t.kind = .semicolon then return .absent
  else if t.kind.isType then locals fuel
  else
    let e ← expr fuel
    return .expr t.pos e

mutual

def stmt (allows : Feature → Bool) : Nat → Parser Stmt
  | 0 => throw .endless
  | fuel + 1 => do
    let t ← current
    match t.kind with
    | .leftBrace => block allows fuel
    | .kwInt | .kwBoolean | .kwVoid =>
      let s ← locals fuel
      let _ ← expect .semicolon (.missing .semicolon "declaration")
      return s
    | .semicolon =>
      advance
      return .empty t.pos
    | .kwIf =>
      advance
      let test ← condition fuel "if"
      let yes ← stmt allows fuel
      let no ← if ← accept .kwElse then stmt allows fuel else pure .absent
      return .cond t.pos test yes no
    | .kwWhile =>
      advance
      let test ← condition fuel "while"
      let body ← stmt allows fuel
      return .whileLoop t.pos test body
    | .kwFor =>
      require allows .forLoops t
      advance
      let _ ← expect .leftParen (.missing .leftParen "'for'")
      let init ← forInit fuel
      let _ ← expect .semicolon (.missing .semicolon "for-loop initializer")
      let test ← if ← sees .semicolon then pure .absent else expr fuel
      let _ ← expect .semicolon (.missing .semicolon "for-loop condition")
      let step ← if ← sees .rightParen then pure .absent else expr fuel
      let _ ← expect .rightParen (.missing .rightParen "for-loop step")
      let body ← stmt allows fuel
      return .forLoop t.pos init test step body
    | .kwBreak =>
      advance
      let _ ← expect .semicolon (.missing .semicolon "'break'")
      return .breakLoop t.pos
    | .kwContinue =>
      require allows .continueStatement t
      advance
      let _ ← expect .semicolon (.missing .semicolon "'continue'")
      return .continueLoop t.pos
    | .kwReturn =>
      advance
      let value ← if ← sees .semicolon then pure .absent else expr fuel
      let _ ← expect .semicolon (.missing .semicolon "return statement")
      return .ret t.pos value
    | .kwElse => refuse t.pos .elseWithoutIf
    | _ =>
      let e ← expr fuel
      let _ ← expect .semicolon (.missing .semicolon "expression")
      return .expr t.pos e

def block (allows : Feature → Bool) : Nat → Parser Stmt
  | 0 => throw .endless
  | fuel + 1 => do
    let brace ← current
    advance
    let stmts ← blockStmts allows fuel brace.pos
    return .block brace.pos stmts

/-- The statements of a block that was opened at `opening`, and its closing brace. -/
def blockStmts (allows : Feature → Bool) : Nat → Pos → Parser (List Stmt)
  | 0, _ => throw .endless
  | fuel + 1, opening => do
    let t ← current
    match t.kind with
    | .rightBrace =>
      advance
      return []
    | .endOfFile => refuse opening .unclosedBlock
    | _ =>
      let s ← stmt allows fuel
      let ss ← blockStmts allows fuel opening
      return s :: ss

end

/-! ## Functions -/

def param (allows : Feature → Bool) : Parser Param := do
  let t ← current
  if t.kind.isType then
    advance
    let mark ← current
    let byRef ← if mark.kind = .ampersand then
        require allows .byReference mark
        advance
        pure true
      else pure false
    let name ← expect .identifier (.expected "parameter name")
    return ⟨name.pos, .ofKind t.kind, name.value, byRef, none⟩
  else
    refuse t.pos (.expected "parameter type")

/-- One or more parameters with commas between them. -/
def params (allows : Feature → Bool) : Nat → Parser (List Param)
  | 0 => throw .endless
  | fuel + 1 => do
    let p ← param allows
    if ← accept .comma then
      let ps ← params allows fuel
      return p :: ps
    else
      return [p]

/-- A function: its header, and its body or a semicolon. -/
def function (allows : Feature → Bool) (fuel : Nat) : Parser Function := do
  let t ← current
  if t.kind.isType then
    advance
    let name ← expect .identifier (.expected "function name")
    let _ ← expect .leftParen (.missing .leftParen "function name")
    let ps ← if ← sees .rightParen then pure [] else params allows fuel
    let _ ← expect .rightParen (.missing .rightParen "parameter list")
    if ← accept .semicolon then
      return {
        pos := name.pos, name := name.value, result := .ofKind t.kind, params := ps, body := none,
        isPrototype := true }
    else
      let brace ← current
      if brace.kind = .leftBrace then
        advance
        let stmts ← blockStmts allows fuel brace.pos
        return {
          pos := name.pos, name := name.value, result := .ofKind t.kind, params := ps,
          body := some ⟨brace.pos, stmts⟩, isPrototype := false }
      else
        refuse brace.pos (.expectedBody name.value)
  else
    refuse t.pos (.expected "a return type at the start of a function declaration")

/-- The functions up to the end of the file. -/
def functions (allows : Feature → Bool) : Nat → Parser Program
  | 0 => throw .endless
  | fuel + 1 => do
    if ← sees .endOfFile then return []
    else
      let f ← function allows fuel
      let fs ← functions allows fuel
      return f :: fs

end Parser

/-- More fuel than reading `n` tokens up to an end of file can use. -/
def parseFuel (n : Nat) : Nat := 10 * n + 20

/-- The program that a list of tokens spells. `allows` says which features may be used. -/
def Program.parse (allows : Feature → Bool) : List Token → Except ParseStop Program
  | [] => .ok []
  | t :: rest =>
    if t.kind = .illegal then .error (.refused t.pos (.lexical t.value))
    else (Parser.functions allows (parseFuel (rest.length + 1))).run' ⟨t, rest⟩

/-- A stage that gives something with a property does not end in an error. -/
theorem exists_of_any {ε α : Type} {x : Except ε α} {b : α → Bool}
    (h : x.toOption.any b = true) : ∃ a, x = .ok a ∧ b a = true := by
  cases x with
  | error => cases h
  | ok a => exact ⟨a, rfl, h⟩

end MiniCompiler
