import MiniCompiler.Token

/-!
# Faults

A tree that was built by hand can have gaps: an operand that is absent, a variable without a
binding, an operator that is none. Checking and code generation stop at a gap with a fault. A fault
with a message is one that the compiler itself notices; the others have none.
-/

namespace MiniCompiler

/-- Why checking or code generation cannot go on. -/
inductive Fault where
  | depthOfAbsent
  | typeOfAbsent
  | checkOfAbsent
  | codeOfAbsentExpr
  | codeOfAbsentStmt
  | unknownUnary (op : TokenKind)
  | unknownArithmetic (op : TokenKind)
  | strayBreak
  | strayContinue
  /-- An absent statement follows one that ends its block. -/
  | absentAfterEnd
  /-- A function that is no prototype has no body. -/
  | noBody
  /-- A variable has no binding. -/
  | noBinding
  /-- A register number has no register. -/
  | noRegister
  deriving DecidableEq, Repr

/-- The message of a fault, if it has one. -/
def Fault.message? : Fault → Option String
  | .depthOfAbsent => some "internal: Depth of unknown expression"
  | .typeOfAbsent => some "internal: unhandled expression in type checker"
  | .checkOfAbsent => some "internal: unhandled statement in type checker"
  | .codeOfAbsentExpr => some "internal: unhandled expression in code generator"
  | .codeOfAbsentStmt => some "internal: unhandled statement in code generator"
  | .unknownUnary op => some ("internal: unknown unary operator " ++ op.text)
  | .unknownArithmetic op => some ("internal: unknown arithmetic operator " ++ op.text)
  | .strayBreak => some "internal: break outside of a loop reached code generation"
  | .strayContinue => some "internal: continue outside of a loop reached code generation"
  | .absentAfterEnd => none
  | .noBody => none
  | .noBinding => none
  | .noRegister => none

end MiniCompiler
