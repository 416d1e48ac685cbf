import MiniCompiler.Diagnostic
import MiniCompiler.Settings
import MiniCompiler.Tree

/-!
# Problems of a program

What the checker finds wrong or doubtful about a program. A problem is an error, or it belongs to a
group of warnings; `Problem.message` has the wording of all of them.
-/

namespace MiniCompiler

/-- The loops of the language, as messages name them. -/
inductive LoopKind where
  | whileLoop
  | forLoop
  deriving DecidableEq, Repr

def LoopKind.text : LoopKind → String
  | .whileLoop => "while"
  | .forLoop => "for"

/-- Where a test stands. -/
inductive TestKind where
  | cond
  | loop (kind : LoopKind)
  deriving DecidableEq, Repr

def TestKind.text : TestKind → String
  | .cond => "if statement"
  | .loop kind => kind.text ++ " loop"

/-- The two sides of an operator. -/
inductive Side where
  | left
  | right
  deriving DecidableEq, Repr

def Side.text : Side → String
  | .left => "Left"
  | .right => "Right"

/-- What can be wrong or doubtful about a program. -/
inductive Problem where
  -- functions
  | redefinition (function : String)
  | conflict (function : String)
  | voidParam (name : String)
  | duplicateParam (name : String)
  | noReturn (function : String)
  -- expressions
  | intRange (value : Int) (wordSize : Int)
  | notInScope (name : String)
  | assignment
  | unaryOperand (op : TokenKind) (want found : Ty)
  | operand (side : Side) (op : TokenKind) (want found : Ty)
  | compared (op : TokenKind) (left right : Ty)
  | undefined (function : String)
  | argumentCount (function : String) (want got : Nat)
  | argument (number : Nat) (function : String) (found want : Ty)
  | voidValue (function : String)
  -- statements
  | test (kind : TestKind)
  | strayBreak
  | strayContinue
  | voidVariable (type : Ty)
  | initializer (name : String) (want found : Ty)
  | redeclared (name : String)
  | missingValue (function : String) (want : Ty)
  | valueInVoid (function : String)
  | returned (function : String) (want found : Ty)
  -- warnings
  | unreachable
  | shadowing (name : String)
  | emptyBody (kind : LoopKind)
  | unusedResult
  | discardedUpdate (number : Nat) (function : String)
  deriving DecidableEq, Repr

namespace Problem

/-- The group of warnings that a problem belongs to; none for an error. -/
def warning? : Problem → Option Warning
  | .unreachable => some .unreachableCode
  | .shadowing _ => some .shadow
  | .emptyBody _ => some .emptyBody
  | .unusedResult => some .extra
  | .discardedUpdate _ _ => some .extra
  | _ => none

def message : Problem → String
  | .redefinition f => "Redefinition of function '" ++ f ++ "'"
  | .conflict f => "Conflicting declaration of '" ++ f ++ "'"
  | .voidParam x => "Parameter '" ++ x ++ "' cannot have type void"
  | .duplicateParam x => "Duplicate parameter name '" ++ x ++ "'"
  | .noReturn f => "Function '" ++ f ++ "' may reach the end without returning a value"
  | .intRange n w =>
    "Integer constant '" ++ toString n ++ "' is out of range for a " ++ toString w ++ "-byte int"
  | .notInScope x => "The variable " ++ x ++ " is not in scope"
  | .assignment => "Types in assignment do not match"
  | .unaryOperand op want found =>
    "Operand of unary '" ++ op.text ++ "' must be " ++ want.text ++ ", found " ++ found.text
  | .operand side op want found =>
    side.text ++ " operand of '" ++ op.text ++ "' must be " ++ want.text ++ ", found " ++ found.text
  | .compared op l r =>
    "Operands of '" ++ op.text ++ "' must have the same type, found " ++ l.text ++ " and " ++ r.text
  | .undefined f => "Call to undefined function '" ++ f ++ "'"
  | .argumentCount f want got =>
    "Function '" ++ f ++ "' expects " ++ toString want ++ " argument(s), got " ++ toString got
  | .argument i f found want =>
    "Argument " ++ toString i ++ " of '" ++ f ++ "' has type " ++ found.text ++ ", expected " ++
      want.text
  | .voidValue f => "Function '" ++ f ++ "' returns void and cannot be used as a value"
  | .test kind => "Boolean test expected in " ++ kind.text
  | .strayBreak => "break can only be used in a loop"
  | .strayContinue => "continue can only be used in a loop"
  | .voidVariable t => "Variables cannot have type " ++ t.text
  | .initializer x want found =>
    "Types in initialization of '" ++ x ++ "' do not match: expected " ++ want.text ++ ", found " ++
      found.text
  | .redeclared x => "Variable '" ++ x ++ "' is already declared in this scope"
  | .missingValue f want =>
    "Return statement missing a value in function '" ++ f ++ "' returning " ++ want.text
  | .valueInVoid f => "Void function '" ++ f ++ "' cannot return a value"
  | .returned f want found =>
    "Return type mismatch in '" ++ f ++ "': expected " ++ want.text ++ ", found " ++ found.text
  | .unreachable => "Unreachable code"
  | .shadowing x => "Declaration of '" ++ x ++ "' shadows an earlier declaration"
  | .emptyBody kind => "Empty body in " ++ kind.text ++ " loop"
  | .unusedResult => "Expression result is unused"
  | .discardedUpdate i f =>
    "Argument " ++ toString i ++ " of '" ++ f ++
      "' is passed by reference but is not a variable; updates are discarded"

end Problem

/-- A problem at a position. -/
structure Report where
  pos : Pos
  problem : Problem
  deriving DecidableEq, Repr

namespace Report

def isError (r : Report) : Bool := r.problem.warning?.isNone

def toDiagnostic (r : Report) : Diagnostic :=
  match r.problem.warning? with
  | none => ⟨.error, "", r.problem.message, r.pos⟩
  | some w => ⟨.warning, w.name, r.problem.message, r.pos⟩

end Report

/-- The report of a problem, unless it is a warning that the settings do not ask for. -/
def Settings.note (s : Settings) (pos : Pos) (p : Problem) : List Report :=
  match p.warning? with
  | none => [⟨pos, p⟩]
  | some w => if s.reports w then [⟨pos, p⟩] else []

end MiniCompiler
