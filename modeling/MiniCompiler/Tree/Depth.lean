import MiniCompiler.Fault
import MiniCompiler.Tree

/-!
# How many registers an expression needs

The depth of an expression says how many registers its value takes, and at the same time whether it
may have a side effect: assignments and calls, and everything that contains one, are `deep`.
-/

namespace MiniCompiler

namespace Expr

/-- The depth of an expression that may have a side effect. -/
def deep : Nat := 1000

/-- The depth of an operator whose operands are held at the same time. -/
def joinDepth (l r : Nat) : Nat :=
  if deep ≤ l ∨ deep ≤ r then deep else if l = r then l + 1 else max l r

/-- The depth of an operator whose operands are evaluated into one register. -/
def shareDepth (l r : Nat) : Nat :=
  if deep ≤ l ∨ deep ≤ r then deep else max l r

/-- The depth of an expression without gaps. -/
def depth : Expr → Nat
  | .absent => 0
  | .int .. | .bool .. | .var .. => 1
  | .assign .. | .call .. => deep
  | .unary _ _ e => e.depth
  | .arith _ _ l r => joinDepth l.depth r.depth
  | .comp _ _ l r => joinDepth l.depth r.depth
  | .logic _ _ l r => shareDepth l.depth r.depth

/-- Has the expression a depth: does nothing that its depth depends on lack? -/
def hasDepth : Expr → Bool
  | .absent => false
  | .int .. | .bool .. | .var .. | .assign .. | .call .. => true
  | .unary _ _ e => e.hasDepth
  | .arith _ _ l r => l.hasDepth && r.hasDepth
  | .comp _ _ l r => l.hasDepth && r.hasDepth
  | .logic _ _ l r => l.hasDepth && r.hasDepth

/-- The depth of an expression, a fault if it has none. -/
def depth? (e : Expr) : Except Fault Nat :=
  if e.hasDepth then .ok e.depth else .error .depthOfAbsent

end Expr

end MiniCompiler
