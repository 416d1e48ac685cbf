import MiniCompiler.Assembly.Emit
import MiniCompiler.Settings
import MiniCompiler.Tree.Depth

/-!
# Code of expressions

The code of an expression comes in two forms. `Code.value` leaves the value in a register and keeps
the registers of lower numbers; `Code.branch` jumps to a label if the expression, a boolean, is true
or if it is false. Both get the count of bytes on the stack, `pushed`, which decides how much a call
has to add to keep the stack aligned.
-/

namespace MiniCompiler

/-- The code of an expression: its value into the register of number `free`, and a jump to `label`
    if its value is `sense`. -/
structure Code where
  value : (pushed : Int) → (free : Nat) → Emit Unit
  branch : (label : Label) → (sense : Bool) → (pushed : Int) → (free : Nat) → Emit Unit

/-! ## Comparisons -/

/-- The jump that is taken if a comparison has the value `sense`. -/
def CompOp.cond (op : CompOp) (sense : Bool) : Cond :=
  match op, sense with
  | .lt, true => .l
  | .lt, false => .nl
  | .le, true => .le
  | .le, false => .nle
  | .gt, true => .g
  | .gt, false => .ng
  | .ge, true => .ge
  | .ge, false => .nge
  | .eq, true => .e
  | .eq, false => .ne
  | .ne, true => .ne
  | .ne, false => .e

/-- The value of `sense` that one operand of a logical operator decides on its own. -/
def LogicOp.decisive : LogicOp → Bool
  | .and => false
  | .or => true

/-! ## Variables and constants -/

namespace Target

/-- The word of a variable in the frame. -/
def slot (t : Target) (b : Binding) : Operand := .mem b.offset t.basePointer

/-- Loads a constant. One that needs more than 32 bits takes an instruction of its own. -/
def load (t : Target) (value : Int) (dst : Operand) : Instr :=
  if t.wordSize = 8 ∧ ¬(-halfBound ≤ value ∧ value < halfBound) then .loadWide value dst
  else .mov (.imm value) dst

end Target

def bindingOf (v : Variable) : Emit Binding :=
  match v.binding with
  | some b => pure b
  | none => Emit.fail .noBinding

/-- Gives `access` the word of a variable. The address of a variable that was passed by reference is
    fetched into the register after `free`. -/
def withVariable (t : Target) (b : Binding) (pushed : Int) (free : Nat)
    (access : Operand → Instr) : Emit Unit :=
  if b.byRef then
    t.withSpill (free + 1) pushed fun _ => do
      let address ← Emit.ofExcept (t.register (free + 1))
      Emit.instr (.mov (t.slot b) (.reg address))
      Emit.instr (access (.mem 0 address))
  else
    Emit.instr (access (t.slot b))

/-! ## Operators -/

/-- Evaluates two operands and gives `combine` their registers. The deeper operand comes first, into
    register `free`; if one has a side effect or both are as deep, it is the left one. -/
def operands (t : Target) (left right : Expr) (leftCode rightCode : Code) (pushed : Int) (free : Nat)
    (combine : (left right : Operand) → Emit Unit) : Emit Unit := do
  let leftDepth ← Emit.ofExcept left.depth?
  let rightDepth ← Emit.ofExcept right.depth?
  t.withSpill (free + 1) pushed fun pushed => do
    if Expr.deep ≤ leftDepth ∨ Expr.deep ≤ rightDepth ∨ rightDepth ≤ leftDepth then
      leftCode.value pushed free
      rightCode.value pushed (free + 1)
      combine (← t.reg free) (← t.reg (free + 1))
    else
      rightCode.value pushed free
      leftCode.value pushed (free + 1)
      combine (← t.reg (free + 1)) (← t.reg free)

/-- Divides `left` by `right` and leaves the quotient or the remainder in `dst`. The dividend stands
    in the first and the fourth register; they are saved unless they are the destination. -/
def divide (t : Target) (left right dst : Operand) (remainder : Bool) : Emit Unit := do
  let low ← t.reg 0
  let high ← t.reg 3
  let saved := [low, high].filter (· != dst)
  Emit.lines (saved.map fun r => .instr (.push r))
  Emit.instr (.push right)
  if left ≠ low then Emit.instr (.mov left low)
  Emit.instr (.widen t.signExtend)
  Emit.instr (.idiv (.mem 0 t.stackPointer))
  Emit.instr (.add (.imm t.wordSize) t.sp)
  let result := if remainder then high else low
  if result ≠ dst then Emit.instr (.mov result dst)
  Emit.lines (saved.reverse.map fun r => .instr (.pop r))

/-- Leaves the result of an operator, which is in the register of its left operand, in `dst`. -/
def combineInto (dst : Operand) (instr : Operand → Operand → Instr) (left right : Operand) :
    Emit Unit := do
  Emit.instr (instr right left)
  if left ≠ dst then Emit.instr (.mov left dst)

/-- Jumps on the value of an expression. -/
def branchOnValue (t : Target) (value : Int → Nat → Emit Unit) (label : Label) (sense : Bool)
    (pushed : Int) (free : Nat) : Emit Unit := do
  value pushed free
  let r ← t.reg free
  Emit.instr (.or r r)
  Emit.instr (.jumpIf (if sense then .nz else .z) label)

/-- Code that has only a value. -/
def Code.ofValue (t : Target) (value : Int → Nat → Emit Unit) : Code :=
  ⟨value, branchOnValue t value⟩

/-- Jumps on a logical operator: past the right operand if the left one decides. -/
def branchLogic (op : LogicOp) (left right : Code) (label : Label) (sense : Bool) (pushed : Int)
    (free : Nat) : Emit Unit := do
  if sense = op.decisive then
    left.branch label sense pushed free
    right.branch label sense pushed free
  else
    let skip ← Emit.newLabel
    left.branch skip (!sense) pushed free
    right.branch label sense pushed free
    Emit.label skip

/-! ## Calls -/

/-- The number of arguments that are passed by reference and are no variables. Their values are put
    into temporary words. -/
def temporaries (args : List (Bool × Expr)) : Nat :=
  args.countP fun (byRef, e) => byRef && !e.isVariable

/-- The size of the words that arguments are passed in. -/
def argBytes (wordSize : Int) (args : List (Bool × Expr)) : Int := args.length * wordSize

/-- The registers below `free` that a call may change. With no arguments, these are the ones that
    the caller has to save. -/
def savedAtCall (t : Target) (noArgs : Bool) (free : Nat) : Except Fault (List String) := do
  let numbers := (List.range free).drop (free + 1 - t.registers.length)
  let registers ← numbers.mapM fun (r : Nat) => t.register r
  return registers.filter fun r => !noArgs || t.isCallerSaved r

/-- What a call subtracts from the stack pointer, for `space` bytes of arguments and temporary
    words, so that the stack is aligned. -/
def callArea (t : Target) (pushed space : Int) : Int :=
  wrap (alignUp (wrap (pushed + space)) t.stackAlignment - pushed)

/-- A call. `args` has the arguments, and `passArgs` stores them. -/
def callCode (s : Settings) (name : String) (args : List (Bool × Expr))
    (passArgs : Int → Emit Unit) (pushed : Int) (free : Nat) : Emit Unit := do
  let t := s.target
  let dst ← t.reg free
  let saved ← Emit.ofExcept (savedAtCall t args.isEmpty free)
  Emit.lines (saved.map fun r => .instr (.push (.reg r)))
  let pushed := pushed + saved.length * t.wordSize
  let area := callArea t pushed (argBytes t.wordSize args + temporaries args * t.wordSize)
  if 0 < area then Emit.instr (.sub (.imm area) t.sp)
  passArgs (pushed + area)
  Emit.instr (.call (s.symbolStart ++ name) (pushed + area))
  if 0 < area then Emit.instr (.add (.imm area) t.sp)
  let result ← t.reg 0
  if dst ≠ result then Emit.instr (.mov result dst)
  Emit.lines (saved.reverse.map fun r => .instr (.pop (.reg r)))

/-- Stores the value of an argument. -/
def passValue (t : Target) (code : Code) (pushed offset : Int) : Emit Unit := do
  code.value pushed 0
  Emit.instr (.mov (← t.reg 0) (.mem offset t.stackPointer))

/-- Stores the address of a variable. -/
def passVariable (t : Target) (v : Variable) (offset : Int) : Emit Unit := do
  let r ← t.reg 0
  let b ← bindingOf v
  Emit.instr (if b.byRef then .mov (t.slot b) r else .lea (t.slot b) r)
  Emit.instr (.mov r (.mem offset t.stackPointer))

/-- Stores the value of an argument in a temporary word, and the address of that word. -/
def passTemporary (t : Target) (code : Code) (pushed offset temp : Int) : Emit Unit := do
  let r ← t.reg 0
  code.value pushed 0
  Emit.instr (.mov r (.mem temp t.stackPointer))
  Emit.instr (.lea (.mem temp t.stackPointer) r)
  Emit.instr (.mov r (.mem offset t.stackPointer))

/-! ## Expressions -/

mutual

def Expr.code (s : Settings) : Expr → Code
  | .absent => .ofValue s.target fun _ free => do
    let _ ← s.target.reg free
    Emit.fail .codeOfAbsentExpr
  | .int _ n => .ofValue s.target fun _ free => do
    Emit.instr (s.target.load n (← s.target.reg free))
  | .bool _ b =>
    { value := fun _ free => do
        Emit.instr (.mov (.imm (if b then 1 else 0)) (← s.target.reg free))
      branch := fun label sense _ _ => if b = sense then Emit.instr (.jump label) else pure () }
  | .var v => .ofValue s.target fun pushed free => do
    let dst ← s.target.reg free
    let b ← bindingOf v
    withVariable s.target b pushed free fun word => .mov word dst
  | .assign _ v e => .ofValue s.target fun pushed free => do
    let dst ← s.target.reg free
    (e.code s).value pushed free
    let b ← bindingOf v
    withVariable s.target b pushed free fun word => .mov dst word
  | .call _ name args _ => .ofValue s.target
    (callCode s name args (passArgs s (argBytes s.target.wordSize args) 0 0 args))
  | .unary _ op e =>
    let value : Int → Nat → Emit Unit := fun pushed free => do
      let dst ← s.target.reg free
      (e.code s).value pushed free
      match op with
      | .neg => Emit.instr (.neg dst)
      | .not => Emit.instr (.xor (.imm 1) dst)
      | .other k => Emit.fail (.unknownUnary k)
    match op with
    | .not => ⟨value, fun label sense => (e.code s).branch label (!sense)⟩
    | _ => .ofValue s.target value
  | .arith _ op l r => .ofValue s.target fun pushed free => do
    let dst ← s.target.reg free
    let combine := operands s.target l r (l.code s) (r.code s) pushed free
    match op with
    | .add => combine (combineInto dst .add)
    | .sub => combine (combineInto dst .sub)
    | .mul => combine (combineInto dst .imul)
    | .div => combine fun l r => divide s.target l r dst false
    | .rem => combine fun l r => divide s.target l r dst true
    | .other k => Emit.fail (.unknownArithmetic k)
  | .comp _ op l r =>
    let compare := fun pushed free =>
      operands s.target l r (l.code s) (r.code s) pushed free fun l r => Emit.instr (.cmp r l)
    { value := fun pushed free => do
        let dst ← s.target.reg free
        let yes ← Emit.newLabel
        compare pushed free
        Emit.instr (.mov (.imm 1) dst)
        Emit.instr (.jumpIf (op.cond true) yes)
        Emit.instr (.mov (.imm 0) dst)
        Emit.label yes
      branch := fun label sense pushed free => do
        compare pushed free
        Emit.instr (.jumpIf (op.cond sense) label) }
  | .logic _ op l r =>
    let branch := branchLogic op (l.code s) (r.code s)
    { value := fun pushed free => do
        let dst ← s.target.reg free
        let no ← Emit.newLabel
        let done ← Emit.newLabel
        branch no false pushed free
        Emit.instr (.mov (.imm 1) dst)
        Emit.instr (.jump done)
        Emit.label no
        Emit.instr (.mov (.imm 0) dst)
        Emit.label done
      branch }

/-- Stores arguments into their words, one after the other, the first of them at number `i`; `k`
    temporary words are in use. Temporary words lie after the `size` bytes of all arguments. -/
def passArgs (s : Settings) (size : Int) (i k : Nat) :
    List (Bool × Expr) → (pushed : Int) → Emit Unit
  | [], _ => pure ()
  | (false, e) :: args, pushed => do
    passValue s.target (e.code s) pushed (i * s.target.wordSize)
    passArgs s size (i + 1) k args pushed
  | (true, .var v) :: args, pushed => do
    passVariable s.target v (i * s.target.wordSize)
    passArgs s size (i + 1) k args pushed
  | (true, e) :: args, pushed => do
    passTemporary s.target (e.code s) pushed (i * s.target.wordSize)
      (size + k * s.target.wordSize)
    passArgs s size (i + 1) (k + 1) args pushed

end

end MiniCompiler
