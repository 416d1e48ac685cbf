import MiniCompiler.Assembly.Line
import MiniCompiler.Fault
import MiniCompiler.Target

/-!
# Emitting assembly

A step of `Emit` writes lines and takes fresh labels. If it ends in a fault, the lines up to there
are still written: `Emit.ensuring` can then add more.

Registers are used by number. Numbers past the end of the register file wrap around; `withSpill`
saves the register that such a number shares with a lower one.
-/

namespace MiniCompiler

/-- What a step of emitting gives: a value or a fault, the lines it wrote, and how many labels have
    been taken. -/
structure Emitted (α : Type) where
  result : Except Fault α
  lines : List Line
  labels : Nat

/-- A step of emitting, from the number of labels that were taken before. -/
def Emit (α : Type) : Type := Nat → Emitted α

namespace Emit

protected def pure {α : Type} (a : α) : Emit α := fun n => ⟨.ok a, [], n⟩

protected def bind {α β : Type} (x : Emit α) (f : α → Emit β) : Emit β := fun n =>
  match x n with
  | ⟨.error e, lines, n⟩ => ⟨.error e, lines, n⟩
  | ⟨.ok a, lines, n⟩ =>
    let second := f a n
    { second with lines := lines ++ second.lines }

instance : Monad Emit where
  pure := Emit.pure
  bind := Emit.bind

def fail {α : Type} (f : Fault) : Emit α := fun n => ⟨.error f, [], n⟩

def ofExcept {α : Type} (r : Except Fault α) : Emit α := fun n => ⟨r, [], n⟩

def lines (ls : List Line) : Emit Unit := fun n => ⟨.ok (), ls, n⟩

def line (l : Line) : Emit Unit := lines [l]

def instr (i : Instr) : Emit Unit := line (.instr i)

def label (l : Label) : Emit Unit := line (.label l)

/-- Takes a label that was not taken before. -/
def newLabel : Emit Label := fun n => ⟨.ok (.fresh (n + 1)), [], n + 1⟩

/-- Does `after` when `step` has ended, also if it ended in a fault. -/
def ensuring {α : Type} (step : Emit α) (after : Emit Unit) : Emit α := fun n =>
  let first := step n
  let second := after first.labels
  { second with
    result := second.result.bind fun _ => first.result
    lines := first.lines ++ second.lines }

end Emit

namespace Target

/-- The register of a number: numbers past the end start again with the first register. -/
def register (t : Target) (n : Int) : Except Fault String :=
  match n.tmod t.registers.length with
  | .ofNat i =>
    match t.registers[i]? with
    | some r => .ok r
    | none => .error .noRegister
  | .negSucc _ => .error .noRegister

/-- The register of a number, as an operand. -/
def reg (t : Target) (n : Int) : Emit Operand :=
  Emit.ofExcept ((t.register n).map Operand.reg)

def sp (t : Target) : Operand := .reg t.stackPointer

def bp (t : Target) : Operand := .reg t.basePointer

def isCallerSaved (t : Target) (register : String) : Bool := t.callerSaved.contains register

/-- Saves register `r` if it is also the register of a lower number. The result counts the bytes on
    the stack, of which there were `pushed`. -/
def spill (t : Target) (r pushed : Int) : Emit Int := do
  if t.registers.length ≤ r then
    Emit.instr (.push (← t.reg r))
    return pushed + t.wordSize
  else
    return pushed

/-- Restores a register that `spill` saved. -/
def unspill (t : Target) (r : Int) : Emit Unit := do
  if t.registers.length ≤ r then Emit.instr (.pop (← t.reg r))

/-- Does `step` while register `r` is free, and gives it the count of bytes on the stack. -/
def withSpill {α : Type} (t : Target) (r pushed : Int) (step : Int → Emit α) : Emit α := do
  let inner ← t.spill r pushed
  (step inner).ensuring (t.unspill r)

/-- The bytes between the caller's aligned stack pointer and that of a function with a frame of the
    given size. -/
def entryBytes (t : Target) (frameBytes : Int) : Int :=
  2 * t.wordSize + frameBytes + t.calleeSaved.length * t.wordSize

/-- Enters a function: makes its frame and saves the registers that belong to the caller. -/
def prologue (t : Target) (symbol : String) (frameBytes : Int) : List Line :=
  [.directive ".globl" [symbol], .label (.symbol symbol), .instr (.push t.bp),
    .instr (.mov t.sp t.bp)] ++
  (if 0 < wrap frameBytes then [.instr (.sub (.imm frameBytes) t.sp)] else []) ++
  t.calleeSaved.map fun r => .instr (.push (.reg r))

/-- Leaves a function. -/
def epilogue (t : Target) : List Line :=
  (t.calleeSaved.reverse.map fun r => .instr (.pop (.reg r))) ++
  [.instr (.mov t.bp t.sp), .instr (.pop t.bp), .instr .ret]

end Target

end MiniCompiler
