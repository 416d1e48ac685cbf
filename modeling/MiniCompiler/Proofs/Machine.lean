import Mathlib.Logic.Relation
import MiniCompiler.Proofs.Labels

/-!
# The machine

A machine that runs lines of assembly. It has word-sized registers and a memory of words, which has no
end. A word is a number, an address, or a place in the text to return to; numbers wrap around, addresses
do not. Words of memory lie at multiples of the word size, and an instruction has at most one operand
there.

The machine stands before a part of the text, what is left of it from the next line on. It does not go
on where it would trap, where it would jump to a label that is not in the text, and where an instruction
would depend on something that this description leaves open, such as the flags after a sum.
-/

namespace MiniCompiler

/-! ## Words, registers and memory -/

def Target.bits (t : Target) : Nat := 8 * t.wordSize.toNat

/-- What a register or a word of memory holds. -/
inductive Word (w : Nat) where
  | num (n : BitVec w)
  | addr (a : Int)
  /-- The lines that are left where a call returns to. -/
  | code (rest : List Line)
  deriving DecidableEq, Repr

/-- Registers and memory. The flags are the order of the last two numbers that were compared. -/
structure Core (w : Nat) where
  regs : String → Word w
  mem : Int → Word w
  flags : Option Ordering := none

namespace Core

variable {w : Nat}

def setReg (c : Core w) (r : String) (v : Word w) : Core w :=
  { c with regs := fun q => if q = r then v else c.regs q }

def setMem (c : Core w) (a : Int) (v : Word w) : Core w :=
  { c with mem := fun b => if b = a then v else c.mem b }

def setFlags (c : Core w) (flags : Option Ordering) : Core w := { c with flags }

/-- The address of an operand in memory. -/
def address (c : Core w) (offset : Int) (base : String) : Option Int :=
  match c.regs base with
  | .addr a => some (a + wrap offset)
  | _ => none

end Core

/-- Does an operand lie in memory? -/
def Operand.isMem : Operand → Bool
  | .mem _ _ => true
  | _ => false

section

variable (t : Target)

/-- The word at an address. -/
def Core.load (c : Core t.bits) (a : Int) : Option (Word t.bits) :=
  if t.wordSize ∣ a then some (c.mem a) else none

def Core.store (c : Core t.bits) (a : Int) (v : Word t.bits) : Option (Core t.bits) :=
  if t.wordSize ∣ a then some (c.setMem a v) else none

def Core.read (c : Core t.bits) : Operand → Option (Word t.bits)
  | .imm n => some (.num (BitVec.ofInt t.bits (wrap n)))
  | .reg r => some (c.regs r)
  | .mem offset base => do c.load t (← c.address offset base)

def Core.write (c : Core t.bits) (v : Word t.bits) : Operand → Option (Core t.bits)
  | .imm _ => none
  | .reg r => some (c.setReg r v)
  | .mem offset base => do c.store t (← c.address offset base) v

def Core.push (c : Core t.bits) (v : Word t.bits) : Option (Core t.bits) := do
  let top ← c.address (-t.wordSize) t.stackPointer
  (c.setReg t.stackPointer (.addr top)).store t top v

def Core.pop (c : Core t.bits) : Option (Word t.bits × Core t.bits) := do
  let top ← c.address 0 t.stackPointer
  return (← c.load t top, c.setReg t.stackPointer (.addr (top + t.wordSize)))

end

/-! ## Instructions -/

/-- The flags after a comparison of numbers. -/
def comparison {w : Nat} (a b : BitVec w) : Ordering := compare a.toInt b.toInt

/-- Does a conditional jump jump? -/
def Cond.holds : Cond → Ordering → Bool
  | .l, o | .nge, o => o == .lt
  | .nl, o | .ge, o => o != .lt
  | .g, o | .nle, o => o == .gt
  | .ng, o | .le, o => o != .gt
  | .e, o | .z, o => o == .eq
  | .ne, o | .nz, o => o != .eq

namespace Target

variable (t : Target)

/-- The registers of the lower and the upper half of a dividend. -/
def dividend : String × String := if t.wordSize = 4 then ("%eax", "%edx") else ("%rax", "%rdx")

/-- The instruction that widens a word to a dividend. -/
def widens : String := if t.wordSize = 4 then "cltd" else "cqto"

end Target

section

variable (t : Target)

/-- An instruction with two operands that replaces a number by another one. -/
def Core.compute (c : Core t.bits) (src dst : Operand)
    (f : BitVec t.bits → BitVec t.bits → BitVec t.bits) : Option (BitVec t.bits × Core t.bits) := do
  if src.isMem && dst.isMem then none
  else match ← c.read t src, ← c.read t dst with
    | .num a, .num b => return (f b a, ← c.write t (.num (f b a)) dst)
    | _, _ => none

/-- Adds `n` to an address, or makes the sum `f` of numbers. -/
def Core.shift (c : Core t.bits) (src dst : Operand) (n : Int)
    (f : BitVec t.bits → BitVec t.bits → BitVec t.bits) : Option (Core t.bits) := do
  match src, ← c.read t dst with
  | .imm _, .addr a => return (← c.write t (.addr (a + n)) dst).setFlags none
  | _, _ => return (← c.compute t src dst f).2.setFlags none

/-- Divides the dividend. There is no quotient if it is not a word. -/
def Core.divide (c : Core t.bits) (divisor : Word t.bits) : Option (Core t.bits) :=
  match divisor, c.regs t.dividend.1, c.regs t.dividend.2 with
  | .num d, .num low, .num high =>
    let dividend := (high ++ low).toInt
    let quotient := dividend.tdiv d.toInt
    if d = 0 ∨ (BitVec.ofInt t.bits quotient).toInt ≠ quotient then none
    else some (((c.setReg t.dividend.1 (.num (BitVec.ofInt t.bits quotient))).setReg t.dividend.2
      (.num (BitVec.ofInt t.bits (dividend.tmod d.toInt)))).setFlags none)
  | _, _, _ => none

/-- What an instruction does that goes on to the next line. -/
def Instr.effect (c : Core t.bits) : Instr → Option (Core t.bits)
  | .mov src dst => do
    if src.isMem && dst.isMem then none else c.write t (← c.read t src) dst
  | .loadWide n dst => c.write t (.num (BitVec.ofInt t.bits (wrap n))) dst
  | .lea (.mem offset base) dst => do c.write t (.addr (← c.address offset base)) dst
  | .push src => do c.push t (← c.read t src)
  | .pop dst => do
    let (v, c) ← c.pop t
    c.write t v dst
  | .add src@(.imm n) dst => c.shift t src dst (wrap n) (· + ·)
  | .sub src@(.imm n) dst => c.shift t src dst (-wrap n) (· - ·)
  | .add src dst => return (← c.compute t src dst (· + ·)).2.setFlags none
  | .sub src dst => return (← c.compute t src dst (· - ·)).2.setFlags none
  | .imul src dst => return (← c.compute t src dst (· * ·)).2.setFlags none
  | .xor src dst => return (← c.compute t src dst (· ^^^ ·)).2.setFlags none
  | .or src dst => do
    let (n, c) ← c.compute t src dst (· ||| ·)
    return c.setFlags (some (comparison n 0))
  | .cmp src dst => do
    if src.isMem && dst.isMem then none
    else match ← c.read t src, ← c.read t dst with
      | .num a, .num b => return c.setFlags (some (comparison b a))
      | _, _ => none
  | .neg dst => do
    match ← c.read t dst with
    | .num n => return (← c.write t (.num (-n)) dst).setFlags none
    | _ => none
  | .idiv src => do c.divide t (← c.read t src)
  | .widen name =>
    match c.regs t.dividend.1 with
    | .num low =>
      if name = t.widens then
        some (c.setReg t.dividend.2 (.num (if low.msb then BitVec.allOnes t.bits else 0)))
      else none
    | _ => none
  | _ => none

end

/-! ## Steps -/

/-- The part of a text after a label. -/
def resolve (l : Label) : List Line → Option (List Line)
  | [] => none
  | .label l' :: rest => if l' = l then some rest else resolve l rest
  | _ :: rest => resolve l rest

/-- The machine: what is left of the text, and the rest of its state. -/
structure Machine (w : Nat) where
  rest : List Line
  core : Core w

/-- One step of the machine on a text. -/
def Machine.step (t : Target) (text : List Line) (m : Machine t.bits) : Option (Machine t.bits) :=
  match m.rest with
  | [] => none
  | .instr (.jump l) :: _ => return ⟨← resolve l text, m.core⟩
  | .instr (.jumpIf cond l) :: rest => do
    if cond.holds (← m.core.flags) then return ⟨← resolve l text, m.core⟩ else return ⟨rest, m.core⟩
  | .instr (.call symbol _) :: rest => do
    return ⟨← resolve (.symbol symbol) text, ← m.core.push t (.code rest)⟩
  | .instr .ret :: _ => do
    let (v, core) ← m.core.pop t
    match v with
    | .code rest => return ⟨rest, core⟩
    | _ => none
  | .instr i :: rest => return ⟨rest, ← i.effect t m.core⟩
  | .written _ _ :: _ => none
  | .label _ :: rest | .comment _ :: rest | .directive _ _ :: rest => return ⟨rest, m.core⟩

/-- The machine gets from one state to another. -/
def Machine.Reaches (t : Target) (text : List Line) : Machine t.bits → Machine t.bits → Prop :=
  Relation.ReflTransGen fun m m' => m.step t text = some m'

/-! ## Registers and memory after a change -/

namespace Core

variable {w : Nat} (c : Core w)

@[simp]
theorem regs_setReg_self (r : String) (v : Word w) : (c.setReg r v).regs r = v := by
  simp [setReg]

@[simp]
theorem regs_setReg_of_ne {q r : String} (h : q ≠ r) (v : Word w) :
    (c.setReg r v).regs q = c.regs q := by
  simp [setReg, h]

theorem setReg_self (r : String) : c.setReg r (c.regs r) = c := by
  have hregs : (fun q => if q = r then c.regs r else c.regs q) = c.regs := by
    funext q
    split
    · rw [‹q = r›]
    · rfl
  rw [setReg, hregs]

@[simp]
theorem mem_setReg (r : String) (v : Word w) : (c.setReg r v).mem = c.mem := rfl

@[simp]
theorem regs_setMem (a : Int) (v : Word w) : (c.setMem a v).regs = c.regs := rfl

@[simp]
theorem mem_setMem_self (a : Int) (v : Word w) : (c.setMem a v).mem a = v := by
  simp [setMem]

@[simp]
theorem mem_setMem_of_ne {a b : Int} (h : b ≠ a) (v : Word w) :
    (c.setMem a v).mem b = c.mem b := by
  simp [setMem, h]

@[simp]
theorem regs_setFlags (o : Option Ordering) : (c.setFlags o).regs = c.regs := rfl

@[simp]
theorem mem_setFlags (o : Option Ordering) : (c.setFlags o).mem = c.mem := rfl

variable {c}

theorem address_eq {base : String} {a : Int} (h : c.regs base = .addr a) (offset : Int) :
    c.address offset base = some (a + wrap offset) := by
  simp [address, h]

end Core

/-! ## Labels in the text -/

theorem resolve_append {l : Label} {pre : List Line} (h : l ∉ writtenLabels pre) (rest : List Line) :
    resolve l (pre ++ .label l :: rest) = some rest := by
  induction pre with
  | nil => simp [resolve]
  | cons m pre ih =>
    rw [writtenLabels_cons, List.mem_append, not_or] at h
    cases m with
    | label l' =>
      have hne : l' ≠ l := by
        intro heq
        exact h.1 (by simp [Line.label?, heq])
      simp [resolve, hne, ih h.2]
    | _ => simp [resolve, ih h.2]

/-- If all labels of a text are different, a label leads to the place where it is written. -/
theorem resolve_of_suffix {text : List Line} (htext : (writtenLabels text).Nodup) {l : Label}
    {rest : List Line} (h : .label l :: rest <:+ text) : resolve l text = some rest := by
  obtain ⟨pre, rfl⟩ := h
  refine resolve_append ?_ rest
  intro hmem
  rw [writtenLabels_append, writtenLabels_cons] at htext
  exact (List.nodup_append.1 htext).2.2 l hmem l (by simp [Line.label?]) rfl

end MiniCompiler
