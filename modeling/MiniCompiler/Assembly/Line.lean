import MiniCompiler.Word

/-!
# Lines of assembly

The program that the compiler writes, as data: instructions with their operands, labels, directives
and comments. `Line.render` writes a line; the names of word-sized instructions end in the suffix of
the target.
-/

namespace MiniCompiler

/-- An operand of an instruction. -/
inductive Operand where
  | imm (value : Int)
  | reg (name : String)
  | mem (offset : Int) (base : String)
  deriving DecidableEq, Repr

/-- How an operand is written. Numbers are signed words of 64 bits. -/
def Operand.text : Operand → String
  | .imm n => "$" ++ toString (wrap n)
  | .reg r => r
  | .mem n base => toString (wrap n) ++ "(" ++ base ++ ")"

/-- A label: one that the compiler made, or the symbol of a function. -/
inductive Label where
  | fresh (number : Nat)
  | symbol (name : String)
  deriving DecidableEq, Repr

def Label.text : Label → String
  | .fresh n => ".L" ++ toString n
  | .symbol s => s

/-- When a conditional jump jumps. -/
inductive Cond where
  | l
  | nl
  | le
  | nle
  | g
  | ng
  | ge
  | nge
  | e
  | ne
  | nz
  | z
  deriving DecidableEq, Repr

def Cond.text : Cond → String
  | .l => "l"
  | .nl => "nl"
  | .le => "le"
  | .nle => "nle"
  | .g => "g"
  | .ng => "ng"
  | .ge => "ge"
  | .nge => "nge"
  | .e => "e"
  | .ne => "ne"
  | .nz => "nz"
  | .z => "z"

/-- An instruction; the source comes before the destination. -/
inductive Instr where
  | mov (src dst : Operand)
  | lea (src dst : Operand)
  | push (src : Operand)
  | pop (dst : Operand)
  | add (src dst : Operand)
  | sub (src dst : Operand)
  | imul (src dst : Operand)
  | xor (src dst : Operand)
  | or (src dst : Operand)
  | cmp (src dst : Operand)
  | neg (dst : Operand)
  | idiv (src : Operand)
  /-- Loads a constant that takes a whole word of 8 bytes. -/
  | loadWide (value : Int) (dst : Operand)
  /-- Widens the dividend; the target has the name of the instruction. -/
  | widen (name : String)
  | jump (target : Label)
  | jumpIf (cond : Cond) (target : Label)
  /-- Calls a function. `pushed` counts the bytes on the stack that its arguments were passed with;
      it is not written. -/
  | call (symbol : String) (pushed : Int)
  | ret
  deriving DecidableEq, Repr

/-- The name of an instruction and its operands. -/
def Instr.parts (suffix : String) : Instr → String × List String
  | .mov s d => ("mov" ++ suffix, [s.text, d.text])
  | .lea s d => ("lea" ++ suffix, [s.text, d.text])
  | .push s => ("push" ++ suffix, [s.text])
  | .pop d => ("pop" ++ suffix, [d.text])
  | .add s d => ("add" ++ suffix, [s.text, d.text])
  | .sub s d => ("sub" ++ suffix, [s.text, d.text])
  | .imul s d => ("imul" ++ suffix, [s.text, d.text])
  | .xor s d => ("xor" ++ suffix, [s.text, d.text])
  | .or s d => ("or" ++ suffix, [s.text, d.text])
  | .cmp s d => ("cmp" ++ suffix, [s.text, d.text])
  | .neg d => ("neg" ++ suffix, [d.text])
  | .idiv s => ("idiv" ++ suffix, [s.text])
  | .loadWide n d => ("movabsq", [(Operand.imm n).text, d.text])
  | .widen name => (name, [])
  | .jump l => ("jmp", [l.text])
  | .jumpIf c l => ("j" ++ c.text, [l.text])
  | .call s _ => ("call", [s])
  | .ret => ("ret", [])

/-- A line of assembly. -/
inductive Line where
  | instr (i : Instr)
  /-- An instruction that is given as text. -/
  | written (name : String) (operands : List String)
  | label (l : Label)
  | comment (text : String)
  | directive (name : String) (args : List String)
  deriving DecidableEq, Repr

/-- A name and what follows it, with `separator` between the parts. -/
def Line.join (name separator : String) (parts : List String) : String :=
  match parts with
  | [] => "\t" ++ name ++ "\n"
  | _ => "\t" ++ name ++ "\t" ++ separator.intercalate parts ++ "\n"

/-- The text of a line, with its newline. -/
def Line.render (suffix : String) : Line → String
  | .instr i => Line.join (i.parts suffix).1 ", " (i.parts suffix).2
  | .written name operands => Line.join name ", " operands
  | .label l => l.text ++ ":\n"
  | .comment text => "\t# " ++ text ++ "\n"
  | .directive name args => Line.join name "," args

def Line.renderAll (suffix : String) (lines : List Line) : String :=
  String.join (lines.map (Line.render suffix))

end MiniCompiler
