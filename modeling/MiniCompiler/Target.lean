/-!
# Target machines

A target machine is what the code generator has to know about a processor: its word size, the
suffix of word-sized instructions, its registers and its calling convention.
-/

namespace MiniCompiler

/-- A machine that assembly is written for. -/
structure Target where
  name : String
  /-- The size of a word in bytes. -/
  wordSize : Int
  /-- What a word-sized instruction's name ends in. -/
  suffix : String
  /-- The registers of the register file; the first carries results. -/
  registers : List String
  /-- The registers that a called function may change. -/
  callerSaved : List String
  /-- The registers that every function saves on entry. -/
  calleeSaved : List String
  stackPointer : String
  basePointer : String
  /-- The instruction that widens the first register into the dividend pair. -/
  signExtend : String
  /-- What the stack pointer is a multiple of at a call. -/
  stackAlignment : Int
  deriving DecidableEq, Repr, Inhabited

namespace Target

def i386 : Target where
  name := "i386"
  wordSize := 4
  suffix := "l"
  registers := ["%eax", "%ebx", "%ecx", "%edx", "%esi", "%edi"]
  callerSaved := ["%eax", "%ecx", "%edx"]
  calleeSaved := ["%ebx", "%esi", "%edi"]
  stackPointer := "%esp"
  basePointer := "%ebp"
  signExtend := "cltd"
  stackAlignment := 16

def amd64 : Target where
  name := "amd64"
  wordSize := 8
  suffix := "q"
  registers := ["%rax", "%rbx", "%rcx", "%rdx", "%rsi", "%rdi"]
  callerSaved := ["%rax", "%rcx", "%rdx", "%rsi", "%rdi"]
  calleeSaved := ["%rbx", "%rsi", "%rdi"]
  stackPointer := "%rsp"
  basePointer := "%rbp"
  signExtend := "cqto"
  stackAlignment := 16

/-- The machines that can be asked for by name. -/
def supported : List Target := [i386, amd64]

/-- The names of the supported machines, as messages list them. -/
def supportedNames : String := ", ".intercalate (supported.map Target.name)

/-- The supported machine of a name; no name at all stands for `i386`. -/
def ofName? (name : String) : Option Target :=
  if name = "" then some i386 else supported.find? (·.name == name)

theorem mem_supported_of_ofName? {name : String} {t : Target} (h : ofName? name = some t) :
    t ∈ supported := by
  unfold ofName? at h
  split at h
  · cases h
    simp [supported]
  · exact List.mem_of_find?_eq_some h

end Target

end MiniCompiler
