import MiniCompiler.Disk
import MiniCompiler.Target
import MiniCompiler.Tree

/-!
# The machine that a command runs on

The command asks its host for the system and the processor, for colors on the terminal, for the
texts in which a tree is dumped and a size is told, and for a linker that turns assembly into a
program.
-/

namespace MiniCompiler

/-- Why the linker made no program: how it ended, and what it said. -/
structure LinkFailure where
  ending : String
  output : String
  deriving DecidableEq, Repr

def LinkFailure.message (e : LinkFailure) : String :=
  "cc command failed: " ++ e.ending ++ "\nOutput:\n" ++ e.output

structure Host where
  system : String
  processor : String
  /-- Does the terminal show colors? -/
  color : Bool
  /-- The text in which the tree of a program is dumped. -/
  dump : Program → String
  /-- A number of bytes as a reader is told it. -/
  sizeText : Nat → String
  /-- Makes a program of assembly for a target, with more arguments for the linker. -/
  link : Target → (arguments : List String) → (assembly : String) → Except LinkFailure Content

namespace Host

/-- What a linker for 64-bit programs says when it is asked for a 32-bit program and the libraries
    for that are not installed. -/
def no32BitLibraries : List String :=
  let missing (what : String) := "cannot find " ++ what ++ ": No such file or directory"
  let unfit (path what : String) :=
    "skipping incompatible " ++ path ++ " when searching for " ++ what
  let static := unfit "/usr/lib/gcc/x86_64-linux-gnu/12/libgcc.a" "-lgcc"
  let shared := unfit "/usr/lib/x86_64-linux-gnu/libgcc_s.so.1" "libgcc_s.so.1"
  let complaints := [missing "crt1.o", missing "crti.o", static, missing "-lgcc", shared,
    missing "libgcc_s.so.1", shared, static, missing "-lgcc"]
  complaints.map ("/usr/bin/ld: " ++ ·) ++ ["collect2: error: ld returned 1 exit status"]

/-- A failure to find the linker at all. -/
def noLinker : LinkFailure := ⟨"exec: \"cc\": executable file not found in $PATH", ""⟩

/-- A 64-bit machine that can link no program: there are no libraries for 32-bit programs, and no
    linker for others. -/
def linux64 (dump : Program → String) (sizeText : Nat → String) : Host where
  system := "linux"
  processor := "amd64"
  color := false
  dump
  sizeText
  link := fun target _ _ =>
    if target.wordSize = 4 then
      .error ⟨"exit status 1", String.join (no32BitLibraries.map (· ++ "\n"))⟩
    else .error noLinker

end Host

end MiniCompiler
