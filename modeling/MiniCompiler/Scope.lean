import MiniCompiler.Word

/-!
# Types, bindings and frames

The types of the language, the environment that gives a name its type and its place in a function's
stack frame, and the frame itself, which hands out places.
-/

namespace MiniCompiler

/-! ## Types -/

/-- The types of the language. `unknown` stands where a tree names no type at all. -/
inductive Ty where
  | int
  | boolean
  | void
  | unknown
  deriving DecidableEq, Repr, Inhabited

/-- How a type is written. -/
def Ty.text : Ty → String
  | .int => "int"
  | .boolean => "boolean"
  | .void => "void"
  | .unknown => "<nil>"

/-- Can a variable or an expression have this type? -/
def Ty.isValue : Ty → Bool
  | .int | .boolean => true
  | .void | .unknown => false

/-! ## Bindings -/

/-- What a name stands for: a word at an offset from the base pointer. If the variable was passed by
    reference, that word holds the address of the variable. -/
structure Binding where
  name : String
  type : Ty
  offset : Int
  byRef : Bool := false
  deriving DecidableEq, Repr, Inhabited

/-- An environment, the innermost binding first. -/
abbrev Env := List Binding

/-- The innermost binding of a name. -/
def Env.find? (env : Env) (name : String) : Option Binding :=
  List.find? (·.name == name) env

/-- Is `name` bound in `env` after the environment had `outer` bindings? -/
def Env.bindsSince (env : Env) (outer : Nat) (name : String) : Bool :=
  (env.take (env.length - outer)).any (·.name == name)

@[simp]
theorem Env.find?_nil (name : String) : Env.find? [] name = none := rfl

theorem Env.find?_cons (b : Binding) (env : Env) (name : String) :
    Env.find? (b :: env) name = if b.name = name then some b else Env.find? env name := by
  unfold Env.find?
  rw [List.find?_cons]
  split <;> simp_all

/-! ## Frames -/

/-- A function's stack frame while it is being laid out: the locals that are in use, and the most
    that ever were. Locals lie below the base pointer, one word each, and their places are used
    again once their scope is closed. -/
structure Frame where
  live : Int := 0
  peak : Int := 0
  deriving DecidableEq, Repr, Inhabited

namespace Frame

/-- The offset of a parameter: above the saved base pointer and the return address. -/
def paramOffset (wordSize i : Int) : Int := 2 * wordSize + i * wordSize

/-- Takes the next place for a local. The count of live locals is a signed word. -/
def push (f : Frame) : Frame := ⟨wrap (f.live + 1), max f.peak (wrap (f.live + 1))⟩

/-- The offset of the local that was taken last. -/
def offset (f : Frame) (wordSize : Int) : Int := -f.live * wordSize

/-- Gives back all places but the first `mark`. -/
def release (f : Frame) (mark : Int) : Frame := { f with live := mark }

/-- The room that all locals need. -/
def bytes (f : Frame) (wordSize : Int) : Int := f.peak * wordSize

/-- Locals are counted one by one as long as their number is a signed word. -/
theorem live_push {f : Frame} (hlo : -wordBound ≤ f.live + 1) (hhi : f.live + 1 < wordBound) :
    f.push.live = f.live + 1 := wrap_of_mem_range hlo hhi

@[simp]
theorem release_live (f : Frame) (mark : Int) : (f.release mark).live = mark := rfl

@[simp]
theorem release_peak (f : Frame) (mark : Int) : (f.release mark).peak = f.peak := rfl

end Frame

end MiniCompiler
