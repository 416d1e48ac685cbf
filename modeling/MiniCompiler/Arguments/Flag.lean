import MiniCompiler.Text.Quoted

/-!
# Flags on a command line

A flag has a name and a value; a set of flags is read from the arguments of a command.
`--name=value` and `-name=value` give a value to the flag of that name, `-x` followed by anything
gives it to the flag whose short name is `x`. A flag that is no switch takes the next argument if
none is attached. `--` ends the flags, and a lone dash is an ordinary argument.
-/

namespace MiniCompiler.Arguments

/-! ## Values -/

/-- The value of a flag. -/
inductive Value where
  | text (s : String)
  | switch (on : Bool)
  /-- The items given so far; `none` if there never was a list. -/
  | items (given : Option (List String))
  deriving DecidableEq, Repr

namespace Value

def boolText (on : Bool) : String := if on then "true" else "false"

def shown : Value → String
  | .text s => s
  | .switch on => boolText on
  | .items given => ", ".intercalate (given.getD [])

def asDefault : Value → String
  | .text s => s
  | .switch on => boolText on
  | .items given => "[" ++ " ".intercalate (given.getD []) ++ "]"

def isSwitch : Value → Bool
  | .switch _ => true
  | .text _ | .items _ => false

end Value

/-! ## Flags and groups of flags -/

/-- A flag. An empty short name stands for none. -/
structure Flag where
  name : String
  short : String := ""
  usage : String := ""
  value : Value
  /-- The default, in words. -/
  initial : String := value.asDefault
  /-- What kind of value is expected, in words. -/
  expects : String := ""
  deriving DecidableEq, Repr

/-- One thing that can be switched on and off by a pair of flags. Each flag of the pair is there if
    it has an initial state. -/
structure GroupEntry where
  name : String
  lead : String
  usage : String := ""
  enabled : Option Bool := none
  disabled : Option Bool := none
  deriving DecidableEq, Repr

namespace GroupEntry

def enableName (e : GroupEntry) : String := e.lead ++ e.name

def disableName (e : GroupEntry) : String := e.lead ++ "no-" ++ e.name

def enableFlag (e : GroupEntry) (on : Bool) : Flag where
  name := e.enableName
  usage := e.usage
  value := .switch on

def disableFlag (e : GroupEntry) (on : Bool) : Flag where
  name := e.disableName
  usage := "Disable '" ++ e.name ++ "'"
  value := .switch on

def flags (e : GroupEntry) : List Flag :=
  (e.enabled.map e.enableFlag).toList ++ (e.disabled.map e.disableFlag).toList

end GroupEntry

/-- A family of switches whose names start alike. -/
structure Group where
  name : String
  description : String := ""
  kind : String := ""
  header : String := ""
  entries : List GroupEntry
  deriving DecidableEq, Repr

def Group.flags (g : Group) : List Flag := g.entries.flatMap GroupEntry.flags

/-- Why a flag cannot be defined. -/
inductive DefinitionError where
  | noName
  | nameTaken (name : String)
  | shortTaken (short : String)
  deriving DecidableEq, Repr

def DefinitionError.message : DefinitionError → String
  | .noName => "flag name cannot be empty"
  | .nameTaken name => "flag redefined: " ++ name
  | .shortTaken short => "shorthand flag redefined: " ++ short

/-- The flags of a command, in the order of their definition. -/
structure FlagSet where
  flags : List Flag := []
  groups : List Group := []
  deriving DecidableEq, Repr

namespace FlagSet

def find? (s : FlagSet) (name : String) : Option Flag := s.flags.find? (·.name == name)

/-- The flag with a short name. Only the first flag that claims it has it. -/
def findShort? (s : FlagSet) (short : String) : Option Flag :=
  if short = "" then none else s.flags.find? (·.short == short)

def add (s : FlagSet) (f : Flag) : FlagSet := { s with flags := s.flags ++ [f] }

/-- What stands in the way of a new flag. -/
def clash? (s : FlagSet) (f : Flag) : Option DefinitionError :=
  if f.name = "" then some .noName
  else if (s.find? f.name).isSome then some (.nameTaken f.name)
  else if (s.findShort? f.short).isSome then some (.shortTaken f.short)
  else none

def define (s : FlagSet) (f : Flag) : Except DefinitionError FlagSet :=
  match s.clash? f with
  | some e => .error e
  | none => .ok (s.add f)

def addGroup (s : FlagSet) (g : Group) : FlagSet where
  flags := s.flags ++ g.flags
  groups := s.groups ++ [g]

def defineGroup (s : FlagSet) (g : Group) : Except DefinitionError FlagSet := do
  let s ← g.flags.foldlM define s
  return { s with groups := s.groups ++ [g] }

/-- Gives the flag of a name a new value. -/
def set (s : FlagSet) (name : String) (v : Value) : FlagSet :=
  { s with flags := s.flags.map fun f => if f.name = name then { f with value := v } else f }

def value? (s : FlagSet) (name : String) : Option Value := (s.find? name).map Flag.value

/-- Is the switch of a name on? -/
def isOn (s : FlagSet) (name : String) : Bool := s.value? name == some (.switch true)

/-- The text of a flag, empty if there is none. -/
def text (s : FlagSet) (name : String) : String :=
  match s.value? name with
  | some (.text t) => t
  | _ => ""

end FlagSet

/-! ## Reading arguments -/

/-- Why arguments cannot be read. -/
inductive ArgumentError where
  | unknownFlag (argument : String)
  | noValue (argument : String)
  | notBoolean (value : String)
  deriving DecidableEq, Repr

def ArgumentError.message : ArgumentError → String
  | .unknownFlag argument => "unknown flag: " ++ argument
  | .noValue argument => "flag needs an argument: " ++ argument
  | .notBoolean value =>
    "invalid boolean value '" ++ value ++ "': strconv.ParseBool: parsing " ++ Text.quote value ++
      ": invalid syntax"

/-- The truth value that a word stands for. -/
def readBool? (word : String) : Option Bool :=
  if word ∈ ["1", "t", "T", "TRUE", "true", "True"] then some true
  else if word ∈ ["0", "f", "F", "FALSE", "false", "False"] then some false
  else none

/-- The state that a word puts a switch in; no word at all puts it on. -/
def switchState (word : String) : Except ArgumentError Bool :=
  if word = "" then .ok true
  else match readBool? word with
    | some on => .ok on
    | none => .error (.notBoolean word)

/-- An argument that mentions a flag: the flag, whether it is called by its short name, and the
    value that is attached. -/
structure Mention where
  flag : Flag
  byShort : Bool
  attached : Option String
  deriving DecidableEq, Repr

/-- A text without one leading dash. -/
def dropDash : List Char → List Char
  | '-' :: cs => cs
  | cs => cs

/-- Divides a text at its first equals sign. -/
def cutAtEquals (cs : List Char) : String × Option String :=
  let name := String.ofList (cs.takeWhile (· ≠ '='))
  match cs.dropWhile (· ≠ '=') with
  | _ :: value => (name, some (String.ofList value))
  | [] => (name, none)

/-- Is an argument not a flag at all? -/
def isOrdinary : List Char → Bool
  | '-' :: _ :: _ => false
  | _ => true

namespace FlagSet

/-- The flag that an argument of one dash mentions by its short name, which is a single character of
    ASCII. -/
def shortMention? (s : FlagSet) : List Char → Option Mention
  | '-' :: c :: cs =>
    if c = '-' ∨ 0x80 ≤ c.toNat then none
    else (s.findShort? (String.ofList [c])).map fun f =>
      ⟨f, true, if cs = [] then none else some (String.ofList cs)⟩
  | _ => none

/-- The flag that an argument mentions. The whole name comes before the short one. -/
def mention? (s : FlagSet) (argument : List Char) : Option Mention :=
  let (name, attached) := cutAtEquals (dropDash (dropDash argument))
  match s.find? name with
  | some f => some ⟨f, f.short == name, attached⟩
  | none => s.shortMention? argument

end FlagSet

/-- What reading gives: the flags with their new values, the ordinary arguments, and why reading
    stopped before the end. -/
structure Reading where
  flags : FlagSet
  ordinary : List String := []
  error : Option ArgumentError := none
  deriving DecidableEq, Repr

/-- Adds an ordinary argument in front. -/
def Reading.cons (argument : String) (r : Reading) : Reading :=
  { r with ordinary := argument :: r.ordinary }

namespace FlagSet

/-- The new value of a flag that is given a text. -/
def assigned (v : Value) (given : String) : Value :=
  match v with
  | .items old => .items (some (old.getD [] ++ [given]))
  | .text _ | .switch _ => .text given

/-- Reads arguments. A switch called by its short name is put on whatever is attached. -/
def read (s : FlagSet) : List String → Reading
  | [] => ⟨s, [], none⟩
  | argument :: rest =>
    if argument = "--" then ⟨s, rest, none⟩
    else if isOrdinary argument.toList then (s.read rest).cons argument
    else match s.mention? argument.toList with
      | none => ⟨s, [], some (.unknownFlag argument)⟩
      | some m =>
        if m.flag.value.isSwitch then
          match switchState (if m.byShort then "" else m.attached.getD "") with
          | .ok on => (s.set m.flag.name (.switch on)).read rest
          | .error e => ⟨s, [], some e⟩
        else match m.attached, rest with
          | some given, rest => (s.set m.flag.name (assigned m.flag.value given)).read rest
          | none, given :: rest => (s.set m.flag.name (assigned m.flag.value given)).read rest
          | none, [] => ⟨s, [], some (.noValue argument)⟩

end FlagSet

end MiniCompiler.Arguments
