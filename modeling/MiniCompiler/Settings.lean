import MiniCompiler.Text.Blank
import MiniCompiler.Target

/-!
# Settings of a compilation

The settings say which language features are allowed, which warnings are reported, and for which
system and machine code is made. They are changed by directives such as `-Wall` or `-Fno-continue`.
-/

namespace MiniCompiler

/-! ## Features -/

/-- A part of the language that can be switched off. -/
inductive Feature where
  | forLoops
  | byReference
  | continueStatement
  | lineComments
  deriving DecidableEq, Repr

namespace Feature

/-- The features in the order of their numbers, from 0. -/
def all : List Feature := [.forLoops, .byReference, .continueStatement, .lineComments]

/-- The name by which a directive calls a feature. -/
def name : Feature → String
  | .forLoops => "for-loops"
  | .byReference => "by-ref"
  | .continueStatement => "continue"
  | .lineComments => "c-comments"

/-- One sentence on a feature for the help page. -/
def description : Feature → String
  | .forLoops => "Allow C-style `for (init; test; step)` loops."
  | .byReference => "Allow `&` by-reference parameters."
  | .continueStatement => "Allow the `continue` statement."
  | .lineComments => "Recognize C-style '//' line comments."

def ofName? (name : String) : Option Feature := all.find? (·.name == name)

def ofNumber? : Int → Option Feature
  | .ofNat n => all[n]?
  | .negSucc _ => none

end Feature

/-! ## Warnings -/

/-- A group of warnings that is reported or not. -/
inductive Warning where
  | unreachableCode
  | shadow
  | emptyBody
  | extra
  | pedantic
  deriving DecidableEq, Repr

namespace Warning

/-- The warnings in the order of their numbers, from 0. -/
def all : List Warning := [.unreachableCode, .shadow, .emptyBody, .extra, .pedantic]

/-- The name by which a directive and a report call a warning. -/
def name : Warning → String
  | .unreachableCode => "unreachable-code"
  | .shadow => "shadow"
  | .emptyBody => "empty-body"
  | .extra => "extra"
  | .pedantic => "pedantic"

/-- One sentence on a warning for the help page. -/
def description : Warning → String
  | .unreachableCode => "Warn about code that will never be executed."
  | .shadow => "Warn when a declaration hides a parameter or outer local."
  | .emptyBody => "Warn about loops whose body is an empty statement."
  | .extra => "Enable extra miscellaneous warnings."
  | .pedantic => "Issue all warnings, including stylistic ones."

def ofName? (name : String) : Option Warning := all.find? (·.name == name)

def ofNumber? : Int → Option Warning
  | .ofNat n => all[n]?
  | .negSucc _ => none

end Warning

/-! ## Settings -/

/-- Which features and warnings are on. -/
structure Switches where
  feature : Feature → Bool
  warning : Warning → Bool

/-- What is on unless a directive says otherwise. -/
def Switches.standard : Switches where
  feature := fun _ => true
  warning := fun
    | .unreachableCode | .emptyBody | .extra => true
    | .shadow | .pedantic => false

/-- The settings of a compilation. -/
structure Settings where
  switches : Switches := .standard
  /-- The operating system and the processor of the machine that the program will run on. -/
  system : String := ""
  processor : String := ""
  target : Target := .i386
  /-- The size of a word in the language. -/
  wordSize : Int := 4
  /-- What every symbol of the program starts with. -/
  symbolStart : String := ""
  /-- The switches at the time when they were offered on a command line. -/
  offered : Option Switches := none

/-- Why settings cannot be changed as asked. -/
inductive SettingsError where
  | unsupportedTarget (name : String)
  deriving DecidableEq, Repr

/-- The wording of an error about settings. -/
def SettingsError.message : SettingsError → String
  | .unsupportedTarget name =>
    "unsupported target '" ++ name ++ "'. Supported: " ++ Target.supportedNames

namespace Settings

def setFeature (s : Settings) (f : Feature) (on : Bool) : Settings :=
  { s with switches.feature := fun g => if g = f then on else s.switches.feature g }

def setWarning (s : Settings) (w : Warning) (on : Bool) : Settings :=
  { s with switches.warning := fun v => if v = w then on else s.switches.warning v }

def allows (s : Settings) (f : Feature) : Bool := s.switches.feature f

/-- Is a warning reported: it is on, or `pedantic` asks for every other one? -/
def reports (s : Settings) (w : Warning) : Bool :=
  s.switches.warning w || (s.switches.warning .pedantic && w != .pedantic)

/-- As `allows`, for a number: what is no feature is not allowed. -/
def allowsNumber (s : Settings) (n : Int) : Bool :=
  match Feature.ofNumber? n with
  | some f => s.allows f
  | none => false

/-- As `reports`, for a number: `pedantic` asks also for what is no warning. -/
def reportsNumber (s : Settings) (n : Int) : Bool :=
  match Warning.ofNumber? n with
  | some w => s.reports w
  | none => s.switches.warning .pedantic

/-- The beginning of symbols on a system. -/
def symbolStartOn (system : String) : String := if system = "darwin" then "_" else ""

/-- Selects a system and a machine. The system and the processor are noted in any case; the rest
    follows only if the machine is supported. -/
def select (s : Settings) (system processor name : String) :
    Settings × Option SettingsError :=
  let s := { s with system, processor }
  match Target.ofName? name with
  | none => (s, some (.unsupportedTarget name))
  | some t =>
    ({ s with target := t, wordSize := t.wordSize, symbolStart := symbolStartOn system }, none)

end Settings

/-! ## Directives -/

/-- A request to switch something on or off. -/
inductive Directive where
  | everyWarning (on : Bool)
  | warning (name : String) (on : Bool)
  | feature (name : String) (on : Bool)
  deriving DecidableEq, Repr

namespace Directive

/-- A request about the warning `name`, where `all` stands for every warning. -/
def ofWarningName (name : List Char) (on : Bool) : Directive :=
  if name = "all".toList then .everyWarning on else .warning (String.ofList name) on

/-- Reads `Wname`, `Wno-name`, `Fname` and `Fno-name`; any other text is the name of a warning. -/
def ofBody : List Char → Directive
  | 'W' :: 'n' :: 'o' :: '-' :: name => ofWarningName name false
  | 'W' :: name => ofWarningName name true
  | 'F' :: 'n' :: 'o' :: '-' :: name => .feature (String.ofList name) false
  | 'F' :: name => .feature (String.ofList name) true
  | name => ofWarningName name true

/-- Reads a directive; one leading dash is optional. -/
def ofField : List Char → Directive
  | '-' :: body => ofBody body
  | body => ofBody body

/-- Is the field one of the two that are applied before all others? -/
def isBroad (field : List Char) : Bool :=
  field == "-Wall".toList || field == "-Wno-all".toList

end Directive

namespace Settings

/-- Applies a directive. A name that nothing has is ignored, and `pedantic` is not among the
    warnings that `all` stands for. -/
def apply (s : Settings) : Directive → Settings
  | .everyWarning on =>
    { s with switches.warning := fun w => if w = .pedantic then s.switches.warning w else on }
  | .warning name on =>
    match Warning.ofName? name with
    | some w => s.setWarning w on
    | none => s
  | .feature name on =>
    match Feature.ofName? name with
    | some f => s.setFeature f on
    | none => s

/-- Applies the directives in a text: first the two that speak of all warnings, then the others,
    each in the order of the text. -/
def applyText (s : Settings) (text : String) : Settings :=
  let fields := Text.words text.toList
  let ordered := fields.filter Directive.isBroad ++ fields.filter (! Directive.isBroad ·)
  (ordered.map Directive.ofField).foldl apply s

end Settings

end MiniCompiler
