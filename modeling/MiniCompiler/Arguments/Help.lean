import MiniCompiler.Arguments.Flag
import MiniCompiler.Text.Wrap
import MiniCompiler.Word

/-!
# The help page of a command

The page shows the flags of a command in the order of their names, with their usage beside them, and
after them each group of switches with the state that every entry has.
-/

namespace MiniCompiler.Arguments

/-- A command as its help page describes it. -/
structure Application where
  name : String
  synopsis : String := ""
  description : String := ""
  authors : List String := []
  repository : String := ""
  flags : FlagSet := {}
  /-- Puts the entries of a group in the order of their names. Of entries with one name, any may come
      first. -/
  sort : List GroupEntry → List GroupEntry := fun entries => entries.mergeSort fun a b => a.name ≤ b.name

/-- A group without entries has no page. -/
inductive HelpError where
  | emptyGroup (name : String)
  deriving DecidableEq, Repr

/-! ## Entries of the page -/

def margin : String := "        "

def spaces (n : Nat) : String := String.ofList (List.replicate n ' ')

/-- The widest column that can be filled. -/
def widestColumn : Nat := 1000000

/-- A name in a column of `left` characters. A column that is too wide is marked and not filled. -/
def columnText (left : Nat) (name : String) : String :=
  if widestColumn < left then "%!(BADWIDTH)" ++ name else name ++ spaces (left - name.length)

/-- An entry: its name in a column of `left` characters and the usage beside it. -/
def entryLines (width : Int) (left : Nat) (name usage : String) : List String :=
  let lines := (Text.wrapText (wrap (width - 8 - left - 1)) usage.toList).map String.ofList
  (margin ++ columnText left name ++ " " ++ lines.headD "") ::
    lines.tail.map fun line => margin ++ spaces left ++ " " ++ line

namespace Flag

/-- How a flag is written, with the kind of value that it expects. -/
def form (f : Flag) : String :=
  let value := if f.value.isSwitch || f.expects == "" then "" else " <" ++ f.expects ++ ">"
  if f.short = "" then "--" ++ f.name ++ value
  else "-" ++ f.short ++ value ++ ", --" ++ f.name ++ value

/-- The usage of a flag, with its default unless that is empty or a switch. -/
def fullUsage (f : Flag) : String :=
  if f.value.isSwitch || f.initial == "" || f.initial == "[]" then f.usage
  else f.usage ++ " |" ++ f.initial ++ "|"

end Flag

namespace FlagSet

/-- Is a name that of an entry of a group? -/
def isGrouped (s : FlagSet) (name : String) : Bool :=
  s.groups.any fun g => g.entries.any fun e => e.enableName == name || e.disableName == name

/-- The flags that belong to no group, by name. -/
def options (s : FlagSet) : List Flag :=
  (s.flags.filter fun f => !s.isGrouped f.name).mergeSort fun a b => a.name ≤ b.name

/-- The width of the column of names. -/
def column (s : FlagSet) : Nat :=
  ((s.options.map fun f => f.form.utf8ByteSize) ++
    s.groups.flatMap fun g => g.entries.map fun e => e.name.utf8ByteSize).foldl max 0

/-- The state of an entry. -/
def stateMark (s : FlagSet) (e : GroupEntry) : String :=
  if e.enabled.isSome && s.isOn e.enableName then "|x|" else "|-|"

/-- The part of the page on a group, with its entries in the order that `sort` makes. -/
def groupLines (s : FlagSet) (sort : List GroupEntry → List GroupEntry) (width : Int) (left : Nat)
    (g : Group) : Except HelpError (List String) :=
  match g.entries with
  | [] => .error (.emptyGroup g.name)
  | e :: _ =>
    .ok (["", "    " ++ g.name] ++
      entryLines width left ("-" ++ e.lead ++ "<name>") ("Enable a specific " ++ g.kind) ++
      entryLines width left ("-" ++ e.lead ++ "no-<name>") ("Disable a specific " ++ g.kind) ++
      (if g.header = "" then [] else ["    " ++ g.header]) ++
      (sort g.entries).flatMap fun e => entryLines width left e.name (e.usage ++ " " ++ s.stateMark e))

end FlagSet

/-! ## The page -/

namespace Application

/-- The part of the page on the command itself. -/
def headLines (a : Application) (width : Int) : List String :=
  ["", "    " ++ a.name ++ " " ++ a.synopsis] ++
    (if a.description = "" then []
     else ["", "    Description"] ++
       (Text.wrapText (wrap (width - 8)) a.description.toList).map (margin ++ String.ofList ·)) ++
    (if a.authors = [] then []
     else ["", "    Authors: " ++ ", ".intercalate a.authors ++
       if a.repository = "" then "" else " <" ++ a.repository ++ ">"])

/-- The help page, wrapped to a width. -/
def help (a : Application) (width : Int) : Except HelpError String := do
  let left := a.flags.column
  let groups ← a.flags.groups.mapM (a.flags.groupLines a.sort width left)
  let lines := a.headLines width ++ ["", "    Options"] ++
    (a.flags.options.flatMap fun f => entryLines width left f.form f.fullUsage) ++ groups.flatten
  return String.join (lines.map (· ++ "\n"))

/-- What is said after arguments that cannot be read. -/
def usageText (a : Application) (e : ArgumentError) : String :=
  e.message ++ "\nUsage: " ++ a.name ++ " " ++ a.synopsis ++ "\nRun '" ++ a.name ++
    " --help' for all available options and flags.\n"

end Application

/-! ## Starting a command -/

/-- The flag that every command has. -/
def helpFlag : Flag where
  name := "help"
  short := "h"
  usage := "Display this information"
  value := .switch false

/-- How a command starts. -/
inductive Start where
  /-- The flag for help cannot be defined. -/
  | clash (e : DefinitionError)
  | refused (e : ArgumentError)
  | helped (page : Except HelpError String)
  /-- The work begins, with the ordinary arguments. -/
  | work (arguments : List String)
  deriving Repr

/-- The width of a page that no terminal shows. -/
def standardWidth : Int := 80

/-- Starts a command: defines the flag for help and reads the arguments. A short name that is taken
    does not keep the flag out of the set. -/
def Application.start (a : Application) (arguments : List String) : Application × Start :=
  match a.flags.clash? helpFlag with
  | some (.shortTaken short) =>
    ({ a with flags := a.flags.add helpFlag }, .clash (.shortTaken short))
  | some e => (a, .clash e)
  | none =>
    let r := (a.flags.add helpFlag).read arguments
    let a := { a with flags := r.flags }
    (a, match r.error with
      | some e => .refused e
      | none =>
        if r.flags.isOn helpFlag.name then .helped (a.help standardWidth) else .work r.ordinary)

end MiniCompiler.Arguments
