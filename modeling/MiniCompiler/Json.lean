import MiniCompiler.Text.Quoted

/-!
# JSON documents

A document is a value; it is written with one member or item on a line. In strings, characters that
could end a piece of markup are written by their code points, and so are the control characters
without a letter of their own.
-/

namespace MiniCompiler

/-- A JSON value. A number is kept as it is written. -/
inductive Json where
  | null
  | bool (b : Bool)
  | number (text : String)
  | string (s : String)
  | array (items : List Json)
  | object (members : List (String × Json))
  deriving Repr, Inhabited

namespace Json

def ofInt (n : Int) : Json := .number (toString n)

/-- Is a character written by its code point although it could stand for itself? -/
def isGuarded (c : Char) : Bool :=
  c == '<' || c == '>' || c == '&' || c.toNat == 0x2028 || c.toNat == 0x2029

/-- A character inside a string. -/
def writeChar (c : Char) : List Char :=
  if c = '"' ∨ c = '\\' then ['\\', c]
  else if c = '\n' then ['\\', 'n']
  else if c = '\r' then ['\\', 'r']
  else if c = '\t' then ['\\', 't']
  else if c.toNat = 0x08 then ['\\', 'b']
  else if c.toNat = 0x0c then ['\\', 'f']
  else if c.toNat < 0x20 || isGuarded c then '\\' :: 'u' :: Text.hexDigits 4 c.toNat
  else [c]

def writeString (s : String) : String :=
  String.ofList ('"' :: s.toList.flatMap writeChar ++ ['"'])

/-- A new line at a depth of nesting. -/
def newline (depth : Nat) : String := "\n" ++ String.ofList (List.replicate (2 * depth) ' ')

/-- Parts between an opening and a closing bracket, each on a line of its own. -/
def enclose (opening closing : String) (depth : Nat) (parts : List String) : String :=
  if parts = [] then opening ++ closing
  else
    opening ++ newline (depth + 1) ++ ("," ++ newline (depth + 1)).intercalate parts ++
      newline depth ++ closing

mutual

/-- The text of a value at a depth of nesting. -/
def writeAt (depth : Nat) : Json → String
  | .null => "null"
  | .bool b => if b then "true" else "false"
  | .number text => text
  | .string s => writeString s
  | .array items => enclose "[" "]" depth (writeItems (depth + 1) items)
  | .object members => enclose "\x7b" "\x7d" depth (writeMembers (depth + 1) members)

def writeItems (depth : Nat) : List Json → List String
  | [] => []
  | v :: vs => writeAt depth v :: writeItems depth vs

def writeMembers (depth : Nat) : List (String × Json) → List String
  | [] => []
  | (name, v) :: ms => (writeString name ++ ": " ++ writeAt depth v) :: writeMembers depth ms

end

def write (v : Json) : String := writeAt 0 v

end Json

end MiniCompiler
