import MiniCompiler.Json
import MiniCompiler.Text.Utf8

/-!
# Reading JSON documents

A document is one value with blanks around it. The first character that cannot stand where it stands
is named in the error, together with what was being read.
-/

namespace MiniCompiler

/-- Why a document cannot be read. A wrong escape is given by its characters and, where its last
    character is cut, by the bytes that are left of it. -/
inductive JsonError where
  | unexpected (c : Char) (reading : String)
  | badEscape (whole : List Char) (torn : List UInt8)
  | tooDeep
  | ended
  deriving DecidableEq, Repr

namespace JsonError

/-- A character as errors show it: between single quotes. -/
def showChar (c : Char) : String :=
  if c = '\'' then "'\\''"
  else if c = '"' then "'\"'"
  else "'" ++ String.ofList (Text.quoteChar c) ++ "'"

/-- Can a character of an escape be shown as it is? -/
def isPlain (c : Char) : Bool :=
  Text.isPrintable c && c != ' ' && c != '\x60' && c != Text.replacement

/-- An escape as errors show it: as it is if all its characters allow that, else quoted. -/
def showEscape (whole : List Char) (torn : List UInt8) : String :=
  if torn = [] ∧ whole.all isPlain then "\x60" ++ String.ofList whole ++ "\x60"
  else
    String.ofList
      ('"' :: whole.flatMap Text.quoteChar ++ torn.flatMap Text.quoteByte ++ ['"'])

def message : JsonError → String
  | .unexpected c reading => "invalid character " ++ showChar c ++ " " ++ reading
  | .badEscape whole torn => "invalid escape sequence " ++ showEscape whole torn ++ " in string"
  | .tooDeep => "exceeded max depth"
  | .ended => "unexpected end of JSON input"

end JsonError

namespace Json

def isGap (c : Char) : Bool := c == ' ' || c == '\t' || c == '\n' || c == '\r'

def skipGap (cs : List Char) : List Char := cs.dropWhile isGap

-- What is read from the front of a text is given with the rest of the text.

/-- Refuses the first character of a text. -/
def refuse {α : Type} (reading : String) : List Char → Except JsonError (α × List Char)
  | [] => .error .ended
  | c :: _ => .error (.unexpected c reading)

/-! ## Words, numbers and strings -/

/-- Reads the letters of a word that are left. -/
def readWord {α : Type} (word : String) (v : α) :
    List Char → List Char → Except JsonError (α × List Char)
  | [], cs => .ok (v, cs)
  | w :: ws, cs =>
    match cs with
    | c :: cs =>
      if c = w then readWord word v ws cs
      else
        .error (.unexpected c ("in literal " ++ word ++ " (expecting '" ++ String.singleton w ++ "')"))
    | [] => .error .ended

/-- Reads at least one decimal digit. -/
def readDigits (cs : List Char) : Except JsonError (List Char × List Char) :=
  match cs.takeWhile Char.isDigit with
  | [] => refuse "in numeric literal" cs
  | digits => .ok (digits, cs.dropWhile Char.isDigit)

/-- Reads the whole part of a number, in which a leading zero stands alone. -/
def readWhole : List Char → Except JsonError (List Char × List Char)
  | '0' :: cs => .ok (['0'], cs)
  | cs => readDigits cs

/-- Reads the decimals of a number, if there are any. -/
def readDecimals : List Char → Except JsonError (List Char × List Char)
  | '.' :: cs => do
    let (digits, cs) ← readDigits cs
    return ('.' :: digits, cs)
  | cs => .ok ([], cs)

/-- Reads the exponent of a number, if there is one. -/
def readExponent : List Char → Except JsonError (List Char × List Char)
  | c :: cs =>
    if c = 'e' ∨ c = 'E' then do
      let sign := cs.takeWhile (fun s => s == '+' || s == '-') |>.take 1
      let (digits, cs) ← readDigits (cs.drop sign.length)
      return (c :: sign ++ digits, cs)
    else .ok ([], c :: cs)
  | [] => .ok ([], [])

def readNumber (cs : List Char) : Except JsonError (Json × List Char) := do
  let sign := cs.take (if cs.head? = some '-' then 1 else 0)
  let (whole, cs) ← readWhole (cs.drop sign.length)
  let (decimals, cs) ← readDecimals cs
  let (exponent, cs) ← readExponent cs
  return (.number (String.ofList (sign ++ whole ++ decimals ++ exponent)), cs)

/-- The value of a hexadecimal digit. -/
def hexValue? (c : Char) : Option Nat :=
  if '0' ≤ c ∧ c ≤ '9' then some (c.toNat - '0'.toNat)
  else if 'a' ≤ c ∧ c ≤ 'f' then some (c.toNat - 'a'.toNat + 10)
  else if 'A' ≤ c ∧ c ≤ 'F' then some (c.toNat - 'A'.toNat + 10)
  else none

/-- The character that a letter after a backslash stands for. -/
def escaped? (c : Char) : Option Char :=
  match c with
  | 'b' => some (Char.ofNat 0x08)
  | 'f' => some (Char.ofNat 0x0c)
  | 'n' => some '\n'
  | 'r' => some '\r'
  | 't' => some '\t'
  | '\\' => some '\\'
  | '/' => some '/'
  | '"' => some '"'
  | _ => none

/-- The value of hexadecimal digits, the highest first. -/
def hexNumber? (digits : List Char) : Option Nat :=
  digits.foldlM (fun n c => (hexValue? c).map (n * 16 + ·)) 0

/-- Refuses the escape at the front of a text, which is given by its size in bytes. -/
def refuseEscape {α : Type} (size : Nat) (cs : List Char) : Except JsonError (α × List Char) :=
  let (whole, torn) := Text.takeBytes size cs
  .error (.badEscape whole torn)

/-- Reads a string up to its closing quote. The result are code points, in which a character beyond
    the first plane may be given by two halves. -/
def readUnits : List Char → Except JsonError (List Nat × List Char)
  | [] => .error .ended
  | c :: cs =>
    if c = '"' then .ok ([], cs)
    else if c = '\\' then
      match cs with
      | [] => .error .ended
      | e :: cs =>
        if e = 'u' then
          match cs with
          | h₃ :: h₂ :: h₁ :: h₀ :: rest =>
            match hexNumber? [h₃, h₂, h₁, h₀] with
            | none => refuseEscape 6 ('\\' :: 'u' :: h₃ :: h₂ :: h₁ :: h₀ :: rest)
            | some n => do
              let (units, rest) ← readUnits rest
              return (n :: units, rest)
          | digits =>
            if (hexNumber? digits).isSome then .error .ended
            else refuseEscape 6 ('\\' :: 'u' :: digits)
        else
          match escaped? e with
          | none => refuseEscape 2 ('\\' :: e :: cs)
          | some x => do
            let (units, rest) ← readUnits cs
            return (x.toNat :: units, rest)
    else if c.toNat < 0x20 then .error (.unexpected c "in string")
    else do
      let (units, rest) ← readUnits cs
      return (c.toNat :: units, rest)

def isHighHalf (n : Nat) : Bool := 0xD800 ≤ n && n < 0xDC00

def isLowHalf (n : Nat) : Bool := 0xDC00 ≤ n && n < 0xE000

/-- The characters of code points. Two halves that belong together give one character, and a half
    that stands alone is replaced. -/
def joinHalves : List Nat → List Char
  | [] => []
  | hi :: lo :: rest =>
    if isHighHalf hi && isLowHalf lo then
      Char.ofNat (0x10000 + (hi - 0xD800) * 0x400 + (lo - 0xDC00)) :: joinHalves rest
    else
      (if isHighHalf hi || isLowHalf hi then Text.replacement else Char.ofNat hi) ::
        joinHalves (lo :: rest)
  | [n] => [if isHighHalf n || isLowHalf n then Text.replacement else Char.ofNat n]

/-- Reads a string after its opening quote. -/
def readString (cs : List Char) : Except JsonError (String × List Char) := do
  let (units, rest) ← readUnits cs
  return (String.ofList (joinHalves units), rest)

/-! ## Values -/

/-- How deep arrays and objects may be nested. -/
def deepest : Nat := 10000

mutual

/-- Reads a value in which arrays and objects may be nested `room` deep. `fuel` bounds the number of
    steps. -/
def readValue : (fuel room : Nat) → List Char → Except JsonError (Json × List Char)
  | 0, _, _ => .error .ended
  | fuel + 1, room, cs =>
    match skipGap cs with
    | '\x7b' :: cs =>
      if room = 0 then .error .tooDeep
      else
        match skipGap cs with
        | '\x7d' :: cs => .ok (.object [], cs)
        | cs => do
          let (members, cs) ← readMembers fuel (room - 1) cs
          return (.object members, cs)
    | '[' :: cs =>
      if room = 0 then .error .tooDeep
      else
        match skipGap cs with
        | ']' :: cs => .ok (.array [], cs)
        | cs => do
          let (items, cs) ← readItems fuel (room - 1) cs
          return (.array items, cs)
    | '"' :: cs => do
      let (s, cs) ← readString cs
      return (.string s, cs)
    | 't' :: cs => readWord "true" (.bool true) ['r', 'u', 'e'] cs
    | 'f' :: cs => readWord "false" (.bool false) ['a', 'l', 's', 'e'] cs
    | 'n' :: cs => readWord "null" .null ['u', 'l', 'l'] cs
    | c :: cs =>
      if c = '-' || c.isDigit then readNumber (c :: cs)
      else .error (.unexpected c "looking for beginning of value")
    | [] => .error .ended

/-- Reads the members of an object, of which there is one at least. -/
def readMembers : (fuel room : Nat) → List Char →
    Except JsonError (List (String × Json) × List Char)
  | 0, _, _ => .error .ended
  | fuel + 1, room, cs =>
    match skipGap cs with
    | '"' :: cs => do
      let (name, cs) ← readString cs
      match skipGap cs with
      | ':' :: cs =>
        let (v, cs) ← readValue fuel room cs
        match skipGap cs with
        | ',' :: cs =>
          let (members, cs) ← readMembers fuel room cs
          return ((name, v) :: members, cs)
        | '\x7d' :: cs => return ([(name, v)], cs)
        | cs => refuse "after object key:value pair" cs
      | cs => refuse "after object key" cs
    | cs => refuse "looking for beginning of object key string" cs

/-- Reads the items of an array, of which there is one at least. -/
def readItems : (fuel room : Nat) → List Char → Except JsonError (List Json × List Char)
  | 0, _, _ => .error .ended
  | fuel + 1, room, cs => do
    let (v, cs) ← readValue fuel room cs
    match skipGap cs with
    | ',' :: cs =>
      let (items, cs) ← readItems fuel room cs
      return (v :: items, cs)
    | ']' :: cs => return ([v], cs)
    | cs => refuse "after array element" cs

end

/-- Reads a document. Every step takes a character away, or follows one that did. -/
def read (text : List Char) : Except JsonError Json := do
  let (v, rest) ← readValue (2 * text.length + 2) deepest text
  match skipGap rest with
  | [] => return v
  | c :: _ => .error (.unexpected c "after top-level value")

end Json

end MiniCompiler
