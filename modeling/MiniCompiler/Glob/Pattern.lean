import MiniCompiler.Text.Utf8

/-!
# Patterns for names

In a pattern `*` stands for any characters, `?` for one, and a list in brackets for one of the
characters in it; a backslash takes the special meaning away. No wildcard stands for a slash.

Stars divide a pattern into segments. A name is matched segment by segment, each at the first place
where it fits, and what is wrong with a segment is found only when it is that segment's turn: a
pattern that is malformed behind a star does no harm to names that fail before it.

Names are bytes. A star may stand for any of them, so that the next segment may begin inside a
character; a byte that is left of it counts as a character then.
-/

namespace MiniCompiler.Glob

/-- What a place in a segment asks for. -/
inductive Item where
  | any
  | literal (b : UInt8)
  | oneOf (negated : Bool) (ranges : List (Char × Char))
  deriving DecidableEq, Repr

/-- A part of a pattern without stars, and whether a star stands before it. A malformed one has no
    items. -/
structure Segment where
  starred : Bool
  items? : Option (List Item)
  deriving DecidableEq, Repr

abbrev Pattern := List Segment

/-! ## Reading patterns -/

/-- A character of a pattern. One that is escaped has no special meaning. -/
structure Symbol where
  char : Char
  escaped : Bool := false
  deriving DecidableEq, Repr

/-- Is a symbol the special character `c`? -/
def Symbol.is (s : Symbol) (c : Char) : Bool := s.char == c && !s.escaped

/-- The symbols of a pattern. A backslash is a symbol only at the end, where it escapes nothing. -/
def symbols : List Char → List Symbol
  | [] => []
  | '\\' :: c :: cs => ⟨c, true⟩ :: symbols cs
  | c :: cs => ⟨c, false⟩ :: symbols cs

/-- The items that ask for a character. -/
def literals (c : Char) : List Item :=
  (Text.encodeUtf8 (String.singleton c)).map .literal

mutual

/-- Reads a segment; `none` if it is malformed. -/
def readItems : List Symbol → Option (List Item)
  | [] => some []
  | s :: ss =>
    if s.is '\\' then none
    else if s.is '?' then (readItems ss).map (.any :: ·)
    else if s.is '[' then
      match ss with
      | [] => none
      | t :: ts => if t.is '^' then readBracket true [] ts else readBracket false [] (t :: ts)
    else (readItems ss).map (literals s.char ++ ·)

/-- Reads on inside brackets, after the given ranges. There is at least one range, and neither a
    dash nor a closing bracket is an end of one. -/
def readBracket (negated : Bool) (ranges : List (Char × Char)) : List Symbol → Option (List Item)
  | [] => none
  | lo :: ss =>
    if lo.is ']' then
      if ranges = [] then none else (readItems ss).map (.oneOf negated ranges.reverse :: ·)
    else if lo.is '-' then none
    else match ss with
      | dash :: hi :: ts =>
        if dash.is '-' then
          if hi.is '-' || hi.is ']' then none
          else readBracket negated ((lo.char, hi.char) :: ranges) ts
        else readBracket negated ((lo.char, lo.char) :: ranges) (dash :: hi :: ts)
      | ts => readBracket negated ((lo.char, lo.char) :: ranges) ts

end

/-- Is one inside brackets after a symbol, if one was before it as `inside` says? -/
def insideAfter (inside : Bool) (s : Symbol) : Bool :=
  if s.is '[' then true else if s.is ']' then false else inside

/-- Reads on in a segment of which the symbols in `back` are read, the last one first. A star inside
    brackets divides nothing, and several stars are as good as one. -/
def segmentsFrom (starred inside : Bool) (back : List Symbol) : List Symbol → Pattern
  | [] => if starred || !back.isEmpty then [⟨starred, readItems back.reverse⟩] else []
  | s :: ss =>
    if s.is '*' && !inside then
      let segments := segmentsFrom true false [] ss
      if back.isEmpty then segments else ⟨starred, readItems back.reverse⟩ :: segments
    else segmentsFrom starred (insideAfter inside s) (s :: back) ss

/-- The segments of a pattern. -/
def Pattern.ofText (text : String) : Pattern := segmentsFrom false false [] (symbols text.toList)

/-! ## Matching names -/

def slash : UInt8 := 0x2F

/-- What is left of a name after items that its beginning matches. -/
def restAfter? : List Item → List UInt8 → Option (List UInt8)
  | [], bytes => some bytes
  | _ :: _, [] => none
  | .any :: items, b :: bytes =>
    if b = slash then none else restAfter? items (Text.splitFirst (b :: bytes)).2
  | .literal x :: items, b :: bytes => if x = b then restAfter? items bytes else none
  | .oneOf negated ranges :: items, b :: bytes =>
    let (c, rest) := Text.splitFirst (b :: bytes)
    if (ranges.any fun (lo, hi) => lo ≤ c && c ≤ hi) != negated then restAfter? items rest
    else none

/-- What is left of a name after the first place where items fit: its beginning, or behind a star any
    place before the next slash. The last items of a pattern leave nothing. -/
def firstFit? (starred last : Bool) (items : List Item) : List UInt8 → Option (List UInt8)
  | [] => restAfter? items []
  | b :: bytes =>
    match (restAfter? items (b :: bytes)).filter fun rest => rest.isEmpty || !last with
    | some rest => some rest
    | none => if starred && b != slash then firstFit? starred last items bytes else none

/-- Does a name match a pattern? `none` if a malformed segment is reached before that is known. -/
def Pattern.fits? : Pattern → List UInt8 → Option Bool
  | [], bytes => some bytes.isEmpty
  | segment :: segments, bytes => do
    let items ← segment.items?
    match firstFit? segment.starred segments.isEmpty items bytes with
    | some rest => Pattern.fits? segments rest
    | none => return false

end MiniCompiler.Glob
