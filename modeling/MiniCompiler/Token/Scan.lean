import MiniCompiler.Text.Letter
import MiniCompiler.Token

/-!
# Scanning a text into tokens

A `Cursor` is the text still to be read and the place it starts at. `Cursor.skipGap` passes over
white space and comments, `Lexeme.ofChars` reads the lexeme that starts at the cursor, and
`Cursor.next` joins the two. `scan` reads a whole text: every step but the last consumes a
character, which is why it ends.
-/

namespace MiniCompiler

open Text

/-! ## Places -/

/-- A line and a column, both counted from 1. -/
structure Place where
  line : Nat := 1
  column : Nat := 1
  deriving DecidableEq, Repr, Inhabited

/-- The place after a character. -/
def Place.after (p : Place) (c : Char) : Place :=
  if c = '\n' then ⟨p.line + 1, 1⟩ else ⟨p.line, p.column + 1⟩

def Place.afterAll (p : Place) (cs : List Char) : Place := cs.foldl Place.after p

@[simp]
theorem Place.afterAll_nil (p : Place) : p.afterAll [] = p := rfl

@[simp]
theorem Place.afterAll_append (p : Place) (cs ds : List Char) :
    p.afterAll (cs ++ ds) = (p.afterAll cs).afterAll ds := by
  simp [afterAll]

/-- A position of the given length at a place of a file. -/
def Place.pos (p : Place) (file : Int) (length : Nat) : Pos := ⟨file, p.line, p.column, length⟩

/-! ## Gaps -/

/-- The text still to be read, and its place. -/
structure Cursor where
  rest : List Char
  place : Place := {}
  deriving DecidableEq, Repr, Inhabited

/-- Is `c` white space between tokens? -/
def isSpace (c : Char) : Bool := c == ' ' || c == '\t' || c == '\n' || c == '\r' || c == '\x0c'

/-- What the characters before the next token belong to. -/
inductive Gap where
  | space
  | lineComment
  | blockComment (start : Place)
  deriving DecidableEq, Repr

/-- Passes over white space and comments. The second component is the place of a block comment that
    is not closed. Line comments count only if `lineComments` says so. -/
def skipGapFrom (lineComments : Bool) : Gap → List Char → Place → Cursor × Option Place
  | .space, '/' :: '*' :: cs, p =>
    skipGapFrom lineComments (.blockComment p) cs (p.afterAll ['/', '*'])
  | .space, '/' :: '/' :: cs, p =>
    if lineComments then skipGapFrom lineComments .lineComment cs (p.afterAll ['/', '/'])
    else (⟨'/' :: '/' :: cs, p⟩, none)
  | .space, c :: cs, p =>
    if isSpace c then skipGapFrom lineComments .space cs (p.after c) else (⟨c :: cs, p⟩, none)
  | .space, [], p => (⟨[], p⟩, none)
  | .lineComment, c :: cs, p =>
    skipGapFrom lineComments (if c = '\n' then .space else .lineComment) cs (p.after c)
  | .lineComment, [], p => (⟨[], p⟩, none)
  | .blockComment _, '*' :: '/' :: cs, p =>
    skipGapFrom lineComments .space cs (p.afterAll ['*', '/'])
  | .blockComment start, c :: cs, p =>
    skipGapFrom lineComments (.blockComment start) cs (p.after c)
  | .blockComment start, [], p => (⟨[], p⟩, some start)

/-- Passes over the white space and the comments at a cursor. -/
def Cursor.skipGap (lineComments : Bool) (c : Cursor) : Cursor × Option Place :=
  skipGapFrom lineComments .space c.rest c.place

theorem skipGapFrom_length_le (lineComments : Bool) (g : Gap) (cs : List Char) (p : Place) :
    (skipGapFrom lineComments g cs p).1.rest.length ≤ cs.length := by
  fun_induction skipGapFrom lineComments g cs p <;> simp_all <;> omega

/-! ## Lexemes -/

/-- Why a text cannot be scanned. -/
inductive LexicalError where
  | unterminatedComment
  | malformedNumber (spelling : List Char)
  | singleBar
  | unexpected (c : Char)
  deriving DecidableEq, Repr

def LexicalError.message : LexicalError → String
  | .unterminatedComment => "Unterminated block comment"
  | .malformedNumber spelling => "Malformed number '" ++ String.ofList spelling ++ "'"
  | .singleBar => "Unexpected character: '|' (did you mean '||'?)"
  | .unexpected c => "Unexpected character: '" ++ String.singleton c ++ "'"

/-- A lexeme: its kind, the value of its token, and the characters it is made of. -/
structure Lexeme where
  kind : TokenKind
  value : String := ""
  chars : List Char
  deriving DecidableEq, Repr

/-- Can a word start with `c`? -/
def isWordStart (c : Char) : Bool := isLetter c || c == '_'

/-- Can a word go on with `c`? -/
def isWordChar (c : Char) : Bool := isLetter c || isDigit c || c == '_'

def Lexeme.illegal (e : LexicalError) (chars : List Char) : Lexeme := ⟨.illegal, e.message, chars⟩

/-- A keyword or an identifier. -/
def Lexeme.word (chars : List Char) : Lexeme :=
  ⟨.ofWord (String.ofList chars), String.ofList chars, chars⟩

/-- A number: the longest run of digits, illegal as a whole word if a letter or `_` follows it. -/
def Lexeme.number (cs : List Char) : Lexeme :=
  let digits := cs.takeWhile isDigit
  match (cs.dropWhile isDigit).head?.map isWordStart with
  | some true =>
    let word := cs.takeWhile isWordChar
    .illegal (.malformedNumber word) word
  | _ => ⟨.number, String.ofList digits, digits⟩

/-- An operator or punctuation, two characters where they fit. -/
def Lexeme.symbol : Char → List Char → Lexeme
  | '=', '=' :: _ => ⟨.equal, "", ['=', '=']⟩
  | '!', '=' :: _ => ⟨.notEqual, "", ['!', '=']⟩
  | '<', '=' :: _ => ⟨.lessEqual, "", ['<', '=']⟩
  | '>', '=' :: _ => ⟨.greaterEqual, "", ['>', '=']⟩
  | '&', '&' :: _ => ⟨.andAnd, "", ['&', '&']⟩
  | '|', '|' :: _ => ⟨.orOr, "", ['|', '|']⟩
  | '(', _ => ⟨.leftParen, "", ['(']⟩
  | ')', _ => ⟨.rightParen, "", [')']⟩
  | '\x7b', _ => ⟨.leftBrace, "", ['\x7b']⟩
  | '\x7d', _ => ⟨.rightBrace, "", ['\x7d']⟩
  | ';', _ => ⟨.semicolon, "", [';']⟩
  | ',', _ => ⟨.comma, "", [',']⟩
  | '+', _ => ⟨.plus, "", ['+']⟩
  | '-', _ => ⟨.minus, "", ['-']⟩
  | '*', _ => ⟨.star, "", ['*']⟩
  | '/', _ => ⟨.slash, "", ['/']⟩
  | '%', _ => ⟨.percent, "", ['%']⟩
  | '=', _ => ⟨.assign, "", ['=']⟩
  | '!', _ => ⟨.not, "", ['!']⟩
  | '<', _ => ⟨.less, "", ['<']⟩
  | '>', _ => ⟨.greater, "", ['>']⟩
  | '&', _ => ⟨.ampersand, "", ['&']⟩
  | '|', _ => .illegal .singleBar ['|']
  | c, _ => .illegal (.unexpected c) [c]

/-- The lexeme that a text starts with. -/
def Lexeme.ofChars : List Char → Lexeme
  | [] => ⟨.endOfFile, "", []⟩
  | c :: cs =>
    if isWordStart c then .word ((c :: cs).takeWhile isWordChar)
    else if isDigit c then .number (c :: cs)
    else .symbol c cs

/-- The token of a lexeme that stands at a place of a file. -/
def Lexeme.token (l : Lexeme) (file : Int) (p : Place) : Token :=
  ⟨l.kind, l.value, p.pos file l.chars.length⟩

/-! ## Scanning -/

/-- How a text is scanned: the number of its file, and whether `//` starts a comment. -/
structure ScanOptions where
  file : Int := 0
  lineComments : Bool := true
  deriving DecidableEq, Repr

/-- The next token at a cursor and the cursor after it. -/
def Cursor.next (o : ScanOptions) (c : Cursor) : Token × Cursor :=
  match c.skipGap o.lineComments with
  | (c, some start) =>
    (⟨.illegal, LexicalError.unterminatedComment.message, start.pos o.file 2⟩, c)
  | (c, none) =>
    let l := Lexeme.ofChars c.rest
    (l.token o.file c.place, ⟨c.rest.drop l.chars.length, c.place.afterAll l.chars⟩)

theorem Lexeme.number_chars_ne_nil {c : Char} {cs : List Char} (h : isDigit c = true) :
    (Lexeme.number (c :: cs)).chars ≠ [] := by
  rw [number]
  split <;> simp [illegal, isWordChar, h]

theorem Lexeme.symbol_chars_ne_nil (c : Char) (cs : List Char) :
    (Lexeme.symbol c cs).chars ≠ [] := by
  fun_cases symbol <;> simp [illegal]

/-- Only the end of the text has an empty lexeme. -/
theorem Lexeme.ofChars_chars_ne_nil {cs : List Char} (h : cs ≠ []) :
    (Lexeme.ofChars cs).chars ≠ [] := by
  cases cs with
  | nil => contradiction
  | cons c cs =>
    rw [ofChars]
    split
    next hc =>
      have : isWordChar c = true := by
        simp only [isWordStart, Bool.or_eq_true] at hc
        rcases hc with hc | hc <;> simp [isWordChar, hc]
      simp [word, this]
    next =>
      split
      next hd => exact number_chars_ne_nil hd
      next => exact symbol_chars_ne_nil c cs

/-- A token that does not end the scan has consumed a character. -/
theorem Cursor.next_length_lt {o : ScanOptions} {c : Cursor}
    (h : (c.next o).1.kind.isLast = false) : (c.next o).2.rest.length < c.rest.length := by
  have hle := skipGapFrom_length_le o.lineComments .space c.rest c.place
  rw [next] at h ⊢
  rw [← skipGap] at hle
  generalize c.skipGap o.lineComments = skipped at h hle ⊢
  obtain ⟨d, open?⟩ := skipped
  cases open? with
  | some start => simp [TokenKind.isLast] at h
  | none =>
    simp only at h hle ⊢
    cases hd : d.rest with
    | nil => simp [hd, Lexeme.ofChars, Lexeme.token, TokenKind.isLast] at h
    | cons x xs =>
      have hne : (Lexeme.ofChars (x :: xs)).chars ≠ [] := Lexeme.ofChars_chars_ne_nil (by simp)
      have hpos := List.length_pos_iff.2 hne
      simp only [hd, List.length_drop, List.length_cons] at hle ⊢
      omega

/-- The tokens from a cursor on, up to and with the first that ends the scan. -/
def Cursor.tokens (o : ScanOptions) (c : Cursor) : List Token :=
  if (c.next o).1.kind.isLast then [(c.next o).1]
  else (c.next o).1 :: Cursor.tokens o (c.next o).2
termination_by c.rest.length
decreasing_by exact Cursor.next_length_lt (by simp_all)

/-- The tokens of a text. The last one is its end or what is illegal in it. -/
def scan (o : ScanOptions) (text : List Char) : List Token := Cursor.tokens o ⟨text, {}⟩

/-- The first `n` tokens from a cursor on, with no regard to ends and illegal tokens. -/
def Cursor.take (o : ScanOptions) : Nat → Cursor → List Token
  | 0, _ => []
  | n + 1, c => (c.next o).1 :: Cursor.take o n (c.next o).2

end MiniCompiler
