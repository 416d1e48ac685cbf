/-!
# Tokens

A token is a kind, a text and the place in a source file where it was read. The kinds are numbered:
the number is what a token list read from outside carries, so a number that belongs to no kind of
the language is kept as it is.
-/

namespace MiniCompiler

/-! ## Positions -/

/-- Where a token stands: the number of its source file, its line and column (both from 1), and its
    length in characters. -/
structure Pos where
  file : Int := 0
  line : Int := 0
  column : Int := 0
  length : Int := 0
  deriving DecidableEq, Repr, Inhabited

/-! ## Kinds -/

/-- The kinds of tokens. -/
inductive TokenKind where
  | endOfFile
  | illegal
  | identifier
  | number
  | kwInt
  | kwBoolean
  | kwVoid
  | kwIf
  | kwElse
  | kwWhile
  | kwFor
  | kwBreak
  | kwContinue
  | kwReturn
  | kwTrue
  | kwFalse
  | leftParen
  | rightParen
  | leftBrace
  | rightBrace
  | semicolon
  | comma
  | assign
  | plus
  | minus
  | star
  | slash
  | percent
  | ampersand
  | andAnd
  | orOr
  | not
  | equal
  | notEqual
  | less
  | greater
  | lessEqual
  | greaterEqual
  | unknown (code : Int)
  deriving DecidableEq, Repr, Inhabited

namespace TokenKind

/-- The kinds of the language in the order of their numbers, from 0. -/
def numbered : List TokenKind :=
  [.endOfFile, .illegal, .identifier, .number, .kwInt, .kwBoolean, .kwVoid, .kwIf, .kwElse,
   .kwWhile, .kwFor, .kwBreak, .kwContinue, .kwReturn, .kwTrue, .kwFalse, .leftParen, .rightParen,
   .leftBrace, .rightBrace, .semicolon, .comma, .assign, .plus, .minus, .star, .slash, .percent,
   .ampersand, .andAnd, .orOr, .not, .equal, .notEqual, .less, .greater, .lessEqual, .greaterEqual]

/-- The kind with the given number. -/
def ofCode (code : Int) : TokenKind :=
  match code with
  | .ofNat n => (numbered[n]?).getD (.unknown code)
  | .negSucc _ => .unknown code

def code : TokenKind → Int
  | .unknown n => n
  | k => numbered.idxOf k

/-- How a kind is named in a message. For keywords, operators and punctuation this is the
    spelling. -/
def text : TokenKind → String
  | .endOfFile => "end of file"
  | .illegal => "illegal token"
  | .identifier => "identifier"
  | .number => "number"
  | .kwInt => "int"
  | .kwBoolean => "boolean"
  | .kwVoid => "void"
  | .kwIf => "if"
  | .kwElse => "else"
  | .kwWhile => "while"
  | .kwFor => "for"
  | .kwBreak => "break"
  | .kwContinue => "continue"
  | .kwReturn => "return"
  | .kwTrue => "true"
  | .kwFalse => "false"
  | .leftParen => "("
  | .rightParen => ")"
  | .leftBrace => "\x7b"
  | .rightBrace => "\x7d"
  | .semicolon => ";"
  | .comma => ","
  | .assign => "="
  | .plus => "+"
  | .minus => "-"
  | .star => "*"
  | .slash => "/"
  | .percent => "%"
  | .ampersand => "&"
  | .andAnd => "&&"
  | .orOr => "||"
  | .not => "!"
  | .equal => "=="
  | .notEqual => "!="
  | .less => "<"
  | .greater => ">"
  | .lessEqual => "<="
  | .greaterEqual => ">="
  | .unknown n => "token(" ++ toString n ++ ")"

/-- The keywords of the language. -/
def keywords : List TokenKind :=
  [.kwInt, .kwBoolean, .kwVoid, .kwIf, .kwElse, .kwWhile, .kwFor, .kwBreak, .kwContinue, .kwReturn,
   .kwTrue, .kwFalse]

/-- The kind of a word: a keyword or an identifier. -/
def ofWord (word : String) : TokenKind :=
  (keywords.find? (·.text == word)).getD .identifier

/-- Does the kind name a type? -/
def isType (k : TokenKind) : Bool := k == .kwInt || k == .kwBoolean || k == .kwVoid

/-- Does a token of this kind end a scan: the end of the text or something illegal? -/
def isLast (k : TokenKind) : Bool := k == .endOfFile || k == .illegal

end TokenKind

/-! ## Tokens -/

/-- A token. Words and numbers keep their spelling, an illegal token the message about it. -/
structure Token where
  kind : TokenKind
  value : String := ""
  pos : Pos := {}
  deriving DecidableEq, Repr, Inhabited

end MiniCompiler
