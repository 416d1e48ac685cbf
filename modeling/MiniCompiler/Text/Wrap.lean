import MiniCompiler.Text.Blank
import MiniCompiler.Text.Utf8

/-!
# Wrapping of text

The words of a text are put on lines one after the other, with one space between two words, and a
new line is started where the next word would not fit. Room is counted in bytes; a word that is
longer than a line has a line of its own.
-/

namespace MiniCompiler.Text

def byteCount : List Char → Nat
  | [] => 0
  | c :: cs => c.utf8Size + byteCount cs

@[simp]
theorem byteCount_append (a b : List Char) : byteCount (a ++ b) = byteCount a + byteCount b := by
  induction a with
  | nil => simp [byteCount]
  | cons c a ih => simp [byteCount, ih, Nat.add_assoc]

/-- Fills lines with words. `line` is the line so far, which is not empty. -/
def fillFrom (room : Nat) (line : List Char) : List (List Char) → List (List Char)
  | [] => [line]
  | w :: ws =>
    if byteCount line + 1 + byteCount w ≤ room then fillFrom room (line ++ ' ' :: w) ws
    else line :: fillFrom room w ws

/-- Fills lines with words. -/
def fill (room : Nat) : List (List Char) → List (List Char)
  | [] => []
  | w :: ws => fillFrom room w ws

/-- The room on a line is never less than this. -/
def leastRoom : Nat := 10

/-- Wraps a text to lines of the given width. -/
def wrapText (width : Int) (text : List Char) : List (List Char) :=
  fill (max width leastRoom).toNat (words text)

end MiniCompiler.Text
