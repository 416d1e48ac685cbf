import MiniCompiler.Text.CodeRange

/-!
# Blank characters and words

A blank is a character with the Unicode property White_Space. The words of a text are its longest
runs of characters that are not blank.
-/

namespace MiniCompiler.Text

/-- The ranges of the property White_Space. -/
def blankRanges : List CodeRange := [
    (0x9, 0xd), (0x20, 0x20), (0x85, 0x85), (0xa0, 0xa0), (0x1680, 0x1680), (0x2000, 0x200a),
    (0x2028, 0x2029), (0x202f, 0x202f), (0x205f, 0x205f), (0x3000, 0x3000)]

/-- Does `c` separate words? -/
def isBlank (c : Char) : Bool := CodeRange.anyHolds blankRanges c.toNat

/-- The words of a text, in order. A character joins the word to its right exactly when nothing
blank stands between them. -/
def words : List Char → List (List Char)
  | [] => []
  | c :: cs =>
    if isBlank c then words cs
    else match cs.head?.map isBlank, words cs with
      | some false, w :: ws => (c :: w) :: ws
      | _, ws => [c] :: ws

@[simp]
theorem words_nil : words [] = [] := rfl

end MiniCompiler.Text
