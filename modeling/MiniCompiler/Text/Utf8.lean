/-!
# Bytes as text

Decoding of UTF-8 that never fails: a byte that starts no well-formed sequence is read as the
replacement character, on its own.
-/

namespace MiniCompiler.Text

/-- The replacement character. -/
def replacement : Char := '�'

/-- Is `b` in the range from `lo` to `hi`? -/
def byteIn (lo hi b : UInt8) : Bool := lo ≤ b && b ≤ hi

/-- The low six bits of a continuation byte. -/
def tailBits (b : UInt8) : Nat := b.toNat % 64

/-- Do two bytes form a character? -/
def isPair (a b : UInt8) : Bool := byteIn 0xC2 0xDF a && byteIn 0x80 0xBF b

/-- Do three bytes form a character? The second byte excludes long forms and surrogates. -/
def isTriple (a b c : UInt8) : Bool :=
  byteIn 0xE0 0xEF a && byteIn 0x80 0xBF b && byteIn 0x80 0xBF c &&
    (a != 0xE0 || 0xA0 ≤ b) && (a != 0xED || b ≤ 0x9F)

/-- Do four bytes form a character? The second byte excludes long forms and what is beyond the last
    code point. -/
def isQuadruple (a b c d : UInt8) : Bool :=
  byteIn 0xF0 0xF4 a && byteIn 0x80 0xBF b && byteIn 0x80 0xBF c && byteIn 0x80 0xBF d &&
    (a != 0xF0 || 0x90 ≤ b) && (a != 0xF4 || b ≤ 0x8F)

/-- The characters of a sequence of bytes. -/
def decodeUtf8 : List UInt8 → List Char
  | [] => []
  | a :: b :: c :: d :: rest =>
    if a < 0x80 then Char.ofNat a.toNat :: decodeUtf8 (b :: c :: d :: rest)
    else if isPair a b then
      Char.ofNat (a.toNat % 32 * 64 + tailBits b) :: decodeUtf8 (c :: d :: rest)
    else if isTriple a b c then
      Char.ofNat (a.toNat % 16 * 4096 + tailBits b * 64 + tailBits c) :: decodeUtf8 (d :: rest)
    else if isQuadruple a b c d then
      Char.ofNat (a.toNat % 8 * 262144 + tailBits b * 4096 + tailBits c * 64 + tailBits d) ::
        decodeUtf8 rest
    else replacement :: decodeUtf8 (b :: c :: d :: rest)
  | a :: b :: c :: rest =>
    if a < 0x80 then Char.ofNat a.toNat :: decodeUtf8 (b :: c :: rest)
    else if isPair a b then
      Char.ofNat (a.toNat % 32 * 64 + tailBits b) :: decodeUtf8 (c :: rest)
    else if isTriple a b c then
      Char.ofNat (a.toNat % 16 * 4096 + tailBits b * 64 + tailBits c) :: decodeUtf8 rest
    else replacement :: decodeUtf8 (b :: c :: rest)
  | a :: b :: rest =>
    if a < 0x80 then Char.ofNat a.toNat :: decodeUtf8 (b :: rest)
    else if isPair a b then Char.ofNat (a.toNat % 32 * 64 + tailBits b) :: decodeUtf8 rest
    else replacement :: decodeUtf8 (b :: rest)
  | a :: rest => (if a < 0x80 then Char.ofNat a.toNat else replacement) :: decodeUtf8 rest

/-- The number of bytes of the first character; a byte that starts no well-formed sequence counts as
    a character. -/
def firstSize : List UInt8 → Nat
  | a :: b :: c :: d :: _ =>
    if isPair a b then 2 else if isTriple a b c then 3 else if isQuadruple a b c d then 4 else 1
  | [a, b, c] => if isPair a b then 2 else if isTriple a b c then 3 else 1
  | [a, b] => if isPair a b then 2 else 1
  | _ => 1

/-- The first character of a sequence of bytes, which is not empty, and the bytes after it. -/
def splitFirst (bytes : List UInt8) : Char × List UInt8 :=
  ((decodeUtf8 (bytes.take (firstSize bytes))).headD replacement, bytes.drop (firstSize bytes))

/-- The bytes of a text. -/
def encodeUtf8 (s : String) : List UInt8 := s.toUTF8.toList

/-- The first `n` bytes of a text: its characters that fit whole, and the bytes of the one that does
    not. -/
def takeBytes : Nat → List Char → List Char × List UInt8
  | _, [] => ([], [])
  | n, c :: cs =>
    if c.utf8Size ≤ n then
      let (whole, torn) := takeBytes (n - c.utf8Size) cs
      (c :: whole, torn)
    else ([], (encodeUtf8 (String.singleton c)).take n)

end MiniCompiler.Text
