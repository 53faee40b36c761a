/-! # White space and trimming

    The Unicode property White_Space, and the trimming of texts at both
    ends.  `trimEnds` drops any class of characters; `trim` drops white
    space and `trimQuotes` double quotes. -/

namespace Mlog.Text

/-! ## Section 1: The character class -/

/-- The Unicode property White_Space. -/
def isSpace (c : Char) : Bool :=
  let n := c.toNat
  (0x09 ≤ n && n ≤ 0x0D) || n == 0x20 || n == 0x85 || n == 0xA0 || n == 0x1680 ||
  (0x2000 ≤ n && n ≤ 0x200A) || n == 0x2028 || n == 0x2029 || n == 0x202F ||
  n == 0x205F || n == 0x3000

/-! ## Section 2: Trimming -/

/-- Drops the characters of a class from both ends of a text. -/
def trimEnds (p : Char → Bool) (s : List Char) : List Char :=
  ((s.dropWhile p).reverse.dropWhile p).reverse

/-- Drops white space from both ends of a text. -/
def trim (s : String) : String := String.ofList (trimEnds isSpace s.toList)

/-- Drops double quotes from both ends of a text. -/
def trimQuotes (s : String) : String := String.ofList (trimEnds (· == '"') s.toList)

end Mlog.Text
