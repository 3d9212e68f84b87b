/-!
# Blank characters

The characters that separate words in programs, queries and query files: those with the Unicode
`White_Space` property. The table has 25 characters, and neither U+200B nor U+FEFF is among them.
-/

namespace ProgramQuery

/-- The blank characters as closed ranges of code points, in ascending order. -/
def blankRanges : List (Nat × Nat) :=
  [(0x09, 0x0D), (0x20, 0x20), (0x85, 0x85), (0xA0, 0xA0), (0x1680, 0x1680), (0x2000, 0x200A),
    (0x2028, 0x2029), (0x202F, 0x202F), (0x205F, 0x205F), (0x3000, 0x3000)]

/-- Whether a character only separates words. -/
def isBlank (c : Char) : Bool :=
  blankRanges.any fun range => range.1 ≤ c.toNat && c.toNat ≤ range.2

/-- The characters from the first to the last one that is not blank. -/
def trimBlanks (cs : List Char) : List Char :=
  ((cs.dropWhile isBlank).reverse.dropWhile isBlank).reverse

/-- The text without the blanks at its two ends. -/
def trimmed (s : String) : String :=
  String.ofList (trimBlanks s.toList)

end ProgramQuery
