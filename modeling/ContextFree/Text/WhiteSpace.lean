namespace ContextFree

/-- The code points with the property White_Space, as ranges with both ends included. -/
def whiteSpaceRanges : List (Nat × Nat) :=
  [(0x0009, 0x000D), (0x0020, 0x0020), (0x0085, 0x0085), (0x00A0, 0x00A0), (0x1680, 0x1680),
    (0x2000, 0x200A), (0x2028, 0x2029), (0x202F, 0x202F), (0x205F, 0x205F), (0x3000, 0x3000)]

/-- Whether a character has the property White_Space. -/
def isWhiteSpace (c : Char) : Bool :=
  whiteSpaceRanges.any fun r => r.1 ≤ c.toNat && c.toNat ≤ r.2

/-- Whether a character separates tokens without being one: white space that ends no line. -/
def isBlank (c : Char) : Bool :=
  isWhiteSpace c && c != '\n'

end ContextFree
