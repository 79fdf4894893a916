/-!
# Blank — white space in a text

The Unicode property `White_Space` as a table of ranges, and what it makes of a text: whether the text is blank.
-/
namespace DomainModel
namespace Text

/-- **The ranges of `White_Space`**: the first and the last code point of each, in rising order. -/
def blankRanges : List (Nat × Nat) :=
  [(0x09, 0x0d), (0x20, 0x20), (0x85, 0x85), (0xa0, 0xa0), (0x1680, 0x1680), (0x2000, 0x200a), (0x2028, 0x2029),
   (0x202f, 0x202f), (0x205f, 0x205f), (0x3000, 0x3000)]

def isBlank (c : Char) : Bool :=
  blankRanges.any fun r => decide (r.1 ≤ c.toNat) && decide (c.toNat ≤ r.2)

/-- A text is blank when each of its characters is; the empty text is. -/
def isBlankText (text : String) : Bool :=
  text.toList.all isBlank

end Text
end DomainModel
