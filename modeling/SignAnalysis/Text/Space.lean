/-
White space.

The characters with the Unicode property `White_Space`: 25 code points in ten
ranges.  They are what the end of a text is trimmed of.

* `trimRight` — a text without the white space at its end.
-/

namespace SignAnalysis.Text

/-- The code points with the property `White_Space`, as ranges with their ends. -/
def spaceRanges : List (Nat × Nat) :=
  [(0x9, 0xD), (0x20, 0x20), (0x85, 0x85), (0xA0, 0xA0), (0x1680, 0x1680), (0x2000, 0x200A),
   (0x2028, 0x2029), (0x202F, 0x202F), (0x205F, 0x205F), (0x3000, 0x3000)]

def isSpace (c : Char) : Bool :=
  spaceRanges.any fun r => r.1 ≤ c.toNat && c.toNat ≤ r.2

/-- There are 25 of them. -/
example : (spaceRanges.map fun r => r.2 + 1 - r.1).sum = 25 := by decide

/-- The text without the white space at its end. -/
def trimRight (text : String) : String :=
  String.ofList (text.toList.reverse.dropWhile isSpace).reverse

end SignAnalysis.Text
