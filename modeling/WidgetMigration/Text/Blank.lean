/-!
# Blanks

The characters with the Unicode property White_Space, which is what the patterns of the rules allow
around a colon or after a comma. The class is wider than `Char.isWhitespace`, which knows only four
of them, and narrower than a reader may expect: the zero-width space U+200B, the byte order mark
U+FEFF and the separators U+001C to U+001F are not in it.
-/

namespace WidgetMigration.Text

/-- The code points with the property White_Space, as closed ranges in increasing order. -/
def blankRanges : List (Nat × Nat) :=
  [(0x09, 0x0D), (0x20, 0x20), (0x85, 0x85), (0xA0, 0xA0), (0x1680, 0x1680), (0x2000, 0x200A),
   (0x2028, 0x2029), (0x202F, 0x202F), (0x205F, 0x205F), (0x3000, 0x3000)]

/-- Whether a character is white space. -/
def isBlank (c : Char) : Bool :=
  blankRanges.any fun r => decide (r.1 ≤ c.toNat) && decide (c.toNat ≤ r.2)

end WidgetMigration.Text
