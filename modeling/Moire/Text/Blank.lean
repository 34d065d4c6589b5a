/-!
# Blanks

White space of any script, and texts without it at their ends.
-/

namespace Moire

/-- White space of Unicode. -/
def isSpace (c : Char) : Bool :=
  let n := c.toNat
  (9 ≤ n && n ≤ 13) || (0x2000 ≤ n && n ≤ 0x200a) ||
    [0x20, 0x85, 0xa0, 0x1680, 0x2028, 0x2029, 0x202f, 0x205f, 0x3000].contains n

/-- A text without the blanks at its end. -/
def trimEnd (text : String) : String :=
  String.ofList (text.toList.reverse.dropWhile isSpace).reverse

/-- A text without the blanks at its ends. -/
def trimBlanks (text : String) : String :=
  trimEnd (String.ofList (text.toList.dropWhile isSpace))

end Moire
