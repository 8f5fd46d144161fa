import LispNamespace.Text.Affix

/-!
# Blank characters

The characters that separate tokens: the white space of Unicode, with the four information
separators U+001C to U+001F.
-/

namespace LispNamespace.Text

/-- Whether a code point is white space. The zero-width space U+200B and the byte order mark
U+FEFF are not. -/
def isBlank (n : Nat) : Bool :=
  (0x9 ≤ n && n ≤ 0xd) || (0x1c ≤ n && n ≤ 0x20) || n == 0x85 || n == 0xa0 || n == 0x1680 ||
    (0x2000 ≤ n && n ≤ 0x200a) || n == 0x2028 || n == 0x2029 || n == 0x202f || n == 0x205f ||
    n == 0x3000

/-- The text without the blanks at its two ends. -/
def trim (text : Text) : Text :=
  dropLastWhile (text.dropWhile isBlank) isBlank

end LispNamespace.Text
