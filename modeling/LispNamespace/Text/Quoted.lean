import LispNamespace.Text.Digit
import LispNamespace.Text.Printable
import LispNamespace.Text.Punctuation

/-!
# Quoted display

How a text is shown inside a message. It stands between apostrophes, or between double quotes
when it holds an apostrophe and no double quote. The quote in use and the backslash are escaped
with a backslash, line ends and tabs by letter, and other unprintable code points by the shortest
hexadecimal escape that fits.
-/

namespace LispNamespace.Text

/-- The delimiter chosen for a display: the double quote exactly when that avoids an escape. -/
def delimiter (text : Text) : Nat :=
  if text.contains apostrophe && !text.contains doubleQuote then doubleQuote else apostrophe

/-- One code point of a display that is delimited by `delim`. -/
def quotedPoint (delim point : Nat) : Text :=
  if point == delim || point == backslash then [backslash, point]
  else if point == newline then "\\n"
  else if point == carriageReturn then "\\r"
  else if point == 0x09 then "\\t"
  else if isPrintable point then [point]
  else if point < 0x100 then "\\x" ++ toHex 2 point
  else if point < 0x10000 then "\\u" ++ toHex 4 point
  else "\\U" ++ toHex 8 point

/-- The quoted display of a text. -/
def quoted (text : Text) : Text :=
  let delim := delimiter text
  delim :: text.flatMap (quotedPoint delim) ++ [delim]

end LispNamespace.Text
