import LispNamespace.Text.Blank
import LispNamespace.Text.Digit
import LispNamespace.Text.Punctuation

/-!
# Integers in free notation

An integer may stand between blanks, with a sign, with single underscores between its digits and
with decimal digits of any script. In base sixteen a `0x` may precede the digits. Before anything
else is looked at, the digits and blanks of other scripts are replaced by those of ASCII, so that
also the zero of a `0x` may be of any script.
-/

namespace LispNamespace.Text

/-- A digit of another script as the ASCII digit of the same value, and a blank of another script
as a space. -/
def toAsciiDigit (point : Nat) : Nat :=
  if point < 0x7f then point
  else if isBlank point then 0x20
  else
    match digitValue? point with
    | some value => '0'.toNat + value
    | none => point

/-- Whether a code point is white space of ASCII; the information separators are none. -/
def isAsciiBlank (point : Nat) : Bool := (0x9 ≤ point && point ≤ 0xd) || point == 0x20

/-- The value of a digit of the given base. -/
def baseDigit? (base point : Nat) : Option Nat :=
  (hexValue? point).filter fun value => value < base

/-- The value of a row of digits with single underscores between them. -/
def groupedDigits? (base : Nat) (afterDigit : Bool) (value : Nat) : Text → Option Nat
  | [] => if afterDigit then some value else none
  | underscore :: cs => if afterDigit then groupedDigits? base false value cs else none
  | c :: cs => (baseDigit? base c).bind fun d => groupedDigits? base true (value * base + d) cs

/-- The digits after an optional `0x`, which an underscore may follow. -/
def dropBaseMark (text : Text) : Text :=
  if beginsWith text "0x" || beginsWith text "0X" then
    match text.drop 2 with
    | underscore :: digits => digits
    | digits => digits
  else text

/-- The integer that a text denotes in the given base. -/
def integer? (base : Nat) (text : Text) : Option Int :=
  let body := dropLastWhile ((text.map toAsciiDigit).dropWhile isAsciiBlank) isAsciiBlank
  let magnitude? := fun cs : Text =>
    groupedDigits? base false 0 (if base == 16 then dropBaseMark cs else cs)
  match body with
  | hyphen :: cs => (magnitude? cs).map fun n => -(n : Int)
  | plus :: cs => (magnitude? cs).map Int.ofNat
  | cs => (magnitude? cs).map Int.ofNat

end LispNamespace.Text
