import LispNamespace.Text.Basic

/-!
# Digits

Decimal digits of every script (general category Nd of Unicode 14) and the hexadecimal, octal and
binary digits of ASCII. The decimal digits of a script are ten consecutive code points, so a
table of the zeros suffices.
-/

namespace LispNamespace.Text

/-- The code points of the zero of each script. -/
def digitZeros : List Nat :=
  [0x30, 0x660, 0x6f0, 0x7c0, 0x966, 0x9e6, 0xa66, 0xae6, 0xb66, 0xbe6, 0xc66, 0xce6, 0xd66,
   0xde6, 0xe50, 0xed0, 0xf20, 0x1040, 0x1090, 0x17e0, 0x1810, 0x1946, 0x19d0, 0x1a80, 0x1a90,
   0x1b50, 0x1bb0, 0x1c40, 0x1c50, 0xa620, 0xa8d0, 0xa900, 0xa9d0, 0xa9f0, 0xaa50, 0xabf0, 0xff10,
   0x104a0, 0x10d30, 0x11066, 0x110f0, 0x11136, 0x111d0, 0x112f0, 0x11450, 0x114d0, 0x11650,
   0x116c0, 0x11730, 0x118e0, 0x11950, 0x11c50, 0x11d50, 0x11da0, 0x16a60, 0x16ac0, 0x16b50,
   0x1d7ce, 0x1d7d8, 0x1d7e2, 0x1d7ec, 0x1d7f6, 0x1e140, 0x1e2f0, 0x1e950, 0x1fbf0]

/-- The value of a decimal digit of any script. -/
def digitValue? (n : Nat) : Option Nat :=
  if n < 0x80 then (if 0x30 ≤ n ∧ n < 0x3a then some (n - 0x30) else none)
  else (digitZeros.find? fun first => decide (first ≤ n ∧ n < first + 10)).map (n - ·)

/-- Whether a code point is a decimal digit of any script. -/
def isDigit (n : Nat) : Bool := (digitValue? n).isSome

/-- The value of an ASCII hexadecimal digit. -/
def hexValue? (n : Nat) : Option Nat :=
  if 0x30 ≤ n ∧ n < 0x3a then some (n - 0x30)
  else if 0x41 ≤ n ∧ n < 0x47 then some (n - 0x41 + 10)
  else if 0x61 ≤ n ∧ n < 0x67 then some (n - 0x61 + 10)
  else none

/-- Whether a code point is an ASCII hexadecimal digit. -/
def isHex (n : Nat) : Bool := (hexValue? n).isSome

/-- Whether a code point is an ASCII octal digit. -/
def isOctal (n : Nat) : Bool := decide (0x30 ≤ n ∧ n < 0x38)

/-- Whether a code point is an ASCII binary digit. -/
def isBinary (n : Nat) : Bool := decide (0x30 ≤ n ∧ n < 0x32)

/-! Each kind of digits has those of the smaller bases. -/

theorem isHex_of_isOctal {c : Nat} (h : isOctal c = true) : isHex c = true := by
  have hrange : 0x30 ≤ c ∧ c < 0x38 := of_decide_eq_true h
  unfold isHex hexValue?
  rw [if_pos (by omega)]
  rfl

theorem isOctal_of_isBinary {c : Nat} (h : isBinary c = true) : isOctal c = true := by
  have hrange : 0x30 ≤ c ∧ c < 0x32 := of_decide_eq_true h
  exact decide_eq_true (by omega)

/-- The number that a row of digits denotes in the given base; code points that are no digit
count as zero. -/
def numeral (base : Nat) (value? : Nat → Option Nat) (digits : Text) : Nat :=
  digits.foldl (fun n c => n * base + (value? c).getD 0) 0

/-- The number that a row of decimal digits denotes. -/
def decimal (digits : Text) : Nat := numeral 10 digitValue? digits

/-- The number that a row of hexadecimal digits denotes in the given base (at most sixteen). -/
def hexadecimal (base : Nat) (digits : Text) : Nat := numeral base hexValue? digits

/-- The lower-case hexadecimal digits of a number, padded with zeros to the given width. -/
def toHex (width n : Nat) : Text :=
  let digits := Nat.toDigits 16 n
  (List.replicate (width - digits.length) '0' ++ digits).map Char.toNat

end LispNamespace.Text
