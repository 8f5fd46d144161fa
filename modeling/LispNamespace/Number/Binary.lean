/-!
# Binary floating-point numbers

Numbers of 53 significant bits as exact values `± mantissa · 2 ^ exponent`. Every finite number
has one form here: the mantissa has 53 bits, or the exponent is the least one, -1074. A ratio of
integers is rounded to the nearest such number, and of two equally near ones to the number with
the even mantissa.
-/

namespace LispNamespace.Number

/-- The power of two with the given exponent. -/
def powerOfTwo (n : Nat) : Nat := Nat.pow 2 n

/-- The power of ten with the given exponent. -/
def powerOfTen (n : Nat) : Nat := Nat.pow 10 n

/-- A binary floating-point number of 53 significant bits. -/
inductive Binary where
  /-- The number `± mantissa · 2 ^ exponent`. -/
  | finite (negative : Bool) (mantissa : Nat) (exponent : Int)
  /-- One of the two infinities. -/
  | infinite (negative : Bool)
  /-- The value that is no number. -/
  | undefined
  deriving DecidableEq, Repr, Inhabited

namespace Binary

/-- The least exponent of a finite number. -/
def leastExponent : Int := -1074

/-- The greatest exponent of a finite number. -/
def greatestExponent : Int := 971

/-- Mantissas lie below this bound. -/
def mantissaBound : Nat := powerOfTwo 53

/-- `num / den · 2 ^ (-shift)` as a ratio of natural numbers. -/
def scaled (num den : Nat) (shift : Int) : Nat × Nat :=
  if 0 ≤ shift then (num, den * powerOfTwo shift.toNat) else (num * powerOfTwo (-shift).toNat, den)

/-- The quotient rounded to the nearest natural number, a half going to the even one. -/
def roundHalfEven (num den : Nat) : Nat :=
  let q := num / den
  let twice := 2 * (num % den)
  if twice < den || (twice == den && q % 2 == 0) then q else q + 1

/-- The exponent at which the ratio has 53 bits before the point, or the least exponent. -/
def exponentFor (num den : Nat) : Int :=
  let estimate : Int := (Nat.log2 num : Int) - (Nat.log2 den : Int) - 52
  let (n, d) := scaled num den estimate
  max leastExponent (if n / d < powerOfTwo 52 then estimate - 1 else estimate)

/-- The number nearest to `± num / den`. -/
def ofRatio (negative : Bool) (num den : Nat) : Binary :=
  if num == 0 then .finite negative 0 leastExponent
  else
    let exponent := exponentFor num den
    let (n, d) := scaled num den exponent
    let mantissa := roundHalfEven n d
    -- rounding up may need one bit more than there are
    let (mantissa, exponent) :=
      if mantissa == mantissaBound then (mantissa / 2, exponent + 1) else (mantissa, exponent)
    if greatestExponent < exponent then .infinite negative
    else .finite negative mantissa exponent

/-- The number nearest to `± digits · 10 ^ exponent`. Magnitudes far outside the range are
settled without computing the power. -/
def ofDecimal (negative : Bool) (digits : Nat) (exponent : Int) : Binary :=
  let width : Int := (Nat.toDigits 10 digits).length
  if digits == 0 || width + exponent < -400 then .finite negative 0 leastExponent
  else if 400 < width + exponent then .infinite negative
  else if 0 ≤ exponent then ofRatio negative (digits * powerOfTen exponent.toNat) 1
  else ofRatio negative digits (powerOfTen (-exponent).toNat)

/-- Whether the number is zero, of either sign. -/
def isZero : Binary → Bool
  | .finite _ mantissa _ => mantissa == 0
  | _ => false

/-- The number as an exact ratio with a positive denominator, when it is finite. -/
def toRatio? : Binary → Option (Int × Nat)
  | .finite negative mantissa exponent =>
      let magnitude : Int × Nat :=
        if 0 ≤ exponent then (mantissa * powerOfTwo exponent.toNat, 1)
        else (mantissa, powerOfTwo (-exponent).toNat)
      some (if negative then -magnitude.1 else magnitude.1, magnitude.2)
  | _ => none

/-- Numerical equality: zeros of either sign are equal, and `undefined` equals nothing. -/
def equal (a b : Binary) : Bool :=
  match a, b with
  | .undefined, _ => false
  | _, .undefined => false
  | .infinite s, .infinite t => s == t
  | a, b =>
      match a.toRatio?, b.toRatio? with
      | some (n, d), some (n', d') => n * d' == n' * d
      | _, _ => false

/-- Numerical equality with an integer. -/
def equalInt (a : Binary) (n : Int) : Bool :=
  match a.toRatio? with
  | some (num, den) => num == n * den
  | none => false

end Binary

end LispNamespace.Number
