import LispNamespace.Number.Binary

/-!
# Shortest decimal display of a number

A finite number is shown with the fewest decimal digits that read back as the same number; of
several such digit rows the one nearest to the number is taken, an exact tie going to the even
last digit. The number stands positionally, with at least one digit on each side of the point,
when its leading digit has a place from `10 ^ (-4)` to `10 ^ 15`, and with an exponent of at least
two digits otherwise.
-/

namespace LispNamespace.Number

/-! ## The digits -/

/-- The place of the leading digit: the `k` with `10 ^ k ≤ num / den < 10 ^ (k + 1)`. -/
def leadingPlace (num den : Nat) : Int :=
  let estimate : Int := (Nat.toDigits 10 num).length - (Nat.toDigits 10 den).length
  let reached :=
    if 0 ≤ estimate then decide (den * powerOfTen estimate.toNat ≤ num)
    else decide (den ≤ num * powerOfTen (-estimate).toNat)
  if reached then estimate else estimate - 1

/-- The two neighbours of a number on a grid, counted in steps of the grid: one is at or below the
number, the other one step above that. -/
structure Neighbours where
  /-- The neighbour at or below the number. -/
  below : Nat
  /-- Whether the upper neighbour is nearer, or even when both are equally near. -/
  preferAbove : Bool

/-- The neighbours of `num / den` on the grid of step `10 ^ place`. -/
def neighbours (num den : Nat) (place : Int) : Neighbours :=
  let (n, d) : Nat × Nat :=
    if 0 ≤ place then (num, den * powerOfTen place.toNat)
    else (num * powerOfTen (-place).toNat, den)
  let below := n / d
  let twice := 2 * (n % d)
  ⟨below, decide (d < twice) || (twice == d && below % 2 == 1)⟩

/-- A digit row of at most `size` digits that reads back as `target`, if there is one: the digits
as a number, and the place of the last digit. -/
def digitsOfSize? (target : Binary) (num den : Nat) (lead : Int) (size : Nat) :
    Option (Nat × Int) :=
  let place := lead - (size : Int) + 1
  let around := neighbours num den place
  let order :=
    if around.preferAbove then [around.below + 1, around.below]
    else [around.below, around.below + 1]
  (order.find? fun digits => Binary.ofDecimal false digits place == target).map (·, place)

/-- The shortest digit row that reads back as the positive number `num / den`, which is
`target`; seventeen digits always do. -/
def shortestDigits (target : Binary) (num den : Nat) : Nat × Int :=
  let lead := leadingPlace num den
  ((List.range 17).findSome? fun i => digitsOfSize? target num den lead (i + 1)).getD (0, 0)

/-! ## The display -/

/-- The exponent, signed and of at least two digits. -/
def showExponent (e : Int) : List Char :=
  let digits := Nat.toDigits 10 e.natAbs
  (if e < 0 then '-' else '+') :: List.replicate (2 - digits.length) '0' ++ digits

/-- A digit row with the point after its first digit and an exponent. -/
def showScientific (digits : List Char) (lead : Int) : List Char :=
  let tail := digits.drop 1
  digits.take 1 ++ (if tail.isEmpty then [] else '.' :: tail) ++ 'e' :: showExponent lead

/-- A digit row in positional notation. -/
def showPositional (digits : List Char) (lead : Int) : List Char :=
  if lead < 0 then '0' :: '.' :: List.replicate (-lead - 1).toNat '0' ++ digits
  else
    let whole := lead.toNat + 1
    let fraction := digits.drop whole
    digits.take whole ++ List.replicate (whole - digits.length) '0' ++ '.' ::
      (if fraction.isEmpty then ['0'] else fraction)

/-- The display of the positive number whose shortest digit row is `digits · 10 ^ place`. -/
def showDigits (digits : Nat) (place : Int) : List Char :=
  let row := Nat.toDigits 10 digits
  let lead := place + row.length - 1
  let significant := (row.reverse.dropWhile (· == '0')).reverse
  -- numbers of moderate size have no exponent
  if -4 ≤ lead ∧ lead < 16 then showPositional significant lead else showScientific significant lead

/-- The shortest decimal display of a number. -/
def Binary.display (b : Binary) : String :=
  match b with
  | .undefined => "nan"
  | .infinite negative => if negative then "-inf" else "inf"
  | .finite negative mantissa exponent =>
      let sign := if negative then ['-'] else []
      let body :=
        if mantissa == 0 then ['0', '.', '0']
        else
          let (num, den) := Binary.scaled mantissa 1 (-exponent)
          let (digits, place) := shortestDigits (.finite false mantissa exponent) num den
          showDigits digits place
      String.ofList (sign ++ body)

end LispNamespace.Number
