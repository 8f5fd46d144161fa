import LispNamespace.Tree.Basic
import LispNamespace.Token.Literal
import LispNamespace.Token.Basic

/-!
# What atomic tokens denote

A symbol token is the name `nil`, a decimal number, or a symbol. Decimal numbers may use digits of
any script. In the name of a symbol a backslash makes the next character part of the name.
-/

namespace LispNamespace

open Text Number

namespace Atom

/-! ## Decimal numbers -/

/-- The sign at the front, true for minus, and the text after it. -/
def splitSign : Text → Bool × Text
  | hyphen :: cs => (true, cs)
  | plus :: cs => (false, cs)
  | cs => (false, cs)

/-- An integer: a sign, digits, and perhaps a point. -/
def integer? (cs : Text) : Option Int :=
  let (negative, body) := splitSign cs
  let digits := body.takeWhile isDigit
  let rest := body.dropWhile isDigit
  if !digits.isEmpty && (rest.isEmpty || rest == ".") then
    some (if negative then -(decimal digits : Int) else decimal digits)
  else none

/-- The power of ten at the end of a number: nothing, or an `e` with an integer. -/
def exponent? : Text → Option Int
  | [] => some 0
  | c :: cs =>
      let (negative, digits) := splitSign cs
      if c == 'e'.toNat && !digits.isEmpty && digits.all isDigit then
        some (if negative then -(decimal digits : Int) else decimal digits)
      else none

/-- The parts of a decimal number: the sign, the digits of its whole and fractional part, and the
power of ten. -/
structure Parts where
  /-- Whether there is a minus. -/
  negative : Bool
  /-- The digits before the point. -/
  whole : Text
  /-- The digits after the point. -/
  fraction : Text
  /-- The power of ten at the end. -/
  exponent : Int

/-- The parts of a decimal number: a sign, digits with or without a point among, before or after
them, and a power of ten. -/
def parts? (cs : Text) : Option Parts :=
  let (negative, body) := splitSign cs
  let whole := body.takeWhile isDigit
  let (fraction, rest) :=
    match body.dropWhile isDigit with
    | fullStop :: after => (after.takeWhile isDigit, after.dropWhile isDigit)
    | after => ([], after)
  if whole.isEmpty && fraction.isEmpty then none
  else (exponent? rest).map fun exponent => ⟨negative, whole, fraction, exponent⟩

/-- Whether the text is a decimal number. -/
def isNumeral (cs : Text) : Bool := (parts? cs).isSome

/-- The number that the parts denote. -/
def Parts.value (p : Parts) : Binary :=
  Binary.ofDecimal p.negative (decimal (p.whole ++ p.fraction)) (p.exponent - p.fraction.length)

/-! ## Symbols -/

/-- The name that a symbol token spells. -/
def symbolName : Text → Text
  | backslash :: c :: cs => c :: symbolName cs
  | c :: cs => c :: symbolName cs
  | [] => []

/-- The tree that a symbol token denotes. -/
def ofSymbolToken (text : Text) : Tree :=
  if text == "nil" then .nil
  else
    match integer? text with
    | some n => .int n
    | none =>
        match parts? text with
        | some p => .float p.value
        | none => .sym (symbolName text)

/-- The integer that a token in base two, eight or sixteen denotes. -/
def ofRadixToken (text : Text) : Tree :=
  let base :=
    if beginsWith text "#b" then 2
    else if beginsWith text "#o" then 8
    else 16
  .int (hexadecimal base (text.drop 2))

/-- The tree that an atomic token denotes, or why it denotes none; nothing for a token that is no
atom. -/
def ofToken? [CharNames] (t : Token) : Option (Except ReadError Tree) :=
  match t.kind with
  | .symbol => some (.ok (ofSymbolToken t.text))
  | .radix => some (.ok (ofRadixToken t.text))
  | .string => some ((Literal.decodeString t.text).map fun value => .lit value t.text)
  | .char => some ((Literal.decodeCharacter t.text).map fun code => .char code t.text)
  | _ => none

end Atom

end LispNamespace
