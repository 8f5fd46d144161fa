import LispNamespace.Text.CharNames
import LispNamespace.Text.Integer
import LispNamespace.Token.Error

/-!
# What string and character literals denote

A literal is decoded character by character. Modifiers stand before a character: control maps a
letter to its control code, meta sets the high bit of an ASCII character of a string, and in a
character literal each modifier that is not control sets a bit of its own above the codes of
characters. A string admits the control and meta modifiers only, and a character of a string that
has no control code refuses control.

An escape may give a character by name. What the names are is left open: every table of names will
do, and a name of several characters is none of a character.
-/

namespace LispNamespace

open Text

namespace Literal

/-! ## Modifiers -/

/-- The modifiers of a character. -/
inductive Modifier where
  | alt
  | super
  | hyper
  | shift
  | control
  | meta_
  deriving DecidableEq, Repr

/-- The bit that stands for a modifier in the code of a character. -/
def Modifier.bit : Modifier → Nat
  | .alt => 0x400000
  | .super => 0x800000
  | .hyper => 0x1000000
  | .shift => 0x2000000
  | .control => 0x4000000
  | .meta_ => 0x8000000

/-- Where a character stands. -/
inductive Setting where
  /-- Inside a string. -/
  | string
  /-- In a character literal of its own. -/
  | character
  deriving DecidableEq, Repr

/-- The letter that a modifier is written with, before a hyphen. -/
def Modifier.letter : Modifier → Char
  | .alt => 'A'
  | .super => 's'
  | .hyper => 'H'
  | .shift => 'S'
  | .control => 'C'
  | .meta_ => 'M'

/-- The modifiers that a character may have. -/
def modifiers : Setting → List Modifier
  | .string => [.control, .meta_]
  | .character => [.alt, .super, .hyper, .shift, .control, .meta_]

/-- The modifier written as a letter and a hyphen. -/
def modifier? (setting : Setting) (letter : Nat) : Option Modifier :=
  (modifiers setting).find? fun modifier => modifier.letter.toNat == letter

/-- The part of a code that names the character, without its modifier bits. -/
def baseCode (code : Nat) : Nat := code % 0x400000

/-- The modifier bits of a code. -/
def modifierBits (code : Nat) : Nat := code - baseCode code

/-- The code with the control modifier applied. -/
def applyControl (setting : Setting) (code : Nat) : Except ReadError Nat :=
  let base := baseCode code
  if base == 0x3f then .ok (127 ||| modifierBits code)
  else if (0x40 ≤ base && base ≤ 0x5f) || (0x61 ≤ base && base ≤ 0x7a) then
    .ok ((base &&& 0x1f) ||| modifierBits code)
  else
    match setting with
    | .string => .error (.invalidControl code)
    | .character => .ok (code ||| Modifier.control.bit)

/-- The code with a modifier applied. -/
def applyModifier (setting : Setting) (modifier : Modifier) (code : Nat) :
    Except ReadError Nat :=
  match modifier, setting with
  | .control, _ => applyControl setting code
  | _, .string => if 128 ≤ code then .error (.invalidMeta code) else .ok (code ||| 0x80)
  | modifier, .character => .ok (code ||| modifier.bit)

/-- Completes a modifier with what the characters after it denote. -/
def modify (setting : Setting) (body : Text) (modifier : Modifier)
    (decoded : Option Nat × Text) : Except ReadError (Option Nat × Text) :=
  match decoded with
  | (none, _) => .error (.modifierOnLineEnd body)
  | (some code, rest) => (applyModifier setting modifier code).map (some ·, rest)

/-- A modifier takes nothing of what follows its character. -/
theorem modify_rest {setting : Setting} {body rest rest' : Text} {modifier : Modifier}
    {code code' : Option Nat}
    (h : modify setting body modifier (code, rest) = .ok (code', rest')) : rest' = rest := by
  cases code with
  | none => simp [modify] at h
  | some n =>
      simp only [modify] at h
      cases ha : applyModifier setting modifier n with
      | error e => simp [ha, Except.map] at h
      | ok m => simp only [ha, Except.map, Except.ok.injEq, Prod.mk.injEq] at h; exact h.2.symm

/-! ## Escapes -/

/-- The letters that stand for another character after a backslash, with its code. -/
def escapedLetters : List (Char × Nat) :=
  [('n', 0x0a), ('t', 0x09), ('r', 0x0d), ('f', 0x0c), ('e', 0x1b), ('a', 0x07), ('s', 0x20),
   ('d', 0x7f)]

/-- The code that a single letter after a backslash stands for. -/
def escapedLetter? (letter : Nat) : Option Nat :=
  (escapedLetters.find? fun entry => entry.1.toNat == letter).map (·.2)

/-- A code given by number, if it is the code of a character. -/
def charCode (n : Nat) : Except ReadError Nat :=
  if n ≤ 0x10ffff then .ok n
  else if n ≤ 0x7fffffff then .error .codeBeyondRange
  else .error .codeOverflow

variable [CharNames]

/-- The code of a character that is given by name, or by its number after `U+`. -/
def namedCode (name : Text) : Except ReadError Nat :=
  if beginsWith name "U+" then
    match integer? 16 (name.drop 2) with
    | none => .error (.unknownName name)
    | some n =>
        if n < -0x80000000 ∨ 0x7fffffff < n then .error .codeOverflow
        else if n < 0 ∨ 0x10ffff < n then .error (.unknownName name)
        else .ok n.toNat
  else
    match CharNames.text? name with
    | some [code] => .ok code
    | some _ => .error (.notOneCharacter name)
    | none => .error (.unknownName name)

/-- What the escape with the letter `c` stands for when `cs` follows: the code, none for an escaped
line end, and how many characters of `cs` belong to the escape. The whole literal is `body`. -/
def escape (body : Text) (c : Nat) (cs : Text) :
    Except ReadError (Option Nat × Nat) :=
  if c == newline then .ok (none, 0)
  else
    match escapedLetter? c with
    | some code => .ok (some code, 0)
    | none =>
        if c == 'x'.toNat then
          let digits := cs.takeWhile isHex
          if digits.isEmpty then .error (.invalidEscape c body)
          else (charCode (hexadecimal 16 digits)).map (some ·, digits.length)
        else if isOctal c then
          let digits := ((c :: cs).takeWhile isOctal).take 3
          (charCode (hexadecimal 8 digits)).map (some ·, digits.length - 1)
        else if c == 'u'.toNat || c == 'U'.toNat then
          let width := if c == 'u'.toNat then 4 else 8
          let digits := cs.take width
          if digits.length == width && digits.all isHex then
            (charCode (hexadecimal 16 digits)).map (some ·, width)
          else .error (.invalidEscape c body)
        else if c == 'N'.toNat && cs.head? == some openBrace then
          let name := cs.tail.takeWhile (· != closeBrace)
          if name.length < cs.tail.length then
            (namedCode name).map (some ·, name.length + 2)
          else .error (.unterminatedName body)
        else .ok (some c, 0)

/-- Decodes an escape after its backslash: the code it stands for, none for an escaped line end,
and the characters after the escape. -/
def decodeEscape (body : Text) : Text → Except ReadError (Option Nat × Text)
  | [] => .error (.danglingEscape body)
  | c :: cs => (escape body c cs).map fun found => (found.1, cs.drop found.2)

/-- Decodes one character with its modifiers: its code, none for an escaped line end, and the
characters after it. -/
def decodeChar (setting : Setting) (body : Text) :
    Text → Except ReadError (Option Nat × Text)
  | backslash :: caret :: cs =>
      if cs.isEmpty then .error (.modifierAlone body)
      else decodeChar setting body cs >>= modify setting body .control
  | backslash :: c :: hyphen :: cs =>
      match modifier? setting c with
      | some modifier =>
          if cs.isEmpty then .error (.modifierAlone body)
          else decodeChar setting body cs >>= modify setting body modifier
      | none => decodeEscape body (c :: hyphen :: cs)
  | backslash :: cs => decodeEscape body cs
  | c :: cs => .ok (some c, cs)
  | [] => .error (.danglingEscape body)

/-! ## Decoding shortens the text -/

theorem decodeEscape_shorter {body cs rest : Text} {code : Option Nat}
    (h : decodeEscape body cs = .ok (code, rest)) : rest.length < cs.length := by
  cases cs with
  | nil => simp [decodeEscape] at h
  | cons c cs =>
      simp only [decodeEscape] at h
      cases he : escape body c cs with
      | error e => simp [he, Except.map] at h
      | ok found =>
          simp only [he, Except.map, Except.ok.injEq, Prod.mk.injEq] at h
          rw [← h.2]
          simp only [List.length_drop, List.length_cons]
          omega

/-- Decoding a character consumes at least one character. -/
theorem decodeChar_shorter {setting : Setting} {body cs rest : Text} {code : Option Nat}
    (h : decodeChar setting body cs = .ok (code, rest)) : rest.length < cs.length := by
  have step : ∀ {tail : Text} {modifier : Modifier} {code : Option Nat} {rest : Text},
      (∀ {code : Option Nat} {rest : Text},
        decodeChar setting body tail = .ok (code, rest) → rest.length < tail.length) →
      (decodeChar setting body tail >>= modify setting body modifier) = .ok (code, rest) →
      rest.length < tail.length := by
    intro tail modifier code rest ih hm
    cases hd : decodeChar setting body tail with
    | error e => simp [hd, bind, Except.bind] at hm
    | ok r =>
        obtain ⟨code₁, rest₁⟩ := r
        simp only [hd, bind, Except.bind] at hm
        rw [modify_rest hm]
        exact ih hd
  fun_induction decodeChar setting body cs generalizing code rest with
  | case1 => simp at h
  | case2 cs _ ih => have := step (fun h => ih h) h; simp; omega
  | case3 => simp at h
  | case4 c cs _ modifier _ _ ih => have := step (fun h => ih h) h; simp; omega
  | case5 c cs _ _ => have := decodeEscape_shorter h; simp at this ⊢; omega
  | case6 cs _ _ => have := decodeEscape_shorter h; simp; omega
  | case7 c cs => simp only [Except.ok.injEq, Prod.mk.injEq] at h; rw [← h.2]; simp
  | case8 => simp at h

/-! ## Whole literals -/

/-- The text that the rest of a string denotes. -/
def decodeAll (body cs : Text) : Except ReadError Text :=
  if cs.isEmpty then .ok []
  else
    match _h : decodeChar .string body cs with
    | .error e => .error e
    | .ok (code, rest) =>
        (decodeAll body rest).map fun codes => code.toList ++ codes
termination_by cs.length
decreasing_by exact decodeChar_shorter _h

/-- The text that a string token denotes. -/
def decodeString (token : Text) : Except ReadError Text :=
  let body := (token.drop 1).dropLast
  decodeAll body body

/-- The code that a character token denotes; an escaped line end denotes a line end. -/
def decodeCharacter (token : Text) : Except ReadError Nat :=
  (decodeChar .character token (token.drop 1)).map fun decoded => decoded.1.getD 0x0a

end Literal

end LispNamespace
