import LispNamespace.Text.Quoted

/-!
# What can be wrong with source text

The causes for which source text is refused, with their wording. Three causes carry no wording of
their own syntax: a code escape may name a number beyond the last character, one may even be too
large to be a code at all, and the name of a character may be that of several.
-/

namespace LispNamespace

open Text

/-- Why source text cannot be read. -/
inductive ReadError where
  /-- No token begins at the position. -/
  | unexpectedChar (position : Nat) (found : Nat)
  /-- The text ends inside a list. -/
  | unclosedList
  /-- The text ends inside a vector. -/
  | unclosedVector
  /-- A closing parenthesis stands inside a vector. -/
  | mismatchedClose (text : Text)
  /-- A closing token stands where a form should begin. -/
  | unexpectedClose (text : Text)
  /-- A dot is the first thing in a list. -/
  | dotWithoutItem
  /-- A dotted list goes on after its tail. -/
  | unclosedDot
  /-- The text ends after a shorthand with the given long form. -/
  | nothingAfter (head : Text)
  /-- A code escape lacks digits. -/
  | invalidEscape (letter : Nat) (body : Text)
  /-- A named character has no closing brace. -/
  | unterminatedName (body : Text)
  /-- No character has the name. -/
  | unknownName (name : Text)
  /-- A backslash is the last character of a literal. -/
  | danglingEscape (body : Text)
  /-- A modifier is the last thing in a literal. -/
  | modifierAlone (body : Text)
  /-- A modifier stands before an escaped line end. -/
  | modifierOnLineEnd (body : Text)
  /-- The control modifier does not apply to a character of a string. -/
  | invalidControl (code : Nat)
  /-- The meta modifier does not apply to a character of a string. -/
  | invalidMeta (code : Nat)
  /-- The text holds another number of forms than one. -/
  | formCount (count : Nat)
  /-- A code escape names a number beyond the last character. -/
  | codeBeyondRange
  /-- A code escape names a number that is too large to be a code. -/
  | codeOverflow
  /-- The name of a sequence stands where the name of a character should. -/
  | notOneCharacter (name : Text)
  /-- The text is no shorthand. -/
  | unknownShorthand (text : Text)
  deriving DecidableEq, Repr, Inhabited

namespace ReadError

/-- The wording of a cause. -/
def message : ReadError → Text
  | .unexpectedChar position found =>
      "Unexpected char at " ++ toString position ++ ": " ++ quoted [found]
  | .unclosedList => "Unmatched \x27(\x27"
  | .unclosedVector => "Unexpected EOF while reading a list"
  | .mismatchedClose text => "Mismatched closing " ++ quoted text
  | .unexpectedClose text => "Unexpected " ++ quoted text
  | .dotWithoutItem => "Dotted pair without a car"
  | .unclosedDot => "Expected \x27)\x27 after dotted cdr"
  | .nothingAfter head => "Expected an expression after " ++ head
  | .invalidEscape letter body =>
      "Invalid \\" ++ [letter] ++ " escape in " ++ quoted body
  | .unterminatedName body => "Unterminated \\N\x7b...\x7d escape in " ++ quoted body
  | .unknownName name => "Unknown character name " ++ quoted name
  | .danglingEscape body => "Dangling escape in " ++ quoted body
  | .modifierAlone body => "Modifier without a character in " ++ quoted body
  | .modifierOnLineEnd body => "Modifier applied to an escaped newline in " ++ quoted body
  | .invalidControl code =>
      "Invalid control modifier on " ++ quoted [code] ++ " in a string"
  | .invalidMeta code => "Invalid meta modifier on " ++ quoted [code] ++ " in a string"
  | .formCount count => "Expected exactly one form, got " ++ toString count
  | .codeBeyondRange => "Character code beyond the last character"
  | .codeOverflow => "Character code too large"
  | .notOneCharacter name => "Not the name of one character " ++ quoted name
  | .unknownShorthand text => "No reader macro defined for " ++ quoted text

end ReadError

end LispNamespace
