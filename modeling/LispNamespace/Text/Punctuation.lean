/-!
# Punctuation

The code points of the ASCII characters that have a meaning of their own in source text or on the
command line. They may stand in patterns.
-/

namespace LispNamespace.Text

/-- The end of a line. -/
@[match_pattern] abbrev newline : Nat := 0x0a

/-- The carriage return, which some systems put at the end of a line. -/
@[match_pattern] abbrev carriageReturn : Nat := 0x0d

/-- The double quote, which delimits strings. -/
@[match_pattern] abbrev doubleQuote : Nat := 0x22

/-- The number sign, which begins function quotes and integers in other bases. -/
@[match_pattern] abbrev numberSign : Nat := 0x23

/-- The apostrophe, which quotes the form after it. -/
@[match_pattern] abbrev apostrophe : Nat := 0x27

/-- The opening parenthesis of a list. -/
@[match_pattern] abbrev openParen : Nat := 0x28

/-- The closing parenthesis of a list. -/
@[match_pattern] abbrev closeParen : Nat := 0x29

/-- The plus, a sign of numbers. -/
@[match_pattern] abbrev plus : Nat := 0x2b

/-- The comma, which begins the holes of a template. -/
@[match_pattern] abbrev comma : Nat := 0x2c

/-- The hyphen, also the minus of numbers. -/
@[match_pattern] abbrev hyphen : Nat := 0x2d

/-- The point of numbers and of dotted lists. -/
@[match_pattern] abbrev fullStop : Nat := 0x2e

/-- The semicolon, which begins a comment. -/
@[match_pattern] abbrev semicolon : Nat := 0x3b

/-- The equals sign between a command-line option and its value. -/
@[match_pattern] abbrev equalsSign : Nat := 0x3d

/-- The question mark, which begins a character. -/
@[match_pattern] abbrev questionMark : Nat := 0x3f

/-- The sign after the comma of a spliced hole. -/
@[match_pattern] abbrev atSign : Nat := 0x40

/-- The opening bracket of a vector. -/
@[match_pattern] abbrev openBracket : Nat := 0x5b

/-- The backslash, which escapes the character after it. -/
@[match_pattern] abbrev backslash : Nat := 0x5c

/-- The closing bracket of a vector. -/
@[match_pattern] abbrev closeBracket : Nat := 0x5d

/-- The caret, a way to write the control modifier. -/
@[match_pattern] abbrev caret : Nat := 0x5e

/-- The underscore between digits. -/
@[match_pattern] abbrev underscore : Nat := 0x5f

/-- The backquote, which begins a template. -/
@[match_pattern] abbrev backquote : Nat := 0x60

/-- The opening brace of a named character. -/
@[match_pattern] abbrev openBrace : Nat := 0x7b

/-- The closing brace of a named character. -/
@[match_pattern] abbrev closeBrace : Nat := 0x7d

end LispNamespace.Text
