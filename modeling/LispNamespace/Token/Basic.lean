import LispNamespace.Text.Basic

/-!
# Tokens

A token is a piece of source text with its kind. Five tokens are shorthands: they stand before a
form and abbreviate a list of two elements whose head is a fixed symbol.
-/

namespace LispNamespace

/-- The kinds of tokens. -/
inductive TokenKind where
  /-- The shorthand for a function reference, `#'`. -/
  | functionQuote
  /-- The shorthands for quoted data. -/
  | quote
  /-- The shorthands for the holes of a template. -/
  | unquote
  | openParen
  | closeParen
  | openBracket
  | closeBracket
  /-- A string in double quotes. -/
  | string
  /-- A character after a question mark. -/
  | char
  /-- An integer in base two, eight or sixteen. -/
  | radix
  /-- A symbol or a decimal number. -/
  | symbol
  deriving DecidableEq, Repr, Inhabited

/-- A piece of source text with its kind. -/
structure Token where
  /-- The kind of the token. -/
  kind : TokenKind
  /-- The text of the token. -/
  text : Text
  deriving DecidableEq, Repr, Inhabited

namespace Token

/-- The shorthands, each with the symbol that heads its long form. -/
def shorthands : List (Text × Text) :=
  [("\x27", "quote"), ("\x60", "\x60"), (",", ","), (",@", ",@"), ("#\x27", "function")]

/-- The head of the long form of a shorthand. -/
def longForm? (shorthand : Text) : Option Text := shorthands.lookup shorthand

/-- The shorthand for a list of two elements with the given head. -/
def shorthand? (head : Text) : Option Text :=
  (shorthands.find? fun entry => entry.2 == head).map (·.1)

/-- Whether the token is the dot of a dotted list. -/
def isDot (t : Token) : Bool := t.kind == .symbol && t.text == "."

end Token

end LispNamespace
