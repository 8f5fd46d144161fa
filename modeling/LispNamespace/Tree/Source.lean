import LispNamespace.Tree.Basic
import LispNamespace.Token.Atom
import LispNamespace.Number.Shortest
import LispNamespace.Token.Lexer

/-!
# Trees as source text

The canonical text of a tree stands on one line. Literals print as they were written, a symbol is
escaped where its plain name would read as something else, and a list of two elements whose head
has a shorthand prints with it.
-/

namespace LispNamespace

open Text

namespace Tree

/-! ## Atoms -/

/-- Whether a code point of a symbol needs a backslash; `?` and `#` do so at its start only. -/
def needsEscape (c : Nat) : Bool :=
  isBlank c || ("()[]\x27\",;\x60?#\\" : Text).contains c

/-- The text of a symbol after its first code point. -/
def escapeRest : Text → Text
  | [] => []
  | c :: cs =>
      if needsEscape c && c != questionMark && c != numberSign then backslash :: c :: escapeRest cs
      else c :: escapeRest cs

/-- The text of a symbol. A name that reads as a number or as the dot begins with a backslash, and
the empty name has a notation of its own. -/
def symbolSource (name : Text) : Text :=
  match name with
  | [] => "##"
  | c :: cs =>
      if name == "." || Atom.isNumeral name then backslash :: name
      else if needsEscape c then backslash :: c :: escapeRest cs
      else c :: escapeRest cs

/-- The text of a string made by the program. -/
def stringSource (value : Text) : Text :=
  let escaped := value.flatMap fun c =>
    if c == backslash || c == doubleQuote then [backslash, c] else [c]
  doubleQuote :: escaped ++ [doubleQuote]

/-! ## Lists -/

/-- The shorthand of a list with the given head and number of further elements. -/
def listShorthand? (head : Tree) (others : Nat) : Option Text :=
  match head with
  | .sym name => if others == 1 then Token.shorthand? name else none
  | _ => none

/-- Texts separated by one blank. -/
def spaced (texts : List Text) : Text := (" " : Text).intercalate texts

/-- The text of a list from its head and the texts of its elements. -/
def listSource (head : Tree) (text : Text) (texts : List Text) : Text :=
  match listShorthand? head texts.length with
  | some short => short ++ spaced texts
  | none => openParen :: spaced (text :: texts) ++ [closeParen]

mutual

/-- The canonical text of a tree. -/
def source : Tree → Text
  | .nil | .absent => "nil"
  | .bool value => if value then "t" else "nil"
  | .sym name => symbolSource name
  | .lit _ written | .char _ written => written
  | .str value => stringSource value
  | .int value => toString value
  | .float value => value.display
  | .list items => sourceOfItems items
  | .vec items => openBracket :: spaced (sources items) ++ [closeBracket]
  | .dot items tail =>
      if tail.isNil then sourceOfItems items
      else openParen :: spaced (sources items) ++ " . " ++ source tail ++ [closeParen]

/-- The canonical text of a proper list. -/
def sourceOfItems : List Tree → Text
  | [] => "nil"
  | head :: rest => listSource head (source head) (sources rest)

/-- The canonical texts of several trees. -/
def sources : List Tree → List Text
  | [] => []
  | t :: ts => source t :: sources ts

end

end Tree

end LispNamespace
