import LispNamespace.Tree.Source

/-!
# Trees laid out over lines

A list that fits into the width stays on one line. Otherwise its first element follows the
parenthesis and each further one stands on a line of its own, indented by two blanks for each
level. Symbols may be coloured by their role; the codes that switch colours take no room.
-/

namespace LispNamespace

open Text

/-! ## Colours -/

namespace Colour

/-- The code that ends a colour. -/
def reset : Text := "\x1b[0m"

/-- The colour of a symbol that carries the qualifier. -/
def qualified : Text := "\x1b[92m"

/-- The colour of quoted symbols. -/
def quotedData : Text := "\x1b[96m"

/-- The colour of special forms. -/
def special : Text := "\x1b[90m"

/-- The colour of any other symbol. -/
def ordinary : Text := "\x1b[94m"

/-- The length of the colour code at the front of a text, zero if there is none: an escape
character, a bracket, digits and an `m`. -/
def codeLength (cs : Text) : Nat :=
  if beginsWith cs "\x1b[" then
    let rest := cs.drop 2
    let digits := Token.countWhile isDigit rest
    if digits != 0 && (rest.drop digits).head? == some 'm'.toNat then digits + 3 else 0
  else 0

/-- The text without its colour codes, after the first `skip` code points have been passed
over. -/
def stripFrom (skip : Nat) : Text → Text
  | [] => []
  | c :: cs =>
      match skip with
      | skip + 1 => stripFrom skip cs
      | 0 =>
          match codeLength (c :: cs) with
          | 0 => c :: stripFrom 0 cs
          | n + 1 => stripFrom n cs

/-- The text without its colour codes. -/
def strip (cs : Text) : Text := stripFrom 0 cs

end Colour

namespace Tree

/-! ## Layout -/

/-- How trees are laid out. -/
structure Style where
  /-- The width that a line should not exceed. -/
  width : Int := 80
  /-- Whether symbols are coloured. -/
  colour : Bool := false
  /-- The beginning of the names that count as qualified. -/
  qualifier : Option Text := none
  deriving Repr, Inhabited

/-- The names shown as special forms. -/
def specialForms : List Text :=
  ["defun", "defmacro", "defvar", "defconst", "defcustom", "defalias", "lambda", "let", "let*",
   "if", "cond", "progn", "quote", "function", "condition-case", "define-minor-mode",
   "define-derived-mode"]

/-- Whether a name carries the qualifier of the style; an empty one marks no name. -/
def Style.marks (style : Style) (name : Text) : Bool :=
  match style.qualifier with
  | some qualifier => !qualifier.isEmpty && beginsWith name qualifier
  | none => false

/-- A symbol in the colour of its role. -/
def colouredSymbol (style : Style) (quoted : Bool) (name : Text) : Text :=
  let text := symbolSource name
  if !style.colour then text
  else
    let code :=
      if style.marks name then Colour.qualified
      else if quoted then Colour.quotedData
      else if specialForms.contains name then Colour.special
      else Colour.ordinary
    code ++ text ++ Colour.reset

/-- Whether a shorthand quotes the form after it. -/
def quotes (short : Text) : Bool :=
  short == "\x27" || short == "\x60"

/-- The blanks before an element of a list at the given level. -/
def margin (indent : Int) : Text := List.replicate (2 * (indent + 1).toNat) 0x20

/-- A list on one line, from the layouts of its elements. -/
def onOneLine (parts : List Text) : Text := openParen :: (spaced parts ++ [closeParen])

/-- A list with each element after the first on a line of its own. -/
def overLines (indent : Int) (first : Text) (others : List Text) : Text :=
  openParen :: (first ++
    others.foldr (fun text rest => newline :: (margin indent ++ (text ++ rest))) [closeParen])

/-- Whether a list with these layouts of elements fits on one line at the given level. -/
def Style.fits (style : Style) (indent : Int) (parts : List Text) : Bool :=
  !parts.any (·.contains newline) &&
    (Colour.strip (onOneLine parts)).length + indent * 2 ≤ style.width

/-- A list from the layouts of its elements: on one line if it fits, else over several. -/
def enclose (style : Style) (indent : Int) (first : Text) (others : List Text) :
    Text :=
  if style.fits indent (first :: others) then onOneLine (first :: others)
  else overLines indent first others

mutual

/-- The layout of a tree at the given level, inside quoted data or not. -/
def layout (style : Style) (indent : Int) (quoted : Bool) : Tree → Text
  | .sym name => colouredSymbol style quoted name
  | .list [] => source (.list [])
  | .list [head, x] =>
      match listShorthand? head 1 with
      -- a shorthand takes no room of its own
      | some short => short ++ layout style indent (quoted || quotes short) x
      | none =>
          enclose style indent (layout style (indent + 1) quoted head)
            [layout style (indent + 1) quoted x]
  | .list (head :: rest) =>
      enclose style indent (layout style (indent + 1) quoted head)
        (layouts style (indent + 1) quoted rest)
  | t => source t

/-- The layouts of several trees. -/
def layouts (style : Style) (indent : Int) (quoted : Bool) : List Tree → List Text
  | [] => []
  | t :: ts => layout style indent quoted t :: layouts style indent quoted ts

end

mutual

/-- Whether the layout of a tree depends on the width: some list in it, other than a shorthand, has
no line end in its elements and so may stand on one line. -/
def usesWidth : Tree → Bool
  | .list [head, x] =>
      match listShorthand? head 1 with
      | some _ => usesWidth x
      | none => !(source (.list [head, x])).contains newline || usesWidth head || usesWidth x
  | .list (head :: rest) =>
      !(source (.list (head :: rest))).contains newline || usesWidth head || anyUsesWidth rest
  | _ => false

/-- Whether the layout of one of several trees depends on the width. -/
def anyUsesWidth : List Tree → Bool
  | [] => false
  | t :: ts => usesWidth t || anyUsesWidth ts

end

/-- The layouts of top-level forms, separated by empty lines. -/
def layoutForms (style : Style) (forms : List Tree) : Text :=
  ("\n\n" : Text).intercalate (layouts style 0 false forms) ++ [newline]

end Tree

end LispNamespace
