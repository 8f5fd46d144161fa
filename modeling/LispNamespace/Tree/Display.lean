import LispNamespace.Tree.Basic
import LispNamespace.Text.Quoted
import LispNamespace.Number.Shortest

/-!
# Display of trees inside messages

`Tree.display` shows the structure of a tree: every kind of node is recognisable, texts are
quoted. `Tree.plain` is the wording used inside a sentence: a symbol is its name and a string its
text, anything else is displayed.
-/

namespace LispNamespace

open Text

namespace Tree

/-- Items separated by a comma. -/
def commas (items : List Text) : Text := (", " : Text).intercalate items

mutual

/-- The structure of a tree, as shown inside messages. -/
def display : Tree → Text
  | .nil => "nil"
  | .absent => "None"
  | .bool value => if value then "True" else "False"
  | .sym name => "Symbol(" ++ quoted name ++ ")"
  | .lit value source => "StringLiteral(" ++ quoted value ++ ", " ++ quoted source ++ ")"
  | .str value => quoted value
  | .char code source => "CharLiteral(" ++ toString code ++ ", " ++ quoted source ++ ")"
  | .int value => toString value
  | .float value => value.display
  | .list items => "[" ++ commas (displayAll items) ++ "]"
  | .vec items => "Vector([" ++ commas (displayAll items) ++ "])"
  | .dot items tail => "([" ++ commas (displayAll items) ++ "], " ++ display tail ++ ")"

/-- The structures of several trees. -/
def displayAll : List Tree → List Text
  | [] => []
  | t :: ts => display t :: displayAll ts

end

/-- The wording of a tree inside a sentence. -/
def plain (t : Tree) : Text :=
  match t with
  | .sym name => name
  | t => (t.text?).getD t.display

/-- How the front of a tree is shown: the first element of a sequence, the items before a dot, or
the first character of a text. A value that does not count as given is shown whole, and any other
atom has no front. -/
def front? (t : Tree) : Option Text :=
  match t with
  | .list (first :: _) | .vec (first :: _) => some first.display
  | .dot items _ => some (display (.list items))
  | t =>
      match t.text? with
      | some (first :: _) => some (quoted [first])
      | _ => if t.isGiven then none else some t.display

end Tree

end LispNamespace
