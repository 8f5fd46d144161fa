import LispNamespace.Number.Binary
import LispNamespace.Text.Affix

/-!
# Trees

Programs and their data are trees: atoms, proper lists, vectors and dotted lists. A string or a
character that was read from source keeps the text it was written as, so that it prints back
unchanged. `nil` and the empty list are one value of the language with two representations: the
reader makes `Tree.nil` of both spellings, while `Tree.list []` only arises in trees built by
hand. `Tree.absent` stands for a missing value and also counts as nil.
-/

namespace LispNamespace

open Text Number

/-- A program or a datum. -/
inductive Tree where
  /-- The empty list, as the reader makes it of `nil` and `()`. -/
  | nil
  /-- A missing value. -/
  | absent
  /-- A truth value. -/
  | bool (value : Bool)
  /-- A symbol. -/
  | sym (name : Text)
  /-- A string read from source: the text it denotes and the text it was written as. -/
  | lit (value source : Text)
  /-- A string made by the program. -/
  | str (value : Text)
  /-- A character read from source: its code and the text it was written as. -/
  | char (code : Nat) (source : Text)
  /-- An integer. -/
  | int (value : Int)
  /-- A floating-point number. -/
  | float (value : Binary)
  /-- A proper list. -/
  | list (items : List Tree)
  /-- A vector, which evaluates to itself. -/
  | vec (items : List Tree)
  /-- A dotted list: the items before the dot, and the tail after it. -/
  | dot (items : List Tree) (tail : Tree)
  deriving Inhabited, Repr

namespace Tree

/-! ## Kinds of trees -/

/-- Whether the tree counts as nil. An empty vector does not. -/
def isNil : Tree → Bool
  | .nil | .absent | .list [] => true
  | _ => false

/-- The name of a symbol. -/
def symbol? : Tree → Option Text
  | .sym name => some name
  | _ => none

/-- Whether the tree is a symbol. -/
def isSymbol (t : Tree) : Bool := t.symbol?.isSome

/-- Whether the tree is the symbol of the given name. -/
def isSym (t : Tree) (name : Text) : Bool :=
  match t with
  | .sym other => other == name
  | _ => false

/-- The value of a string of either kind. -/
def text? : Tree → Option Text
  | .str value | .lit value _ => some value
  | _ => none

/-- Whether the tree is a string of either kind. -/
def isText (t : Tree) : Bool := t.text?.isSome

/-- The elements of a list or a vector; nil in its short form has none to offer. -/
def elements? : Tree → Option (List Tree)
  | .list items | .vec items => some items
  | _ => none

/-- The elements of a proper list, nil included; a vector is none. -/
def properList? (t : Tree) : Option (List Tree) :=
  match t with
  | .nil | .absent => some []
  | .list items => some items
  | _ => none

/-- The first element and the others of a non-empty list or vector. -/
def uncons? (t : Tree) : Option (Tree × List Tree) :=
  match t with
  | .list (first :: rest) | .vec (first :: rest) => some (first, rest)
  | _ => none

/-- What follows the head of a list or vector that begins with the symbol of the given name. -/
def tailOf? (t : Tree) (name : Text) : Option (List Tree) :=
  match t.uncons? with
  | some (first, rest) => if first.isSym name then some rest else none
  | none => none

/-- Whether the tree is a list or vector that begins with the symbol of the given name. -/
def isHeadedBy (t : Tree) (name : Text) : Bool := (t.tailOf? name).isSome

/-- What the tree quotes, if it is a list or vector of the symbol `quote` and one more element. -/
def quoted? (t : Tree) : Option Tree :=
  match t.tailOf? "quote" with
  | some [x] => some x
  | _ => none

/-- Whether the tree is a number that equals zero; truth values and characters count by their
codes. -/
def isZero : Tree → Bool
  | .bool value => !value
  | .char code _ => code == 0
  | .int value => value == 0
  | .float value => value.isZero
  | _ => false

/-- Whether a value counts as given: nothing that is nil, false, zero, or empty does. -/
def isGiven (t : Tree) : Bool :=
  match t with
  | .nil | .absent => false
  | .str value | .lit value _ => !value.isEmpty
  | .list items | .vec items => !items.isEmpty
  | t => !t.isZero

/-- Whether a name is a keyword: it begins with a colon. -/
def isKeywordName (name : Text) : Bool := beginsWith name ":"

/-- Whether the tree is a symbol that is a keyword. -/
def isKeyword (t : Tree) : Bool :=
  match t with
  | .sym name => isKeywordName name
  | _ => false

/-- A list, in its short form when it is empty. -/
def ofList (items : List Tree) : Tree := if items.isEmpty then .nil else .list items

/-! ## Building trees -/

/-- The form `(quote x)`. -/
def quote (x : Tree) : Tree := .list [.sym "quote", x]

/-- The call of a named function on the given arguments. -/
def call (head : Text) (args : List Tree) : Tree := .list (.sym head :: args)

end Tree

end LispNamespace
