import LispNamespace.Tree.Basic

/-!
# Elements of argument grammars

A grammar is a tree. A symbol in it names a kind of argument, takes part in the structure of the
grammar when it begins with an ampersand, or refers to another grammar by name. This module says
which symbols are which, and when an argument is of a kind.
-/

namespace LispNamespace.Grammar

/-- The elements that take one argument, which is code. -/
def codeElements : List Text := ["form", "def-form", "function-form", "gv-place", "place"]

/-- The elements that take all remaining arguments, which are code. -/
def bodyElements : List Text := ["body", "def-body"]

/-- Whether an element takes one argument as code; `t` does as well. -/
def isCodeElement (name : Text) : Bool := codeElements.contains name || name == "t"

/-- Whether an element takes all remaining arguments as code. -/
def isBodyElement (name : Text) : Bool := bodyElements.contains name

/-! ## Marks -/

/-- The symbols that take part in the structure of a sequence of elements. -/
inductive Mark where
  /-- Says nothing. -/
  | define
  /-- What follows may be missing. -/
  | optional
  /-- What follows is repeated. -/
  | rest
  /-- One of the elements that follow. -/
  | or
  /-- Anything but what the next element takes. -/
  | not
  deriving DecidableEq, Repr, Inhabited

/-- The names of the marks. -/
def marks : List (Text × Mark) :=
  [("&define", .define), ("&optional", .optional), ("&rest", .rest), ("&or", .or), ("&not", .not)]

/-- The mark that a tree is. -/
def mark? : Tree → Option Mark
  | .sym name => marks.lookup name
  | _ => none

/-! ## Kinds of data -/

/-- Whether the tree is a pair: a non-empty list or a dotted one. -/
def isPair (x : Tree) : Bool :=
  match x with
  | .list (_ :: _) | .dot _ _ => true
  | _ => false

/-- Whether the tree is a list of any kind, dotted ones and nil included. -/
def isListLike (x : Tree) : Bool :=
  match x with
  | .nil | .absent | .list _ | .dot _ _ => true
  | _ => false

/-- Whether the tree is an integer; characters are. -/
def isInteger (x : Tree) : Bool :=
  match x with
  | .int _ | .char _ _ => true
  | _ => false

/-- Whether the tree is a number. -/
def isNumber (x : Tree) : Bool :=
  match x with
  | .float _ => true
  | x => isInteger x

/-- Whether the tree is a vector. -/
def isVector (x : Tree) : Bool :=
  match x with
  | .vec _ => true
  | _ => false

/-- The elements that take one datum of a certain kind, with that kind. -/
def dataKinds : List (Text × (Tree → Bool)) :=
  [("sexp", fun _ => true),
   ("lambda-list", fun x => isListLike x || isVector x),
   ("arg", Tree.isSymbol),
   ("name", Tree.isSymbol),
   ("symbolp", fun x => x.isSymbol || x.isNil),
   ("stringp", Tree.isText),
   ("string-or-null-p", fun x => x.isText || x.isNil),
   ("symbol-or-string", fun x => x.isText || x.isSymbol),
   ("keywordp", Tree.isKeyword),
   ("numberp", isNumber),
   ("integerp", isInteger),
   ("consp", isPair),
   ("listp", isListLike),
   ("atom", fun x => !isPair x),
   ("vectorp", isVector)]

/-- The kind of data that an element takes. -/
def dataKind? (name : Text) : Option (Tree → Bool) := dataKinds.lookup name

end LispNamespace.Grammar
