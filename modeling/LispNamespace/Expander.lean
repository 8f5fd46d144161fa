import LispNamespace.Namespace
import LispNamespace.Tree.Layout
import LispNamespace.Tree.OfTokens

/-!
# Expansion of source text

Source text is expanded form by form: a namespace form is replaced by its rewritten body, and any
other form stays as it is. Given a qualifier, the whole text is taken as the body of one namespace.
The host is kept from one form to the next, so that a macro of one namespace is known to those after
it.
-/

namespace LispNamespace

open Text

/-- What is expanded: every form, or only those that are marked for deferred registration. -/
structure Expander where
  /-- What the surroundings say about options. -/
  ambient : Ambient := {}
  /-- Whether only marked forms are written out. -/
  onlyMarked : Bool := false
  deriving Inhabited

namespace Expander

/-- Whether the tree is a namespace form. -/
def isNamespaceForm (form : Tree) : Bool := form.isHeadedBy "define-namespace"

/-- Rewrites a namespace, as a whole or its marked forms. -/
def rewrite (x : Expander) (identifier : Tree) (options : WrittenOptions) (body : List Tree) :
    Work Tree :=
  if x.onlyMarked then Namespace.autoload x.ambient identifier options body
  else Namespace.rewrite x.ambient identifier options body

/-- Expands one form. -/
def expand (x : Expander) (form : Tree) : Work Tree := do
  match form.tailOf? "define-namespace" with
  | some args =>
      let (identifier, options, body) ← Work.ofOptions (Namespace.parts x.ambient args)
      Work.note (.expanding identifier body.length)
      x.rewrite identifier (.ready options) body
  | none => return form

/-- Expands every form of a text, or the text as the body of one namespace. -/
def expandSource [CharNames] (x : Expander) (source : Text) (qualifier : Option Tree)
    (options : WrittenOptions) : Work (List Tree) := do
  let forms ← Work.ofReading (Tree.readAll source)
  match qualifier with
  | some qualifier => return [← x.rewrite qualifier options forms]
  | none => forms.mapM x.expand

/-- Expands a text and lays the result out. The qualifier marks names for colouring, too. Without a
width, only forms whose layout does not depend on it can be laid out. -/
def rewriteSource [CharNames] (x : Expander) (source : Text) (qualifier : Option Tree)
    (options : WrittenOptions) (width : Option Int) (colour : Bool) : Work Text := do
  let forms ← x.expandSource source qualifier options
  let style : Tree.Style := { colour := colour, qualifier := qualifier.bind Tree.text? }
  match width with
  | some width => return Tree.layoutForms { style with width := width } forms
  | none =>
      if forms.any Tree.usesWidth then throw .widthMissing
      else return Tree.layoutForms style forms

/-- A text with every line end written as a single newline. -/
def unifyLineEnds : Text → Text
  | carriageReturn :: newline :: cs => newline :: unifyLineEnds cs
  | carriageReturn :: cs => newline :: unifyLineEnds cs
  | c :: cs => c :: unifyLineEnds cs
  | [] => []

end Expander

end LispNamespace
