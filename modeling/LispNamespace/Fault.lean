import LispNamespace.Grammar.Mismatch
import LispNamespace.Options.Error
import LispNamespace.Token.Error

/-!
# Faults

Everything that can end an operation before it has a result. Each fault is a cause; its wording is
derived from it.
-/

namespace LispNamespace

/-- Why an operation has no result. -/
inductive Fault where
  /-- Source text cannot be read. -/
  | reading (error : ReadError)
  /-- Options are refused. -/
  | options (error : OptionError)
  /-- Arguments do not fit a grammar. -/
  | mismatch (error : Mismatch)
  /-- A rewrite is still active; the qualifiers are given as they were written. -/
  | stillActive (current next : Tree)
  /-- Nothing expands forms that begin with what is shown. -/
  | notExpandable (front : Text)
  /-- The form has no head at all. -/
  | headless (form : Tree)
  /-- A macro definition lacks its name or its parameters. -/
  | incompleteDefinition
  /-- A grammar is defined by its own name, directly or through others. -/
  | endlessGrammar (name : Text)
  /-- Forms that depend on the width of the output are laid out without one. -/
  | widthMissing
  deriving Repr, Inhabited

namespace Fault

/-- The wording of a fault. -/
def message : Fault → Text
  | .reading error => error.message
  | .options error => error.message
  | .mismatch error => error.message
  | .stillActive current next =>
      "A rewrite for prefix " ++ current.display ++ " is still active; refusing to start one for "
        ++ next.display
  | .notExpandable front => "No macro transformer for " ++ front
  | .headless form => "No head in " ++ form.display
  | .incompleteDefinition => "defmacro requires a name and parameter list"
  | .endlessGrammar name => "Grammar " ++ name ++ " refers to itself"
  | .widthMissing => "No width to lay the forms out in"

end Fault

end LispNamespace
