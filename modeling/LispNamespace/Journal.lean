import LispNamespace.Fault
import LispNamespace.Tree.Source

/-!
# The journal

What a rewrite reports on the way. A warning says that a part of the program was left as it was;
a note says what is being done. Warnings and notes are causes, from which their wording is derived.
A note has a level and belongs to the part of the program that makes it.
-/

namespace LispNamespace

open Text

/-! ## Warnings -/

/-- Why a part of a program was left as it was. -/
inductive Warning where
  /-- The arguments of a macro call do not fit its grammar. -/
  | ambiguousShape (call spec : Tree) (why : Mismatch)
  /-- The head of a call is a list that is no lambda expression. -/
  | compoundHead (head form : Tree)
  deriving Repr, Inhabited

/-- The wording of a warning. -/
def Warning.message : Warning → Text
  | .ambiguousShape call spec why =>
      "Could not classify the arguments of " ++ call.source ++ " with grammar " ++
        spec.source ++ " (" ++ why.message ++ "); leaving the call unmodified"
  | .compoundHead head form =>
      "Unsupported compound head " ++ head.source ++ " in " ++ form.source ++
        "; rewriting each element independently"

/-! ## Notes -/

/-- What is being done. -/
inductive Note where
  /-- The first pass over a number of forms begins. -/
  | discovering (qualifier : Text) (forms : Nat)
  /-- The first pass found so many names. -/
  | discovered (qualifier : Text) (variableCount functionCount macroCount : Nat)
  /-- A form with a rule of its own is rewritten. -/
  | specialForm (qualifier head : Text)
  /-- A macro has no grammar. -/
  | noGrammar (qualifier head : Text)
  /-- A macro definition declares a grammar. -/
  | declaresGrammar (qualifier name : Text) (spec : Tree)
  /-- A declaration of a macro is not known. -/
  | droppedDeclaration (kind : Text) (name : Tree)
  /-- A marker at the end of a body marks nothing. -/
  | trailingMarker
  /-- A namespace form is expanded. -/
  | expanding (name : Tree) (forms : Nat)
  deriving Repr, Inhabited

namespace Note

/-- The part of the program that makes a note. -/
def channel : Note → Text
  | .discovering .. | .discovered .. | .specialForm .. | .noGrammar .. | .declaresGrammar .. =>
      "elnames.rewrite.session"
  | .droppedDeclaration .. => "elnames.builtin.macro_builtin"
  | .trailingMarker => "elnames.rewrite.driver"
  | .expanding .. => "elnames.namespacer"

/-- The wording of a note. -/
def message : Note → Text
  | .discovering qualifier forms =>
      qualifier ++ ": discovery pass over " ++ toString forms ++ " form(s)"
  | .discovered qualifier variableCount functionCount macroCount =>
      qualifier ++ ": " ++ toString variableCount ++ " variable(s), " ++ toString functionCount ++
        " function(s), " ++ toString macroCount ++ " macro(s) found"
  | .specialForm qualifier head => qualifier ++ ": " ++ head ++ " form"
  | .noGrammar qualifier head =>
      qualifier ++ ": no argument grammar for macro " ++ head ++ "; arguments left as they are"
  | .declaresGrammar qualifier name spec =>
      qualifier ++ ": macro " ++ name ++ " declares grammar " ++ spec.display
  | .droppedDeclaration kind name =>
      "Dropping unknown macro declaration " ++ quoted kind ++ " of " ++ name.display
  | .trailingMarker => "Trailing :autoload marker with no form after it"
  | .expanding name forms =>
      "Expanding namespace " ++ name.plain ++ " (" ++ toString forms ++ " body form(s))"

end Note

/-! ## Entries -/

/-- How much a note matters. -/
inductive Level where
  /-- Of interest when looking for a fault. -/
  | debug
  /-- Of interest when asked for. -/
  | info
  deriving DecidableEq, Repr

/-- One entry of a journal. -/
inductive Entry where
  /-- A warning. -/
  | warning (warning : Warning)
  /-- A note. -/
  | note (level : Level) (note : Note)
  deriving Repr

/-- The entries of a journal, the latest first. -/
abbrev Journal := List Entry

namespace Journal

/-- The warnings of a journal in order. -/
def warnings (journal : Journal) : List Warning :=
  journal.reverse.filterMap fun
    | .warning w => some w
    | .note .. => none

/-- The notes of a journal in order, with their levels. -/
def notes (journal : Journal) : List (Level × Note) :=
  journal.reverse.filterMap fun
    | .warning _ => none
    | .note level n => some (level, n)

end Journal

end LispNamespace
