import LispNamespace.Host.Basic

/-!
# The standard host

The names that every host is taken to know: some functions and variables of the language, and the
macros whose calls have other arguments than forms. Binding macros are rewritten by rules of their
own; their grammars cover calls that do not have the usual shape.
-/

namespace LispNamespace

namespace StandardHost

/-- Functions on lists, and functions that call others. -/
def listFunctions : List Text :=
  ["car", "cdr", "cons", "list", "append", "nth", "nthcdr", "length", "reverse", "mapcar", "mapc",
   "mapconcat", "funcall", "apply", "identity", "ignore"]

/-- Functions on texts and symbols, and functions that report. -/
def textFunctions : List Text :=
  ["format", "message", "error", "user-error", "signal", "concat", "substring", "string-match",
   "match-string", "replace-regexp-in-string", "intern", "symbol-name", "symbol-value", "boundp",
   "fboundp"]

/-- Functions that compare and look up. -/
def lookupFunctions : List Text :=
  ["eq", "equal", "memq", "member", "assq", "assoc", "plist-get", "plist-put", "not", "null"]

/-- Functions on buffers, hooks and features, and functions that change a value. -/
def editorFunctions : List Text :=
  ["insert", "point", "goto-char", "buffer-string", "current-buffer", "add-hook", "remove-hook",
   "run-hooks", "define-key", "make-sparse-keymap", "add-to-list", "provide", "require",
   "autoload", "set", "setcar", "setcdr"]

/-- Functions on numbers. -/
def numberFunctions : List Text :=
  ["1+", "1-", "+", "-", "*", "/", "=", "<", ">", "<=", ">=", "max", "min"]

/-- The functions. -/
def functionNames : List Text :=
  listFunctions ++ textFunctions ++ lookupFunctions ++ editorFunctions ++ numberFunctions

/-- The variables. -/
def variableNames : List Text :=
  ["load-path", "default-directory", "buffer-file-name", "major-mode", "emacs-version",
   "case-fold-search", "inhibit-read-only", "debug-on-error", "most-positive-fixnum",
   "most-negative-fixnum", "system-type"]

/-- The macros that expand as definitions. -/
def definitionMacros : List Text := ["defmacro", "cl-defmacro", "defmacro*"]

/-! ## Grammars -/

/-- One form, then any number of forms. -/
def formThenBody : Tree := .list [.sym "form", .sym "body"]

/-- A list of a variable, a form and perhaps a result form, then any number of forms. -/
def loopShape : Tree :=
  .list
    [.list [.sym "symbolp", .sym "form", .sym "&optional", .sym "form"], .sym "body"]

/-- A form and a place. -/
def formAndPlace : Tree := .list [.sym "form", .sym "gv-place"]

/-- A place. -/
def onePlace : Tree := .list [.sym "gv-place"]

/-- Pairs of a place and a form. -/
def placeFormPairs : Tree := .list [.sym "&rest", .vec [.sym "gv-place", .sym "form"]]

/-- A place and perhaps a form. -/
def placeAndOptionalForm : Tree := .list [.sym "gv-place", .sym "&optional", .sym "form"]

/-- Every argument is code. -/
def everyArgument : Tree := .sym "t"

/-- Any number of forms. -/
def onlyBody : Tree := .list [.sym "body"]

/-- No argument is code. -/
def noArgument : Tree := .int 0

/-- A name, a form, a text, and pairs of a keyword and a form. -/
def declarationShape : Tree :=
  .list
    [.sym "name", .sym "form", .sym "stringp", .sym "&rest", .vec [.sym "keywordp", .sym "form"]]

/-- A form, then clauses of a datum and any number of forms. -/
def caseShape : Tree := .list [.sym "form", .sym "&rest", .list [.sym "sexp", .sym "body"]]

/-- A list of pairs of a datum and a form, then any number of forms. -/
def patternBindings : Tree :=
  .list
    [.list [.sym "&rest", .list [.sym "sexp", .sym "form"]], .sym "body"]

/-- A pair of a datum and a form, then any number of forms. -/
def patternLoop : Tree := .list [.list [.sym "sexp", .sym "form"], .sym "body"]

/-- A datum, then any number of forms. -/
def datumThenBody : Tree := .list [.sym "sexp", .sym "body"]

/-- Pairs of a datum and a form. -/
def datumFormPairs : Tree := .list [.sym "&rest", .vec [.sym "sexp", .sym "form"]]

/-- A datum and a form, then any number of forms. -/
def datumFormBody : Tree := .list [.sym "sexp", .sym "form", .sym "body"]

/-- A list of places, each perhaps with a form, then any number of forms. -/
def placeBindings : Tree :=
  .list
    [.list [.sym "&rest", .list [.sym "gv-place", .sym "&optional", .sym "form"]], .sym "body"]

/-- A datum, a place, then any number of forms. -/
def datumPlaceForms : Tree := .list [.sym "sexp", .sym "gv-place", .sym "&rest", .sym "form"]

/-- A form, a place, then any number of forms. -/
def formPlaceForms : Tree := .list [.sym "form", .sym "gv-place", .sym "&rest", .sym "form"]

/-- A form, a datum and perhaps a form. -/
def formDatumOptionalForm : Tree := .list [.sym "form", .sym "sexp", .sym "&optional", .sym "form"]

/-- At least one form. -/
def someForms : Tree := .list [.sym "form", .sym "&rest", .sym "form"]

/-- A symbol, then any number of forms. -/
def symbolThenBody : Tree := .list [.sym "symbolp", .sym "body"]

/-- A symbol and perhaps a form. -/
def symbolAndOptionalForm : Tree := .list [.sym "symbolp", .sym "&optional", .sym "form"]

/-- Perhaps a form. -/
def optionalForm : Tree := .list [.sym "&optional", .sym "form"]

/-- Macros of everyday code. -/
def plainMacros : List (Text × Tree) :=
  [("when", formThenBody), ("unless", formThenBody), ("dolist", loopShape),
   ("dotimes", loopShape), ("push", formAndPlace), ("pop", onePlace), ("setf", placeFormPairs),
   ("cl-incf", placeAndOptionalForm), ("cl-decf", placeAndOptionalForm),
   ("incf", placeAndOptionalForm), ("decf", placeAndOptionalForm), ("setq-local", everyArgument),
   ("with-temp-buffer", onlyBody), ("with-current-buffer", formThenBody),
   ("with-output-to-string", onlyBody), ("save-match-data", onlyBody),
   ("ignore-errors", onlyBody), ("with-no-warnings", onlyBody),
   ("with-eval-after-load", formThenBody), ("eval-when-compile", onlyBody),
   ("eval-and-compile", onlyBody), ("declare-function", noArgument), ("declare", noArgument),
   ("defgroup", declarationShape), ("defface", declarationShape)]

/-- Macros that choose by cases, match patterns or bind conditionally. -/
def caseMacros : List (Text × Tree) :=
  [("cl-case", caseShape), ("cl-ecase", caseShape), ("cl-typecase", caseShape),
   ("cl-etypecase", caseShape), ("case", caseShape), ("ecase", caseShape), ("pcase", caseShape),
   ("pcase-exhaustive", caseShape), ("pcase-let", patternBindings),
   ("pcase-let*", patternBindings), ("pcase-dolist", patternLoop),
   ("pcase-lambda", datumThenBody), ("pcase-setq", datumFormPairs), ("when-let", datumThenBody),
   ("if-let", datumFormBody), ("when-let*", datumThenBody), ("if-let*", datumFormBody),
   ("and-let*", datumThenBody), ("while-let", datumThenBody)]

/-- Macros that loop, define local functions, bind places or check values. -/
def extensionMacros : List (Text × Tree) :=
  [("cl-dolist", loopShape), ("cl-dotimes", loopShape), ("cl-flet", datumThenBody),
   ("cl-flet*", datumThenBody), ("cl-labels", datumThenBody), ("cl-macrolet", datumThenBody),
   ("cl-symbol-macrolet", datumThenBody), ("cl-destructuring-bind", datumFormBody),
   ("lexical-let", datumThenBody), ("lexical-let*", datumThenBody), ("cl-letf", placeBindings),
   ("cl-letf*", placeBindings), ("cl-callf", datumPlaceForms), ("cl-pushnew", formPlaceForms),
   ("cl-check-type", formDatumOptionalForm), ("cl-assert", someForms),
   ("cl-block", symbolThenBody), ("cl-return-from", symbolAndOptionalForm),
   ("cl-return", optionalForm), ("cl-loop", noArgument), ("cl-do", noArgument),
   ("cl-defstruct", noArgument), ("rx", noArgument)]

/-- The macros with the grammars of their arguments. -/
def macroGrammars : List (Text × Tree) := plainMacros ++ caseMacros ++ extensionMacros

end StandardHost

/-- The host with the standard names. -/
def Host.standard : Host where
  variableNames := StandardHost.variableNames
  functionNames := StandardHost.functionNames
  macros :=
    StandardHost.definitionMacros.map (·, true) ++ StandardHost.macroGrammars.map (·.1, false)
  grammars := StandardHost.macroGrammars

end LispNamespace
