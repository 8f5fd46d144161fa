import LispNamespace.Forms.Binding
import LispNamespace.Forms.Condition
import LispNamespace.Forms.MacroDefinition
import LispNamespace.Forms.Pattern
import LispNamespace.Forms.Quotation

/-!
# Forms with rules of their own

Some heads say which parts of a form are names, bindings, code or data. Each such head has a rule;
several heads may share one.
-/

namespace LispNamespace

/-- The rules for forms of particular heads. -/
inductive FormRule where
  | variable_
  | function
  | alias
  | variableAlias
  | minorMode
  | derivedMode
  | globalizedMode
  | macroDefinition
  | quote
  | functionQuote
  | backquote
  | lambda
  | interactive
  | bindAll
  | bindInOrder
  | cond
  | conditionCase
  | loop
  | conditional
  | localFunctions
  | destructuring
  | patternCase
  | patternLet
  | patternLoop
  | patternLambda
  deriving DecidableEq, Repr, Inhabited

namespace FormRule

/-- Heads of definitions. -/
def definitionHeads : List (Text × FormRule) :=
  [("defvar", .variable_), ("defconst", .variable_), ("defcustom", .variable_),
   ("defvar-local", .variable_), ("defun", .function), ("defun*", .function),
   ("defsubst", .function), ("define-inline", .function), ("cl-defun", .function),
   ("cl-defsubst", .function), ("defalias", .alias), ("defvaralias", .variableAlias),
   ("define-minor-mode", .minorMode), ("define-derived-mode", .derivedMode),
   ("define-globalized-minor-mode", .globalizedMode), ("defmacro", .macroDefinition),
   ("defmacro*", .macroDefinition), ("cl-defmacro", .macroDefinition)]

/-- Heads of quotations, functions and conditions. -/
def basicHeads : List (Text × FormRule) :=
  [("quote", .quote), ("function", .functionQuote), ("\x60", .backquote), ("lambda", .lambda),
   ("interactive", .interactive), ("cond", .cond), ("condition-case", .conditionCase),
   ("condition-case-unless-debug", .conditionCase)]

/-- Heads of forms that bind variables and functions. -/
def bindingHeads : List (Text × FormRule) :=
  [("let", .bindAll), ("let*", .bindInOrder), ("lexical-let", .bindAll),
   ("lexical-let*", .bindInOrder), ("cl-symbol-macrolet", .bindAll), ("dolist", .loop),
   ("dotimes", .loop), ("cl-dolist", .loop), ("cl-dotimes", .loop), ("when-let", .conditional),
   ("if-let", .conditional), ("when-let*", .conditional), ("if-let*", .conditional),
   ("and-let*", .conditional), ("while-let", .conditional), ("cl-flet", .localFunctions),
   ("cl-flet*", .localFunctions), ("cl-labels", .localFunctions), ("cl-macrolet", .localFunctions),
   ("cl-destructuring-bind", .destructuring)]

/-- Heads of forms that match patterns. -/
def patternHeads : List (Text × FormRule) :=
  [("pcase", .patternCase), ("pcase-exhaustive", .patternCase), ("pcase-let", .patternLet),
   ("pcase-let*", .patternLet), ("pcase-dolist", .patternLoop), ("pcase-lambda", .patternLambda)]

/-- The heads that have a rule. -/
def heads : List (Text × FormRule) :=
  definitionHeads ++ basicHeads ++ bindingHeads ++ patternHeads

/-- The rule of a head, if it has one. -/
def ofHead? (head : Text) : Option FormRule := heads.lookup head

/-- Rewrites a form by a rule, given its head and what follows. -/
def convert (rule : FormRule) : Walk → Text → List Tree → Rewrite Tree :=
  match rule with
  | .variable_ => Forms.convertVariable
  | .function => Forms.convertFunction
  | .alias => Forms.convertAlias
  | .variableAlias => Forms.convertVariableAlias
  | .minorMode => Forms.convertMinorMode
  | .derivedMode => Forms.convertDerivedMode
  | .globalizedMode => Forms.convertGlobalizedMode
  | .macroDefinition => Forms.convertMacro
  | .quote => Forms.convertQuote
  | .functionQuote => Forms.convertFunctionQuote
  | .backquote => Forms.convertBackquote
  | .lambda => Forms.convertLambda
  | .interactive => Forms.convertInteractive
  | .bindAll => Forms.convertLet
  | .bindInOrder => Forms.convertLetStar
  | .cond => Forms.convertCond
  | .conditionCase => Forms.convertConditionCase
  | .loop => Forms.convertLoop
  | .conditional => Forms.convertConditional
  | .localFunctions => Forms.convertLocalFunctions
  | .destructuring => Forms.convertDestructuring
  | .patternCase => Forms.convertPatternCase
  | .patternLet => Forms.convertPatternLet
  | .patternLoop => Forms.convertPatternLoop
  | .patternLambda => Forms.convertPatternLambda

end FormRule

end LispNamespace
