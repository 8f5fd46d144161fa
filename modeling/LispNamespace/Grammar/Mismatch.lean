import LispNamespace.Tree.Display

/-!
# Why arguments do not fit a grammar

The causes for which the arguments of a macro call are not classified, with their wording.
-/

namespace LispNamespace

/-- Why arguments do not fit a grammar. -/
inductive Mismatch where
  /-- The tree is no grammar. -/
  | notAGrammar (spec : Tree)
  /-- Arguments are left over. -/
  | leftOver (count : Nat)
  /-- Elements are nested too deeply. -/
  | tooDeep
  /-- No grammar has the name. -/
  | unknownElement (name : Text)
  /-- No alternative fits. -/
  | noAlternative
  /-- A negation negates nothing. -/
  | emptyNegation
  /-- What must not fit does. -/
  | negated (element : Tree)
  /-- There is no argument for the element. -/
  | missing (element : Tree)
  /-- The element takes a list. -/
  | notAList (element argument : Tree)
  /-- A list has more elements than its grammar. -/
  | extraElements (argument : Tree)
  /-- The element takes one particular symbol. -/
  | notTheSymbol (name : Text) (argument : Tree)
  /-- The element takes a lambda expression. -/
  | notALambda (argument : Tree)
  /-- The argument is not of the kind that the element asks for. -/
  | notOfKind (element : Text) (argument : Tree)
  /-- The tree is no element of a grammar. -/
  | notAnElement (element : Tree)
  deriving Repr, Inhabited

namespace Mismatch

/-- The wording of a cause. -/
def message : Mismatch → Text
  | .notAGrammar spec => "Unsupported grammar " ++ spec.display
  | .leftOver count => toString count ++ " argument(s) left over after matching"
  | .tooDeep => "Grammar nesting is too deep"
  | .unknownElement name => "Unknown grammar element " ++ name
  | .noAlternative => "No &or alternative matched"
  | .emptyNegation => "&not without an element"
  | .negated element => "&not " ++ element.plain ++ " matched"
  | .missing element => "Missing argument for " ++ element.plain
  | .notAList element argument =>
      "Expected a list for " ++ element.plain ++ ", got " ++ argument.display
  | .extraElements argument => "Extra elements in list argument " ++ argument.display
  | .notTheSymbol name argument => "Expected " ++ name ++ ", got " ++ argument.display
  | .notALambda argument => "Expected a lambda expression, got " ++ argument.display
  | .notOfKind element argument => argument.display ++ " does not satisfy " ++ element
  | .notAnElement element => "Unsupported grammar element " ++ element.display

end Mismatch

end LispNamespace
