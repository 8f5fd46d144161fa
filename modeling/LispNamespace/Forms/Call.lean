import LispNamespace.Forms.Reference

/-!
# Calls

Every argument of a function call is a form. The arguments of a macro call are classified by the
grammar of the macro; where there is none, or the arguments do not fit it, they are left as they
are.
-/

namespace LispNamespace.Forms

open Rewrite

/-- Rewrites arguments as their grammar says. Arguments that do not fit are left as they are, with
a warning. -/
def convertByGrammar (walk : Walk) (head : Text) (spec : Tree) (args : List Tree) :
    Rewrite (List Tree) := do
  let s ← get
  match Grammar.classify s.grammars spec args with
  | .ok plans => Plan.applyAll walk pure plans args
  | .error (.mismatch why) =>
      warn (.ambiguousShape (Tree.call head args) spec why)
      return args
  | .error fault => throw fault

/-- Rewrites the arguments of a macro call whose head has the final name `head` and was written as
`written`. -/
def convertMacroArguments (walk : Walk) (head written : Text) (args : List Tree) :
    Rewrite (List Tree) := do
  let s ← get
  match s.callGrammar? head written with
  | none =>
      trace (.noGrammar s.context.qualifier head)
      return args
  | some spec =>
      if spec.isZero || spec.isNil then return args
      else if spec.isSym "t" then args.mapM walk
      else convertByGrammar walk head spec args

/-- Rewrites a call whose head has the final name `head`. Whether it is a macro call is asked of
the namespace if the head is its own, and of the host otherwise. -/
def convertCall (walk : Walk) (head written : Text) (isOwn : Bool) (args : List Tree) :
    Rewrite Tree := do
  let s ← get
  let isExpanded := if isOwn then s.isOwnMacro written else s.host.isMacroName head
  if isExpanded then return Tree.call head (← convertMacroArguments walk head written args)
  else return Tree.call head (← args.mapM walk)

/-- Rewrites a form that lacks the shape its own rule needs: by the grammar of its head. -/
def convertShapeless (walk : Walk) (head : Text) (tail : List Tree) : Rewrite Tree := do
  return Tree.call head (← convertMacroArguments walk head head tail)

end LispNamespace.Forms
