import LispNamespace.Forms.Call

/-!
# Patterns

Patterns are data. The symbols that a pattern may bind are local to the code that it guards. A
pattern that only tests binds nothing, and in a template only the holes bind.
-/

namespace LispNamespace.Forms

open Rewrite Text

/-! ## Bound names -/

/-- The heads of patterns that bind nothing. -/
def testPatterns : List Text := ["pred", "guard", "cl-type", "quote", "rx"]

/-- Whether a symbol as a pattern binds its name. -/
def isPatternVariable (name : Text) : Bool :=
  !(Tree.isKeywordName name || name == "_" || name == "t" || beginsWith name "&")

mutual

/-- The names that a pattern may bind, in order and with repetitions. -/
def patternNames : Tree → List Text
  | .sym name => if isPatternVariable name then [name] else []
  | .list (.sym kind :: args) =>
      if testPatterns.contains kind then []
      else if kind == "\x60" then firstTemplateNames args
      else if kind == "app" then secondPatternNames args
      else if kind == "let" then firstPatternNames args
      else allPatternNames args
  | _ => []

/-- The names that several patterns may bind. -/
def allPatternNames : List Tree → List Text
  | [] => []
  | pattern :: rest => patternNames pattern ++ allPatternNames rest

/-- The names that the first of several patterns may bind. -/
def firstPatternNames : List Tree → List Text
  | [] => []
  | pattern :: _ => patternNames pattern

/-- The names that the second of several patterns may bind. -/
def secondPatternNames : List Tree → List Text
  | _ :: pattern :: _ => patternNames pattern
  | _ => []

/-- The names that the holes of the first of several templates may bind. -/
def firstTemplateNames : List Tree → List Text
  | [] => []
  | template :: _ => templateNames template

/-- The names that the holes of a template may bind. -/
def templateNames : Tree → List Text
  | .dot items tail => allTemplateNames items ++ templateNames tail
  | .list items | .vec items =>
      match items with
      | [head, pattern] =>
          if head.isSym "," then patternNames pattern
          else templateNames head ++ templateNames pattern
      | items => allTemplateNames items
  | _ => []

/-- The names that the holes of several templates may bind. -/
def allTemplateNames : List Tree → List Text
  | [] => []
  | template :: rest => templateNames template ++ allTemplateNames rest

end

/-! ## Forms -/

/-- Rewrites a clause of a pattern, and forms that see its names as local. -/
def convertPatternClause (walk : Walk) (clause : Tree) : Rewrite Tree := do
  match clause with
  | .list (pattern :: body) =>
      let body ← withFrame (patternNames pattern) (body.mapM walk)
      return .list (pattern :: body)
  | clause => return clause

/-- Rewrites a form that chooses the first clause whose pattern fits. -/
def convertPatternCase (walk : Walk) (head : Text) (tail : List Tree) : Rewrite Tree := do
  match tail with
  | [] => return Tree.call head []
  | value :: clauses =>
      let value ← walk value
      let clauses ← clauses.mapM (convertPatternClause walk)
      return Tree.call head (value :: clauses)

/-- Rewrites a binding of a pattern to a value. Gives the names it binds. -/
def convertPatternBinding (walk : Walk) (isSequential : Bool) (binding : Tree) :
    Rewrite (Tree × List Text) := do
  match binding with
  | .list [pattern, value] =>
      let value ← walk value
      let names := patternNames pattern
      if isSequential then bindNames names
      return (.list [pattern, value], names)
  | binding => return (binding, [])

/-- Rewrites a form that binds patterns to values. -/
def convertPatternLet (walk : Walk) (head : Text) (tail : List Tree) : Rewrite Tree := do
  match tail with
  | [] => convertShapeless walk head tail
  | spec :: body =>
      match spec.properList? with
      | none => convertShapeless walk head tail
      | some bindings =>
          withFrame [] do
            let results ← bindings.mapM (convertPatternBinding walk (head == "pcase-let*"))
            let names := results.flatMap (·.2)
            let body ← withFrame names (body.mapM walk)
            return Tree.call head (Tree.ofList (results.map (·.1)) :: body)

/-- Rewrites a loop that binds a pattern to each element of a list. -/
def convertPatternLoop (walk : Walk) (head : Text) (tail : List Tree) : Rewrite Tree := do
  match tail with
  | .list [pattern, range] :: body =>
      let range ← walk range
      let body ← withFrame (patternNames pattern) (body.mapM walk)
      return Tree.call head (.list [pattern, range] :: body)
  | tail => convertShapeless walk head tail

/-- Rewrites a lambda expression whose parameters are patterns. -/
def convertPatternLambda (walk : Walk) (head : Text) (tail : List Tree) : Rewrite Tree := do
  match tail with
  | [] => convertShapeless walk head tail
  | params :: body =>
      match params.properList? with
      | none => convertShapeless walk head tail
      | some patterns =>
          let body ← withFrame (allPatternNames patterns) (body.mapM walk)
          return Tree.call head (params :: body)

end LispNamespace.Forms
