import LispNamespace.Host.Definition
import LispNamespace.Session.Rewrite

/-!
# Lambda lists and lambda expressions

A lambda list binds the names in it, from left to right. Its sections for optional, keyword and
auxiliary parameters may give a parameter a default form, which sees the parameters before it as
local. A lambda expression rewrites its body with all parameters bound; its documentation and
declarations stay as they are, and its interactive specification is rewritten before the parameters
are bound.
-/

namespace LispNamespace.Forms

open Rewrite Text

/-- Whether the tree is a lambda expression. -/
def isLambda (t : Tree) : Bool := t.isHeadedBy "lambda"

/-! ## Bound names -/

/-- Whether a name marks a section of a lambda list. -/
def isSectionMarker (name : Text) : Bool := beginsWith name "&"

/-- The name that an element of a lambda list binds, if any. -/
def paramName? (param : Tree) : Option Text :=
  match param with
  | .sym name => if isSectionMarker name then none else some name
  | param =>
      match param.uncons? with
      | some (.sym name, _) => some name
      | _ => none

/-- The names that a lambda list binds: its parameters, of a specification in parentheses the name
in front, and the name after a dot. -/
def lambdaParams (params : Tree) : List Text :=
  match params with
  | .sym name => [name]
  | .list items | .vec items => items.filterMap paramName?
  | .dot items tail => items.filterMap paramName? ++ tail.symbol?.toList
  | _ => []

/-- The names bound by the variable of a specification with a default form: a symbol, a symbol after
its keyword, or a lambda list. -/
def specificationNames (variable_ : Tree) : List Text :=
  match variable_ with
  | .sym name => [name]
  | variable_ =>
      match variable_.elements? with
      | some [.sym key, .sym name] =>
          if Tree.isKeywordName key then [name] else lambdaParams variable_
      | some [.sym key, inner] =>
          if Tree.isKeywordName key then lambdaParams inner else lambdaParams variable_
      | _ => lambdaParams variable_

/-! ## Rewriting of lambda lists -/

/-- The sections whose specifications may carry a default form. -/
def defaultSections : List Text := ["&optional", "&key", "&aux"]

/-- Rewrites what follows the variable of a specification: a default form, and more. -/
def convertDefault (walk : Walk) : List Tree → Rewrite (List Tree)
  | [] => return []
  | default :: more => return (← walk default) :: more

/-- The name bound by the supplied-parameter of a specification, the second item after its
variable. -/
def suppliedName? : List Tree → Option Text
  | _ :: .sym name :: _ => some name
  | _ => none

/-- Rewrites the elements of a lambda list after the marker `section_` and binds their names. -/
def convertParamItems (walk : Walk) (section_ : Text) : List Tree → Rewrite (List Tree)
  | [] => return []
  | .sym name :: rest => do
      if isSectionMarker name then
        return .sym name :: (← convertParamItems walk name rest)
      else
        bindNames [name]
        return .sym name :: (← convertParamItems walk section_ rest)
  | .list (variable_ :: more) :: rest => do
      if defaultSections.contains section_ then
        -- the default form sees the names before it, and not its own
        let more ← convertDefault walk more
        bindNames (specificationNames variable_)
        bindNames (suppliedName? more).toList
        return .list (variable_ :: more) :: (← convertParamItems walk section_ rest)
      else
        bindNames (lambdaParams (.list (variable_ :: more)))
        return .list (variable_ :: more) :: (← convertParamItems walk section_ rest)
  | param :: rest => do
      bindNames (lambdaParams param)
      return param :: (← convertParamItems walk section_ rest)

/-- Rewrites the default forms of a lambda list and binds its names in the innermost frame. -/
def convertParams (walk : Walk) (params : Tree) : Rewrite Tree := do
  match params with
  | .list (first :: rest) | .dot (first :: rest) .absent =>
      return .list (← convertParamItems walk "" (first :: rest))
  | .dot [] .absent => return .list []
  | .dot (first :: rest) tail =>
      let items ← convertParamItems walk "" (first :: rest)
      bindNames tail.symbol?.toList
      return .dot items tail
  | params =>
      bindNames (lambdaParams params)
      return params

/-! ## Lambda expressions -/

/-- Rewrites an interactive specification: a string stays, a form is rewritten. -/
def convertInteractive (walk : Walk) (head : Text) (tail : List Tree) : Rewrite Tree := do
  match tail with
  | [] => return Tree.call head []
  | spec :: modes =>
      let spec ← if spec.isText then pure spec else walk spec
      return Tree.call head (spec :: modes)

/-- Rewrites the interactive specification at the front of a body, and gives it apart from the rest
of the body. -/
def splitInteractive (walk : Walk) (body : List Tree) : Rewrite (List Tree × List Tree) := do
  match body with
  | [] => return ([], [])
  | form :: rest =>
      match form.tailOf? "interactive" with
      | some tail => return ([← convertInteractive walk "interactive" tail], rest)
      | none => return ([], body)

/-- Rewrites parameters and body of a function definition. -/
def convertLambdaTail (walk : Walk) (params : Tree) (body : List Tree) :
    Rewrite (List Tree) := do
  let (kept, rest) := Definition.splitDeclarations body
  -- the interactive form is code outside of the parameters
  let (interactive, rest) ← splitInteractive walk rest
  withFrame [] do
    let params ← convertParams walk params
    let rest ← rest.mapM walk
    return params :: (kept ++ interactive ++ rest)

/-- Rewrites a lambda expression, given its head and what follows. -/
def convertLambda (walk : Walk) (head : Text) (tail : List Tree) : Rewrite Tree := do
  match tail with
  | [] => return Tree.call head []
  | params :: body => return Tree.call head (← convertLambdaTail walk params body)

end LispNamespace.Forms
