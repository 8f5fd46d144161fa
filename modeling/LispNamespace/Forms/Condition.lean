import LispNamespace.Session.Rewrite

/-!
# Conditions

The clauses of a conditional are lists of forms. The handlers of errors bind the error variable for
their bodies; the conditions they name are data.
-/

namespace LispNamespace.Forms

open Rewrite

/-- Rewrites the clause of a conditional; what is no list stays as it is. -/
def convertClause (walk : Walk) (clause : Tree) : Rewrite Tree := do
  match clause with
  | .list items => return .list (← items.mapM walk)
  | clause => return clause

/-- Rewrites a conditional. -/
def convertCond (walk : Walk) (head : Text) (tail : List Tree) : Rewrite Tree := do
  return Tree.call head (← tail.mapM (convertClause walk))

/-- Rewrites an error handler, whose body sees the given names as local. -/
def convertErrorHandler (walk : Walk) (names : List Text) (handler : Tree) :
    Rewrite Tree := do
  match handler with
  | .list (conditions :: body) =>
      let body ← withFrame names (body.mapM walk)
      return .list (conditions :: body)
  | handler => return handler

/-- Rewrites a form with error handlers. -/
def convertConditionCase (walk : Walk) (head : Text) (tail : List Tree) : Rewrite Tree := do
  match tail with
  | variable_ :: form :: handlers =>
      let s ← get
      let variable_ : Tree :=
        match variable_ with
        | .sym name => if s.isEscaped name then .sym (s.stripProtection name) else variable_
        | other => other
      let form ← walk form
      let handlers ← handlers.mapM (convertErrorHandler walk variable_.symbol?.toList)
      return Tree.call head (variable_ :: form :: handlers)
  | tail => return Tree.call head tail

end LispNamespace.Forms
