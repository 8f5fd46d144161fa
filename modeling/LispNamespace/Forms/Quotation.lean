import LispNamespace.Forms.LambdaList
import LispNamespace.Forms.Reference

/-!
# Quoted data

Quoted data is left alone, with two exceptions: a lambda expression is code wherever it stands, and
a symbol under the function quote refers to a function. A symbol under the plain quote refers to a
variable when an option says so. Templates are left alone as a whole.
-/

namespace LispNamespace.Forms

/-- Rewrites a quoted datum. -/
def convertQuote (walk : Walk) (head : Text) (tail : List Tree) : Rewrite Tree := do
  match tail with
  | [payload] =>
      let s ← get
      if isLambda payload || (payload.isSymbol && s.context.options.assumeVarQuote) then
        return Tree.call head [← walk payload]
      else return Tree.call head [payload]
  | tail => return Tree.call head tail

/-- Rewrites a function reference. -/
def convertFunctionQuote (walk : Walk) (head : Text) (tail : List Tree) : Rewrite Tree := do
  match tail with
  | [payload] =>
      if isLambda payload then return Tree.call head [← walk payload]
      else
        match payload with
        | .sym name =>
            let s ← get
            if s.context.options.dontAssumeFunctionQuote then
              let name := if s.isEscaped name then s.stripProtection name else name
              return Tree.call head [.sym name]
            else return Tree.call head [← convertFunctionName payload]
        | payload => return Tree.call head [payload]
  | tail => return Tree.call head tail

/-- Leaves a template as it is. -/
def convertBackquote (_walk : Walk) (head : Text) (tail : List Tree) : Rewrite Tree :=
  return Tree.call head tail

end LispNamespace.Forms
