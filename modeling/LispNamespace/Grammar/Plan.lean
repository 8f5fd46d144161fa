import LispNamespace.Tree.Basic

/-!
# Plans

A plan says for each argument of a call whether it is code, data, or a list whose elements have
plans of their own. Applying a plan rewrites the code and the data of the arguments from left to
right and keeps their shape.
-/

namespace LispNamespace

/-- What an argument is. -/
inductive Plan where
  /-- A form to be rewritten. -/
  | code
  /-- A datum. -/
  | data
  /-- A list whose elements are classified one by one. -/
  | nested (plans : List Plan)
  deriving Inhabited, Repr

namespace Plan

/-- Every argument is of the same sort. -/
def uniform (plan : Plan) (args : List Tree) : List Plan := args.map fun _ => plan

variable {m : Type → Type} [Monad m]

mutual

/-- Rewrites one argument as its plan says. A list without elements stays as it is. -/
def apply (onCode onData : Tree → m Tree) : Plan → Tree → m Tree
  | .code, arg => onCode arg
  | .data, arg => onData arg
  | .nested plans, arg =>
      match arg with
      | .list (first :: rest) => do
          return .list (← applyAll onCode onData plans (first :: rest))
      | arg => pure arg

/-- Rewrites arguments as their plans say, as far as both reach. -/
def applyAll (onCode onData : Tree → m Tree) : List Plan → List Tree → m (List Tree)
  | plan :: plans, arg :: args => do
      let first ← apply onCode onData plan arg
      let rest ← applyAll onCode onData plans args
      return first :: rest
  | _, _ => pure []

end

end Plan

end LispNamespace
