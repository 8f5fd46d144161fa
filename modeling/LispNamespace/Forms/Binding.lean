import LispNamespace.Forms.Call
import LispNamespace.Forms.LambdaList

/-!
# Forms that bind variables and functions

A binding form rewrites its initial values in the scope around it and its body with the names bound.
Where bindings are sequential, a name is bound as soon as its own value has been rewritten. A bound
name may be qualified when an option says so; otherwise it only loses the protection marker.
-/

namespace LispNamespace.Forms

open Rewrite

/-! ## Bindings -/

/-- The name that a binding introduces. -/
def convertBoundName (walk : Walk) (name : Tree) : Rewrite Tree := do
  match name with
  | .sym symbol =>
      let s ← get
      if s.context.options.letVars then walk name
      else if s.isEscaped symbol then return .sym (s.stripProtection symbol)
      else return name
  | name => return name

/-- Rewrites a binding: a name, or a list of a name and its value. Gives the name it introduces, if
any. -/
def convertBinding (walk : Walk) (binding : Tree) : Rewrite (Tree × Option Text) := do
  match binding with
  | .sym _ =>
      let name ← convertBoundName walk binding
      return (name, name.symbol?)
  | .list (name :: values) =>
      -- the name is rewritten after its value
      let values ← values.mapM walk
      let name ← convertBoundName walk name
      return (.list (name :: values), name.symbol?)
  | binding => return (binding, none)

/-- Rewrites a form that binds all names at once. -/
def convertLet (walk : Walk) (head : Text) (tail : List Tree) : Rewrite Tree := do
  match tail with
  | [] => return Tree.call head []
  | spec :: body =>
      match spec.properList? with
      | none => return Tree.call head (← (spec :: body).mapM walk)
      | some bindings =>
          let results ← bindings.mapM (convertBinding walk)
          let names := results.filterMap (·.2)
          let body ← withFrame names (body.mapM walk)
          return Tree.call head (Tree.ofList (results.map (·.1)) :: body)

/-- Rewrites a form that binds one name after the other. -/
def convertLetStar (walk : Walk) (head : Text) (tail : List Tree) : Rewrite Tree := do
  match tail with
  | [] => return Tree.call head []
  | spec :: body =>
      match spec.properList? with
      | none => return Tree.call head (← (spec :: body).mapM walk)
      | some bindings =>
          withFrame [] do
            let bindings ← bindings.mapM fun binding => do
              let (binding, name) ← convertBinding walk binding
              -- the values after this one see the name
              bindNames name.toList
              return binding
            let body ← body.mapM walk
            return Tree.call head (Tree.ofList bindings :: body)

/-! ## Loops -/

/-- The parts of a loop: the variable, what it ranges over, and perhaps a result. -/
def loopParts? (spec : Tree) : Option (Text × Tree × List Tree) :=
  match spec.properList? with
  | some (.sym name :: range :: result) =>
      if result.length ≤ 1 then some (name, range, result) else none
  | _ => none

/-- Rewrites a loop over the elements of a list or over numbers. -/
def convertLoop (walk : Walk) (head : Text) (tail : List Tree) : Rewrite Tree := do
  match tail with
  | [] => convertShapeless walk head tail
  | spec :: body =>
      match loopParts? spec with
      | none => convertShapeless walk head tail
      | some (name, range, result) =>
          -- the range does not see the variable, the result does
          let name ← convertBoundName walk (.sym name)
          let range ← walk range
          withFrame name.symbol?.toList do
            let result ← result.mapM walk
            let body ← body.mapM walk
            return Tree.call head (.list (name :: range :: result) :: body)

/-! ## Conditional bindings -/

/-- Whether the bindings of a conditional form are a single binding without its own
parentheses. -/
def isSingleBinding (spec : List Tree) : Bool :=
  match spec with
  | [name] | [name, _] => name.elements?.isNone
  | _ => false

/-- Rewrites a binding of a conditional form and binds its name. A symbol or a form in parentheses
is only a test. -/
def convertTest (walk : Walk) (binding : Tree) : Rewrite Tree := do
  match binding with
  | .sym _ => walk binding
  | .list [test] => return .list [← walk test]
  | .list [.sym name, value] =>
      let value ← walk value
      let name ← convertBoundName walk (.sym name)
      bindNames name.symbol?.toList
      return .list [name, value]
  | binding => return binding

/-- Rewrites a form that runs when the values it binds are given. -/
def convertConditional (walk : Walk) (head : Text) (tail : List Tree) : Rewrite Tree := do
  match tail with
  | [] => convertShapeless walk head tail
  | spec :: body =>
      match spec.properList? with
      | none => convertShapeless walk head tail
      | some bindings =>
          let isSingle := (head == "if-let" || head == "when-let") && isSingleBinding bindings
          withFrame [] do
            if isSingle then
              let binding ← convertTest walk (.list bindings)
              return Tree.call head (binding :: (← body.mapM walk))
            else
              let bindings ← bindings.mapM (convertTest walk)
              return Tree.call head (Tree.ofList bindings :: (← body.mapM walk))

/-! ## Local functions -/

/-- The names of local functions. -/
def localFunctionNames (bindings : List Tree) : List Text :=
  bindings.filterMap fun binding =>
    match binding.uncons? with
    | some (.sym name, _) => some name
    | _ => none

/-- Rewrites the definition of a local function: an expression for it, unless it is a macro, or
parameters and a body. -/
def convertLocalFunction (walk : Walk) (isExpander isSequential : Bool) (binding : Tree) :
    Rewrite Tree := do
  match binding with
  | .list (.sym name :: params :: body) =>
      let rest ←
        -- without a body, the binding holds an expression that gives the function
        if body.isEmpty && !isExpander then do pure [← walk params]
        else convertLambdaTail walk params body
      if isSequential then bindNames [name]
      return .list (.sym name :: rest)
  | binding => return binding

/-- Rewrites a form that defines local functions or macros. -/
def convertLocalFunctions (walk : Walk) (head : Text) (tail : List Tree) : Rewrite Tree := do
  match tail with
  | [] => convertShapeless walk head tail
  | spec :: body =>
      match spec.properList? with
      | none => convertShapeless walk head tail
      | some bindings =>
          let names := localFunctionNames bindings
          -- only in one of the forms do the functions see each other
          let seen := if head == "cl-labels" then names else []
          let bindings ← withFrame seen
            (bindings.mapM (convertLocalFunction walk (head == "cl-macrolet") (head == "cl-flet*")))
          let body ← withFrame names (body.mapM walk)
          return Tree.call head (Tree.ofList bindings :: body)

/-! ## Destructuring -/

/-- Rewrites a form that binds the names of a lambda list to the parts of a value. -/
def convertDestructuring (walk : Walk) (head : Text) (tail : List Tree) : Rewrite Tree := do
  match tail with
  | params :: value :: body =>
      -- the value does not see the names
      let value ← walk value
      withFrame [] do
        let params ← convertParams walk params
        let body ← body.mapM walk
        return Tree.call head (params :: value :: body)
  | tail => convertShapeless walk head tail

end LispNamespace.Forms
