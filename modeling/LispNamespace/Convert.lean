import LispNamespace.Forms.Rule

/-!
# Conversion of forms

A form is converted by what stands at its head. A head with the protection marker makes it an
ordinary call; a lambda expression as head is converted like one; any other list as head leaves
only its elements to be converted. A head that names a function of the namespace is qualified.
Otherwise the head may have a rule of its own, and if not, the form is an ordinary call. Symbols are
references to variables, and all other atoms stay as they are.

The conversion of a form converts forms inside it, and what a macro definition expands into, which
is larger than the definition. A weight that counts macro definitions higher bounds the nesting of
these steps.
-/

namespace LispNamespace

open Rewrite

/-! ## One form -/

/-- Converts a form with the given head and tail. The walk converts the forms inside it. -/
def convertHeaded (walk : Walk) (head : Tree) (tail : List Tree) : Rewrite Tree := do
  let s ← get
  match head with
  | .sym name =>
      -- protection comes first, then what the namespace owns, then the rules
      if s.isEscaped name then
        let name := s.stripProtection name
        Forms.convertCall walk name name false tail
      else if s.isFunction name then Forms.convertCall walk (s.qualified name) name true tail
      else
        match FormRule.ofHead? name with
        | some rule =>
            trace (.specialForm s.context.qualifier name)
            rule.convert walk name tail
        | none => Forms.convertCall walk name name false tail
  | .list _ | .vec _ | .dot _ _ =>
      match head.tailOf? "lambda" with
      | some parts =>
          let head ← Forms.convertLambda walk "lambda" parts
          let tail ← tail.mapM walk
          return .list (head :: tail)
      | none =>
          -- a list as head is nothing that can be called
          warn (.compoundHead head (.list (head :: tail)))
          return .list (← (head :: tail).mapM walk)
  | head => return .list (head :: tail)

/-- Converts one form. The walk converts the forms inside it. -/
def convertNode (walk : Walk) (form : Tree) : Rewrite Tree := do
  match form with
  | .sym name => return .sym (Forms.variableReference (← get) name)
  | .list (head :: tail) => convertHeaded walk head tail
  | form => return form

/-! ## Forms inside forms -/

/-- The weight that a form gains from its head: a macro definition expands into a form that is
larger by less than this. -/
def headWeight : List Tree → Nat
  | .sym name :: _ => if FormRule.ofHead? name == some .macroDefinition then 12 else 0
  | _ => 0

mutual

/-- The weight of a form. The forms that its conversion converts weigh less. -/
def weight : Tree → Nat
  | .list items => 1 + headWeight items + weights items
  | .vec items => 1 + weights items
  | .dot items tail => 1 + weights items + weight tail
  | _ => 1

/-- The weight of several forms. -/
def weights : List Tree → Nat
  | [] => 0
  | form :: rest => weight form + weights rest

end

/-- Every form weighs something, so a form has less weight than a list that holds it. -/
theorem weight_pos (form : Tree) : 0 < weight form := by
  cases form <;> unfold weight <;> omega

/-- Converts a form with at most the given nesting of steps. Where no step is left, the form stays
as it is. -/
def convertWithin : Nat → Walk
  | 0, form => return form
  | steps + 1, form => convertNode (convertWithin steps) form

/-- Converts a form. -/
def convert (form : Tree) : Rewrite Tree := convertWithin (weight form) form

end LispNamespace
