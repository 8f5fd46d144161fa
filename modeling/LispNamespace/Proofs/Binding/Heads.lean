import LispNamespace.Proofs.Approach
import LispNamespace.Proofs.Binding.References

/-!
# Heads that stay

Every rule but the one for macro definitions gives a form with the head that the form had. So the
call of a function that is bound around it stays a call of the same name, whatever else the name
means as a head.
-/

namespace LispNamespace

open Rewrite Forms

/-! ## Steps that give calls -/

/-- When the step yields a result, it is a call of the given head. -/
structure GivesCall (head : Text) (step : Rewrite Tree) : Prop where
  call_of_run : ∀ {s s' result}, step.runFrom s = (.ok result, s') → ∃ args, result = Tree.call head args

namespace GivesCall

variable {α : Type} {head : Text}

theorem pure (args : List Tree) : GivesCall head (pure (Tree.call head args)) where
  call_of_run hrun := ⟨args, (runFrom_pure_ok.1 hrun).1⟩

theorem bind (step : Rewrite α) {next : α → Rewrite Tree} (h : ∀ a, GivesCall head (next a)) :
    GivesCall head (step >>= next) where
  call_of_run hrun := by
    rcases runFrom_bind_ok.1 hrun with ⟨a, _, -, hnext⟩
    exact (h a).call_of_run hnext

theorem withFrame (names : List Text) {step : Rewrite Tree} (h : GivesCall head step) :
    GivesCall head (withFrame names step) where
  call_of_run hrun := by
    rcases runFrom_withFrame_ok.1 hrun with ⟨_, hstep, -⟩
    exact h.call_of_run hstep

/-- All rules but one give calls of the head that they are used for. -/
theorem convertRule (walk : Walk) {rule : FormRule} (hrule : rule ≠ .macroDefinition)
    (tail : List Tree) : GivesCall head (rule.convert walk head tail) := by
  cases rule with
  | macroDefinition => exact absurd rfl hrule
  | _ =>
      dsimp only [FormRule.convert, convertVariable, convertFunction, convertAlias,
        convertVariableAlias, convertAliasWith, convertMinorMode, convertDerivedMode,
        convertGlobalizedMode, convertQuote, convertFunctionQuote, convertBackquote, convertLambda,
        convertInteractive, convertLet, convertLetStar, convertCond, convertConditionCase,
        convertLoop, convertConditional, convertLocalFunctions, convertDestructuring,
        convertPatternCase, convertPatternLet, convertPatternLoop, convertPatternLambda,
        convertShapeless]
      -- a rule is made of sequences, frames and case distinctions, and each of its ends is a call
      repeat' first
        | exact .pure _
        | split
        | refine .bind _ fun _ => ?_
        | refine .withFrame _ ?_

end GivesCall

/-- The call of a local function stays a call of it, unless its name defines macros. -/
theorem call_of_convert {s s' : Session} {name : Text} {args : List Tree} {result : Tree}
    (hescaped : s.isEscaped name = false) (hshadowed : s.isShadowed name = true)
    (hkind : name ∉ FormRule.macroNames)
    (hrun : (convert (Tree.call name args)).runFrom s = (.ok result, s')) :
    ∃ args', result = Tree.call name args' := by
  -- the form has some weight, so there is a step left for its parts
  have hwithin : ∃ steps, (convertHeaded (convertWithin steps) (.sym name) args).runFrom s =
      (.ok result, s') := by
    unfold convert at hrun
    rw [← Nat.succ_pred_eq_of_pos (weight_pos (Tree.call name args))] at hrun
    exact ⟨_, hrun⟩
  rcases hwithin with ⟨steps, hheaded⟩
  rw [runFrom_convertHeaded] at hheaded
  cases happroach : s.approach name with
  | rule rule =>
      rw [happroach] at hheaded
      have hrule : rule ≠ .macroDefinition := by
        rintro rfl
        exact hkind (FormRule.mem_macroNames (Session.ofHead?_of_approach happroach))
      have hcall : GivesCall name (trace (.specialForm s.context.qualifier name) >>= fun _ =>
          rule.convert (convertWithin steps) name args) := .bind _ fun _ => .convertRule _ hrule args
      exact hcall.call_of_run hheaded
  | call treatment =>
      rw [happroach, functionReference_of_isShadowed hescaped hshadowed] at hheaded
      have hcall : GivesCall name (convertCallAs (convertWithin steps) name treatment args) :=
        .bind _ fun args' => .pure args'
      exact hcall.call_of_run hheaded

/-- So does one that is a form of a body. -/
theorem call_of_mapM {s s' : Session} {name : Text} {args body results : List Tree} {j : Nat}
    (hescaped : s.isEscaped name = false) (hshadowed : s.isShadowed name = true)
    (hkind : name ∉ FormRule.macroNames)
    (hrun : (body.mapM convert).runFrom s = (.ok results, s'))
    (hj : body[j]? = some (Tree.call name args)) :
    ∃ args', results[j]? = some (Tree.call name args') := by
  rcases exists_growth_of_mapM .form hrun hj with ⟨t, form, t', ⟨hgrows, -⟩, hform, -, hresult⟩
  have hescaped' := hgrows.recalls.isEscaped.trans hescaped
  have hshadowed' : t.isShadowed name = true := hgrows.shadowed name hshadowed
  rcases call_of_convert hescaped' hshadowed' hkind hform with ⟨args', rfl⟩
  exact ⟨args', hresult⟩

end LispNamespace
