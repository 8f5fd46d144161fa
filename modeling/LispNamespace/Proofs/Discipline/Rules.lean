import LispNamespace.Proofs.Discipline.Steps
import LispNamespace.Proofs.Locality

/-!
# Disciplines and the rules for forms

Every rule but the one for macro definitions keeps to a discipline when the walk that it is given
does, and when what it registers is allowed.
-/

namespace LispNamespace

open Rewrite

variable {D : Discipline} [D.Lawful] {scope : Scope}

/-! ## Calls -/

mutual

theorem Plan.keeps_apply (onCode onData : Tree → Rewrite Tree) [∀ t, Keeps D scope (onCode t)]
    [∀ t, Keeps D scope (onData t)] (plan : Plan) (arg : Tree) :
    Keeps D scope (Plan.apply onCode onData plan arg) := by
  cases plan with
  | code => unfold Plan.apply; infer_instance
  | data => unfold Plan.apply; infer_instance
  | nested plans =>
      have := fun items => Plan.keeps_applyAll onCode onData plans items
      unfold Plan.apply
      split <;> infer_instance

/-- A plan is carried out within the discipline if what is done with code and with data is. -/
theorem Plan.keeps_applyAll (onCode onData : Tree → Rewrite Tree) [∀ t, Keeps D scope (onCode t)]
    [∀ t, Keeps D scope (onData t)] (plans : List Plan) (args : List Tree) :
    Keeps D scope (Plan.applyAll onCode onData plans args) := by
  cases plans with
  | nil => unfold Plan.applyAll; infer_instance
  | cons plan plans =>
      cases args with
      | nil => unfold Plan.applyAll; infer_instance
      | cons arg args =>
          have := Plan.keeps_apply onCode onData plan arg
          have := Plan.keeps_applyAll onCode onData plans args
          unfold Plan.applyAll
          infer_instance

end

namespace Forms

variable (walk : Walk) [KeepsWalk D walk]

instance (plans : List Plan) (args : List Tree) :
    Keeps D scope (Plan.applyAll walk (pure : Tree → Rewrite Tree) plans args) :=
  Plan.keeps_applyAll walk pure plans args

instance (head : Text) (spec : Tree) (args : List Tree) :
    Keeps D scope (convertByGrammar walk head spec args) := by
  unfold convertByGrammar
  refine Keeps.read fun s => ?_
  split
  · exact Keeps.keepsFrom s
  · exact Keeps.keepsFrom s
  · next fault hmismatch hfault =>
    exact KeepsFrom.throw (Discipline.Lawful.allows_classify hfault fun why h => hmismatch why h)

instance (head written : Text) (args : List Tree) :
    Keeps D scope (convertMacroArguments walk head written args) := by
  unfold convertMacroArguments
  refine Keeps.bind inferInstance fun s => ?_
  split <;> infer_instance

instance (head written : Text) (isOwn : Bool) (args : List Tree) :
    Keeps D scope (convertCall walk head written isOwn args) := by
  unfold convertCall
  infer_instance

instance (head : Text) (tail : List Tree) : Keeps D scope (convertShapeless walk head tail) := by
  unfold convertShapeless
  infer_instance

/-! ## References and quotations -/

instance (t : Tree) : Keeps D scope (convertFunctionName t) := by
  unfold convertFunctionName
  split <;> infer_instance

instance (head : Text) (tail : List Tree) : Keeps D scope (convertQuote walk head tail) := by
  unfold convertQuote
  split <;> infer_instance

instance (head : Text) (tail : List Tree) : Keeps D scope (convertFunctionQuote walk head tail) := by
  unfold convertFunctionQuote
  split
  · split
    · infer_instance
    · split <;> infer_instance
  · infer_instance

instance (head : Text) (tail : List Tree) : Keeps D scope (convertBackquote walk head tail) := by
  unfold convertBackquote
  infer_instance

/-! ## Lambda lists -/

instance (items : List Tree) : Keeps D scope (convertDefault walk items) := by
  unfold convertDefault
  split <;> infer_instance

instance (section_ : Text) (items : List Tree) :
    Keeps D .frame (convertParamItems walk section_ items) := by
  fun_induction convertParamItems walk section_ items <;> infer_instance

instance (params : Tree) : Keeps D .frame (convertParams walk params) := by
  unfold convertParams
  split <;> infer_instance

instance (head : Text) (tail : List Tree) : Keeps D scope (convertInteractive walk head tail) := by
  unfold convertInteractive
  split <;> infer_instance

instance (body : List Tree) : Keeps D scope (splitInteractive walk body) := by
  unfold splitInteractive
  split
  · infer_instance
  · split <;> infer_instance

instance (params : Tree) (body : List Tree) : Keeps D scope (convertLambdaTail walk params body) := by
  unfold convertLambdaTail
  infer_instance

instance (head : Text) (tail : List Tree) : Keeps D scope (convertLambda walk head tail) := by
  unfold convertLambda
  split <;> infer_instance

/-! ## Definitions -/

/-- The name of a definition is registered only if it is a symbol. -/
theorem keeps_convertDefinedName {learn : Register} {name : Tree}
    (h : ∀ text, name = .sym text → Keeps D scope (register (learn text))) :
    Keeps D scope (convertDefinedName learn name) := by
  unfold convertDefinedName
  refine Keeps.bind inferInstance fun isFinal => ?_
  split
  · infer_instance
  · split
    · next text =>
      have := h text rfl
      infer_instance
    · infer_instance

instance (learn : Register) [∀ text, Keeps D scope (register (learn text))] (name : Tree) :
    Keeps D scope (convertDefinedName learn name) :=
  keeps_convertDefinedName fun _ _ => inferInstance

theorem keeps_convertQuotedName {learn : Register} {name : Tree}
    (h : ∀ text, name.quoted? = some (.sym text) → Keeps D scope (register (learn text))) :
    Keeps D scope (convertQuotedName walk learn name) := by
  unfold convertQuotedName
  split
  · next text hquoted =>
    have : Keeps D scope (convertDefinedName learn (.sym text)) := by
      refine keeps_convertDefinedName fun other hother => ?_
      cases hother
      exact h text hquoted
    infer_instance
  · infer_instance

instance (learn : Register) [∀ text, Keeps D scope (register (learn text))] (name : Tree) :
    Keeps D scope (convertQuotedName walk learn name) :=
  keeps_convertQuotedName walk fun _ _ => inferInstance

/-! ## Binding forms -/

instance (name : Tree) : Keeps D scope (convertBoundName walk name) := by
  unfold convertBoundName
  split <;> infer_instance

instance (binding : Tree) : Keeps D scope (convertBinding walk binding) := by
  unfold convertBinding
  split <;> infer_instance

instance (head : Text) (tail : List Tree) : Keeps D scope (convertLet walk head tail) := by
  unfold convertLet
  split
  · infer_instance
  · split <;> infer_instance

instance (head : Text) (tail : List Tree) : Keeps D scope (convertLetStar walk head tail) := by
  unfold convertLetStar
  split
  · infer_instance
  · split <;> infer_instance

instance (head : Text) (tail : List Tree) : Keeps D scope (convertLoop walk head tail) := by
  unfold convertLoop
  split
  · infer_instance
  · split <;> infer_instance

instance (binding : Tree) : Keeps D .frame (convertTest walk binding) := by
  unfold convertTest
  split <;> infer_instance

instance (head : Text) (tail : List Tree) : Keeps D scope (convertConditional walk head tail) := by
  unfold convertConditional
  split
  · infer_instance
  · split <;> infer_instance

instance (isExpander isSequential : Bool) (binding : Tree) :
    Keeps D .frame (convertLocalFunction walk isExpander isSequential binding) := by
  unfold convertLocalFunction
  split <;> infer_instance

instance (head : Text) (tail : List Tree) : Keeps D scope (convertLocalFunctions walk head tail) := by
  unfold convertLocalFunctions
  split
  · infer_instance
  · split <;> infer_instance

instance (head : Text) (tail : List Tree) : Keeps D scope (convertDestructuring walk head tail) := by
  unfold convertDestructuring
  split <;> infer_instance

/-! ## Conditions -/

instance (clause : Tree) : Keeps D scope (convertClause walk clause) := by
  unfold convertClause
  split <;> infer_instance

instance (head : Text) (tail : List Tree) : Keeps D scope (convertCond walk head tail) := by
  unfold convertCond
  infer_instance

instance (names : List Text) (handler : Tree) : Keeps D scope (convertErrorHandler walk names handler) := by
  unfold convertErrorHandler
  split <;> infer_instance

instance (head : Text) (tail : List Tree) : Keeps D scope (convertConditionCase walk head tail) := by
  unfold convertConditionCase
  split <;> infer_instance

/-! ## Patterns -/

instance (clause : Tree) : Keeps D scope (convertPatternClause walk clause) := by
  unfold convertPatternClause
  split <;> infer_instance

instance (head : Text) (tail : List Tree) : Keeps D scope (convertPatternCase walk head tail) := by
  unfold convertPatternCase
  split <;> infer_instance

instance (isSequential : Bool) (binding : Tree) :
    Keeps D .frame (convertPatternBinding walk isSequential binding) := by
  unfold convertPatternBinding
  split <;> infer_instance

instance (head : Text) (tail : List Tree) : Keeps D scope (convertPatternLet walk head tail) := by
  unfold convertPatternLet
  split
  · infer_instance
  · split <;> infer_instance

instance (head : Text) (tail : List Tree) : Keeps D scope (convertPatternLoop walk head tail) := by
  unfold convertPatternLoop
  split <;> infer_instance

instance (head : Text) (tail : List Tree) : Keeps D scope (convertPatternLambda walk head tail) := by
  unfold convertPatternLambda
  split
  · infer_instance
  · split <;> infer_instance

end Forms

end LispNamespace
