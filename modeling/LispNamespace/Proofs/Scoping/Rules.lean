import LispNamespace.Proofs.Scoping.Steps

/-!
# Conversions only ask which names are local

No rule looks at how the local names are spread over frames, so conversions are indifferent to it.
-/

namespace LispNamespace

open Rewrite

variable {scope : Scope}

/-! ## Calls -/

mutual

/-- A plan asks of the scope what the visits of its arguments ask. -/
theorem Plan.indifferent_apply (onCode onData : Tree → Rewrite Tree)
    [∀ t, Indifferent scope (onCode t)] [∀ t, Indifferent scope (onData t)] (plan : Plan) (arg : Tree) :
    Indifferent scope (Plan.apply onCode onData plan arg) := by
  cases plan with
  | code => unfold Plan.apply; infer_instance
  | data => unfold Plan.apply; infer_instance
  | nested plans =>
      have := fun items => Plan.indifferent_applyAll onCode onData plans items
      unfold Plan.apply
      split <;> infer_instance

theorem Plan.indifferent_applyAll (onCode onData : Tree → Rewrite Tree)
    [∀ t, Indifferent scope (onCode t)] [∀ t, Indifferent scope (onData t)] (plans : List Plan)
    (args : List Tree) : Indifferent scope (Plan.applyAll onCode onData plans args) := by
  cases plans with
  | nil => unfold Plan.applyAll; infer_instance
  | cons plan plans =>
      cases args with
      | nil => unfold Plan.applyAll; infer_instance
      | cons arg args =>
          have := Plan.indifferent_apply onCode onData plan arg
          have := Plan.indifferent_applyAll onCode onData plans args
          unfold Plan.applyAll
          infer_instance

end

namespace Forms

section Rules

variable (walk : Walk) [IndifferentWalk walk]

instance (plans : List Plan) (args : List Tree) :
    Indifferent scope (Plan.applyAll walk (pure : Tree → Rewrite Tree) plans args) :=
  Plan.indifferent_applyAll walk pure plans args

instance (head : Text) (spec : Tree) (args : List Tree) :
    Indifferent scope (convertByGrammar walk head spec args) := by
  unfold convertByGrammar
  refine .read (fun s t h => by rw [h.eq]; rfl) fun s => ?_
  split <;> infer_instance

instance (head written : Text) (args : List Tree) :
    Indifferent scope (convertMacroArguments walk head written args) := by
  unfold convertMacroArguments
  refine .read (fun s t h => by rw [h.eq]; rfl) fun s => ?_
  split <;> infer_instance

instance (head written : Text) (isOwn : Bool) (args : List Tree) :
    Indifferent scope (convertCall walk head written isOwn args) := by
  unfold convertCall
  exact .read (fun s t h => by rw [h.eq]; rfl) inferInstance

instance (head : Text) (tail : List Tree) : Indifferent scope (convertShapeless walk head tail) := by
  unfold convertShapeless
  infer_instance

/-! ## References and quotations -/

/-- A reference to a variable asks for free names only. -/
theorem variableReference_congr {s t : Session} (h : s.SameScope scope t) (name : Text) :
    variableReference t name = variableReference s name := by
  unfold variableReference
  rw [h.isVariable, h.eq]
  rfl

/-- So does a reference to a function. -/
theorem functionReference_congr {s t : Session} (h : s.SameScope scope t) (name : Text) :
    functionReference t name = functionReference s name := by
  unfold functionReference
  rw [h.isFunction, h.eq]
  rfl

instance (t : Tree) : Indifferent scope (convertFunctionName t) := by
  unfold convertFunctionName
  split
  · next name => exact .read (fun s t h => by rw [functionReference_congr h]) inferInstance
  · infer_instance

instance (head : Text) (tail : List Tree) : Indifferent scope (convertQuote walk head tail) := by
  unfold convertQuote
  split
  · exact .read (fun s t h => by rw [h.context]) inferInstance
  · infer_instance

instance (head : Text) (tail : List Tree) : Indifferent scope (convertFunctionQuote walk head tail) := by
  unfold convertFunctionQuote
  split
  · split
    · infer_instance
    · split
      · exact .read (fun s t h => by rw [h.eq]; rfl) inferInstance
      · infer_instance
  · infer_instance

instance (head : Text) (tail : List Tree) : Indifferent scope (convertBackquote walk head tail) := by
  unfold convertBackquote
  infer_instance

/-! ## Definitions -/

instance (learn : Register) (name : Tree) : Indifferent scope (convertDefinedName learn name) := by
  unfold convertDefinedName
  refine .bind inferInstance fun isFinal => ?_
  split
  · infer_instance
  · split
    · exact .read (fun s t h => by rw [h.eq]; rfl) inferInstance
    · infer_instance

instance (learn : Register) (name : Tree) :
    Indifferent scope (convertQuotedName walk learn name) := by
  unfold convertQuotedName
  split <;> infer_instance

instance (head : Text) (tail : List Tree) : Indifferent scope (convertVariable walk head tail) := by
  unfold convertVariable
  split <;> infer_instance

instance (learn : Register) (head : Text) (tail : List Tree) :
    Indifferent scope (convertAliasWith learn walk head tail) := by
  unfold convertAliasWith
  split <;> infer_instance

instance (head : Text) (tail : List Tree) : Indifferent scope (convertMinorMode walk head tail) := by
  unfold convertMinorMode
  split <;> infer_instance

instance (head : Text) (tail : List Tree) : Indifferent scope (convertDerivedMode walk head tail) := by
  unfold convertDerivedMode
  split
  · infer_instance
  · refine .bind inferInstance fun name => ?_
    split <;> infer_instance

instance (head : Text) (tail : List Tree) : Indifferent scope (convertGlobalizedMode walk head tail) := by
  unfold convertGlobalizedMode
  split <;> infer_instance

/-! ## Macro definitions -/

instance (name : Text) : Indifferent scope (convertMacroName name) := by
  unfold convertMacroName
  refine .bind inferInstance fun isFinal => ?_
  split
  · infer_instance
  · exact .read (fun s t h => by rw [h.eq]; rfl) inferInstance

instance (name : Text) (spec : Option Tree) : Indifferent scope (declareMacroGrammar name spec) := by
  unfold declareMacroGrammar
  split
  · infer_instance
  · next spec =>
    have hdeclare : Indifferent scope (modify (·.declareGrammar name spec) : Rewrite Unit) := by
      refine .modify fun s t h => h.update ?_ rfl rfl
      exact { h.toSameKnowledge with
        host := congrArg (·.setGrammar name spec) h.host
        tables := congrArg (·.setGrammar name spec) h.tables }
    refine .bind hdeclare fun _ => ?_
    exact .read (fun s t h => by rw [h.context]) inferInstance

/-- Whether the host is told of a macro does not depend on the frames. -/
instance (name : Text) (spec : Option Tree) : Indifferent scope (announceMacro name spec) := by
  have hrun : announceMacro name spec = modify fun s =>
      if s.pass = .rewriting ∧ !s.host.isMacroName name then
        { s with host := s.host.addMacro name false spec } else s := by
    refine Rewrite.ext fun s => ?_
    unfold announceMacro
    rw [runFrom_bind, runFrom_get, runFrom_modify]
    dsimp only
    split <;> rfl
  rw [hrun]
  refine .modify fun s t h => ?_
  rw [h.eq]
  dsimp only
  split <;> exact h.update ⟨rfl, rfl, rfl, rfl, rfl⟩ rfl rfl

instance (form : Tree) : Indifferent scope (expandDefinition form) := by
  unfold expandDefinition
  refine .read (fun s t h => by rw [h.host]) fun s => ?_
  split
  · infer_instance
  · refine .bind ?_ inferInstance
    exact .modify fun s t h => h.update { h.toSameKnowledge with } rfl rfl

instance (head : Text) (tail : List Tree) : Indifferent scope (convertMacro walk head tail) := by
  have hfinal : Indifferent scope
      (modify fun s => { s with nameIsFinal := true } : Rewrite Unit) :=
    .modify fun s t h => h.update { h.toSameKnowledge with nameIsFinal := rfl } rfl rfl
  unfold convertMacro
  split
  · refine .bind inferInstance fun name => ?_
    refine .bind inferInstance fun _ => ?_
    refine .bind inferInstance fun _ => ?_
    refine .bind inferInstance fun expansion => ?_
    refine .bind hfinal fun _ => ?_
    split <;> infer_instance
  · infer_instance

/-! ## Parts of binding forms -/

instance (items : List Tree) : Indifferent scope (convertDefault walk items) := by
  unfold convertDefault
  split <;> infer_instance

instance (section_ : Text) (items : List Tree) :
    Indifferent .frame (convertParamItems walk section_ items) := by
  fun_induction convertParamItems walk section_ items <;> infer_instance

instance (params : Tree) : Indifferent .frame (convertParams walk params) := by
  unfold convertParams
  split <;> infer_instance

instance (head : Text) (tail : List Tree) : Indifferent scope (convertInteractive walk head tail) := by
  unfold convertInteractive
  split <;> infer_instance

instance (body : List Tree) : Indifferent scope (splitInteractive walk body) := by
  unfold splitInteractive
  split
  · infer_instance
  · split <;> infer_instance

instance (name : Tree) : Indifferent scope (convertBoundName walk name) := by
  unfold convertBoundName
  split
  · exact .read (fun s t h => by rw [h.eq]; rfl) inferInstance
  · infer_instance

instance (binding : Tree) : Indifferent scope (convertBinding walk binding) := by
  unfold convertBinding
  split <;> infer_instance

instance (binding : Tree) : Indifferent .frame (convertTest walk binding) := by
  unfold convertTest
  split <;> infer_instance

instance (clause : Tree) : Indifferent scope (convertClause walk clause) := by
  unfold convertClause
  split <;> infer_instance

instance (head : Text) (tail : List Tree) : Indifferent scope (convertCond walk head tail) := by
  unfold convertCond
  infer_instance

instance (isSequential : Bool) (binding : Tree) :
    Indifferent .frame (convertPatternBinding walk isSequential binding) := by
  unfold convertPatternBinding
  split <;> infer_instance

/-- Patterns that are bound all at once bind no names in the frame around them. -/
instance (binding : Tree) : Indifferent scope (convertPatternBinding walk false binding) := by
  unfold convertPatternBinding
  simp only [Bool.false_eq_true, if_false]
  split <;> infer_instance

/-! ## Forms with frames of their own

That the parts of a binding form leave the frames around it as they are is known from growth. -/

variable [GrowingWalk walk]

instance (params : Tree) (body : List Tree) :
    Indifferent scope (convertLambdaTail walk params body) := by
  unfold convertLambdaTail
  infer_instance

instance (head : Text) (tail : List Tree) : Indifferent scope (convertLambda walk head tail) := by
  unfold convertLambda
  split <;> infer_instance

instance (head : Text) (tail : List Tree) : Indifferent scope (convertFunction walk head tail) := by
  unfold convertFunction
  split
  · infer_instance
  · refine .bind inferInstance fun name => ?_
    split <;> infer_instance

instance (head : Text) (tail : List Tree) : Indifferent scope (convertLet walk head tail) := by
  unfold convertLet
  split
  · infer_instance
  · split <;> infer_instance

instance (head : Text) (tail : List Tree) : Indifferent scope (convertLetStar walk head tail) := by
  unfold convertLetStar
  split
  · infer_instance
  · split <;> infer_instance

instance (head : Text) (tail : List Tree) : Indifferent scope (convertLoop walk head tail) := by
  unfold convertLoop
  split
  · infer_instance
  · split <;> infer_instance

instance (head : Text) (tail : List Tree) : Indifferent scope (convertConditional walk head tail) := by
  unfold convertConditional
  split
  · infer_instance
  · split <;> infer_instance

/-- Only where functions are defined in order, a definition binds a name in the frame around it. -/
theorem indifferent_convertLocalFunction (isExpander isSequential : Bool) (binding : Tree)
    (hscope : isSequential = true → scope = .frame) :
    Indifferent scope (convertLocalFunction walk isExpander isSequential binding) := by
  unfold convertLocalFunction
  cases isSequential with
  | true =>
      cases hscope rfl
      split <;> infer_instance
  | false =>
      simp only [Bool.false_eq_true, if_false]
      split <;> infer_instance

instance (isExpander isSequential : Bool) (binding : Tree) :
    Indifferent .frame (convertLocalFunction walk isExpander isSequential binding) :=
  indifferent_convertLocalFunction walk isExpander isSequential binding fun _ => rfl

instance (isExpander : Bool) (binding : Tree) :
    Indifferent scope (convertLocalFunction walk isExpander false binding) :=
  indifferent_convertLocalFunction walk isExpander false binding nofun

instance (head : Text) (tail : List Tree) : Indifferent scope (convertLocalFunctions walk head tail) := by
  unfold convertLocalFunctions
  split
  · infer_instance
  · split <;> infer_instance

instance (head : Text) (tail : List Tree) : Indifferent scope (convertDestructuring walk head tail) := by
  unfold convertDestructuring
  split <;> infer_instance

instance (names : List Text) (handler : Tree) :
    Indifferent scope (convertErrorHandler walk names handler) := by
  unfold convertErrorHandler
  split <;> infer_instance

instance (head : Text) (tail : List Tree) : Indifferent scope (convertConditionCase walk head tail) := by
  unfold convertConditionCase
  split
  · exact .read (fun s t h => by rw [h.eq]; rfl) inferInstance
  · infer_instance

instance (clause : Tree) : Indifferent scope (convertPatternClause walk clause) := by
  unfold convertPatternClause
  split <;> infer_instance

instance (head : Text) (tail : List Tree) : Indifferent scope (convertPatternCase walk head tail) := by
  unfold convertPatternCase
  split <;> infer_instance

instance (head : Text) (tail : List Tree) : Indifferent scope (convertPatternLet walk head tail) := by
  unfold convertPatternLet
  split
  · infer_instance
  · split <;> infer_instance

instance (head : Text) (tail : List Tree) : Indifferent scope (convertPatternLoop walk head tail) := by
  unfold convertPatternLoop
  split <;> infer_instance

instance (head : Text) (tail : List Tree) : Indifferent scope (convertPatternLambda walk head tail) := by
  unfold convertPatternLambda
  split
  · infer_instance
  · split <;> infer_instance

end Rules

end Forms

/-! ## Forms inside forms -/

section Nodes

variable (walk : Walk) [IndifferentWalk walk] [GrowingWalk walk]

instance (rule : FormRule) (head : Text) (tail : List Tree) :
    Indifferent scope (rule.convert walk head tail) := by
  cases rule <;> simp only [FormRule.convert, Forms.convertAlias, Forms.convertVariableAlias] <;>
    infer_instance

/-- What is done with a form is decided by its head, and the head is looked up alike. -/
instance (head : Tree) (tail : List Tree) : Indifferent scope (convertHeaded walk head tail) := by
  unfold convertHeaded
  split
  · next name =>
    refine .read (fun s t h => ?_) fun s => ?_
    · rw [h.isFunction, h.eq]
      rfl
    · split
      · infer_instance
      · split
        · infer_instance
        · split <;> infer_instance
  · split <;> infer_instance
  · split <;> infer_instance
  · split <;> infer_instance
  · infer_instance

instance (form : Tree) : Indifferent scope (convertNode walk form) := by
  unfold convertNode
  split
  · exact .read (fun s t h => by rw [Forms.variableReference_congr h]) inferInstance
  · infer_instance
  · infer_instance

end Nodes

instance (steps : Nat) : IndifferentWalk (convertWithin steps) := by
  induction steps with
  | zero => exact fun scope form => inferInstanceAs (Indifferent scope (pure form))
  | succ steps ih => exact fun scope form => inferInstanceAs (Indifferent scope (convertNode _ form))

instance : IndifferentWalk convert := fun scope form =>
  inferInstanceAs (Indifferent scope (convertWithin (weight form) form))

end LispNamespace
