import LispNamespace.Proofs.Comparison.Definitions

/-!
# Comparing binding forms

Binding forms, conditionals and patterns keep two runs together: the runs bind related names, and
open and close their frames at the same places.
-/

namespace LispNamespace.Comparison

open Rewrite Forms

variable {C : Comparison} {walk other : Walk} [GrowingWalk walk] [GrowingWalk other]

/-! ## Bound names -/

/-- What binds names comes out related, and so do the names, where `names` gives the names. -/
def Binds {ν : Type} (C : Comparison) (names : ν → List Text) (binding : Tree)
    (a b : Tree × ν) : Prop :=
  C.Result binding a.1 b.1 ∧ C.Names (names a.2) (names b.2)

section BoundNames

variable (hC : C.Lawful)

include hC

omit hC in
/-- The rewritten bindings by themselves. -/
theorem results_of_binds {ν : Type} {names : ν → List Text} {bindings : List Tree}
    {as bs : List (Tree × ν)} (h : Pointwise (C.Binds names) bindings as bs) :
    Pointwise C.Result bindings (as.map (·.1)) (bs.map (·.1)) :=
  h.map fun _ _ _ hbinds => hbinds.1

theorem names_flatMap {bindings : List Tree} {as bs : List (Tree × List Text)}
    (h : Pointwise (C.Binds id) bindings as bs) :
    C.Names (as.flatMap (·.2)) (bs.flatMap (·.2)) := by
  induction h with
  | nil => exact hC.names_same []
  | cons first _ ih =>
      rw [List.flatMap_cons, List.flatMap_cons]
      exact hC.names_append first.2 ih

theorem names_filterMap {bindings : List Tree} {as bs : List (Tree × Option Text)}
    (h : Pointwise (C.Binds Option.toList) bindings as bs) :
    C.Names (as.filterMap (·.2)) (bs.filterMap (·.2)) := by
  -- a binding that introduces no name adds none
  have hcons : ∀ (a : Tree × Option Text) (rest : List (Tree × Option Text)),
      (a :: rest).filterMap (·.2) = a.2.toList ++ rest.filterMap (·.2) := by
    rintro ⟨t, _ | name⟩ rest <;> rfl
  induction h with
  | nil => exact hC.names_same []
  | cons first _ ih =>
      rw [hcons, hcons]
      exact hC.names_append first.2 ih

variable (hwalk : C.FollowsWalk walk other)

include hwalk

omit [GrowingWalk walk] [GrowingWalk other] in
/-- A bound name is converted by the walk where the option for let variables says so, and else as a
reference that is met in the frame of its form. -/
theorem follows_convertBoundName {name : Tree} (hname : C.Form name) :
    C.Follows (convertBoundName walk name) (convertBoundName other name) (C.Result name) := by
  unfold convertBoundName
  split
  · refine .read fun s t hst hs => ?_
    have hoption : t.context.options.letVars = s.context.options.letVars := by
      rw [hC.context hst]
    rw [hoption, isEscaped_eq hC hst]
    split
    · exact hwalk _ hname
    · split
      · next hescaped => exact .pure (result_stripped hC hst hs hescaped)
      · exact .pure (hC.result_same _)
  · exact .pure (hC.result_same _)

omit [GrowingWalk other] in
theorem follows_convertBinding {binding : Tree} (hbinding : C.Form binding) :
    C.Follows (convertBinding walk binding) (convertBinding other binding)
      (C.Binds Option.toList binding) := by
  unfold convertBinding
  split
  · refine (follows_convertBoundName hC hwalk hbinding).bind hC fun y z h => ?_
    exact .pure ⟨h, hC.names_result h⟩
  · next name values =>
    have hitems := formAll_list hC hbinding
    refine (follows_mapM hC hwalk hitems.tail).bind hC fun ys zs hvalues => ?_
    refine (follows_convertBoundName hC hwalk hitems.head).bind hC fun y z hname => ?_
    exact .pure ⟨hC.result_list (.cons hname hvalues), hC.names_result hname⟩
  · exact .pure ⟨hC.result_same _, hC.names_same []⟩

end BoundNames

/-! ## Binding forms -/

section BindingForms

variable (hC : C.Lawful) (hwalk : C.FollowsWalk walk other)

include hC hwalk

/-- The values are converted before any of the names is bound. -/
theorem follows_convertLet (head : Text) {tail : List Tree} (htail : C.FormAll tail) :
    C.Follows (convertLet walk head tail) (convertLet other head tail) (C.Calls head tail) := by
  unfold convertLet
  split
  · exact .pure (calls_same hC head [])
  · next spec body =>
    split
    · exact .call hC (follows_mapM hC hwalk htail)
    · next bindings hbindings =>
      have hforms := formAll_properList? hC htail.head hbindings
      have hresults : C.Follows (bindings.mapM (convertBinding walk))
          (bindings.mapM (convertBinding other)) (Pointwise (C.Binds Option.toList) bindings) :=
        .mapM hC _ fun binding h => follows_convertBinding hC hwalk (hforms binding h)
      -- the frame is opened when all values have been converted
      refine hresults.bind hC fun as bs h => ?_
      have hbody := follows_mapM hC hwalk htail.tail
      refine (Follows.withFrame hC (names_filterMap hC h) hbody).bind hC fun ys zs hrest => ?_
      have hspec := hC.result_ofList htail.head hbindings (results_of_binds h)
      exact .pure ⟨_, _, rfl, rfl, .cons hspec hrest⟩

/-- Each name is bound before the next value is converted, so the frames of both runs grow side by
side. -/
theorem follows_convertLetStar (head : Text) {tail : List Tree} (htail : C.FormAll tail) :
    C.Follows (convertLetStar walk head tail) (convertLetStar other head tail)
      (C.Calls head tail) := by
  unfold convertLetStar
  split
  · exact .pure (calls_same hC head [])
  · next spec body =>
    split
    · exact .call hC (follows_mapM hC hwalk htail)
    · next bindings hbindings =>
      have hforms := formAll_properList? hC htail.head hbindings
      refine .withFrame hC (hC.names_same []) ?_
      refine (Follows.mapM hC C.Result fun binding hmem => ?_).bind hC fun ys zs h => ?_
      -- here every value sees the names before it
      · refine (follows_convertBinding hC hwalk (hforms binding hmem)).bind hC fun a b h => ?_
        refine (Follows.bindNames hC h.2).bind hC fun _ _ _ => ?_
        exact .pure h.1
      · refine (follows_mapM hC hwalk htail.tail).bind hC fun ys' zs' hrest => ?_
        have hspec := hC.result_ofList htail.head hbindings h
        exact .pure ⟨_, _, rfl, rfl, .cons hspec hrest⟩

/-- The range stands outside the frame of the loop, the result inside it. -/
theorem follows_convertLoop (head : Text) {tail : List Tree} (htail : C.FormAll tail) :
    C.Follows (convertLoop walk head tail) (convertLoop other head tail) (C.Calls head tail) := by
  unfold convertLoop
  split
  · exact follows_convertShapeless hC hwalk head htail
  · next spec body =>
    split
    · exact follows_convertShapeless hC hwalk head htail
    · next name range result hparts =>
      -- the parts of a loop are the elements of its specification
      have hitems : spec.properList? = some (.sym name :: range :: result) := by
        unfold loopParts? at hparts
        split at hparts
        · next hspec =>
          split at hparts
          · cases hparts
            exact hspec
          · cases hparts
        · cases hparts
      have hforms := formAll_properList? hC htail.head hitems
      refine (follows_convertBoundName hC hwalk hforms.head).bind hC fun y z hname => ?_
      refine (hwalk range hforms.tail.head).bind hC fun y' z' hrange => ?_
      refine .withFrame hC (hC.names_result hname) ?_
      refine (follows_mapM hC hwalk hforms.tail.tail).bind hC fun ys zs hresult => ?_
      refine (follows_mapM hC hwalk htail.tail).bind hC fun ys' zs' hrest => ?_
      have hspec := hC.result_ofList htail.head hitems (.cons hname (.cons hrange hresult))
      exact .pure ⟨_, _, rfl, rfl, .cons hspec hrest⟩

omit [GrowingWalk other] in
theorem follows_convertTest {binding : Tree} (hbinding : C.Form binding) :
    C.Follows (convertTest walk binding) (convertTest other binding) (C.Result binding) := by
  unfold convertTest
  split
  · exact hwalk _ hbinding
  · refine (hwalk _ (formAll_list hC hbinding).head).bind hC fun y z h => ?_
    exact .pure (hC.result_list (.one h))
  · have hforms := formAll_list hC hbinding
    refine (hwalk _ hforms.tail.head).bind hC fun y z hvalue => ?_
    refine (follows_convertBoundName hC hwalk hforms.head).bind hC fun y' z' hname => ?_
    refine (Follows.bindNames hC (hC.names_result hname)).bind hC fun _ _ _ => ?_
    exact .pure (hC.result_list (.cons hname (.one hvalue)))
  · exact .pure (hC.result_same _)

omit hC hwalk [GrowingWalk walk] in
/-- A binding that stands without its own parentheses is the whole list of bindings. -/
theorem eq_list_of_isSingleBinding {spec : Tree} {bindings : List Tree}
    (hspec : spec.properList? = some bindings) (hsingle : isSingleBinding bindings = true) :
    spec = .list bindings := by
  unfold Tree.properList? at hspec
  split at hspec
  · cases hspec
    cases hsingle
  · cases hspec
    cases hsingle
  · cases hspec
    rfl
  · cases hspec

/-- Each form has its own way to tell a single binding from a list of them, and both runs read it
off the same tree. -/
theorem follows_convertConditional (head : Text) {tail : List Tree} (htail : C.FormAll tail) :
    C.Follows (convertConditional walk head tail) (convertConditional other head tail)
      (C.Calls head tail) := by
  unfold convertConditional
  split
  · exact follows_convertShapeless hC hwalk head htail
  · next spec body =>
    split
    · exact follows_convertShapeless hC hwalk head htail
    · next bindings hbindings =>
      refine .withFrame hC (hC.names_same []) ?_
      split
      -- a single binding is the whole specification, and is converted as one test
      · next hsingle =>
        obtain rfl := eq_list_of_isSingleBinding hbindings (Bool.and_eq_true_iff.1 hsingle).2
        refine (follows_convertTest hC hwalk htail.head).bind hC fun y z hspec => ?_
        refine (follows_mapM hC hwalk htail.tail).bind hC fun ys zs hrest => ?_
        exact .pure ⟨_, _, rfl, rfl, .cons hspec hrest⟩
      · have hforms := formAll_properList? hC htail.head hbindings
        have htests : C.Follows (bindings.mapM (convertTest walk)) (bindings.mapM (convertTest other))
            (Pointwise C.Result bindings) :=
          .mapM hC _ fun binding h => follows_convertTest hC hwalk (hforms binding h)
        refine htests.bind hC fun ys zs h => ?_
        refine (follows_mapM hC hwalk htail.tail).bind hC fun ys' zs' hrest => ?_
        have hspec := hC.result_ofList htail.head hbindings h
        exact .pure ⟨_, _, rfl, rfl, .cons hspec hrest⟩

/-! ## Local functions and destructuring -/

theorem follows_convertLocalFunction (isExpander isSequential : Bool) {binding : Tree}
    (hbinding : C.Form binding) :
    C.Follows (convertLocalFunction walk isExpander isSequential binding)
      (convertLocalFunction other isExpander isSequential binding) (C.Result binding) := by
  unfold convertLocalFunction
  split
  · next name params body =>
    have hforms := (formAll_list hC hbinding).tail
    -- however parameters and body were converted, they stand after the name again
    have hfinish : ∀ ys zs, Pointwise C.Result (params :: body) ys zs →
        C.Follows
          (do
            if isSequential then bindNames [name]
            return Tree.list (.sym name :: ys))
          (do
            if isSequential then bindNames [name]
            return Tree.list (.sym name :: zs)) (C.Result (.list (.sym name :: params :: body))) := by
      intro ys zs h
      have hresult := hC.result_list (.cons (hC.result_same (.sym name)) h)
      cases isSequential with
      | false => exact .pure hresult
      | true => exact (Follows.bindNames hC (hC.names_same _)).bind hC fun _ _ _ => .pure hresult
    dsimp only
    by_cases hshort : (body.isEmpty && !isExpander) = true
    · simp only [if_pos hshort]
      -- a name with a single form is bound to the value of that form
      obtain rfl : body = [] := List.isEmpty_iff.1 (Bool.and_eq_true_iff.1 hshort).1
      refine (hwalk params hforms.head).bind hC fun y z h => ?_
      exact hfinish [y] [z] (.one h)
    · simp only [if_neg hshort]
      exact (follows_convertLambdaTail hC hwalk hforms).bind hC hfinish
  · exact .pure (hC.result_same _)

/-- What a local function binds depends on the head, which is the same in both runs: nothing,
parameters and body, or all functions of the form. -/
theorem follows_convertLocalFunctions (head : Text) {tail : List Tree} (htail : C.FormAll tail) :
    C.Follows (convertLocalFunctions walk head tail) (convertLocalFunctions other head tail)
      (C.Calls head tail) := by
  unfold convertLocalFunctions
  split
  · exact follows_convertShapeless hC hwalk head htail
  · next spec body =>
    split
    · exact follows_convertShapeless hC hwalk head htail
    · next bindings hbindings =>
      have hforms := formAll_properList? hC htail.head hbindings
      have hfunctions : ∀ isExpander isSequential, C.Follows
          (bindings.mapM (convertLocalFunction walk isExpander isSequential))
          (bindings.mapM (convertLocalFunction other isExpander isSequential))
          (Pointwise C.Result bindings) := fun isExpander isSequential =>
        .mapM hC _ fun binding h =>
          follows_convertLocalFunction hC hwalk isExpander isSequential (hforms binding h)
      refine (Follows.withFrame hC (hC.names_same _) (hfunctions _ _)).bind hC fun ys zs h => ?_
      have hbody := follows_mapM hC hwalk htail.tail
      refine (Follows.withFrame hC (hC.names_same _) hbody).bind hC fun ys' zs' hrest => ?_
      have hspec := hC.result_ofList htail.head hbindings h
      exact .pure ⟨_, _, rfl, rfl, .cons hspec hrest⟩

theorem follows_convertDestructuring (head : Text) {tail : List Tree} (htail : C.FormAll tail) :
    C.Follows (convertDestructuring walk head tail) (convertDestructuring other head tail)
      (C.Calls head tail) := by
  unfold convertDestructuring
  split
  · next params value body =>
    refine (hwalk value htail.tail.head).bind hC fun y z hvalue => ?_
    refine .withFrame hC (hC.names_same []) ?_
    refine (follows_convertParams hC hwalk htail.head).bind hC fun y' z' hparams => ?_
    refine (follows_mapM hC hwalk htail.tail.tail).bind hC fun ys zs hrest => ?_
    exact .pure ⟨_, _, rfl, rfl, .cons hparams (.cons hvalue hrest)⟩
  · exact follows_convertShapeless hC hwalk head htail

/-! ## Conditions -/

omit [GrowingWalk other] in
theorem follows_convertCond (head : Text) {tail : List Tree} (htail : C.FormAll tail) :
    C.Follows (convertCond walk head tail) (convertCond other head tail) (C.Calls head tail) := by
  unfold convertCond
  refine .call hC (.mapM hC _ fun clause hclause => ?_)
  unfold convertClause
  split
  · refine (follows_mapM hC hwalk (formAll_list hC (htail _ hclause))).bind hC fun ys zs h => ?_
    exact .pure (hC.result_list h)
  · exact .pure (hC.result_same _)

theorem follows_convertErrorHandler (names : List Text) {handler : Tree}
    (hhandler : C.Form handler) :
    C.Follows (convertErrorHandler walk names handler) (convertErrorHandler other names handler)
      (C.Result handler) := by
  unfold convertErrorHandler
  split
  · have hbody := follows_mapM hC hwalk (formAll_list hC hhandler).tail
    refine (Follows.withFrame hC (hC.names_same names) hbody).bind hC fun ys zs h => ?_
    exact .pure (hC.result_list (.cons (hC.result_same _) h))
  · exact .pure (hC.result_same _)

/-- The form under protection is outside the frame, and every handler has one of its own. -/
theorem follows_convertConditionCase (head : Text) {tail : List Tree} (htail : C.FormAll tail) :
    C.Follows (convertConditionCase walk head tail) (convertConditionCase other head tail)
      (C.Calls head tail) := by
  unfold convertConditionCase
  split
  · next variable_ form handlers =>
    -- both runs bind the same name, because both contexts have the same marker
    have hfinish : ∀ y z, C.Result variable_ y z → y = z → C.Follows
        (do
          let form ← walk form
          let handlers ← handlers.mapM (convertErrorHandler walk y.symbol?.toList)
          return Tree.call head (y :: form :: handlers))
        (do
          let form ← other form
          let handlers ← handlers.mapM (convertErrorHandler other z.symbol?.toList)
          return Tree.call head (z :: form :: handlers))
        (C.Calls head (variable_ :: form :: handlers)) := by
      rintro y _ hvariable rfl
      refine (hwalk form htail.tail.head).bind hC fun y' z' hform => ?_
      have hhandlers : C.Follows (handlers.mapM (convertErrorHandler walk y.symbol?.toList))
          (handlers.mapM (convertErrorHandler other y.symbol?.toList))
          (Pointwise C.Result handlers) :=
        .mapM hC _ fun handler h =>
          follows_convertErrorHandler hC hwalk _ (htail.tail.tail handler h)
      refine hhandlers.bind hC fun ys zs hrest => ?_
      exact .pure ⟨_, _, rfl, rfl, .cons hvariable (.cons hform hrest)⟩
    refine .read fun s t hst hs => hfinish _ _ ?_ ?_
    · split
      · rw [isEscaped_eq hC hst]
        split
        · next hescaped => exact result_stripped hC hst hs hescaped
        · exact hC.result_same _
      · exact hC.result_same _
    · split
      · rw [isEscaped_eq hC hst, stripProtection_eq hC hst]
      · rfl
  · exact .pure (calls_same hC head _)

/-! ## Patterns -/

/-- Each clause is converted in a frame of the names of its pattern. -/
theorem follows_convertPatternCase (head : Text) {tail : List Tree} (htail : C.FormAll tail) :
    C.Follows (convertPatternCase walk head tail) (convertPatternCase other head tail)
      (C.Calls head tail) := by
  unfold convertPatternCase
  split
  · exact .pure (calls_same hC head [])
  · next value clauses =>
    refine (hwalk value htail.head).bind hC fun y z hvalue => ?_
    have hclauses : C.Follows (clauses.mapM (convertPatternClause walk))
        (clauses.mapM (convertPatternClause other)) (Pointwise C.Result clauses) := by
      refine .mapM hC _ fun clause hclause => ?_
      unfold convertPatternClause
      split
      · have hbody := follows_mapM hC hwalk (formAll_list hC (htail.tail _ hclause)).tail
        refine (Follows.withFrame hC (hC.names_same _) hbody).bind hC fun ys zs h => ?_
        exact .pure (hC.result_list (.cons (hC.result_same _) h))
      · exact .pure (hC.result_same _)
    refine hclauses.bind hC fun ys zs hrest => ?_
    exact .pure ⟨_, _, rfl, rfl, .cons hvalue hrest⟩

omit [GrowingWalk walk] [GrowingWalk other] in
theorem follows_convertPatternBinding (isSequential : Bool) {binding : Tree}
    (hbinding : C.Form binding) :
    C.Follows (convertPatternBinding walk isSequential binding)
      (convertPatternBinding other isSequential binding) (C.Binds id binding) := by
  unfold convertPatternBinding
  split
  · next pattern value =>
    refine (hwalk value (formAll_list hC hbinding).tail.head).bind hC fun y z hvalue => ?_
    have hresult := hC.result_list (.cons (hC.result_same pattern) (.one hvalue))
    cases isSequential with
    | false => exact .pure ⟨hresult, hC.names_same _⟩
    | true =>
        refine (Follows.bindNames hC (hC.names_same _)).bind hC fun _ _ _ => ?_
        exact .pure ⟨hresult, hC.names_same _⟩
  · exact .pure ⟨hC.result_same _, hC.names_same []⟩

/-- Patterns bind their names one after the other or all at once, as the head says. -/
theorem follows_convertPatternLet (head : Text) {tail : List Tree} (htail : C.FormAll tail) :
    C.Follows (convertPatternLet walk head tail) (convertPatternLet other head tail)
      (C.Calls head tail) := by
  unfold convertPatternLet
  split
  · exact follows_convertShapeless hC hwalk head htail
  · next spec body =>
    split
    · exact follows_convertShapeless hC hwalk head htail
    · next bindings hbindings =>
      have hforms := formAll_properList? hC htail.head hbindings
      refine .withFrame hC (hC.names_same []) ?_
      have hresults : ∀ isSequential, C.Follows
          (bindings.mapM (convertPatternBinding walk isSequential))
          (bindings.mapM (convertPatternBinding other isSequential))
          (Pointwise (C.Binds id) bindings) := fun isSequential =>
        .mapM hC _ fun binding h =>
          follows_convertPatternBinding hC hwalk isSequential (hforms binding h)
      refine (hresults _).bind hC fun as bs h => ?_
      have hbody := follows_mapM hC hwalk htail.tail
      refine (Follows.withFrame hC (names_flatMap hC h) hbody).bind hC fun ys zs hrest => ?_
      have hspec := hC.result_ofList htail.head hbindings (results_of_binds h)
      exact .pure ⟨_, _, rfl, rfl, .cons hspec hrest⟩

theorem follows_convertPatternLoop (head : Text) {tail : List Tree} (htail : C.FormAll tail) :
    C.Follows (convertPatternLoop walk head tail) (convertPatternLoop other head tail)
      (C.Calls head tail) := by
  unfold convertPatternLoop
  split
  · next pattern range body =>
    have hforms := formAll_list hC htail.head
    refine (hwalk range hforms.tail.head).bind hC fun y z hrange => ?_
    have hbody := follows_mapM hC hwalk htail.tail
    refine (Follows.withFrame hC (hC.names_same _) hbody).bind hC fun ys zs hrest => ?_
    have hspec := hC.result_list (.cons (hC.result_same pattern) (.one hrange))
    exact .pure ⟨_, _, rfl, rfl, .cons hspec hrest⟩
  · exact follows_convertShapeless hC hwalk head htail

theorem follows_convertPatternLambda (head : Text) {tail : List Tree} (htail : C.FormAll tail) :
    C.Follows (convertPatternLambda walk head tail) (convertPatternLambda other head tail)
      (C.Calls head tail) := by
  unfold convertPatternLambda
  split
  · exact follows_convertShapeless hC hwalk head htail
  · split
    · exact follows_convertShapeless hC hwalk head htail
    · have hbody := follows_mapM hC hwalk htail.tail
      refine (Follows.withFrame hC (hC.names_same _) hbody).bind hC fun ys zs hrest => ?_
      exact .pure ⟨_, _, rfl, rfl, .cons (hC.result_same _) hrest⟩

end BindingForms

end LispNamespace.Comparison
