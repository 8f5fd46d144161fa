import LispNamespace.Proofs.MacroExpansion

/-!
# Rules look at parts only

A rule hands nothing to its walk but parts of the form that it rewrites, and the rule for macro
definitions nothing but the form that binds the macro. So two walks that agree on all such forms make
the rules do the same, and a property of the forms inside a form is enough to know what becomes of
the form.
-/

namespace LispNamespace

open Rewrite

/-- The walks do the same with every form of a kind, and the parts of such forms are of the kind. -/
structure Walk.AgreeOn (Kind : Tree → Prop) (walk other : Walk) : Prop where
  children : ∀ {t child : Tree}, Kind t → child ∈ t.children → Kind child
  eq : ∀ {form : Tree}, Kind form → walk form = other form

/-- Steps that agree on every item walk a list alike. -/
theorem Rewrite.mapM_congr {α β : Type} {f g : α → Rewrite β} {items : List α}
    (h : ∀ item ∈ items, f item = g item) : items.mapM f = items.mapM g := by
  induction items with
  | nil => rw [List.mapM_nil, List.mapM_nil]
  | cons item items ih =>
      have hrest := ih fun other hother => h other (List.mem_cons_of_mem _ hother)
      rw [List.mapM_cons, List.mapM_cons, h item (List.mem_cons_self ..), hrest]

namespace Forms

/-- The body of a function without the interactive specification at its front. -/
def codeOf (body : List Tree) : List Tree :=
  match body with
  | [] => []
  | form :: rest => if (form.tailOf? "interactive").isSome then rest else form :: rest

/-- Which forms come after the interactive specification does not depend on the walk. -/
theorem splitInteractive_bind {α : Type} (walk : Walk) (body : List Tree)
    (next : List Tree × List Tree → Rewrite α) :
    (splitInteractive walk body >>= next) =
      splitInteractive walk body >>= fun front => next (front.1, codeOf body) := by
  cases body with
  | nil => rfl
  | cons form rest =>
      unfold splitInteractive codeOf
      dsimp only
      cases form.tailOf? "interactive" with
      | none => simp
      | some tail => simp

end Forms

namespace Walk.AgreeOn

open Forms

variable {Kind : Tree → Prop} {walk other : Walk}

theorem properList? (h : Walk.AgreeOn Kind walk other) {t : Tree} {items : List Tree} (ht : Kind t)
    (hitems : t.properList? = some items) : ∀ item ∈ items, Kind item :=
  fun item hitem => h.children ht (Tree.children_of_properList? hitems item hitem)

theorem list (h : Walk.AgreeOn Kind walk other) {items : List Tree} (ht : Kind (.list items)) :
    ∀ item ∈ items, Kind item :=
  fun _ hitem => h.children ht hitem

theorem mapM (h : Walk.AgreeOn Kind walk other) {items : List Tree}
    (hitems : ∀ item ∈ items, Kind item) : items.mapM walk = items.mapM other :=
  mapM_congr fun item hitem => h.eq (hitems item hitem)

/-! ## Calls -/

mutual

theorem apply (h : Walk.AgreeOn Kind walk other) (plan : Plan) {arg : Tree} (harg : Kind arg) :
    (plan.apply walk pure arg : Rewrite Tree) = plan.apply other pure arg := by
  cases plan with
  | code =>
      unfold Plan.apply
      exact h.eq harg
  | data =>
      unfold Plan.apply
      rfl
  | nested plans =>
      unfold Plan.apply
      split
      · rw [applyAll h plans (h.list harg)]
      · rfl

theorem applyAll (h : Walk.AgreeOn Kind walk other) (plans : List Plan) {args : List Tree}
    (hargs : ∀ arg ∈ args, Kind arg) :
    (Plan.applyAll walk pure plans args : Rewrite (List Tree)) =
      Plan.applyAll other pure plans args := by
  cases plans with
  | nil =>
      unfold Plan.applyAll
      rfl
  | cons plan plans =>
      cases args with
      | nil =>
          unfold Plan.applyAll
          rfl
      | cons arg args =>
          have hfirst := apply h plan (hargs arg (List.mem_cons_self ..))
          have hrest := applyAll h plans fun a ha => hargs a (List.mem_cons_of_mem _ ha)
          unfold Plan.applyAll
          rw [hfirst, hrest]

end

variable (h : Walk.AgreeOn Kind walk other)

include h

/-- A call with a grammar walks the arguments that the grammar calls code. -/
theorem convertByGrammar (head : Text) (spec : Tree) {args : List Tree}
    (hargs : ∀ arg ∈ args, Kind arg) :
    Forms.convertByGrammar walk head spec args = Forms.convertByGrammar other head spec args := by
  unfold Forms.convertByGrammar
  simp only [h.applyAll _ hargs]

theorem convertMacroArguments (head written : Text) {args : List Tree}
    (hargs : ∀ arg ∈ args, Kind arg) :
    Forms.convertMacroArguments walk head written args =
      Forms.convertMacroArguments other head written args := by
  unfold Forms.convertMacroArguments
  simp only [h.mapM hargs, h.convertByGrammar head _ hargs]

theorem convertCall (head written : Text) (isOwn : Bool) {args : List Tree}
    (hargs : ∀ arg ∈ args, Kind arg) :
    Forms.convertCall walk head written isOwn args =
      Forms.convertCall other head written isOwn args := by
  unfold Forms.convertCall
  simp only [h.mapM hargs, h.convertMacroArguments head written hargs]

theorem convertShapeless (head : Text) {tail : List Tree} (htail : ∀ t ∈ tail, Kind t) :
    Forms.convertShapeless walk head tail = Forms.convertShapeless other head tail := by
  unfold Forms.convertShapeless
  simp only [h.convertMacroArguments head head htail]

/-! ## Quotations -/

/-- The quoted datum is walked, if at all, as a whole. -/
theorem convertQuote (head : Text) {tail : List Tree} (htail : ∀ t ∈ tail, Kind t) :
    Forms.convertQuote walk head tail = Forms.convertQuote other head tail := by
  unfold Forms.convertQuote
  split
  · rw [h.eq (htail _ (List.mem_singleton_self _))]
  · rfl

theorem convertFunctionQuote (head : Text) {tail : List Tree} (htail : ∀ t ∈ tail, Kind t) :
    Forms.convertFunctionQuote walk head tail = Forms.convertFunctionQuote other head tail := by
  unfold Forms.convertFunctionQuote
  split
  · rw [h.eq (htail _ (List.mem_singleton_self _))]
  · rfl

/-! ## Functions -/

theorem convertDefault {items : List Tree} (hitems : ∀ item ∈ items, Kind item) :
    Forms.convertDefault walk items = Forms.convertDefault other items := by
  cases items with
  | nil => rfl
  | cons default more =>
      unfold Forms.convertDefault
      dsimp only
      rw [h.eq (hitems default (List.mem_cons_self ..))]

/-- Only the defaults of a lambda list are walked. -/
theorem convertParamItems (section_ : Text) {items : List Tree} (hitems : ∀ item ∈ items, Kind item) :
    Forms.convertParamItems walk section_ items = Forms.convertParamItems other section_ items := by
  fun_induction Forms.convertParamItems walk section_ items with
  | case1 => rfl
  | case2 section_ name rest hmarker ih =>
      have hrest := ih fun item hitem => hitems item (List.mem_cons_of_mem _ hitem)
      simp only [Forms.convertParamItems, hrest, if_pos hmarker]
  | case3 section_ name rest hmarker ih =>
      have hrest := ih fun item hitem => hitems item (List.mem_cons_of_mem _ hitem)
      simp only [Forms.convertParamItems, hrest, if_neg hmarker]
  | case4 section_ variable_ more rest hsection ih =>
      have hrest := ih fun item hitem => hitems item (List.mem_cons_of_mem _ hitem)
      -- the default form is a part of the first parameter
      have hfirst := h.list (hitems _ (List.mem_cons_self ..))
      have hdefault := h.convertDefault fun item hitem => hfirst item (List.mem_cons_of_mem _ hitem)
      simp only [Forms.convertParamItems, hrest, hdefault, if_pos hsection]
  | case5 section_ variable_ more rest hsection ih =>
      have hrest := ih fun item hitem => hitems item (List.mem_cons_of_mem _ hitem)
      simp only [Forms.convertParamItems, hrest, if_neg hsection]
  | case6 section_ param rest hsym hlist ih =>
      have hrest := ih fun item hitem => hitems item (List.mem_cons_of_mem _ hitem)
      rw [hrest]
      cases param <;> first | rfl | simp_all [Forms.convertParamItems]

theorem convertParams {params : Tree} (hparams : Kind params) :
    Forms.convertParams walk params = Forms.convertParams other params := by
  unfold Forms.convertParams
  split
  · rw [h.convertParamItems "" (h.list hparams)]
  · rw [h.convertParamItems "" fun item hitem => h.children hparams (List.mem_append_left _ hitem)]
  · rfl
  · rw [h.convertParamItems "" fun item hitem => h.children hparams (List.mem_append_left _ hitem)]
  · rfl

theorem convertInteractive (head : Text) {tail : List Tree} (htail : ∀ t ∈ tail, Kind t) :
    Forms.convertInteractive walk head tail = Forms.convertInteractive other head tail := by
  unfold Forms.convertInteractive
  split
  · rfl
  · rw [h.eq (htail _ (List.mem_cons_self ..))]

theorem splitInteractive {body : List Tree} (hbody : ∀ t ∈ body, Kind t) :
    Forms.splitInteractive walk body = Forms.splitInteractive other body := by
  cases body with
  | nil => rfl
  | cons form rest =>
      unfold Forms.splitInteractive
      dsimp only
      split
      · next tail htail =>
        have hform := hbody form (List.mem_cons_self ..)
        rw [h.convertInteractive "interactive" fun t ht =>
          h.children hform (Tree.children_of_tailOf? htail t ht)]
      · rfl

/-- The parameters and the body of a lambda expression are walked in a frame of their own; the walks
still see the same forms. -/
theorem convertLambdaTail {params : Tree} {body : List Tree} (hparams : Kind params)
    (hbody : ∀ t ∈ body, Kind t) :
    Forms.convertLambdaTail walk params body = Forms.convertLambdaTail other params body := by
  have hrest : ∀ t ∈ (Definition.splitDeclarations body).2, Kind t :=
    fun t ht => hbody t (Definition.mem_of_mem_splitDeclarations ht)
  have hcode : ∀ t ∈ codeOf (Definition.splitDeclarations body).2, Kind t := by
    intro t ht
    unfold codeOf at ht
    split at ht
    · cases ht
    · next form rest heq =>
      rw [heq] at hrest
      split at ht
      · exact hrest t (List.mem_cons_of_mem _ ht)
      · exact hrest t ht
  unfold Forms.convertLambdaTail
  dsimp only
  rw [splitInteractive_bind walk, splitInteractive_bind other]
  simp only [h.splitInteractive hrest, h.convertParams hparams, h.mapM hcode]

theorem convertLambda (head : Text) {tail : List Tree} (htail : ∀ t ∈ tail, Kind t) :
    Forms.convertLambda walk head tail = Forms.convertLambda other head tail := by
  unfold Forms.convertLambda
  split
  · rfl
  · have hparts := List.forall_mem_cons.1 htail
    rw [h.convertLambdaTail hparts.1 hparts.2]

/-! ## Definitions -/

theorem convertQuotedName (learn : Register) {name : Tree} (hname : Kind name) :
    Forms.convertQuotedName walk learn name = Forms.convertQuotedName other learn name := by
  unfold Forms.convertQuotedName
  rw [h.eq hname]

/-- Of a definition, the name is no form, and all that follows it is walked. -/
theorem convertVariable (head : Text) {tail : List Tree} (htail : ∀ t ∈ tail, Kind t) :
    Forms.convertVariable walk head tail = Forms.convertVariable other head tail := by
  unfold Forms.convertVariable
  split
  · rfl
  · rw [h.mapM (List.forall_mem_cons.1 htail).2]

theorem convertFunction (head : Text) {tail : List Tree} (htail : ∀ t ∈ tail, Kind t) :
    Forms.convertFunction walk head tail = Forms.convertFunction other head tail := by
  unfold Forms.convertFunction
  split
  · rfl
  · next name rest =>
    cases rest with
    | nil => rfl
    | cons params body =>
        have hrest := List.forall_mem_cons.1 (List.forall_mem_cons.1 htail).2
        simp only [h.convertLambdaTail hrest.1 hrest.2]

theorem convertAliasWith (learn : Register) (head : Text) {tail : List Tree}
    (htail : ∀ t ∈ tail, Kind t) :
    Forms.convertAliasWith learn walk head tail = Forms.convertAliasWith learn other head tail := by
  unfold Forms.convertAliasWith
  split
  · rfl
  · have hparts := List.forall_mem_cons.1 htail
    rw [h.convertQuotedName learn hparts.1, h.mapM hparts.2]

theorem convertMinorMode (head : Text) {tail : List Tree} (htail : ∀ t ∈ tail, Kind t) :
    Forms.convertMinorMode walk head tail = Forms.convertMinorMode other head tail := by
  unfold Forms.convertMinorMode
  split
  · rfl
  · rw [h.convertByGrammar head _ (List.forall_mem_cons.1 htail).2]

theorem convertDerivedMode (head : Text) {tail : List Tree} (htail : ∀ t ∈ tail, Kind t) :
    Forms.convertDerivedMode walk head tail = Forms.convertDerivedMode other head tail := by
  unfold Forms.convertDerivedMode
  split
  · rfl
  · next name rest =>
    cases rest with
    | nil => rfl
    | cons parent args =>
        have hrest := List.forall_mem_cons.1 (List.forall_mem_cons.1 htail).2
        simp only [h.convertByGrammar head _ hrest.2]

theorem convertGlobalizedMode (head : Text) {tail : List Tree} (htail : ∀ t ∈ tail, Kind t) :
    Forms.convertGlobalizedMode walk head tail = Forms.convertGlobalizedMode other head tail := by
  unfold Forms.convertGlobalizedMode
  split
  · rfl
  · next name rest =>
    have hargs : ∀ t ∈ rest.drop 2, Kind t :=
      fun t ht => htail t (List.mem_cons_of_mem _ (List.mem_of_mem_drop ht))
    rw [h.convertByGrammar head _ hargs]

/-! ## Binding forms -/

/-- A bound name is walked like a form where it is qualified. -/
theorem convertBoundName {name : Tree} (hname : Kind name) :
    Forms.convertBoundName walk name = Forms.convertBoundName other name := by
  unfold Forms.convertBoundName
  rw [h.eq hname]

theorem convertBinding {binding : Tree} (hbinding : Kind binding) :
    Forms.convertBinding walk binding = Forms.convertBinding other binding := by
  unfold Forms.convertBinding
  split
  · rw [h.convertBoundName hbinding]
  · have hparts := List.forall_mem_cons.1 (h.list hbinding)
    rw [h.convertBoundName hparts.1, h.mapM hparts.2]
  · rfl

/-- The bindings are parts of the form, and the values are parts of the bindings. -/
theorem convertLet (head : Text) {tail : List Tree} (htail : ∀ t ∈ tail, Kind t) :
    Forms.convertLet walk head tail = Forms.convertLet other head tail := by
  unfold Forms.convertLet
  split
  · rfl
  · next spec body =>
    have hparts := List.forall_mem_cons.1 htail
    split
    · rw [h.mapM htail]
    · next bindings hbindings =>
      have hitems : bindings.mapM (Forms.convertBinding walk) =
          bindings.mapM (Forms.convertBinding other) :=
        mapM_congr fun b hb => h.convertBinding (h.properList? hparts.1 hbindings b hb)
      rw [hitems, h.mapM hparts.2]

theorem convertLetStar (head : Text) {tail : List Tree} (htail : ∀ t ∈ tail, Kind t) :
    Forms.convertLetStar walk head tail = Forms.convertLetStar other head tail := by
  unfold Forms.convertLetStar
  split
  · rfl
  · next spec body =>
    have hparts := List.forall_mem_cons.1 htail
    split
    · rw [h.mapM htail]
    · next bindings hbindings =>
      -- the bindings are walked alike, and then the body
      rw [h.mapM hparts.2]
      refine congrArg (withFrame []) (congrArg (· >>= _) (mapM_congr fun binding hbinding => ?_))
      rw [h.convertBinding (h.properList? hparts.1 hbindings binding hbinding)]

theorem convertLoop (head : Text) {tail : List Tree} (htail : ∀ t ∈ tail, Kind t) :
    Forms.convertLoop walk head tail = Forms.convertLoop other head tail := by
  unfold Forms.convertLoop
  split
  · rw [h.convertShapeless head htail]
  · next spec body =>
    have hparts := List.forall_mem_cons.1 htail
    split
    · rw [h.convertShapeless head htail]
    · next name range result hspec =>
      -- the parts of the loop are items of the list after its head
      obtain ⟨items, hitems, hloop⟩ : ∃ items, spec.properList? = some items ∧
          items = .sym name :: range :: result := by
        unfold loopParts? at hspec
        split at hspec
        · next hproper =>
          split at hspec
          · cases hspec
            exact ⟨_, hproper, rfl⟩
          · cases hspec
        · cases hspec
      have hall := h.properList? hparts.1 hitems
      rw [hloop] at hall
      have hname := (List.forall_mem_cons.1 hall).1
      have hrest := List.forall_mem_cons.1 (List.forall_mem_cons.1 hall).2
      rw [h.convertBoundName hname, h.eq hrest.1, h.mapM hrest.2, h.mapM hparts.2]

/-- A test that is written as a list may be a form of its own or a binding. -/
theorem convertTest_list {items : List Tree} (hitems : ∀ item ∈ items, Kind item) :
    Forms.convertTest walk (.list items) = Forms.convertTest other (.list items) := by
  unfold Forms.convertTest
  split
  · next heq => cases heq
  · next test heq =>
    cases heq
    rw [h.eq (hitems test (List.mem_singleton_self _))]
  · next name value heq =>
    cases heq
    have hparts := List.forall_mem_cons.1 hitems
    rw [h.convertBoundName hparts.1, h.eq (hparts.2 value (List.mem_singleton_self _))]
  · rfl

theorem convertTest {binding : Tree} (hbinding : Kind binding) :
    Forms.convertTest walk binding = Forms.convertTest other binding := by
  cases binding with
  | sym name => exact h.eq hbinding
  | list items => exact h.convertTest_list (h.list hbinding)
  | _ => rfl

theorem convertConditional (head : Text) {tail : List Tree} (htail : ∀ t ∈ tail, Kind t) :
    Forms.convertConditional walk head tail = Forms.convertConditional other head tail := by
  unfold Forms.convertConditional
  split
  · rw [h.convertShapeless head htail]
  · next spec body =>
    have hparts := List.forall_mem_cons.1 htail
    split
    · rw [h.convertShapeless head htail]
    · next bindings hbindings =>
      have hitems : bindings.mapM (Forms.convertTest walk) =
          bindings.mapM (Forms.convertTest other) :=
        mapM_congr fun b hb => h.convertTest (h.properList? hparts.1 hbindings b hb)
      have hsingle := h.convertTest_list (h.properList? hparts.1 hbindings)
      simp only [hitems, hsingle, h.mapM hparts.2]

/-- The definition of a local function is no form, but its parameters and its body are walked. -/
theorem convertLocalFunction (isExpander isSequential : Bool) {binding : Tree}
    (hbinding : Kind binding) :
    Forms.convertLocalFunction walk isExpander isSequential binding =
      Forms.convertLocalFunction other isExpander isSequential binding := by
  unfold Forms.convertLocalFunction
  split
  · have hparts := List.forall_mem_cons.1 (List.forall_mem_cons.1 (h.list hbinding)).2
    rw [h.eq hparts.1, h.convertLambdaTail hparts.1 hparts.2]
  · rfl

theorem convertLocalFunctions (head : Text) {tail : List Tree} (htail : ∀ t ∈ tail, Kind t) :
    Forms.convertLocalFunctions walk head tail = Forms.convertLocalFunctions other head tail := by
  unfold Forms.convertLocalFunctions
  split
  · rw [h.convertShapeless head htail]
  · next spec body =>
    have hparts := List.forall_mem_cons.1 htail
    split
    · rw [h.convertShapeless head htail]
    · next bindings hbindings =>
      have hitems : ∀ isExpander isSequential,
          bindings.mapM (Forms.convertLocalFunction walk isExpander isSequential) =
            bindings.mapM (Forms.convertLocalFunction other isExpander isSequential) :=
        fun _ _ => mapM_congr fun b hb =>
          h.convertLocalFunction _ _ (h.properList? hparts.1 hbindings b hb)
      simp only [hitems, h.mapM hparts.2]

theorem convertDestructuring (head : Text) {tail : List Tree} (htail : ∀ t ∈ tail, Kind t) :
    Forms.convertDestructuring walk head tail = Forms.convertDestructuring other head tail := by
  unfold Forms.convertDestructuring
  split
  · have hparts := List.forall_mem_cons.1 htail
    have hrest := List.forall_mem_cons.1 hparts.2
    rw [h.eq hrest.1, h.convertParams hparts.1, h.mapM hrest.2]
  · rw [h.convertShapeless head htail]

/-! ## Conditions -/

theorem convertClause {clause : Tree} (hclause : Kind clause) :
    Forms.convertClause walk clause = Forms.convertClause other clause := by
  unfold Forms.convertClause
  split
  · rw [h.mapM (h.list hclause)]
  · rfl

theorem convertCond (head : Text) {tail : List Tree} (htail : ∀ t ∈ tail, Kind t) :
    Forms.convertCond walk head tail = Forms.convertCond other head tail := by
  unfold Forms.convertCond
  rw [mapM_congr fun clause hclause => h.convertClause (htail clause hclause)]

theorem convertErrorHandler (names : List Text) {handler : Tree} (hhandler : Kind handler) :
    Forms.convertErrorHandler walk names handler = Forms.convertErrorHandler other names handler := by
  unfold Forms.convertErrorHandler
  split
  · rw [h.mapM (List.forall_mem_cons.1 (h.list hhandler)).2]
  · rfl

theorem convertConditionCase (head : Text) {tail : List Tree} (htail : ∀ t ∈ tail, Kind t) :
    Forms.convertConditionCase walk head tail = Forms.convertConditionCase other head tail := by
  unfold Forms.convertConditionCase
  split
  · next variable_ form handlers =>
    have hparts := List.forall_mem_cons.1 (List.forall_mem_cons.1 htail).2
    have hitems : ∀ names, handlers.mapM (Forms.convertErrorHandler walk names) =
        handlers.mapM (Forms.convertErrorHandler other names) :=
      fun _ => mapM_congr fun handler hmem => h.convertErrorHandler _ (hparts.2 handler hmem)
    simp only [h.eq hparts.1, hitems]
  · rfl

/-! ## Patterns -/

theorem convertPatternClause {clause : Tree} (hclause : Kind clause) :
    Forms.convertPatternClause walk clause = Forms.convertPatternClause other clause := by
  unfold Forms.convertPatternClause
  split
  · rw [h.mapM (List.forall_mem_cons.1 (h.list hclause)).2]
  · rfl

theorem convertPatternCase (head : Text) {tail : List Tree} (htail : ∀ t ∈ tail, Kind t) :
    Forms.convertPatternCase walk head tail = Forms.convertPatternCase other head tail := by
  unfold Forms.convertPatternCase
  split
  · rfl
  · have hparts := List.forall_mem_cons.1 htail
    rw [h.eq hparts.1, mapM_congr fun clause hmem => h.convertPatternClause (hparts.2 clause hmem)]

theorem convertPatternBinding (isSequential : Bool) {binding : Tree} (hbinding : Kind binding) :
    Forms.convertPatternBinding walk isSequential binding =
      Forms.convertPatternBinding other isSequential binding := by
  unfold Forms.convertPatternBinding
  split
  · have hparts := List.forall_mem_cons.1 (h.list hbinding)
    rw [h.eq (hparts.2 _ (List.mem_singleton_self _))]
  · rfl

theorem convertPatternLet (head : Text) {tail : List Tree} (htail : ∀ t ∈ tail, Kind t) :
    Forms.convertPatternLet walk head tail = Forms.convertPatternLet other head tail := by
  unfold Forms.convertPatternLet
  split
  · rw [h.convertShapeless head htail]
  · next spec body =>
    have hparts := List.forall_mem_cons.1 htail
    split
    · rw [h.convertShapeless head htail]
    · next bindings hbindings =>
      have hitems : ∀ isSequential, bindings.mapM (Forms.convertPatternBinding walk isSequential) =
          bindings.mapM (Forms.convertPatternBinding other isSequential) :=
        fun _ => mapM_congr fun b hb =>
          h.convertPatternBinding _ (h.properList? hparts.1 hbindings b hb)
      simp only [hitems, h.mapM hparts.2]

theorem convertPatternLoop (head : Text) {tail : List Tree} (htail : ∀ t ∈ tail, Kind t) :
    Forms.convertPatternLoop walk head tail = Forms.convertPatternLoop other head tail := by
  unfold Forms.convertPatternLoop
  split
  · have hparts := List.forall_mem_cons.1 htail
    have hspec := List.forall_mem_cons.1 (h.list hparts.1)
    rw [h.eq (hspec.2 _ (List.mem_singleton_self _)), h.mapM hparts.2]
  · rw [h.convertShapeless head htail]

theorem convertPatternLambda (head : Text) {tail : List Tree} (htail : ∀ t ∈ tail, Kind t) :
    Forms.convertPatternLambda walk head tail = Forms.convertPatternLambda other head tail := by
  unfold Forms.convertPatternLambda
  split
  · rw [h.convertShapeless head htail]
  · next params body =>
    split
    · rw [h.convertShapeless head htail]
    · rw [h.mapM (List.forall_mem_cons.1 htail).2]

/-! ## Forms -/

/-- A rule for other forms than macro definitions looks at the parts of the form only. -/
theorem convertRule {rule : FormRule} (hrule : rule ≠ .macroDefinition) (head : Text)
    {tail : List Tree} (htail : ∀ t ∈ tail, Kind t) :
    rule.convert walk head tail = rule.convert other head tail := by
  cases rule with
  | variable_ => exact h.convertVariable head htail
  | function => exact h.convertFunction head htail
  | «alias» => exact h.convertAliasWith _ head htail
  | variableAlias => exact h.convertAliasWith _ head htail
  | minorMode => exact h.convertMinorMode head htail
  | derivedMode => exact h.convertDerivedMode head htail
  | globalizedMode => exact h.convertGlobalizedMode head htail
  | macroDefinition => exact absurd rfl hrule
  | quote => exact h.convertQuote head htail
  | functionQuote => exact h.convertFunctionQuote head htail
  | backquote => rfl
  | lambda => exact h.convertLambda head htail
  | interactive => exact h.convertInteractive head htail
  | bindAll => exact h.convertLet head htail
  | bindInOrder => exact h.convertLetStar head htail
  | cond => exact h.convertCond head htail
  | conditionCase => exact h.convertConditionCase head htail
  | loop => exact h.convertLoop head htail
  | conditional => exact h.convertConditional head htail
  | localFunctions => exact h.convertLocalFunctions head htail
  | destructuring => exact h.convertDestructuring head htail
  | patternCase => exact h.convertPatternCase head htail
  | patternLet => exact h.convertPatternLet head htail
  | patternLoop => exact h.convertPatternLoop head htail
  | patternLambda => exact h.convertPatternLambda head htail

/-- A form whose head is no symbol is converted part by part. -/
theorem convertCompound {head : Tree} (hhead : ∀ name, head ≠ .sym name) {tail : List Tree}
    (hitems : ∀ t ∈ head :: tail, Kind t) :
    convertHeaded walk head tail = convertHeaded other head tail := by
  unfold convertHeaded
  refine bind_congr fun s => ?_
  cases head with
  | sym name => exact absurd rfl (hhead name)
  | list _ | vec _ | dot _ _ =>
      dsimp only
      rw [h.mapM hitems, h.mapM (List.forall_mem_cons.1 hitems).2]
      split
      · next parts hparts =>
        have hlambda : ∀ t ∈ parts, Kind t := fun t ht =>
          h.children (hitems _ (List.mem_cons_self ..)) (Tree.children_of_tailOf? hparts t ht)
        rw [h.convertLambda "lambda" hlambda]
      · rfl
  | _ => rfl

end Walk.AgreeOn

end LispNamespace
