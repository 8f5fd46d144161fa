import LispNamespace.Proofs.Comparison.Bindings

/-!
# Comparing conversions

The conversion of a form keeps two runs together when the comparison obeys the laws about defined
names wherever a definition occurs, and those about macros wherever a macro is defined.
-/

namespace LispNamespace

/-! ## One form -/

namespace Comparison

open Rewrite

/-- If a form that is compared defines names, the comparison obeys the laws about defined names, and
those about macro definitions if it defines a macro. -/
def AdmitsForms (C : Comparison) : Prop :=
  ∀ name tail rule, C.Form (Tree.call name tail) → FormRule.ofHead? name = some rule →
    rule.isDefinition = true → C.Defining ∧ (rule = .macroDefinition → C.Expanding)

/-- Where no macro is defined, the laws about defined names are enough. -/
theorem admitsForms_of_noMacros {C : Comparison} (hD : C.Defining)
    (hform : ∀ t, C.Form t → t.definesNoMacro = true) : C.AdmitsForms := by
  intro name tail rule hcall hrule _
  refine ⟨hD, ?_⟩
  rintro rfl
  exact absurd hrule (Tree.ofHead?_ne_macroDefinition (hform _ hcall))

/-- Where nothing is defined, neither the laws about defined names are needed. -/
theorem admitsForms_of_noDefinitions {C : Comparison}
    (hform : ∀ t, C.Form t → t.isListHeadedBy FormRule.definitionNames = false) :
    C.AdmitsForms := by
  intro name tail rule hcall hrule hdefinition
  rw [Tree.isDefinition_eq_false (hform _ hcall) hrule] at hdefinition
  cases hdefinition

variable {C : Comparison} {walk other : Walk} [GrowingWalk walk] [GrowingWalk other]

section Nodes

variable (hC : C.Lawful) (hwalk : C.FollowsWalk walk other)

include hC hwalk

/-- Every rule but the one for macro definitions keeps the runs together. -/
theorem follows_convertRule {rule : FormRule} (hkind : rule ≠ .macroDefinition)
    (hrule : rule.isDefinition = true → C.Defining) (head : Text) {tail : List Tree}
    (htail : C.FormAll tail) :
    C.Follows (rule.convert walk head tail) (rule.convert other head tail) (C.Calls head tail) := by
  cases rule with
  | variable_ => exact follows_convertVariable hC (hrule rfl) hwalk head htail
  | function => exact follows_convertFunction hC (hrule rfl) hwalk head htail
  | «alias» => exact follows_convertAliasWith hC (hrule rfl) hwalk _ head htail
  | variableAlias => exact follows_convertAliasWith hC (hrule rfl) hwalk _ head htail
  | minorMode => exact follows_convertMinorMode hC (hrule rfl) hwalk head htail
  | derivedMode => exact follows_convertDerivedMode hC (hrule rfl) hwalk head htail
  | globalizedMode => exact follows_convertGlobalizedMode hC (hrule rfl) hwalk head htail
  | macroDefinition => exact absurd rfl hkind
  | quote => exact follows_convertQuote hC hwalk head htail
  | functionQuote => exact follows_convertFunctionQuote hC hwalk head htail
  | backquote => exact follows_convertBackquote hC walk other head tail
  | lambda => exact follows_convertLambda hC hwalk head htail
  | interactive => exact follows_convertInteractive hC hwalk head htail
  | bindAll => exact follows_convertLet hC hwalk head htail
  | bindInOrder => exact follows_convertLetStar hC hwalk head htail
  | cond => exact follows_convertCond hC hwalk head htail
  | conditionCase => exact follows_convertConditionCase hC hwalk head htail
  | loop => exact follows_convertLoop hC hwalk head htail
  | conditional => exact follows_convertConditional hC hwalk head htail
  | localFunctions => exact follows_convertLocalFunctions hC hwalk head htail
  | destructuring => exact follows_convertDestructuring hC hwalk head htail
  | patternCase => exact follows_convertPatternCase hC hwalk head htail
  | patternLet => exact follows_convertPatternLet hC hwalk head htail
  | patternLoop => exact follows_convertPatternLoop hC hwalk head htail
  | patternLambda => exact follows_convertPatternLambda hC hwalk head htail

omit [GrowingWalk walk] [GrowingWalk other] hwalk in
/-- What is recorded about a macro is recorded alike. -/
theorem follows_prepareMacro (hE : C.Expanding) (head name : Text) (params : Tree)
    (definition : List Tree) :
    C.Follows (Forms.prepareMacro head name params definition)
      (Forms.prepareMacro head name params definition) fun a b => b = a := by
  intro s t hst hs a s' hrun hs'
  rcases Forms.runFrom_prepareMacro head name params definition s with ⟨j, hprepare⟩
  rcases Forms.runFrom_prepareMacro head name params definition t with ⟨k, hprepare'⟩
  rw [hprepare] at hrun
  by_cases hexpands : s.host.expandsDefinition head = true
  · rw [if_pos hexpands] at hrun
    cases hrun
    rw [hE.expands head hst, if_pos hexpands] at hprepare'
    have hcounts : C.Counts { s.recordMacro name definition with nameIsFinal := true } :=
      hC.counts (Session.growsTo_journal _ j) hs'
    refine ⟨t.macroName name, _, hprepare', hE.macroName name hst, ?_⟩
    exact hC.journal j k (hE.recordMacro name definition hst hcounts)
  · rw [if_neg hexpands] at hrun
    cases hrun

omit [GrowingWalk other] in
/-- A macro definition keeps the runs together: the macro is recorded alike, and the form that binds
its name is compared in its place. -/
theorem follows_convertMacro (hE : C.Expanding) {head : Text} {tail : List Tree}
    (hform : C.Form (Tree.call head tail)) (hhead : FormRule.ofHead? head = some .macroDefinition) :
    C.Follows (Forms.convertMacro walk head tail) (Forms.convertMacro other head tail)
      (C.Result (Tree.call head tail)) := by
  by_cases hshape : ∃ name params definition, tail = .sym name :: params :: definition
  · rcases hshape with ⟨name, params, definition, rfl⟩
    rw [Forms.convertMacro_eq, Forms.convertMacro_eq]
    refine (follows_prepareMacro hC hE head name params definition).bind hC fun final _ hfinal => ?_
    rw [hfinal]
    have hbound := hE.form_bound hform hhead final
    exact (hwalk _ hbound).bind hC fun a b hab => .pure (hE.result_bound hab)
  · rw [Forms.convertMacro_shapeless walk head hshape, Forms.convertMacro_shapeless other head hshape]
    exact .pure (hC.result_same _)

/-- A form that begins with a symbol is approached alike in both runs, though its head may become
another name in each. -/
theorem agree_convertNamed {name : Text} {tail : List Tree} (htail : C.FormAll tail) {s t : Session}
    (hst : C.Related s t) (hs : C.Counts s) (happroach : s.approach name = t.approach name)
    (hrule : ∀ rule, s.approach name = .rule rule →
      C.Follows (rule.convert walk name tail) (rule.convert other name tail)
        (C.Result (Tree.call name tail))) :
    C.Agree s t (convertHeaded walk (.sym name) tail) (convertHeaded other (.sym name) tail)
      (C.Result (Tree.call name tail)) := by
  intro a s' hrun hs'
  rw [runFrom_convertHeaded] at hrun
  rw [runFrom_convertHeaded, ← happroach]
  cases hcase : s.approach name with
  | rule rule =>
      rw [hcase] at hrun
      -- each run reports the rule in its own journal
      have hall := (Follows.trace hC (.specialForm s.context.qualifier name)
        (.specialForm t.context.qualifier name)).bind hC fun _ _ _ => hrule rule hcase
      exact hall s t hst hs a s' hrun hs'
  | call treatment =>
      rw [hcase] at hrun
      have hhead := hC.result_function name hst hs
      have hall := (follows_convertTreated hC hwalk (Forms.functionReference s name)
        (Forms.functionReference t name) treatment htail).bind hC fun ys zs h =>
          Follows.pure (hC.result_list (.cons hhead h))
      exact hall s t hst hs a s' hrun hs'

/-- A form whose head is no symbol is a call of a lambda expression, or a list whose items are all
converted. -/
theorem follows_convertCompound {head : Tree} (hhead : ∀ name, head ≠ .sym name) {tail : List Tree}
    (hitems : C.FormAll (head :: tail)) :
    C.Follows (convertHeaded walk head tail) (convertHeaded other head tail)
      (C.Result (.list (head :: tail))) := by
  cases head with
  | sym name => exact absurd rfl (hhead name)
  | list _ | vec _ | dot _ _ =>
      refine .read fun _ _ _ _ => ?_
      dsimp only
      -- a function at the head is converted by its own rule; any other head is reported
      split
      · next parts hparts =>
        have hparts' := formAll_tailOf? hC hitems.head hparts
        refine (follows_convertLambda hC hwalk "lambda" hparts').bind hC fun y z h => ?_
        rcases h with ⟨ys, zs, rfl, rfl, hall⟩
        have hhead := hC.result_call hitems.head (.inl rfl) hparts hall
        refine (follows_mapM hC hwalk hitems.tail).bind hC fun ys' zs' htail => ?_
        exact .pure (hC.result_list (.cons hhead htail))
      · refine (Follows.warn hC _ _).bind hC fun _ _ _ => ?_
        refine (follows_mapM hC hwalk hitems).bind hC fun ys zs h => ?_
        exact .pure (hC.result_list h)
  -- a form that begins with a constant is left alone
  | _ => exact .read fun _ _ _ _ => .pure (hC.result_same _)

/-- A form keeps the runs together if its parts may be walked, and its rule, if it has one, keeps them
together. -/
theorem agree_convertNode {form : Tree} (hparts : C.FormAll form.children) {s t : Session}
    (hst : C.Related s t) (hs : C.Counts s)
    (happroach : ∀ name tail, form = Tree.call name tail → s.approach name = t.approach name)
    (hrule : ∀ name tail rule, form = Tree.call name tail → s.approach name = .rule rule →
      C.Follows (rule.convert walk name tail) (rule.convert other name tail) (C.Result form)) :
    C.Agree s t (convertNode walk form) (convertNode other form) (C.Result form) := by
  unfold convertNode
  split
  · exact Follows.read (fun s t hst hs => .pure (hC.result_variable _ hst hs)) s t hst hs
  · next head tail =>
    by_cases hhead : ∃ name, head = .sym name
    · rcases hhead with ⟨name, rfl⟩
      exact agree_convertNamed hC hwalk hparts.tail hst hs (happroach name tail rfl) fun rule =>
        hrule name tail rule rfl
    · exact follows_convertCompound hC hwalk (fun name heq => hhead ⟨name, heq⟩) hparts s t hst hs
  · exact Follows.pure (hC.result_same _) s t hst hs

/-- Whatever the rule of the form, it keeps the runs together. -/
theorem follows_convertNode (hadmits : C.AdmitsForms) {form : Tree} (hform : C.Form form) :
    C.Follows (convertNode walk form) (convertNode other form) (C.Result form) := by
  intro s t hst hs
  refine agree_convertNode hC hwalk (fun _ hchild => hC.form_children hform hchild) hst hs ?_ ?_
  · rintro name tail rfl
    exact hC.approach hform hst hs
  · rintro name tail rule rfl happroach
    have hhead := Session.ofHead?_of_approach happroach
    have hlaws := hadmits name tail rule hform hhead
    by_cases hkind : rule = .macroDefinition
    · subst hkind
      exact follows_convertMacro hC hwalk ((hlaws rfl).2 rfl) hform hhead
    · exact (follows_convertRule hC hwalk hkind (fun h => (hlaws h).1) name
        (formAll_list hC hform).tail).mono fun _ _ h => h.result hC

end Nodes

/-! ## Forms inside forms -/

/-- Whatever the nesting of steps, two runs stay together. -/
theorem follows_convertWithin (hC : C.Lawful) (hadmits : C.AdmitsForms) (steps : Nat) :
    C.FollowsWalk (convertWithin steps) (convertWithin steps) := by
  induction steps with
  | zero => exact fun form _ => .pure (hC.result_same form)
  | succ steps ih => exact fun form hform => follows_convertNode hC ih hadmits hform

/-- The conversion of a form keeps two runs together. -/
theorem follows_convert (hC : C.Lawful) (hadmits : C.AdmitsForms) : C.FollowsWalk convert convert :=
  fun form => follows_convertWithin hC hadmits (weight form) form

end Comparison

end LispNamespace
