import LispNamespace.Proofs.Written.Steps

/-!
# Rules carry names to the output

Whatever a rule hands to its walk comes back in the form that the rule gives. So a rule carries names
if its walk does, and the name that a definition takes in is written out by the definition.
-/

namespace LispNamespace

open Rewrite

section Rules

variable {host : Host} {last : Session} {addition : Addition} {walk : Walk}
  [KeepsWalk (rooting host last fun _ => False) walk]

/-- Steps that give the items of a call carry the name if the items do. -/
theorem Carries.call {head head' : Text} {step other : Rewrite (List Tree)} [Roots host last step]
    [Roots host last other] (h : CarriesForms host last addition step other) :
    CarriesForm host last addition (step >>= fun items => return Tree.call head items)
      (other >>= fun items => return Tree.call head' items) :=
  h.bind fun as bs => pure fun hbs => Tree.shows_call (by simpa using hbs)

/-! ## Calls -/

mutual

/-- A plan keeps what it does not hand to the walk, so that nothing shown is lost. -/
theorem Plan.carries_apply (hwalk : CarriesWalk host last addition walk) (plan : Plan) (arg : Tree) :
    CarriesForm host last addition (plan.apply walk pure arg) (plan.apply walk pure arg) := by
  cases plan with
  | code =>
      unfold Plan.apply
      exact hwalk arg
  | data =>
      unfold Plan.apply
      exact .pure False.elim
  | nested plans =>
      have hroots : ∀ items, Roots host last (Plan.applyAll walk pure plans items) :=
        fun items => Plan.keeps_applyAll walk pure plans items
      unfold Plan.apply
      split
      · next first rest =>
        refine (Plan.carries_applyAll hwalk plans (first :: rest)).bind fun as bs => .pure fun h => ?_
        exact Tree.shows_list (by simpa using h)
      · exact .pure False.elim

theorem Plan.carries_applyAll (hwalk : CarriesWalk host last addition walk) (plans : List Plan)
    (args : List Tree) :
    CarriesForms host last addition (Plan.applyAll walk pure plans args)
      (Plan.applyAll walk pure plans args) := by
  cases plans with
  | nil =>
      unfold Plan.applyAll
      exact .pure False.elim
  | cons plan plans =>
      cases args with
      | nil =>
          unfold Plan.applyAll
          exact .pure False.elim
      | cons arg args =>
          have : Roots host last (Plan.apply walk pure plan arg) := Plan.keeps_apply walk pure plan arg
          have : Roots host last (Plan.applyAll walk pure plans args) :=
            Plan.keeps_applyAll walk pure plans args
          unfold Plan.applyAll
          refine (Plan.carries_apply hwalk plan arg).bind fun a b => ?_
          refine (Plan.carries_applyAll hwalk plans args).bind fun as bs => .pure fun h => ?_
          simpa using h

end

namespace Forms

section Calls

variable (hwalk : CarriesWalk host last addition walk)

include hwalk

/-- A grammar that refers to no other one says the same in all sessions. -/
theorem carries_convertByGrammar (head head' : Text) {spec : Tree}
    (hspec : Grammar.isSelfContained spec = true) (args : List Tree) :
    CarriesForms host last addition (convertByGrammar walk head spec args)
      (convertByGrammar walk head' spec args) := by
  unfold convertByGrammar
  refine .read fun s t _ _ => ?_
  rw [Grammar.classify_congr t.grammars s.grammars hspec args]
  cases Grammar.classify s.grammars spec args with
  | ok plans => exact Plan.carries_applyAll hwalk plans args
  | error fault =>
      split
      · next heq => cases heq
      · exact .silent
      · exact .throw _

/-- Arguments are carried however a call is treated: walked, kept, or taken apart by a grammar. -/
theorem carries_convertTreated (head head' : Text) {treatment : Treatment}
    (hspec : ∀ spec, treatment = .byGrammar spec → Grammar.isSelfContained spec = true)
    (args : List Tree) :
    CarriesForms host last addition (convertTreated walk head treatment args)
      (convertTreated walk head' treatment args) := by
  cases treatment with
  | forms => exact .forms hwalk
  | data => exact .pure False.elim
  | unknown =>
      unfold convertTreated
      exact .silent
  | byGrammar spec => exact carries_convertByGrammar hwalk head head' (hspec spec rfl) args

/-- A form without the shape that its rule needs is converted like the call of a macro, and what is
known about that does not change. -/
theorem carries_convertShapeless
    (hhost : ∀ name spec, host.grammars.lookup name = some spec →
      Grammar.isSelfContained spec = true)
    {head : Text} (hsteady : last.Steady host head) (hplain : last.context.isEscaped head = false)
    (tail : List Tree) :
    CarriesForm host last addition (convertShapeless walk head tail)
      (convertShapeless walk head tail) := by
  have hbare : last.context.bare head = head := by
    unfold Context.bare
    rw [hplain]
    rfl
  -- both runs treat the call as the first session of the run would
  have htreatment : ∀ s : Session, s.Within host last →
      s.macroTreatment head head = (Session.fresh last.context host).macroTreatment head head := by
    intro s hs
    have h := hsteady.macroTreatment_eq hs.rooted hs.bounded head
    rwa [hbare] at h
  unfold convertShapeless
  refine .call fun s t s' t' as bs hrun hrun' hs ht hs' ht' => ?_
  rw [runFrom_convertMacroArguments, htreatment s hs] at hrun
  rw [runFrom_convertMacroArguments, htreatment t ht] at hrun'
  exact carries_convertTreated hwalk head head
    (fun spec hspec => isSelfContained_of_macroTreatment hhost hspec) tail hrun hrun' hs ht hs' ht'

end Calls

/-! ## Quotations -/

section Quotations

variable (hwalk : CarriesWalk host last addition walk)

include hwalk

/-- What is quoted is walked if the options say so, and otherwise kept. -/
theorem carries_convertQuote (head : Text) (tail : List Tree) :
    CarriesForm host last addition (convertQuote walk head tail) (convertQuote walk head tail) := by
  unfold convertQuote
  split
  · next payload =>
    refine .read fun s t hs ht => ?_
    rw [hs.bounded.context, ht.bounded.context]
    split
    · refine (hwalk payload).bind fun a b => .pure fun h => ?_
      exact Tree.shows_call (by simpa using h)
    · exact .silent
  · exact .silent

theorem carries_convertFunctionQuote (head : Text) (tail : List Tree) :
    CarriesForm host last addition (convertFunctionQuote walk head tail)
      (convertFunctionQuote walk head tail) := by
  unfold convertFunctionQuote
  split
  · next payload =>
    split
    · refine (hwalk payload).bind fun a b => .pure fun h => ?_
      exact Tree.shows_call (by simpa using h)
    · split
      · exact .silent
      · exact .silent
  · exact .silent

end Quotations

/-! ## Lambda expressions -/

section Lambda

variable (hwalk : CarriesWalk host last addition walk)

include hwalk

/-- Of what a parameter has besides its name, the default value is the only code. -/
theorem carries_convertDefault (items : List Tree) :
    CarriesForms host last addition (convertDefault walk items) (convertDefault walk items) := by
  cases items with
  | nil => exact .pure False.elim
  | cons default more =>
      refine (hwalk default).bind fun a b => .pure fun h => ?_
      exact Tree.showsAny_cons.2 (.inl (by simpa using h))

/-- A parameter list is walked from left to right, each default value before the names behind it are
bound. -/
theorem carries_convertParamItems (section_ : Text) (items : List Tree) :
    CarriesForms host last addition (convertParamItems walk section_ items)
      (convertParamItems walk section_ items) := by
  have hrest : ∀ {param : Tree} {rest : List Tree} {qualified : Addition},
      False ∨ Tree.ShowsAny qualified rest → Tree.ShowsAny qualified (param :: rest) :=
    fun h => Tree.showsAny_cons.2 (.inr (h.resolve_left False.elim))
  -- only a parameter with a default value has code in it
  fun_induction convertParamItems walk section_ items with
  | case1 => exact .silent
  | case2 _ _ _ _ ih => exact ih.bind fun as bs => .pure hrest
  | case3 _ _ _ _ ih => exact .skip fun _ _ => ih.bind fun as bs => .pure hrest
  | case4 _ variable_ more rest _ ih =>
      refine (carries_convertDefault hwalk more).bind fun as bs => ?_
      refine .skip fun _ _ => .skip fun _ _ => ih.bind fun as bs => .pure fun h => ?_
      rcases h with (hnone | hmore) | hrest
      · exact hnone.elim
      · exact Tree.showsAny_cons.2 (.inl (Tree.shows_list (Tree.showsAny_cons.2 (.inr hmore))))
      · exact Tree.showsAny_cons.2 (.inr hrest)
  | case5 _ _ _ _ _ ih => exact .skip fun _ _ => ih.bind fun as bs => .pure hrest
  | case6 _ _ _ _ _ ih => exact .skip fun _ _ => ih.bind fun as bs => .pure hrest

theorem carries_convertParams (params : Tree) :
    CarriesForm host last addition (convertParams walk params) (convertParams walk params) := by
  unfold convertParams
  split
  · refine (carries_convertParamItems hwalk _ _).bind fun as bs => .pure fun h => ?_
    exact Tree.shows_list (by simpa using h)
  · refine (carries_convertParamItems hwalk _ _).bind fun as bs => .pure fun h => ?_
    exact Tree.shows_list (by simpa using h)
  · exact .silent
  · refine (carries_convertParamItems hwalk _ _).bind fun as bs => .skip fun _ _ => .pure fun h => ?_
    exact Tree.shows_dot (by simpa using h)
  · exact .silent

theorem carries_convertInteractive (head : Text) (tail : List Tree) :
    CarriesForm host last addition (convertInteractive walk head tail)
      (convertInteractive walk head tail) := by
  unfold convertInteractive
  split
  · exact .silent
  · next spec modes =>
    dsimp only
    split
    · exact .silent
    · refine (hwalk spec).bind fun a b => .pure fun h => ?_
      exact Tree.shows_call_cons (.inl (by simpa using h))

/-- An `interactive` form at the front of a body is walked by itself. -/
theorem carries_splitInteractive (body : List Tree) :
    Carries host last addition False (splitInteractive walk body) (splitInteractive walk body)
      fun front => Tree.ShowsAny (addition.qualify last.context.qualifier) front.1 := by
  unfold splitInteractive
  split
  · exact .silent
  · split
    · next tail _ =>
      refine (carries_convertInteractive hwalk "interactive" tail).bind fun a b => .pure fun h => ?_
      simpa using h
    · exact .silent

/-- The parts of a function are carried one by one: what stands in front of the body, the parameters
and the body. -/
theorem carries_convertLambdaTail (params : Tree) (body : List Tree) :
    CarriesForms host last addition (convertLambdaTail walk params body)
      (convertLambdaTail walk params body) := by
  unfold convertLambdaTail
  dsimp only
  rw [splitInteractive_bind]
  refine (carries_splitInteractive hwalk _).bind fun front front' => .withFrame ?_
  refine (carries_convertParams hwalk params).bind fun a b => ?_
  refine (Carries.forms hwalk).bind fun as bs => .pure fun h => ?_
  rcases h with ((hnone | hfront) | hparams) | hrest
  · exact hnone.elim
  · simp [hfront]
  · simp [hparams]
  · simp [hrest]

theorem carries_convertLambda (head : Text) (tail : List Tree) :
    CarriesForm host last addition (convertLambda walk head tail) (convertLambda walk head tail) := by
  unfold convertLambda
  split
  · exact .silent
  · exact .call (carries_convertLambdaTail hwalk _ _)

end Lambda

/-! ## Definitions -/

/-- A definition shows the names that its rule takes in. -/
theorem shows_definition {head : Text} {rule : FormRule} {learn : Register} {text : Text}
    {tail : List Tree} {addition : Addition} (hrule : FormRule.ofHead? head = some rule)
    (hlearn : rule.learned? = some learn) (hname : rule.definedName? tail = some text)
    (h : (learn text {}).Holds addition) : (Tree.call head tail).Shows addition :=
  ⟨_, Tree.hasPart_self _, head, tail, rule, learn, text, rfl, hrule, hlearn, hname, h⟩

/-- Names that are registered belong to the run. -/
theorem roots_register (learn : Register) [Registers learn] (text : Text) :
    Roots host last (register (learn text)) := by
  refine Keeps.modify fun s => ⟨growsTo_runFrom (register (learn text)) s, fun _ hs => ⟨?_, ?_⟩⟩
  · refine { hs with grammars := fun other hother => hs.grammars other ?_ }
    rwa [Registers.grammars_eq learn text] at hother
  · exact fun _ hnone => hnone.elim

section Names

variable (learn : Register) [hlearn : Registers learn]

instance (name : Tree) : Roots host last (convertDefinedName learn name) :=
  keeps_convertDefinedName fun text _ => roots_register learn text

instance (name : Tree) : Roots host last (convertQuotedName walk learn name) :=
  keeps_convertQuotedName walk fun text _ => roots_register learn text

/-- A defined name is written with the qualifier if it is taken in. -/
theorem carries_convertDefinedName (name : Tree) :
    Carries host last addition False (convertDefinedName learn name) (convertDefinedName learn name)
      fun b => ∃ text, b = .sym text ∧
        (learn text {}).Holds (addition.qualify last.context.qualifier) := by
  have hroots : ∀ text, Roots host last (register (learn text)) := roots_register learn
  unfold convertDefinedName
  refine .notFinal ?_
  rw [if_neg Bool.false_ne_true]
  split
  · next text =>
    refine .read fun s t hs ht => ?_
    rw [hs.isEscaped_eq, ht.isEscaped_eq]
    split
    · exact .silent
    · next hplain =>
      refine (Carries.register learn text).bind fun _ _ => .pure fun h => ⟨_, rfl, ?_⟩
      rw [ht.qualified_eq (Bool.eq_false_iff.2 hplain)]
      exact hlearn.holds_qualify learn last.context.qualifier (h.resolve_left False.elim)
  · exact .silent

omit [KeepsWalk (rooting host last fun _ => False) walk] in
/-- So is one that stands quoted; one that is computed is a form like any other. -/
theorem carries_convertQuotedName (hwalk : CarriesWalk host last addition walk) (name : Tree) :
    Carries host last addition False (convertQuotedName walk learn name)
      (convertQuotedName walk learn name) fun b =>
        (∃ text, b = Tree.quote (.sym text) ∧
          (learn text {}).Holds (addition.qualify last.context.qualifier)) ∨
        b.Shows (addition.qualify last.context.qualifier) := by
  unfold convertQuotedName
  split
  · next quoted _ =>
    refine (carries_convertDefinedName learn (.sym quoted)).bind fun a b => .pure fun h => .inl ?_
    rcases h with hnone | ⟨text, rfl, hholds⟩
    · exact hnone.elim
    · exact ⟨text, rfl, hholds⟩
  · exact .notFinal ((hwalk name).mono fun b h => .inr h)

end Names

section Definitions

variable (hwalk : CarriesWalk host last addition walk)

omit [KeepsWalk (rooting host last fun _ => False) walk] in
/-- A definition shows what its name gives, and what the forms in it show. -/
theorem shows_defined {head : Text} {rule : FormRule} {learn : Register} {addition : Addition}
    {name : Tree} {items : List Tree} (hrule : FormRule.ofHead? head = some rule)
    (hlearn : rule.learned? = some learn)
    (hname : ∀ text : Text, rule.definedName? (.sym text :: items) = some text)
    (h : (∃ text, name = .sym text ∧ (learn text {}).Holds addition) ∨
      Tree.ShowsAny addition items) :
    (Tree.call head (name :: items)).Shows addition := by
  rcases h with ⟨text, rfl, hholds⟩ | hitems
  · exact shows_definition hrule hlearn (hname text) hholds
  · exact Tree.shows_call_cons (.inr hitems)

include hwalk

/-- A variable is taken in by its definition, which is written out with the new name. -/
theorem carries_convertVariable {head : Text} (hrule : FormRule.ofHead? head = some .variable_)
    (tail : List Tree) :
    CarriesForm host last addition (convertVariable walk head tail)
      (convertVariable walk head tail) := by
  unfold convertVariable
  split
  · exact .silent
  · next name rest =>
    refine (carries_convertDefinedName _ name).bind fun a b => ?_
    refine (Carries.forms hwalk).bind fun as bs => .pure fun h => ?_
    exact shows_defined hrule rfl (fun _ => rfl) (by simpa only [false_or] using h)

/-- A function is, too, with or without parameters. -/
theorem carries_convertFunction {head : Text} (hrule : FormRule.ofHead? head = some .function)
    (tail : List Tree) :
    CarriesForm host last addition (convertFunction walk head tail)
      (convertFunction walk head tail) := by
  unfold convertFunction
  split
  · exact .silent
  · next name rest =>
    cases rest with
    | nil =>
        refine (carries_convertDefinedName _ name).bind fun a b => .pure fun h => ?_
        exact shows_defined hrule rfl (fun _ => rfl) (.inl (by simpa only [false_or] using h))
    | cons params body =>
        refine (carries_convertDefinedName _ name).bind fun a b => ?_
        refine (carries_convertLambdaTail hwalk params body).bind fun as bs => .pure fun h => ?_
        exact shows_defined hrule rfl (fun _ => rfl) (by simpa only [false_or] using h)

/-- An alias takes its name in if the name is quoted; if it is computed, it is a form like any
other. -/
theorem carries_convertAliasWith {learn : Register} [Registers learn] {head : Text} {rule : FormRule}
    (hrule : FormRule.ofHead? head = some rule) (hlearn : rule.learned? = some learn)
    (hname : ∀ (text : Text) items,
      rule.definedName? (Tree.quote (.sym text) :: items) = some text) (tail : List Tree) :
    CarriesForm host last addition (convertAliasWith learn walk head tail)
      (convertAliasWith learn walk head tail) := by
  unfold convertAliasWith
  split
  · exact .silent
  · next name rest =>
    refine (carries_convertQuotedName learn hwalk name).bind fun a b => ?_
    refine (Carries.forms hwalk).bind fun as bs => .pure fun h => ?_
    rcases h with (hnone | ⟨text, rfl, hholds⟩ | hshows) | hrest
    · exact hnone.elim
    · exact shows_definition hrule hlearn (hname text bs) hholds
    · exact Tree.shows_call_cons (.inl hshows)
    · exact Tree.shows_call_cons (.inr hrest)

theorem carries_convertMinorMode {head : Text} (hrule : FormRule.ofHead? head = some .minorMode)
    (tail : List Tree) :
    CarriesForm host last addition (convertMinorMode walk head tail)
      (convertMinorMode walk head tail) := by
  have hspec := Grammar.isSelfContained_modes.1
  unfold convertMinorMode
  split
  · exact .silent
  · next name args =>
    refine (carries_convertDefinedName _ name).bind fun a b => ?_
    refine (carries_convertByGrammar hwalk head head hspec args).bind fun as bs => .pure fun h => ?_
    exact shows_defined hrule rfl (fun _ => rfl) (by simpa only [false_or] using h)

/-- A derived mode has the name of its parent between its own name and the arguments. The parent is
a reference, and nothing is taken in for it. -/
theorem carries_convertDerivedMode {head : Text} (hrule : FormRule.ofHead? head = some .derivedMode)
    (tail : List Tree) :
    CarriesForm host last addition (convertDerivedMode walk head tail)
      (convertDerivedMode walk head tail) := by
  have hspec := Grammar.isSelfContained_modes.2.1
  unfold convertDerivedMode
  split
  · exact .silent
  · next name rest =>
    cases rest with
    | nil =>
        refine (carries_convertDefinedName _ name).bind fun a b => .pure fun h => ?_
        exact shows_defined hrule rfl (fun _ => rfl) (.inl (by simpa only [false_or] using h))
    | cons parent args =>
        refine (carries_convertDefinedName _ name).bind fun a b => .skip fun c d => ?_
        refine (carries_convertByGrammar hwalk head head hspec args).bind fun as bs => .pure fun h => ?_
        refine shows_defined hrule rfl (fun _ => rfl) ?_
        rcases h with (hnone | hdefined) | hargs
        · exact hnone.elim
        · exact .inl hdefined
        · exact .inr (Tree.showsAny_cons.2 (.inr hargs))

/-- Of the three names of a globalized mode the first one is taken in, and the others are
references. -/
theorem carries_convertGlobalizedMode {head : Text}
    (hrule : FormRule.ofHead? head = some .globalizedMode) (tail : List Tree) :
    CarriesForm host last addition (convertGlobalizedMode walk head tail)
      (convertGlobalizedMode walk head tail) := by
  have hspec := Grammar.isSelfContained_modes.2.2
  unfold convertGlobalizedMode
  split
  · exact .silent
  · next name rest =>
    refine (carries_convertDefinedName _ name).bind fun a b => .skip fun cs ds => ?_
    refine (carries_convertByGrammar hwalk head head hspec _).bind fun as bs => .pure fun h => ?_
    refine shows_defined hrule rfl (fun _ => rfl) ?_
    rcases h with (hnone | hdefined) | hargs
    · exact hnone.elim
    · exact .inl hdefined
    · exact .inr (Tree.showsAny_append.2 (.inr hargs))

end Definitions

/-! ## Binding forms -/

section Bindings

variable (hwalk : CarriesWalk host last addition walk)

include hwalk

omit [KeepsWalk (rooting host last fun _ => False) walk] in
/-- A bound name is walked if it is one of the namespace by the options, and otherwise kept. -/
theorem carries_convertBoundName (name : Tree) :
    CarriesForm host last addition (convertBoundName walk name) (convertBoundName walk name) := by
  unfold convertBoundName
  split
  · refine .read fun s t hs ht => ?_
    rw [hs.bounded.context, ht.bounded.context]
    split
    · exact hwalk _
    · exact .silent
  · exact .silent

theorem carries_convertBinding (binding : Tree) :
    Carries host last addition False (convertBinding walk binding) (convertBinding walk binding)
      fun b => b.1.Shows (addition.qualify last.context.qualifier) := by
  unfold convertBinding
  split
  · refine (carries_convertBoundName hwalk _).bind fun a b => .pure fun h => ?_
    exact h.resolve_left False.elim
  · refine (Carries.forms hwalk).bind fun as bs => ?_
    refine (carries_convertBoundName hwalk _).bind fun a b => .pure fun h => ?_
    exact Tree.shows_list (by simpa [or_comm] using h)
  · exact .silent

theorem carries_convertLet (head : Text) (tail : List Tree) :
    CarriesForm host last addition (convertLet walk head tail) (convertLet walk head tail) := by
  unfold convertLet
  split
  · exact .silent
  · next spec body =>
    split
    · exact .call (.forms hwalk)
    · next bindings _ =>
      refine (Carries.mapM (carries_convertBinding hwalk)).bind fun as bs => ?_
      refine (Carries.withFrame (.forms hwalk)).bind fun cs ds => .pure fun h => ?_
      rcases h with (hnone | ⟨binding, hbinding, hshows⟩) | hbody
      · exact hnone.elim
      · refine Tree.shows_call_cons (.inl (Tree.shows_ofList ?_))
        exact Tree.showsAny_map.2 ⟨binding, hbinding, hshows⟩
      · exact Tree.shows_call_cons (.inr hbody)

/-- Where bindings come in order, their names are bound in between, which plays no part. -/
theorem carries_convertLetStar (head : Text) (tail : List Tree) :
    CarriesForm host last addition (convertLetStar walk head tail) (convertLetStar walk head tail) := by
  unfold convertLetStar
  split
  · exact .silent
  · next spec body =>
    split
    · exact .call (.forms hwalk)
    · next bindings _ =>
      refine .withFrame ?_
      refine (Carries.forms fun binding => ?_).bind fun as bs => ?_
      · refine (carries_convertBinding hwalk binding).bind fun a b => .skip fun _ _ => .pure fun h => ?_
        exact h.resolve_left False.elim
      refine (Carries.forms hwalk).bind fun cs ds => .pure fun h => ?_
      rcases h with (hnone | hbindings) | hbody
      · exact hnone.elim
      · exact Tree.shows_call_cons (.inl (Tree.shows_ofList hbindings))
      · exact Tree.shows_call_cons (.inr hbody)

theorem carries_convertLoop {head : Text} {tail : List Tree}
    (hshapeless : CarriesForm host last addition (convertShapeless walk head tail)
      (convertShapeless walk head tail)) :
    CarriesForm host last addition (convertLoop walk head tail) (convertLoop walk head tail) := by
  unfold convertLoop
  split
  · exact hshapeless
  · next spec body =>
    split
    · exact hshapeless
    · next name range result _ =>
      refine (carries_convertBoundName hwalk (.sym name)).bind fun a b => ?_
      refine (hwalk range).bind fun c d => .withFrame ?_
      refine (Carries.forms hwalk).bind fun as bs => ?_
      refine (Carries.forms hwalk).bind fun cs ds => .pure fun h => ?_
      rcases h with hspec | hbody
      · have hitems : Tree.ShowsAny (addition.qualify last.context.qualifier) (b :: d :: bs) := by
          simpa [or_assoc] using hspec
        exact Tree.shows_call_cons (.inl (Tree.shows_list hitems))
      · exact Tree.shows_call_cons (.inr hbody)

theorem carries_convertTest (binding : Tree) :
    CarriesForm host last addition (convertTest walk binding) (convertTest walk binding) := by
  unfold convertTest
  split
  · exact hwalk _
  · refine (hwalk _).bind fun a b => .pure fun h => ?_
    exact Tree.shows_list (by simpa using h)
  · refine (hwalk _).bind fun a b => ?_
    refine (carries_convertBoundName hwalk _).bind fun c d => .skip fun _ _ => .pure fun h => ?_
    exact Tree.shows_list (by simpa [or_comm] using h)
  · exact .silent

theorem carries_convertConditional {head : Text} {tail : List Tree}
    (hshapeless : CarriesForm host last addition (convertShapeless walk head tail)
      (convertShapeless walk head tail)) :
    CarriesForm host last addition (convertConditional walk head tail)
      (convertConditional walk head tail) := by
  unfold convertConditional
  split
  · exact hshapeless
  · next spec body =>
    split
    · exact hshapeless
    · next bindings _ =>
      dsimp only
      refine .withFrame ?_
      split
      · refine (carries_convertTest hwalk _).bind fun a b => ?_
        refine (Carries.forms hwalk).bind fun as bs => .pure fun h => ?_
        exact Tree.shows_call (by simpa using h)
      · refine (Carries.forms (carries_convertTest hwalk)).bind fun as bs => ?_
        refine (Carries.forms hwalk).bind fun cs ds => .pure fun h => ?_
        rcases h with (hnone | hbindings) | hbody
        · exact hnone.elim
        · exact Tree.shows_call_cons (.inl (Tree.shows_ofList hbindings))
        · exact Tree.shows_call_cons (.inr hbody)

theorem carries_convertLocalFunction (isExpander isSequential : Bool) (binding : Tree) :
    CarriesForm host last addition (convertLocalFunction walk isExpander isSequential binding)
      (convertLocalFunction walk isExpander isSequential binding) := by
  unfold convertLocalFunction
  split
  · next name params body =>
    have hrest : ∀ {qualified : Addition} {rest : List Tree},
        False ∨ Tree.ShowsAny qualified rest → (Tree.list (.sym name :: rest)).Shows qualified :=
      fun h => Tree.shows_list (Tree.showsAny_cons.2 (.inr (h.resolve_left False.elim)))
    dsimp only
    split
    -- a local function may be given by an expression
    · simp only [pure_bind]
      refine (hwalk params).bind fun a b => ?_
      split
      · exact .skip fun _ _ => .pure fun h => hrest (by simpa using h)
      · exact .pure fun h => hrest (by simpa using h)
    · refine (carries_convertLambdaTail hwalk params body).bind fun as bs => ?_
      split
      · exact .skip fun _ _ => .pure hrest
      · exact .pure hrest
  · exact .silent

theorem carries_convertLocalFunctions {head : Text} {tail : List Tree}
    (hshapeless : CarriesForm host last addition (convertShapeless walk head tail)
      (convertShapeless walk head tail)) :
    CarriesForm host last addition (convertLocalFunctions walk head tail)
      (convertLocalFunctions walk head tail) := by
  unfold convertLocalFunctions
  split
  · exact hshapeless
  · next spec body =>
    split
    · exact hshapeless
    · next bindings _ =>
      dsimp only
      refine (Carries.withFrame (.forms (carries_convertLocalFunction hwalk _ _))).bind fun as bs => ?_
      refine (Carries.withFrame (.forms hwalk)).bind fun cs ds => .pure fun h => ?_
      rcases h with (hnone | hbindings) | hbody
      · exact hnone.elim
      · exact Tree.shows_call_cons (.inl (Tree.shows_ofList hbindings))
      · exact Tree.shows_call_cons (.inr hbody)

theorem carries_convertDestructuring {head : Text} {tail : List Tree}
    (hshapeless : CarriesForm host last addition (convertShapeless walk head tail)
      (convertShapeless walk head tail)) :
    CarriesForm host last addition (convertDestructuring walk head tail)
      (convertDestructuring walk head tail) := by
  unfold convertDestructuring
  split
  · next params value body =>
    refine (hwalk value).bind fun a b => .withFrame ?_
    refine (carries_convertParams hwalk params).bind fun c d => ?_
    refine (Carries.forms hwalk).bind fun as bs => .pure fun h => ?_
    rcases h with ((hnone | hvalue) | hparams) | hbody
    · exact hnone.elim
    · exact Tree.shows_call (by simp [hvalue])
    · exact Tree.shows_call (by simp [hparams])
    · exact Tree.shows_call (by simp [hbody])
  · exact hshapeless

end Bindings

/-! ## Conditions and patterns -/

section Clauses

variable (hwalk : CarriesWalk host last addition walk)

include hwalk

theorem carries_convertClause (clause : Tree) :
    CarriesForm host last addition (convertClause walk clause) (convertClause walk clause) := by
  unfold convertClause
  split
  · refine (Carries.forms hwalk).bind fun as bs => .pure fun h => ?_
    exact Tree.shows_list (h.resolve_left False.elim)
  · exact .silent

theorem carries_convertCond (head : Text) (tail : List Tree) :
    CarriesForm host last addition (convertCond walk head tail) (convertCond walk head tail) := by
  unfold convertCond
  exact .call (.forms (carries_convertClause hwalk))

/-- The names around a handler are bound in both runs, and may be others in each of them. -/
theorem carries_convertErrorHandler (names others : List Text) (handler : Tree) :
    CarriesForm host last addition (convertErrorHandler walk names handler)
      (convertErrorHandler walk others handler) := by
  unfold convertErrorHandler
  split
  · refine (Carries.withFrame (.forms hwalk)).bind fun as bs => .pure fun h => ?_
    exact Tree.shows_list (Tree.showsAny_cons.2 (.inr (h.resolve_left False.elim)))
  · exact .silent

theorem carries_convertConditionCase (head : Text) (tail : List Tree) :
    CarriesForm host last addition (convertConditionCase walk head tail)
      (convertConditionCase walk head tail) := by
  unfold convertConditionCase
  split
  · next variable_ form handlers =>
    refine .read fun s t _ _ => ?_
    dsimp only
    refine (hwalk form).bind fun a b => ?_
    refine (Carries.forms (carries_convertErrorHandler hwalk _ _)).bind fun as bs => .pure fun h => ?_
    rcases h with (hnone | hform) | hhandlers
    · exact hnone.elim
    · exact Tree.shows_call (by simp [hform])
    · exact Tree.shows_call (by simp [hhandlers])
  · exact .silent

theorem carries_convertPatternClause (clause : Tree) :
    CarriesForm host last addition (convertPatternClause walk clause)
      (convertPatternClause walk clause) := by
  unfold convertPatternClause
  split
  · refine (Carries.withFrame (.forms hwalk)).bind fun as bs => .pure fun h => ?_
    exact Tree.shows_list (Tree.showsAny_cons.2 (.inr (h.resolve_left False.elim)))
  · exact .silent

theorem carries_convertPatternCase (head : Text) (tail : List Tree) :
    CarriesForm host last addition (convertPatternCase walk head tail)
      (convertPatternCase walk head tail) := by
  unfold convertPatternCase
  split
  · exact .silent
  · next value clauses =>
    refine (hwalk value).bind fun a b => ?_
    refine (Carries.forms (carries_convertPatternClause hwalk)).bind fun as bs => .pure fun h => ?_
    exact Tree.shows_call (by simpa using h)

theorem carries_convertPatternBinding (isSequential : Bool) (binding : Tree) :
    Carries host last addition False (convertPatternBinding walk isSequential binding)
      (convertPatternBinding walk isSequential binding)
      fun b => b.1.Shows (addition.qualify last.context.qualifier) := by
  unfold convertPatternBinding
  split
  · refine (hwalk _).bind fun a b => ?_
    have hvalue : ∀ {qualified : Addition} {pattern value : Tree},
        False ∨ value.Shows qualified → (Tree.list [pattern, value]).Shows qualified :=
      fun h => Tree.shows_list (by simp [h.resolve_left False.elim])
    dsimp only
    split
    · exact .skip fun _ _ => .pure hvalue
    · exact .pure hvalue
  · exact .silent

theorem carries_convertPatternLet {head : Text} {tail : List Tree}
    (hshapeless : CarriesForm host last addition (convertShapeless walk head tail)
      (convertShapeless walk head tail)) :
    CarriesForm host last addition (convertPatternLet walk head tail)
      (convertPatternLet walk head tail) := by
  unfold convertPatternLet
  split
  · exact hshapeless
  · next spec body =>
    split
    · exact hshapeless
    · next bindings _ =>
      refine .withFrame ?_
      refine (Carries.mapM (carries_convertPatternBinding hwalk _)).bind fun as bs => ?_
      refine (Carries.withFrame (.forms hwalk)).bind fun cs ds => .pure fun h => ?_
      rcases h with (hnone | ⟨binding, hbinding, hshows⟩) | hbody
      · exact hnone.elim
      · refine Tree.shows_call_cons (.inl (Tree.shows_ofList ?_))
        exact Tree.showsAny_map.2 ⟨binding, hbinding, hshows⟩
      · exact Tree.shows_call_cons (.inr hbody)

theorem carries_convertPatternLoop {head : Text} {tail : List Tree}
    (hshapeless : CarriesForm host last addition (convertShapeless walk head tail)
      (convertShapeless walk head tail)) :
    CarriesForm host last addition (convertPatternLoop walk head tail)
      (convertPatternLoop walk head tail) := by
  unfold convertPatternLoop
  split
  · refine (hwalk _).bind fun a b => ?_
    refine (Carries.withFrame (.forms hwalk)).bind fun as bs => .pure fun h => ?_
    rcases h with (hnone | hrange) | hbody
    · exact hnone.elim
    · refine Tree.shows_call_cons (.inl (Tree.shows_list ?_))
      simp [hrange]
    · exact Tree.shows_call_cons (.inr hbody)
  · exact hshapeless

theorem carries_convertPatternLambda {head : Text} {tail : List Tree}
    (hshapeless : CarriesForm host last addition (convertShapeless walk head tail)
      (convertShapeless walk head tail)) :
    CarriesForm host last addition (convertPatternLambda walk head tail)
      (convertPatternLambda walk head tail) := by
  unfold convertPatternLambda
  split
  · exact hshapeless
  · next params body =>
    split
    · exact hshapeless
    · refine (Carries.withFrame (.forms hwalk)).bind fun as bs => .pure fun h => ?_
      exact Tree.shows_call_cons (.inr (h.resolve_left False.elim))

end Clauses

/-! ## All rules -/

/-- Rules but the one for macro definitions take in names of variables and functions only, so that
their sessions stay in the run. -/
theorem roots_convertRule (walk : Walk) [KeepsWalk (rooting host last fun _ => False) walk]
    {rule : FormRule} (hkind : rule ≠ .macroDefinition) (head : Text) (tail : List Tree) :
    Roots host last (rule.convert walk head tail) := by
  refine keeps_convertRule walk hkind head fun learn name hlearn _ => ?_
  have := FormRule.registers_of_learned? hlearn
  exact roots_register learn name

/-- Every rule but the one for macro definitions carries names, if forms without the shape that the
rule needs do. -/
theorem carries_convertRule (hwalk : CarriesWalk host last addition walk) {rule : FormRule}
    (hkind : rule ≠ .macroDefinition) {head : Text} (hrule : FormRule.ofHead? head = some rule)
    {tail : List Tree}
    (hshapeless : CarriesForm host last addition (convertShapeless walk head tail)
      (convertShapeless walk head tail)) :
    CarriesForm host last addition (rule.convert walk head tail) (rule.convert walk head tail) := by
  cases rule with
  | variable_ => exact carries_convertVariable hwalk hrule tail
  | function => exact carries_convertFunction hwalk hrule tail
  | «alias» => exact carries_convertAliasWith hwalk hrule rfl (fun _ _ => rfl) tail
  | variableAlias => exact carries_convertAliasWith hwalk hrule rfl (fun _ _ => rfl) tail
  | minorMode => exact carries_convertMinorMode hwalk hrule tail
  | derivedMode => exact carries_convertDerivedMode hwalk hrule tail
  | globalizedMode => exact carries_convertGlobalizedMode hwalk hrule tail
  | macroDefinition => exact absurd rfl hkind
  | quote => exact carries_convertQuote hwalk head tail
  | functionQuote => exact carries_convertFunctionQuote hwalk head tail
  | backquote => exact .pure False.elim
  | lambda => exact carries_convertLambda hwalk head tail
  | interactive => exact carries_convertInteractive hwalk head tail
  | bindAll => exact carries_convertLet hwalk head tail
  | bindInOrder => exact carries_convertLetStar hwalk head tail
  | cond => exact carries_convertCond hwalk head tail
  | conditionCase => exact carries_convertConditionCase hwalk head tail
  | loop => exact carries_convertLoop hwalk hshapeless
  | conditional => exact carries_convertConditional hwalk hshapeless
  | localFunctions => exact carries_convertLocalFunctions hwalk hshapeless
  | destructuring => exact carries_convertDestructuring hwalk hshapeless
  | patternCase => exact carries_convertPatternCase hwalk head tail
  | patternLet => exact carries_convertPatternLet hwalk hshapeless
  | patternLoop => exact carries_convertPatternLoop hwalk hshapeless
  | patternLambda => exact carries_convertPatternLambda hwalk hshapeless

end Forms

end Rules

end LispNamespace
