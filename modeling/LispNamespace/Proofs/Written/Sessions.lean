import LispNamespace.Proofs.MacroNormalForm
import LispNamespace.Proofs.Written.Heads

/-!
# What conversions take in

Whatever is done with a form, the namespace takes in no names but those that are introduced somewhere
in the form, and no definition after the form is taken for one whose name is final already.
-/

namespace LispNamespace

open Rewrite

/-! ## Macro definitions -/

/-- The form that binds the name of a macro is rewritten by its rule: its head is neither protected
nor a function of the namespace. -/
def Session.BindsMacros (last : Session) : Prop :=
  last.context.isEscaped "defalias" = false ∧ ("defalias" : Text) ∉ last.tables.functionNames

/-- If `defalias` means the rule for aliases in the end, it does in every session of the run. -/
theorem Session.BindsMacros.approach {last s : Session} (h : last.BindsMacros)
    (hglobal : last.context.options.globalLookup = false) (hs : last.Bounded s) :
    s.approach "defalias" = .rule .alias := by
  have hescaped : s.isEscaped "defalias" = false := by
    unfold Session.isEscaped
    rw [hs.context, h.1]
  have hfunction : s.isFunction "defalias" = false := by
    have hasks : s.asksHost = false := by
      unfold Session.asksHost
      rw [hs.context, hglobal]
    unfold Session.isFunction
    rw [hasks, Bool.false_and, Bool.or_false, Bool.and_eq_false_iff]
    refine .inr (Bool.eq_false_iff.2 fun hmem => h.2 ?_)
    exact hs.functionNames _ (List.contains_iff_mem.1 hmem)
  exact Session.approach_eq_rule_iff.2 ⟨hescaped, hfunction, by decide⟩

/-- The tree is the definition of a macro that the namespace has at the end, or of a protected one. -/
def Tree.DefinesMacro (last : Session) (t : Tree) : Prop :=
  ∃ head name params definition, t = Tree.call head (.sym name :: params :: definition) ∧
    head ∈ FormRule.macroNames ∧ (name ∈ last.tables.macros ∨ last.context.isEscaped name = true)

/-- Where a macro is recorded in a run, its name is one of the namespace at the end, or protected. -/
theorem Session.definesMacro_of_recordMacro {last s : Session} {head name : Text} {params : Tree}
    {definition : List Tree} (hs : s.nameIsFinal = false)
    (hrecord : last.Bounded (s.recordMacro name definition)) (hhead : head ∈ FormRule.macroNames) :
    (Tree.call head (.sym name :: params :: definition)).DefinesMacro last := by
  refine ⟨head, name, params, definition, rfl, hhead, ?_⟩
  have hcontext : s.context = last.context :=
    (s.growsTo_recordMacro name definition).context.symm.trans hrecord.context
  by_cases hescaped : s.isEscaped name = true
  · refine .inr ?_
    rwa [← hcontext]
  · refine .inl (hrecord.macros name ?_)
    have htake : name ∈ (s.takeMacroName name).tables.macros := by
      have htables : (s.takeMacroName name).tables = s.tables.addMacro name := by
        unfold takeMacroName
        simp [hs, hescaped]
      rw [htables]
      exact mem_addName.2 (.inr rfl)
    rw [tables_recordMacro]
    unfold declareIfGiven
    split <;> exact htake

/-- What comes after the records of a macro only adds to them. -/
theorem Forms.growsTo_of_runFrom_convertMacro {s t : Session} {steps : Nat} {head name : Text}
    {params : Tree} {definition : List Tree} {outcome : Except Fault Tree}
    (hrun : (convertMacro (convertWithin steps) head (.sym name :: params :: definition)).runFrom s =
      (outcome, t)) :
    (s.recordMacro name definition).GrowsTo t := by
  rcases runFrom_convertMacro (convertWithin steps) head name params definition s with
    ⟨journal, hconvert⟩
  rw [hconvert] at hrun
  have hjournal := (s.recordMacro name definition).growsTo_journal journal
  split at hrun
  · have hfinal := hjournal.trans (Session.growsTo_nameIsFinal _ true)
    exact hfinal.trans (Growing.of_run hrun)
  · cases hrun
    exact hjournal

/-- A macro definition is recorded, and if the host expands it, the expander of the macro is converted
next. -/
theorem Forms.of_runFrom_convertMacro {last s t : Session} (hbinds : last.BindsMacros)
    (hglobal : last.context.options.globalLookup = false) {steps : Nat} {head name : Text}
    {params : Tree} {definition : List Tree} {outcome : Except Fault Tree}
    (hrun : (convertMacro (convertWithin (steps + 1)) head
      (.sym name :: params :: definition)).runFrom s = (outcome, t)) (hlast : last.Bounded t) :
    ∃ journal,
      (∃ fault, outcome = .error fault ∧ t = { s.recordMacro name definition with journal := journal }) ∨
      ∃ inner, (convertWithin steps (Definition.expander params definition)).runFrom
          { s.recordMacro name definition with journal := journal } = (inner, t) ∧
        outcome = inner.map fun bound =>
          Definition.withDeclared (.sym (s.macroName name)) definition
            (Tree.call "defalias" [Tree.quote (.sym (s.macroName name)), bound]) := by
  rcases runFrom_convertMacro (convertWithin (steps + 1)) head name params definition s with
    ⟨journal, hconvert⟩
  -- what comes after the records knows no more than the last session, so neither do they
  have hrecord := (growsTo_of_runFrom_convertMacro hrun).bounded hlast
  rw [hconvert] at hrun
  by_cases hexpands : s.host.expandsDefinition head = true
  · rw [if_pos hexpands, runFrom_bind] at hrun
    generalize hr : ({ s.recordMacro name definition with
      nameIsFinal := true, journal := journal } : Session) = r at hrun
    have hbounded : last.Bounded r := by
      rw [← hr]
      exact { hrecord with }
    have hfinal : r.nameIsFinal = true := by rw [← hr]
    obtain ⟨journal', hbound⟩ := runFrom_convertNode_boundForm (convertWithin steps) (s.macroName name)
      params definition (hbinds.approach hglobal hbounded) hfinal
    have hstep : convertWithin (steps + 1) (Definition.boundForm (.sym (s.macroName name)) params
        definition) = convertNode (convertWithin steps) (Definition.boundForm
          (.sym (s.macroName name)) params definition) := rfl
    have hcleared : ({ r with nameIsFinal := false, journal := journal' } : Session) =
        { s.recordMacro name definition with journal := journal' } := by
      have hnotFinal := (s.frames_recordMacro name definition).2
      rw [← hr, ← hnotFinal]
    rw [hstep, hbound, hcleared, runFrom_bind] at hrun
    refine ⟨journal', .inr ?_⟩
    rcases hinner : (convertWithin steps (Definition.expander params definition)).runFrom
      { s.recordMacro name definition with journal := journal' } with ⟨fault | bound, u⟩
    · rw [hinner] at hrun
      cases hrun
      exact ⟨.error fault, rfl, rfl⟩
    · rw [hinner] at hrun
      cases hrun
      exact ⟨.ok bound, rfl, rfl⟩
  · rw [if_neg hexpands] at hrun
    cases hrun
    exact ⟨journal, .inl ⟨_, rfl, rfl⟩⟩

/-! ## Rooted sessions -/

/-- A run that ends within what is known in the last session leaves a session of such runs as one, and
the withheld names are not taken in. Any fault may end the run. -/
def rooting (host : Host) (last : Session) (Withheld : Addition → Prop) : Discipline where
  Steps _ s t := s.GrowsTo t ∧
    (last.Bounded t → s.Rooted host → t.Rooted host ∧
      ∀ addition, Withheld addition → t.tables.Holds addition → s.tables.Holds addition)
  Allows _ _ := True

section Rooting

variable {host : Host} {last : Session} {Withheld : Addition → Prop}

instance : (rooting host last Withheld).Lawful where
  refl _ s := ⟨.refl s, fun _ hs => ⟨hs, fun _ _ h => h⟩⟩
  trans := by
    rintro _ s t u ⟨hst, hroot⟩ ⟨htu, hroot'⟩
    refine ⟨hst.trans htu, fun hu hs => ?_⟩
    rcases hroot (htu.bounded hu) hs with ⟨ht, hheld⟩
    rcases hroot' hu ht with ⟨hu', hheld'⟩
    exact ⟨hu', fun addition hwithheld h => hheld addition hwithheld (hheld' addition hwithheld h)⟩
  journal _ s journal := ⟨s.growsTo_journal journal, fun _ hs => ⟨{ hs with }, fun _ _ h => h⟩⟩
  clear _ s :=
    ⟨s.growsTo_nameIsFinal false, fun _ hs => ⟨{ hs with nameIsFinal := rfl }, fun _ _ h => h⟩⟩
  growFrame := by
    intro s names
    refine ⟨s.growsTo_growFrame names, fun _ hs => ?_⟩
    unfold Session.growFrame
    split
    · exact ⟨hs, fun _ _ h => h⟩
    · exact ⟨{ hs with }, fun _ _ h => h⟩
  popFrame := by
    rintro _ s t names ⟨hgrows, hroot⟩
    refine ⟨hgrows.popFrame, fun ht hs => ?_⟩
    rcases hroot { ht with } { hs with } with ⟨ht', hheld⟩
    exact ⟨{ ht' with }, hheld⟩
  allows_popFrame _ := trivial
  allows_classify _ _ := trivial

/-- What is recorded about a macro belongs to the run. -/
theorem Session.Rooted.recordMacro {s : Session} (h : s.Rooted host) (name : Text)
    (definition : List Tree) : (s.recordMacro name definition).Rooted host where
  nameIsFinal := (s.frames_recordMacro name definition).2
  hostMacros other hother := (s.growsTo_recordMacro name definition).isMacroName (h.hostMacros other hother)
  grammars := by
    intro other hother
    have htake : (s.takeMacroName name).tables.grammars = s.tables.grammars := by
      unfold takeMacroName
      dsimp only
      split <;> rfl
    rw [tables_recordMacro] at hother
    unfold Session.recordMacro
    rw [grammars_announce]
    cases hspec : Definition.declaredGrammar? definition with
    | none =>
        rw [hspec] at hother
        refine h.grammars other ?_
        rw [← htake]
        exact hother
    -- the grammar is declared in the tables and to the host, under the same name
    | some spec =>
        rw [hspec] at hother
        have hset : (setEntry (s.takeMacroName name).tables.grammars (s.macroName name) spec).lookup
            other = none := hother
        have hne : other ≠ s.macroName name := by
          rintro rfl
          rw [lookup_setEntry_self] at hset
          cases hset
        rw [lookup_setEntry_ne _ _ hne, htake] at hset
        show (setEntry s.host.grammars (s.macroName name) spec).lookup other = _
        rw [lookup_setEntry_ne _ _ hne, h.grammars other hset]

/-- A macro definition takes in the name of the macro, unless that is final or protected. -/
theorem Session.holds_recordMacro {s : Session} {name : Text} {definition : List Tree}
    {addition : Addition} (h : (s.recordMacro name definition).tables.Holds addition) :
    s.tables.Holds addition ∨
      addition = .function name ∧ s.nameIsFinal = false ∧ s.isEscaped name = false := by
  -- a declared grammar names nothing
  have hnames : (s.recordMacro name definition).tables.variableNames =
      (s.takeMacroName name).tables.variableNames ∧
      (s.recordMacro name definition).tables.functionNames =
        (s.takeMacroName name).tables.functionNames := by
    rw [tables_recordMacro]
    unfold declareIfGiven
    split <;> exact ⟨rfl, rfl⟩
  have htake : (s.takeMacroName name).tables.Holds addition := by
    cases addition with
    | variable_ other =>
        unfold Tables.Holds at h ⊢
        rwa [hnames.1] at h
    | function other =>
        unfold Tables.Holds at h ⊢
        rwa [hnames.2] at h
  unfold takeMacroName at htake
  by_cases hknown : (s.nameIsFinal || s.isEscaped name) = true
  · simp only [if_pos hknown] at htake
    exact .inl htake
  · simp only [if_neg hknown] at htake
    rcases Bool.or_eq_false_iff.1 (Bool.eq_false_iff.2 hknown) with ⟨hfinal, hescaped⟩
    cases addition with
    | variable_ other => exact .inl htake
    | function other =>
        rcases mem_addName.1 htake with hold | rfl
        · exact .inl hold
        · exact .inr ⟨rfl, hfinal, hescaped⟩

/-! ## Forms that may be converted -/

/-- The root of the tree introduces no withheld name, and it defines a macro only if the form that
binds the macro is rewritten by its rule. -/
structure Tree.Permits (last : Session) (Withheld : Addition → Prop) (t : Tree) : Prop where
  introduces : ∀ addition, Withheld addition → ¬t.Introduces addition
  binds : t.DefinesMacro last → last.BindsMacros

/-- The form can be converted in the given number of steps, and all its parts permit it. -/
def Tree.PermitsWithin (last : Session) (Withheld : Addition → Prop) (steps : Nat) (t : Tree) : Prop :=
  weight t ≤ steps ∧ t.AllParts (Tree.Permits last Withheld)

/-- A symbol is no definition. -/
theorem Tree.not_introduces_sym (symbol : Text) (addition : Addition) :
    ¬(Tree.sym symbol).Introduces addition := by
  rintro (⟨head, tail, rule, learn, name, heq, -⟩ | ⟨head, name, params, definition, heq, -⟩)
  · cases heq
  · cases heq

/-- Neither are the lists around the parameters and the body in the expander of a macro. -/
theorem Tree.not_introduces_call {head : Text}
    (hhead : head ∈ ("quote" : Text) :: Definition.expanderHeads) (items : List Tree)
    (addition : Addition) : ¬(Tree.call head items).Introduces addition := by
  have hheads : ∀ head ∈ ("quote" : Text) :: Definition.expanderHeads,
      ((FormRule.ofHead? head).bind FormRule.learned?).isNone = true ∧
        FormRule.ofHead? head ≠ some .macroDefinition := by
    decide
  rcases hheads head hhead with ⟨hlearned, hconvert⟩
  rintro (⟨other, tail, rule, learn, name, heq, hrule, hlearn, -⟩ |
    ⟨other, name, params, definition, heq, hrule, -⟩)
  · cases heq
    rw [hrule, Option.bind_some, hlearn] at hlearned
    cases hlearned
  · cases heq
    exact hconvert hrule

/-- The heads that an expander is made with define no macros. -/
theorem Definition.not_mem_macroNames {head : Text}
    (hhead : head ∈ ("quote" : Text) :: Definition.expanderHeads) : head ∉ FormRule.macroNames := by
  have hheads : ∀ head ∈ ("quote" : Text) :: Definition.expanderHeads,
      head ∉ FormRule.macroNames := by
    decide
  exact hheads head hhead

/-- The expander of a macro permits what the parameters and the body of the definition permit. -/
theorem Tree.permits_expander {params : Tree} {definition : List Tree}
    (hparams : params.AllParts (Tree.Permits last Withheld))
    (hdefinition : ∀ form ∈ definition, form.AllParts (Tree.Permits last Withheld)) :
    (Definition.expander params definition).AllParts (Tree.Permits last Withheld) := by
  have hlist : ∀ head ∈ ("quote" : Text) :: Definition.expanderHeads, ∀ items,
      (Tree.call head items).Permits last Withheld := by
    intro head hhead items
    constructor
    · exact fun addition _ => Tree.not_introduces_call hhead items addition
    · rintro ⟨other, name, params, definition, heq, hother, -⟩
      cases heq
      exact absurd hother (Definition.not_mem_macroNames hhead)
  refine Definition.allParts_expander ?_ hparams hdefinition (hlist "quote" (by decide) _)
    fun head hhead => hlist head (List.mem_cons_of_mem _ hhead)
  intro symbol
  constructor
  · exact fun addition _ => Tree.not_introduces_sym symbol addition
  · rintro ⟨head, name, params, definition, heq, -⟩
    cases heq

/-- The expander of a macro has no parts that its definition does not have, but for the heads around
them. -/
theorem Tree.permits_expander_of_call {head name : Text} {params : Tree} {definition : List Tree}
    (h : (Tree.call head (.sym name :: params :: definition)).AllParts (Tree.Permits last Withheld)) :
    (Definition.expander params definition).AllParts (Tree.Permits last Withheld) := by
  have hparts : ∀ part ∈ params :: definition, part.AllParts (Tree.Permits last Withheld) :=
    fun part hpart => h.child (List.mem_cons_of_mem _ (List.mem_cons_of_mem _ hpart))
  rcases List.forall_mem_cons.1 hparts with ⟨hparams, hdefinition⟩
  exact Tree.permits_expander hparams hdefinition

/-- What a definition takes in, it introduces. -/
theorem keeps_register_rooting {head : Text} {tail : List Tree} {rule : FormRule}
    {learn : Forms.Register} {name : Text} (hpermits : (Tree.call head tail).Permits last Withheld)
    (hrule : FormRule.ofHead? head = some rule) (hlearn : rule.learned? = some learn)
    (hname : rule.definedName? tail = some name) (scope : Scope) :
    Keeps (rooting host last Withheld) scope (register (learn name)) := by
  have hregisters := FormRule.registers_of_learned? hlearn
  refine Keeps.modify fun s => ⟨growsTo_runFrom (register (learn name)) s, fun _ hs => ⟨?_, ?_⟩⟩
  · refine { hs with grammars := fun other hother => hs.grammars other ?_ }
    rwa [Forms.Registers.grammars_eq learn name] at hother
  · intro addition hwithheld hholds
    refine ((Forms.Registers.holds_iff learn name s.tables addition).1 hholds).resolve_right fun h => ?_
    exact hpermits.introduces addition hwithheld
      (.inl ⟨head, tail, rule, learn, name, rfl, hrule, hlearn, hname, h⟩)

/-- Macro definitions are admitted, since their expansions take in what the definitions permit. -/
theorem admitsForms_rooting (hglobal : last.context.options.globalLookup = false) :
    (rooting host last Withheld).AdmitsForms (Tree.PermitsWithin last Withheld) where
  children h hchild := ⟨Nat.le_trans (Nat.le_of_lt (weight_lt_of_mem_children hchild)) h.1, h.2.child hchild⟩
  inner h hchild := ⟨Nat.le_of_lt_succ (Nat.lt_of_lt_of_le (weight_lt_of_mem_children hchild) h.1),
    h.2.child hchild⟩
  learns h hrule hlearn hname scope := keeps_register_rooting h.2.self hrule hlearn hname scope
  macros := by
    intro steps head tail hform hrule hwalk scope
    constructor
    intro s
    refine ⟨⟨growsTo_runFrom (FormRule.macroDefinition.convert (convertWithin steps) head tail) s, ?_⟩,
      fun _ _ => trivial⟩
    intro hlast hs
    by_cases hshape : ∃ name params definition, tail = .sym name :: params :: definition
    · rcases hshape with ⟨name, params, definition, rfl⟩
      have hroom : weight (Definition.expander params definition) + 6 ≤ steps + 1 :=
        Nat.le_trans (weight_expander hrule) hform.1
      obtain ⟨steps, rfl⟩ : ∃ n, steps = n + 1 := ⟨steps - 1, by omega⟩
      -- the records take in the name of the macro, which is not withheld
      have hnew : ∀ addition, Withheld addition →
          (s.recordMacro name definition).tables.Holds addition → s.tables.Holds addition := by
        intro addition hwithheld hholds
        rcases Session.holds_recordMacro hholds with hold | ⟨hname, -⟩
        · exact hold
        · exact absurd (.inr ⟨head, name, params, definition, rfl, hrule, hname⟩)
            (hform.2.self.introduces addition hwithheld)
      rcases hrun : (Forms.convertMacro (convertWithin (steps + 1)) head
        (.sym name :: params :: definition)).runFrom s with ⟨outcome, t⟩
      rw [hrun] at hlast
      have hrecord := (Forms.growsTo_of_runFrom_convertMacro hrun).bounded hlast
      have hbinds := hform.2.self.binds
        (Session.definesMacro_of_recordMacro hs.nameIsFinal hrecord (FormRule.mem_macroNames hrule))
      rcases Forms.of_runFrom_convertMacro hbinds hglobal hrun hlast with
        ⟨journal, ⟨fault, -, hend⟩ | ⟨inner, hinner, -⟩⟩
      · dsimp only
        rw [hend]
        exact ⟨{ hs.recordMacro name definition with }, hnew⟩
      · have hexpander := hwalk steps (Nat.le_succ steps) scope (Definition.expander params definition)
          ⟨by omega, Tree.permits_expander_of_call hform.2⟩
        rcases (hexpander.steps_of_run hinner).2 hlast { hs.recordMacro name definition with } with
          ⟨hrooted, hheld⟩
        exact ⟨hrooted, fun addition hwithheld h => hnew addition hwithheld (hheld addition hwithheld h)⟩
    · rw [Forms.convertMacro_shapeless _ head hshape]
      exact ⟨hs, fun _ _ h => h⟩

end Rooting

end LispNamespace
