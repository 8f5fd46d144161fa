import LispNamespace.Proofs.Comparison.Convert

/-!
# Runs that differ in the macros of the host

In the rewriting pass, the host learns of macros as their definitions are written out. Two sessions
that differ only in whether the host knows some of these macros do the same with a form, as long as
no call in the form asks the host about one of them.
-/

namespace LispNamespace

/-! ## Macros that the host learns of -/

/-- The macros that the later host knows and the earlier one does not. -/
def Host.learned (before after : Host) : List Text :=
  (after.macros.map Prod.fst).filter fun name => !before.isMacroName name

/-- The macros that were learned are those that only the later host knows. -/
theorem Host.mem_learned {before after : Host} {name : Text} :
    name ∈ before.learned after ↔
      after.isMacroName name = true ∧ before.isMacroName name = false := by
  have hknows : name ∈ after.macros.map Prod.fst ↔ after.isMacroName name = true := by
    unfold Host.isMacroName
    rw [List.mem_map, List.any_eq_true]
    simp only [beq_iff_eq]
  unfold Host.learned
  rw [List.mem_filter, hknows, Bool.not_eq_true']

/-- Whether the root of the tree is a call of one of the macros, or a macro definition with such a
call in the form that binds the name. -/
def Tree.callsOneOf (context : Context) (late : List Text) (t : Tree) : Bool :=
  match t with
  | .list (.sym head :: _) =>
      late.contains (context.bare head) ||
        (FormRule.macroNames.contains head &&
          Definition.boundHeads.any fun head => late.contains (context.bare head))
  | _ => false

/-- Under the option to ask the host, those of the macros that have a qualified name are macros of the
namespace already. -/
def Tables.Cover (context : Context) (late : List Text) (tables : Tables) : Prop :=
  context.options.globalLookup = true → ∀ name, context.isEscaped name = false →
    context.qualified name ∈ late → name ∈ tables.macros ∧ name ∈ tables.functionNames

/-- The second session is the first one, except that one of the hosts may know some of the late
macros that the other one does not know. -/
structure Session.Lags (context : Context) (late : List Text) (found : Tables) (s t : Session) :
    Prop where
  context : s.context = context
  sameContext : t.context = s.context
  tables : t.tables = s.tables
  frames : t.frames = s.frames
  pass : t.pass = s.pass
  nameIsFinal : t.nameIsFinal = s.nameIsFinal
  hostVariables : t.host.variableNames = s.host.variableNames
  hostFunctions : t.host.functionNames = s.host.functionNames
  hostGrammars : t.host.grammars = s.host.grammars
  expands : ∀ name, t.host.expandsDefinition name = s.host.expandsDefinition name
  hostMacros : ∀ name, name ∉ late → t.host.isMacroName name = s.host.isMacroName name
  macros : ∀ name ∈ found.macros, name ∈ s.tables.macros
  functionNames : ∀ name ∈ found.functionNames, name ∈ s.tables.functionNames

namespace Session.Lags

variable {context : Context} {late : List Text} {found : Tables} {s t : Session}
  (h : s.Lags context late found t)

include h

theorem grammars_eq : t.grammars = s.grammars := by
  unfold Session.grammars
  rw [h.tables, h.hostGrammars]

theorem qualified_eq (name : Text) : t.qualified name = s.qualified name := by
  unfold Session.qualified
  rw [h.sameContext]

theorem macroTreatment_eq (head written : Text) :
    t.macroTreatment head written = s.macroTreatment head written := by
  unfold Session.macroTreatment Session.callGrammar? Session.grammarFor?
  rw [h.grammars_eq, h.sameContext]

theorem isFree_eq (name : Text) : t.isFree name = s.isFree name := by
  unfold Session.isFree Session.isShadowed
  rw [h.frames]

theorem isVariable_eq (name : Text) : t.isVariable name = s.isVariable name := by
  unfold Session.isVariable Session.asksHost Host.isBound
  rw [h.isFree_eq, h.tables, h.sameContext, h.hostVariables, h.qualified_eq]

variable (hcover : found.Cover context late)

include hcover

/-- A name that the hosts might see differently is a macro of the namespace. -/
theorem isMacroName_qualified {name : Text} (hescaped : s.isEscaped name = false)
    (hasks : s.asksHost = true) :
    t.host.isMacroName (s.qualified name) = s.host.isMacroName (s.qualified name) ∨
      name ∈ s.tables.macros ∧ name ∈ s.tables.functionNames := by
  unfold Session.isEscaped at hescaped
  unfold Session.asksHost at hasks
  unfold Session.qualified
  rw [h.context] at hescaped hasks ⊢
  by_cases hlate : context.qualified name ∈ late
  · rcases hcover hasks name hescaped hlate with ⟨hown, hfunction⟩
    exact .inr ⟨h.macros name hown, h.functionNames name hfunction⟩
  · exact .inl (h.hostMacros _ hlate)

/-- The functions of the namespace are those of the tables, or a late macro that the tables hold, so
the sessions agree on them. -/
theorem isFunction_eq {name : Text} (hescaped : s.isEscaped name = false) :
    t.isFunction name = s.isFunction name := by
  have hasksHost : t.asksHost = s.asksHost := by
    unfold Session.asksHost
    rw [h.sameContext]
  unfold Session.isFunction Host.isFunctionBound
  rw [h.isFree_eq, h.tables, hasksHost, h.qualified_eq, h.hostFunctions]
  by_cases hasks : s.asksHost = true
  · rcases h.isMacroName_qualified hcover hescaped hasks with heq | ⟨-, hfunction⟩
    · rw [heq]
    · rw [List.contains_iff_mem.2 hfunction, Bool.true_or, Bool.true_or]
  · rw [Bool.eq_false_iff.2 hasks, Bool.false_and, Bool.false_and]

/-- They agree on its macros for the same reason. -/
theorem isOwnMacro_eq {name : Text} (hescaped : s.isEscaped name = false) :
    t.isOwnMacro name = s.isOwnMacro name := by
  have hasksHost : t.asksHost = s.asksHost := by
    unfold Session.asksHost
    rw [h.sameContext]
  unfold Session.isOwnMacro
  rw [h.tables, hasksHost, h.qualified_eq]
  by_cases hasks : s.asksHost = true
  · rcases h.isMacroName_qualified hcover hescaped hasks with heq | ⟨hown, -⟩
    · rw [heq]
    · rw [List.contains_iff_mem.2 hown, Bool.true_or, Bool.true_or]
  · rw [Bool.eq_false_iff.2 hasks, Bool.false_and, Bool.false_and]

omit hcover in
/-- The call of a macro that the host has not learned of is treated alike. -/
theorem callTreatment_host {name : Text} (hname : late.contains name = false)
    (written : Text) : t.callTreatment name written false = s.callTreatment name written false := by
  have hlate : name ∉ late := fun hmem => Bool.eq_false_iff.1 hname (List.contains_iff_mem.2 hmem)
  unfold Session.callTreatment
  simp only [Bool.false_eq_true, if_false]
  rw [h.macroTreatment_eq, h.hostMacros name hlate]

/-- So a call of a macro of the namespace is treated alike in both of them. -/
theorem callTreatment_own {name : Text} (hescaped : s.isEscaped name = false) (head : Text) :
    t.callTreatment head name true = s.callTreatment head name true := by
  unfold Session.callTreatment
  simp only [if_true]
  rw [h.macroTreatment_eq, h.isOwnMacro_eq hcover hescaped]

/-- A form is approached alike if the host has not learned of its head. -/
theorem approach_eq {name : Text} (hname : late.contains (context.bare name) = false) :
    s.approach name = t.approach name := by
  have hescapes : t.isEscaped name = s.isEscaped name := by
    unfold Session.isEscaped
    rw [h.sameContext]
  have hstrip : t.stripProtection name = s.stripProtection name := by
    unfold Session.stripProtection
    rw [h.sameContext]
  unfold Context.bare at hname
  rw [← h.context] at hname
  unfold Session.approach
  rw [hescapes, hstrip]
  -- the macros of the host are asked for the name without its marker, and those of the namespace
  -- for a name that has none
  by_cases hescaped : s.isEscaped name = true
  · have hcontext : s.context.isEscaped name = true := hescaped
    have hstripped : late.contains (s.stripProtection name) = false := by
      rwa [if_pos hcontext] at hname
    rw [if_pos hescaped, if_pos hescaped, h.callTreatment_host hstripped]
  · have hcontext : ¬s.context.isEscaped name = true := hescaped
    have hescaped' := Bool.eq_false_iff.2 hescaped
    rw [if_neg hcontext] at hname
    rw [if_neg hescaped, if_neg hescaped, h.isFunction_eq hcover hescaped', h.qualified_eq,
      h.callTreatment_own hcover hescaped', h.callTreatment_host hname]

end Session.Lags

/-! ## The comparison -/

namespace Comparison

open Forms

/-- Runs whose hosts may differ in the late macros are compared for equal results. The forms are those
in which no call asks about a late macro. -/
def lagging (context : Context) (late : List Text) (found : Tables) : Comparison where
  Related s t := s.Lags context late found t
  Counts _ := True
  Form form := form.AllParts fun part => part.callsOneOf context late = false
  Result _ a b := b = a
  Names ns ms := ms = ns

variable {context : Context} {late : List Text} {found : Tables}

/-- References and calls come out alike in sessions that lag: they ask about no late macro, or about
one that both tables hold. -/
theorem lawful_lagging (hcover : found.Cover context late) :
    (lagging context late found).Lawful where
  context := by
    intro s t h
    rw [h.sameContext]
  journal j k h := { h with }
  pushFrame := by
    rintro s t ns _ h rfl
    refine { h with frames := ?_ }
    unfold Session.pushFrame
    rw [h.frames]
  popFrame := by
    intro s t s' t' ns ms _ _ _ h
    refine { h with frames := ?_ }
    unfold Session.popFrame
    rw [h.frames]
  growFrame := by
    rintro s t ns _ h rfl
    unfold Session.growFrame
    rw [h.frames]
    split
    · exact h
    · exact { h with frames := rfl }
  counts _ _ := trivial
  counts_frames _ _ := trivial
  names_same _ := rfl
  names_append := by
    rintro ns _ ns' _ rfl rfl
    rfl
  names_result := by
    rintro t a _ rfl
    rfl
  form_children := Tree.AllParts.child
  -- this is where the macros matter that one session knows and the other does not yet
  approach := by
    intro s t name tail hform h _
    exact h.approach_eq hcover (Bool.or_eq_false_iff.1 hform.self).1
  macroTreatment name h := (h.macroTreatment_eq name name).symm
  classify := by
    intro s t spec args h _
    rw [h.grammars_eq]
  result_same _ := rfl
  result_list h := by rw [h.eq]; rfl
  result_ofList _ _ h := by rw [h.eq]; rfl
  result_call _ _ _ h := by rw [h.eq]; rfl
  result_dot h := by rw [h.eq]; rfl
  result_dotAbsent _ h := by rw [h.eq]; rfl
  result_variable := by
    intro s t name h _
    unfold variableReference Session.isEscaped Session.stripProtection
    rw [h.isVariable_eq, h.qualified_eq, h.sameContext]
    rfl
  result_function := by
    intro s t name h _
    unfold functionReference Session.stripProtection
    by_cases hescaped : s.isEscaped name = true
    · have hescaped' : t.isEscaped name = true := by
        unfold Session.isEscaped
        rw [h.sameContext]
        exact hescaped
      rw [if_pos hescaped, if_pos hescaped', h.sameContext]
      rfl
    · have hescaped' : ¬t.isEscaped name = true := by
        unfold Session.isEscaped
        rw [h.sameContext]
        exact hescaped
      rw [if_neg hescaped, if_neg hescaped', h.qualified_eq,
        h.isFunction_eq hcover (Bool.eq_false_iff.2 hescaped)]
      rfl

/-- What a definition takes in, both sessions take in, for they have the same tables. -/
theorem defining_lagging : (lagging context late found).Defining where
  nameIsFinal h := h.nameIsFinal
  clear h := { h with nameIsFinal := rfl }
  learn := by
    intro s t addition h _
    have hgrows := s.growsTo_learn addition
    refine { h with
      tables := ?_
      macros := fun name hname => hgrows.macros name (h.macros name hname)
      functionNames := fun name hname => hgrows.functionNames name (h.functionNames name hname) }
    unfold Session.learn
    rw [h.tables]
  result_defined := by
    intro s t name h _ _ _
    rw [h.qualified_eq]
    rfl
  result_quote := by
    rintro t x y _ - - rfl
    rfl

/-- The two sessions record a macro alike, though the one host may have known it already. -/
theorem lags_recordMacro {s t : Session} (h : s.Lags context late found t) (name : Text)
    (definition : List Tree) :
    (s.recordMacro name definition).Lags context late found (t.recordMacro name definition) := by
  have hs := s.growsTo_recordMacro name definition
  have ht := t.growsTo_recordMacro name definition
  rcases s.frames_recordMacro name definition with ⟨hframes, hfinal⟩
  rcases t.frames_recordMacro name definition with ⟨hframes', hfinal'⟩
  have hname : t.macroName name = s.macroName name := by
    unfold Session.macroName
    rw [h.nameIsFinal, h.qualified_eq]
  have htake : (t.takeMacroName name).tables = (s.takeMacroName name).tables := by
    unfold Session.takeMacroName Session.isEscaped
    rw [h.nameIsFinal, h.sameContext, h.tables]
  -- a grammar is declared under the name that the macro gets, which is the same in both sessions
  have hdeclared :
      ((t.takeMacroName name).declareIfGiven (t.macroName name)
          (Definition.declaredGrammar? definition)).tables =
        ((s.takeMacroName name).declareIfGiven (s.macroName name)
          (Definition.declaredGrammar? definition)).tables := by
    rw [hname]
    cases Definition.declaredGrammar? definition with
    | none => exact htake
    | some spec =>
        show (t.takeMacroName name).tables.setGrammar _ _ = (s.takeMacroName name).tables.setGrammar _ _
        rw [htake]
  have hgrammars : (t.recordMacro name definition).host.grammars =
      (s.recordMacro name definition).host.grammars := by
    unfold Session.recordMacro
    rw [Session.grammars_announce, Session.grammars_announce, hname]
    cases Definition.declaredGrammar? definition with
    | none => exact h.hostGrammars
    | some spec =>
        show setEntry t.host.grammars _ _ = setEntry s.host.grammars _ _
        rw [h.hostGrammars]
  -- all else either stays as it was or is added to both sides
  exact {
    context := hs.context.trans h.context
    sameContext := by rw [ht.context, hs.context, h.sameContext]
    tables := by rw [Session.tables_recordMacro, Session.tables_recordMacro, hdeclared]
    frames := by rw [hframes', hframes, h.frames]
    pass := by rw [ht.pass, hs.pass, h.pass]
    nameIsFinal := by rw [hfinal', hfinal]
    hostVariables := by rw [ht.hostVariables, hs.hostVariables, h.hostVariables]
    hostFunctions := by rw [ht.hostFunctions, hs.hostFunctions, h.hostFunctions]
    hostGrammars := hgrammars
    expands := fun other => by rw [ht.hostExpands, hs.hostExpands, h.expands]
    hostMacros := fun other hother => by
      rw [Bool.eq_iff_iff, Session.isMacroName_recordMacro, Session.isMacroName_recordMacro, h.pass,
        hname, h.hostMacros other hother]
    macros := fun other hother => hs.macros other (h.macros other hother)
    functionNames := fun other hother => hs.functionNames other (h.functionNames other hother) }

/-- A macro definition is recorded and expanded alike, whether or not the host has known the macro.
-/
theorem expanding_lagging : (lagging context late found).Expanding where
  macroName := by
    intro s t name h
    unfold Session.macroName
    rw [h.nameIsFinal, h.qualified_eq]
  recordMacro name definition h _ := { lags_recordMacro h name definition with nameIsFinal := rfl }
  expands head h := h.expands head
  form_bound := by
    intro head name params definition hform hrule final
    have hparts : ∀ part ∈ params :: definition, (lagging context late found).Form part :=
      fun part hpart => hform.child (List.mem_cons_of_mem _ (List.mem_cons_of_mem _ hpart))
    have hparts' := List.forall_mem_cons.1 hparts
    -- the heads of the form that binds the name have been asked about with the definition
    have hheads := (Bool.or_eq_false_iff.1 hform.self).2
    rw [List.contains_iff_mem.2 (FormRule.mem_macroNames hrule), Bool.true_and] at hheads
    have hnone : ∀ head ∈ Definition.boundHeads,
        FormRule.macroNames.contains head = false := by decide
    refine Definition.allParts_boundForm (fun _ => rfl) hparts'.1 hparts'.2 ?_
    intro head hhead items
    have hlearns := List.any_eq_false.1 hheads head hhead
    refine Bool.or_eq_false_iff.2 ⟨Bool.eq_false_iff.2 hlearns, ?_⟩
    rw [hnone head hhead, Bool.false_and]
  result_bound := by
    rintro head name params definition final a _ rfl
    rfl

/-- Every form may define names and macros. -/
theorem admitsForms_lagging : (lagging context late found).AdmitsForms :=
  fun _ _ _ _ _ _ => ⟨defining_lagging, fun _ => expanding_lagging⟩

end Comparison

end LispNamespace
