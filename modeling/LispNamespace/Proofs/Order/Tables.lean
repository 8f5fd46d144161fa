import LispNamespace.Proofs.Comparison.Convert

/-!
# Tables and the course of a conversion

Two comparisons of runs over the same form, where no macro is defined. If the tables hold the same
names, the results are the same. And whatever names the tables hold, the same names are added to
them, as long as every function that the namespace owns would be called like one anyway: which
subforms are visited does not depend on what has been found before.
-/

namespace LispNamespace

/-! ## Sessions without macros -/

/-- A session with the given context and host, in which no macro of the namespace is known. -/
structure Session.Plain (context : Context) (host : Host) (s : Session) : Prop where
  context : s.context = context
  host : s.host = host
  nameIsFinal : s.nameIsFinal = false
  macros : s.tables.macros = []
  grammars : s.tables.grammars = []

/-- The name has no rule and is no macro of the host, so that its calls are those of a function
whoever owns it. -/
def Host.CallsFunction (host : Host) (name : Text) : Prop :=
  FormRule.ofHead? name = none ∧ host.isMacroName name = false

/-- All functions of the namespace are called as functions, also while it is unknown that the
namespace owns them. -/
def Tables.CallFunctions (host : Host) (tables : Tables) : Prop :=
  ∀ name ∈ tables.functionNames, host.CallsFunction name

namespace Session.Plain

variable {context : Context} {host : Host} {s t : Session}

theorem grammars_eq (hs : s.Plain context host) : s.grammars = host.grammars := by
  unfold Session.grammars
  rw [hs.grammars, hs.host, List.nil_append]

theorem isEscaped_eq (hs : s.Plain context host) (name : Text) :
    s.isEscaped name = context.isEscaped name := by
  unfold Session.isEscaped
  rw [hs.context]

/-- Macros are treated by what the context and the host say. -/
theorem macroTreatment_eq (hs : s.Plain context host) (ht : t.Plain context host)
    (head written : Text) : s.macroTreatment head written = t.macroTreatment head written := by
  unfold Session.macroTreatment Session.callGrammar? Session.grammarFor?
  rw [hs.grammars_eq, ht.grammars_eq, hs.context, ht.context]

theorem callTreatment_eq (hs : s.Plain context host) (ht : t.Plain context host)
    (head written : Text) (isOwn : Bool) :
    s.callTreatment head written isOwn = t.callTreatment head written isOwn := by
  unfold Session.callTreatment Session.isOwnMacro Session.asksHost Session.qualified
  rw [hs.macroTreatment_eq ht, hs.macros, ht.macros, hs.host, ht.host, hs.context, ht.context]

end Session.Plain

/-! ## Runs over the same names -/

/-- The tables hold the same names and grammars, in whatever order. -/
structure Tables.Same (t u : Tables) : Prop where
  variableNames : ∀ name, name ∈ u.variableNames ↔ name ∈ t.variableNames
  functionNames : ∀ name, name ∈ u.functionNames ↔ name ∈ t.functionNames
  macros : ∀ name, name ∈ u.macros ↔ name ∈ t.macros
  grammars : u.grammars = t.grammars

namespace Tables.Same

variable {t u v : Tables}

protected theorem refl (t : Tables) : t.Same t := by
  constructor <;> intros <;> rfl

protected theorem symm (h : t.Same u) : u.Same t where
  variableNames name := (h.variableNames name).symm
  functionNames name := (h.functionNames name).symm
  macros name := (h.macros name).symm
  grammars := h.grammars.symm

protected theorem trans (h : t.Same u) (h' : u.Same v) : t.Same v where
  variableNames name := (h'.variableNames name).trans (h.variableNames name)
  functionNames name := (h'.functionNames name).trans (h.functionNames name)
  macros name := (h'.macros name).trans (h.macros name)
  grammars := h'.grammars.trans h.grammars

theorem apply (h : t.Same u) (addition : Addition) :
    (addition.apply t).Same (addition.apply u) where
  variableNames name := by
    rw [Addition.mem_variableNames_apply, Addition.mem_variableNames_apply, h.variableNames]
  functionNames name := by
    rw [Addition.mem_functionNames_apply, Addition.mem_functionNames_apply, h.functionNames]
  macros name := by
    rw [Addition.macros_apply, Addition.macros_apply, h.macros]
  grammars := by
    rw [Addition.grammars_apply, Addition.grammars_apply, h.grammars]

end Tables.Same

/-- To learn the name of a variable or of a function makes no macro known. -/
theorem Session.Plain.learn {context : Context} {host : Host} {s : Session}
    (h : s.Plain context host) (addition : Addition) : (s.learn addition).Plain context host :=
  { h with
    macros := (Addition.macros_apply _ _).trans h.macros
    grammars := (Addition.grammars_apply _ _).trans h.grammars }

namespace Comparison

variable {context : Context} {host : Host}

/-- Runs from sessions that differ in the order of the tables at most are compared for equal
results. -/
def sameNames (context : Context) (host : Host) : Comparison where
  Related s t := s.Plain context host ∧ t.Plain context host ∧ t.frames = s.frames ∧
    s.tables.Same t.tables
  Counts _ := True
  Form form := form.everywhere Tree.definesNoMacro = true
  Result _ a b := b = a
  Names ns ms := ms = ns

theorem contains_congr {names others : List Text} (h : ∀ name, name ∈ others ↔ name ∈ names)
    (name : Text) : others.contains name = names.contains name := by
  rw [Bool.eq_iff_iff, List.contains_iff_mem, List.contains_iff_mem]
  exact h name

/-- With the same frames, the same names are free. -/
theorem isFree_eq {s t : Session} (h : (sameNames context host).Related s t) (name : Text) :
    t.isFree name = s.isFree name := by
  unfold Session.isFree Session.isShadowed
  rw [h.2.2.1]

/-- A reference asks whether its name is a variable of the namespace, and not where in the table it
stands. -/
theorem isVariable_eq {s t : Session} (h : (sameNames context host).Related s t) (name : Text) :
    t.isVariable name = s.isVariable name := by
  rcases id h with ⟨hs, ht, -, htables⟩
  unfold Session.isVariable
  rw [isFree_eq h, contains_congr htables.variableNames]
  unfold Session.asksHost Session.qualified
  rw [hs.context, ht.context, hs.host, ht.host]

theorem isFunction_eq {s t : Session} (h : (sameNames context host).Related s t) (name : Text) :
    t.isFunction name = s.isFunction name := by
  rcases id h with ⟨hs, ht, -, htables⟩
  unfold Session.isFunction
  rw [isFree_eq h, contains_congr htables.functionNames]
  unfold Session.asksHost Session.qualified
  rw [hs.context, ht.context, hs.host, ht.host]

/-- No rule tells sessions apart in which the tables hold the same names. -/
theorem lawful_sameNames : (sameNames context host).Lawful where
  context := by
    rintro s t ⟨hs, ht, -⟩
    rw [hs.context, ht.context]
  journal := by
    rintro s t j k ⟨hs, ht, hframes, htables⟩
    exact ⟨{ hs with }, { ht with }, hframes, htables⟩
  pushFrame := by
    rintro s t ns _ ⟨hs, ht, hframes, htables⟩ rfl
    refine ⟨{ hs with }, { ht with }, ?_, htables⟩
    unfold Session.pushFrame
    rw [hframes]
  popFrame := by
    rintro s t s' t' ns ms - - - ⟨hs, ht, hframes, htables⟩
    refine ⟨{ hs with }, { ht with }, ?_, htables⟩
    unfold Session.popFrame
    rw [hframes]
  growFrame := by
    rintro s t ns _ ⟨hs, ht, hframes, htables⟩ rfl
    unfold Session.growFrame
    rw [hframes]
    split
    · exact ⟨hs, ht, hframes, htables⟩
    · exact ⟨{ hs with }, { ht with }, rfl, htables⟩
  counts _ _ := trivial
  counts_frames _ _ := trivial
  names_same _ := rfl
  names_append := by
    rintro ns _ ns' _ rfl rfl
    rfl
  names_result := by
    rintro t a _ rfl
    rfl
  form_children := Tree.everywhere_children
  -- a head is looked up in the tables, so it is found in both or in none
  approach := by
    intro s t name _ _ h _
    rcases id h with ⟨hs, ht, -⟩
    unfold Session.approach
    rw [isFunction_eq h, hs.isEscaped_eq, ht.isEscaped_eq]
    unfold Session.stripProtection Session.qualified
    rw [hs.context, ht.context]
    simp only [hs.callTreatment_eq ht]
  macroTreatment name h := h.1.macroTreatment_eq h.2.1 name name
  classify := by
    intro s t spec args h _
    rw [h.1.grammars_eq, h.2.1.grammars_eq]
  result_same _ := rfl
  result_list h := by rw [h.eq]; rfl
  result_ofList _ _ h := by rw [h.eq]; rfl
  result_call _ _ _ h := by rw [h.eq]; rfl
  result_dot h := by rw [h.eq]; rfl
  result_dotAbsent _ h := by rw [h.eq]; rfl
  result_variable := by
    intro s t name h _
    rcases id h with ⟨hs, ht, -⟩
    unfold Forms.variableReference
    rw [isVariable_eq h, hs.isEscaped_eq, ht.isEscaped_eq]
    unfold Session.stripProtection Session.qualified
    rw [hs.context, ht.context]
    rfl
  result_function := by
    intro s t name h _
    rcases id h with ⟨hs, ht, -⟩
    unfold Forms.functionReference
    rw [isFunction_eq h, hs.isEscaped_eq, ht.isEscaped_eq]
    unfold Session.stripProtection Session.qualified
    rw [hs.context, ht.context]
    rfl

/-- Definitions add one name to both tables. -/
theorem defining_sameNames : (sameNames context host).Defining where
  nameIsFinal h := h.2.1.nameIsFinal.trans h.1.nameIsFinal.symm
  clear := by
    rintro s t ⟨hs, ht, hframes, htables⟩
    exact ⟨{ hs with nameIsFinal := rfl }, { ht with nameIsFinal := rfl }, hframes, htables⟩
  learn := by
    rintro s t addition ⟨hs, ht, hframes, htables⟩ -
    exact ⟨hs.learn addition, ht.learn addition, hframes, htables.apply addition⟩
  result_defined := by
    intro s t name h _ _ _
    unfold Session.qualified
    rw [h.1.context, h.2.1.context]
    rfl
  result_quote := by
    rintro t x y _ - - rfl
    rfl

end Comparison

/-! ## Runs over different names -/

namespace Tables

/-- The second tables hold what the first ones hold, and the additions. -/
def Gain (t : Tables) (additions : List Addition) (u : Tables) : Prop :=
  (∀ name, name ∈ u.variableNames ↔ name ∈ t.variableNames ∨ .variable_ name ∈ additions) ∧
    ∀ name, name ∈ u.functionNames ↔ name ∈ t.functionNames ∨ .function name ∈ additions

theorem Gain.refl (t : Tables) : t.Gain [] t := by
  constructor <;> intro name <;> simp

theorem Gain.trans {t u v : Tables} {as bs : List Addition} (h : t.Gain as u) (h' : u.Gain bs v) :
    t.Gain (as ++ bs) v := by
  constructor <;> intro name
  · rw [h'.1, h.1, List.mem_append, or_assoc]
  · rw [h'.2, h.2, List.mem_append, or_assoc]

theorem gain_apply (t : Tables) (addition : Addition) : t.Gain [addition] (addition.apply t) := by
  constructor <;> intro name
  · rw [Addition.mem_variableNames_apply, List.mem_singleton, eq_comm (a := addition)]
  · rw [Addition.mem_functionNames_apply, List.mem_singleton, eq_comm (a := addition)]

end Tables

namespace Comparison

variable {context : Context} {host : Host}

/-- Runs from sessions with any tables are compared for what they add to the tables. The frames may
differ, too, and so may the results. -/
def sameGains (context : Context) (host : Host) (before before' : Tables) : Comparison where
  Related s t := s.Plain context host ∧ t.Plain context host ∧ t.tables.CallFunctions host ∧
    ∃ additions, before.Gain additions s.tables ∧ before'.Gain additions t.tables
  Counts s := s.tables.CallFunctions host
  Form form := form.everywhere Tree.definesNoMacro = true
  Result _ _ _ := True
  Names _ _ := True

/-- A name whose calls are those of a function is approached as a call of one, whether or not the
namespace owns it. -/
theorem approach_of_callsFunction (hglobal : context.options.globalLookup = false) {s : Session}
    (hs : s.Plain context host) {name : Text} (hname : host.CallsFunction name)
    (hescaped : context.isEscaped name = false) : s.approach name = .call .forms := by
  -- the namespace has no macros, and the host none of this name
  have htreatment : ∀ head isOwn, (isOwn = true ∨ head = name) →
      s.callTreatment head name isOwn = .forms := by
    intro head isOwn hcase
    unfold Session.callTreatment Session.isOwnMacro Session.asksHost
    rw [hs.macros, hs.context, hglobal, hs.host]
    rcases hcase with rfl | rfl
    · rfl
    · rw [hname.2]
      cases isOwn <;> rfl
  unfold Session.approach
  rw [hs.isEscaped_eq, hescaped, hname.1, htreatment _ true (.inl rfl),
    htreatment name false (.inr rfl)]
  simp

/-- A function of the namespace is in the tables when the host is not asked. -/
theorem mem_of_isFunction (hglobal : context.options.globalLookup = false) {s : Session}
    (hs : s.Plain context host) {name : Text} (h : s.isFunction name = true) :
    name ∈ s.tables.functionNames := by
  unfold Session.isFunction Session.asksHost at h
  rw [hs.context, hglobal, Bool.false_and, Bool.or_false, Bool.and_eq_true] at h
  exact List.contains_iff_mem.1 h.2

/-- The rules visit the same subforms whatever names the tables hold: references come out
differently, but nothing is converted because of them or left out. -/
theorem lawful_sameGains (hglobal : context.options.globalLookup = false) (before before' : Tables) :
    (sameGains context host before before').Lawful where
  context := by
    rintro s t ⟨hs, ht, -⟩
    rw [hs.context, ht.context]
  journal := by
    rintro s t j k ⟨hs, ht, hrest⟩
    exact ⟨{ hs with }, { ht with }, hrest⟩
  pushFrame := by
    rintro s t ns ms ⟨hs, ht, hrest⟩ -
    exact ⟨{ hs with }, { ht with }, hrest⟩
  popFrame := by
    rintro s t s' t' ns ms - - - ⟨hs, ht, hrest⟩
    exact ⟨{ hs with }, { ht with }, hrest⟩
  growFrame := by
    rintro s t ns ms ⟨hs, ht, hrest⟩ -
    -- the frames may differ, so all that matters is that nothing else changes
    have hgrow : ∀ (s : Session) ns, ∃ frames, s.growFrame ns = { s with frames := frames } := by
      intro s ns
      unfold Session.growFrame
      split
      · exact ⟨s.frames, rfl⟩
      · exact ⟨_, rfl⟩
    rcases hgrow s ns with ⟨_, hs'⟩
    rcases hgrow t ms with ⟨_, ht'⟩
    rw [hs', ht']
    exact ⟨{ hs with }, { ht with }, hrest⟩
  counts hgrows hcounts name hname := hcounts name (hgrows.functionNames name hname)
  counts_frames _ hcounts := hcounts
  names_same _ := trivial
  names_append _ _ := trivial
  names_result _ := trivial
  form_children := Tree.everywhere_children
  approach := by
    rintro s t name _ - ⟨hs, ht, hcalls, -⟩ hcounts
    -- owned or not, a name of either table is called like a function by both sessions
    by_cases hescaped : context.isEscaped name = true
    · unfold Session.approach
      rw [hs.isEscaped_eq, ht.isEscaped_eq, if_pos hescaped, if_pos hescaped,
        hs.callTreatment_eq ht]
      unfold Session.stripProtection
      rw [hs.context, ht.context]
    · by_cases hfunction : s.isFunction name = true ∨ t.isFunction name = true
      · have hname : host.CallsFunction name := by
          rcases hfunction with h | h
          · exact hcounts name (mem_of_isFunction hglobal hs h)
          · exact hcalls name (mem_of_isFunction hglobal ht h)
        have hescaped' := Bool.eq_false_iff.2 hescaped
        rw [approach_of_callsFunction hglobal hs hname hescaped',
          approach_of_callsFunction hglobal ht hname hescaped']
      · rw [not_or] at hfunction
        unfold Session.approach
        rw [hs.isEscaped_eq, ht.isEscaped_eq, if_neg hescaped, if_neg hescaped,
          if_neg hfunction.1, if_neg hfunction.2]
        simp only [hs.callTreatment_eq ht]
  macroTreatment name h := h.1.macroTreatment_eq h.2.1 name name
  classify := by
    intro s t spec args h _
    rw [h.1.grammars_eq, h.2.1.grammars_eq]
  result_same _ := trivial
  result_list _ := trivial
  result_ofList _ _ _ := trivial
  result_call _ _ _ _ := trivial
  result_dot _ := trivial
  result_dotAbsent _ _ := trivial
  result_variable _ _ _ := trivial
  result_function _ _ _ := trivial

/-- A definition adds its name to both tables, whatever they hold. -/
theorem defining_sameGains (before before' : Tables) :
    (sameGains context host before before').Defining where
  nameIsFinal h := h.2.1.nameIsFinal.trans h.1.nameIsFinal.symm
  clear := by
    rintro s t ⟨hs, ht, hrest⟩
    exact ⟨{ hs with nameIsFinal := rfl }, { ht with nameIsFinal := rfl }, hrest⟩
  learn := by
    rintro s t addition ⟨hs, ht, hcalls, additions, hgain, hgain'⟩ hcounts
    -- the run that is followed has to count, so the new function is called as one
    refine ⟨hs.learn addition, ht.learn addition, ?_, additions ++ [addition],
      hgain.trans (Tables.gain_apply _ addition), hgain'.trans (Tables.gain_apply _ addition)⟩
    intro name hname
    rcases (Addition.mem_functionNames_apply _ _ _).1 hname with hold | hnew
    · exact hcalls name hold
    · exact hcounts name ((Addition.mem_functionNames_apply _ _ _).2 (.inr hnew))
  result_defined _ _ _ _ := trivial
  result_quote _ _ _ := trivial

end Comparison

end LispNamespace
