import LispNamespace.Host.Standard
import LispNamespace.Proofs.Comparison.Convert
import LispNamespace.Proofs.GrammarChains

/-!
# Names that the host is asked about

A namespace can keep the names it owns in its tables, or it can ask the host about their qualified
forms. The two ways give the same results: if the host knows the qualified forms of just the names
that the tables would hold, a form without definitions is converted alike, or the conversion ends
both times because grammars are names of each other.
-/

namespace LispNamespace

open Rewrite Text

/-! ## What the host is told -/

namespace Host

/-- No variable, function or macro of the host has a name that begins with the qualifier. -/
def Spares (host : Host) (qualifier : Text) : Prop :=
  ∀ name ∈ host.variableNames ++ host.functionNames ++ host.macros.map Prod.fst,
    beginsWith name qualifier = false

instance (host : Host) (qualifier : Text) : Decidable (host.Spares qualifier) :=
  inferInstanceAs (Decidable (∀ _ ∈ _, _))

/-- The host with grammars declared, the first of several for one name counting. -/
def declare (host : Host) (grammars : List (Text × Tree)) : Host :=
  let declared := grammars.foldr (fun entry table => setEntry table entry.1 entry.2) host.grammars
  { host with grammars := declared }

/-- The host that also knows the qualified forms of all names in the tables, with their grammars. -/
def publish (host : Host) (qualifier : Text) (tables : Tables) : Host :=
  let functionNames := tables.functionNames.filter fun name => !tables.macros.contains name
  { host.declare tables.grammars with
    variableNames := (tables.variableNames.map (qualifier ++ ·)).foldl addName host.variableNames
    functionNames := (functionNames.map (qualifier ++ ·)).foldl addName host.functionNames
    macros := (tables.macros.map (qualifier ++ ·)).foldl (setEntry · · false) host.macros }

theorem mem_foldl_addName {names more : List Text} {name : Text} :
    name ∈ more.foldl addName names ↔ name ∈ names ∨ name ∈ more := by
  induction more generalizing names with
  | nil => simp
  | cons first rest ih => rw [List.foldl_cons, ih, mem_addName, List.mem_cons, or_assoc]

theorem isMacroName_foldl_setEntry {macros : List (Text × Bool)} {more : List Text} {name : Text} :
    (more.foldl (setEntry · · false) macros).any (·.1 == name) = true ↔
      macros.any (·.1 == name) = true ∨ name ∈ more := by
  induction more generalizing macros with
  | nil => simp
  | cons first rest ih =>
      rw [List.foldl_cons, ih, isMacroName_setEntry, Bool.or_eq_true, beq_iff_eq, List.mem_cons,
        or_assoc, eq_comm (a := first)]

/-- Declared grammars come before those that the host had. -/
theorem lookup_declare (host : Host) (grammars : List (Text × Tree)) (name : Text) :
    (host.declare grammars).grammars.lookup name =
      (grammars.lookup name).or (host.grammars.lookup name) := by
  induction grammars with
  | nil => rfl
  | cons entry rest ih =>
      rcases entry with ⟨key, spec⟩
      show (setEntry (host.declare rest).grammars key spec).lookup name = _
      rw [List.lookup_cons]
      by_cases hkey : name = key
      · subst hkey
        rw [lookup_setEntry_self, beq_self_eq_true]
        rfl
      · rw [lookup_setEntry_ne _ _ hkey, ih, beq_eq_false_iff_ne.2 hkey]

variable {host : Host} {qualifier : Text} {tables : Tables}

/-- Qualified names are distinct when the names are. -/
theorem mem_map_qualified {names : List Text} {name : Text} :
    qualifier ++ name ∈ names.map (qualifier ++ ·) ↔ name ∈ names :=
  List.mem_map_of_injective (List.append_right_injective qualifier)

/-- A host that spares the qualifier knows no qualified name. -/
theorem Spares.not_mem (h : host.Spares qualifier) (name : Text) :
    qualifier ++ name ∉ host.variableNames ∧ qualifier ++ name ∉ host.functionNames ∧
      host.isMacroName (qualifier ++ name) = false := by
  have hbegins : beginsWith (qualifier ++ name) qualifier = true :=
    beginsWith_iff.2 ⟨name, rfl⟩
  have hunknown : qualifier ++ name ∉
      host.variableNames ++ host.functionNames ++ host.macros.map Prod.fst := by
    intro hmem
    rw [h _ hmem] at hbegins
    cases hbegins
  rw [List.mem_append, List.mem_append, not_or, not_or] at hunknown
  refine ⟨hunknown.1.1, hunknown.1.2, ?_⟩
  unfold isMacroName
  rw [List.any_eq_false]
  rintro entry hentry heq
  exact hunknown.2 (List.mem_map.2 ⟨entry, hentry, eq_of_beq heq⟩)

/-- Once the variables have been published, the host knows a qualified variable exactly if the table
held it. -/
theorem isBound_publish (h : host.Spares qualifier) (name : Text) :
    (host.publish qualifier tables).isBound (qualifier ++ name) =
      tables.variableNames.contains name := by
  unfold isBound publish
  rw [Bool.eq_iff_iff, List.contains_iff_mem, List.contains_iff_mem, mem_foldl_addName,
    mem_map_qualified]
  exact or_iff_right (h.not_mem name).1

/-- It knows a qualified macro exactly if the table of macros held it. -/
theorem isMacroName_publish (h : host.Spares qualifier) (name : Text) :
    (host.publish qualifier tables).isMacroName (qualifier ++ name) =
      tables.macros.contains name := by
  rw [Bool.eq_iff_iff, List.contains_iff_mem]
  unfold isMacroName publish
  rw [isMacroName_foldl_setEntry, mem_map_qualified]
  refine or_iff_right ?_
  rw [Bool.not_eq_true]
  exact (h.not_mem name).2.2

/-- The functions and the macros that the host is told are the functions of the tables. -/
theorem isFunctionBound_publish (h : host.Spares qualifier)
    (hmacros : ∀ name ∈ tables.macros, name ∈ tables.functionNames) (name : Text) :
    (host.publish qualifier tables).isFunctionBound (qualifier ++ name) =
      tables.functionNames.contains name := by
  unfold isFunctionBound
  rw [isMacroName_publish h, Bool.eq_iff_iff, Bool.or_eq_true, List.contains_iff_mem,
    List.contains_iff_mem, List.contains_iff_mem]
  unfold publish
  rw [mem_foldl_addName, mem_map_qualified, or_iff_right (h.not_mem name).2.1, List.mem_filter,
    Bool.not_eq_true', List.contains_eq_mem, decide_eq_false_iff_not]
  constructor
  · rintro (⟨hname, -⟩ | hname)
    · exact hname
    · exact hmacros name hname
  · intro hname
    by_cases hmacro : name ∈ tables.macros
    · exact .inr hmacro
    · exact .inl ⟨hname, hmacro⟩

/-- The macros that the host is told all have qualified names. -/
theorem isMacroName_publish_of_not_beginsWith {name : Text}
    (hname : beginsWith name qualifier = false) :
    (host.publish qualifier tables).isMacroName name = host.isMacroName name := by
  rw [Bool.eq_iff_iff]
  unfold isMacroName publish
  rw [isMacroName_foldl_setEntry]
  refine or_iff_left fun hmem => ?_
  rcases List.mem_map.1 hmem with ⟨rest, -, rfl⟩
  rw [beginsWith_iff.2 ⟨rest, rfl⟩] at hname
  cases hname

end Host

/-! ## Sessions that answer alike -/

/-- The context with the host asked about qualified names, or not. -/
def Context.asking (c : Context) (asks : Bool) : Context :=
  { c with options := { c.options with globalLookup := asks } }

namespace Session

/-- Whether a name that nothing binds is a variable of the namespace. -/
def ownsVariable (s : Session) (name : Text) : Bool :=
  s.tables.variableNames.contains name || (s.asksHost && s.host.isBound (s.qualified name))

/-- Whether a name that nothing binds is a function of the namespace. -/
def ownsFunction (s : Session) (name : Text) : Bool :=
  s.tables.functionNames.contains name ||
    (s.asksHost && s.host.isFunctionBound (s.qualified name))

/-- The two sessions have the same context, except that one may ask the host and the other not, and
they say the same about every name that a form may use. -/
structure Alike (context : Context) (s t : Session) : Prop where
  left : ∃ asks, s.context = context.asking asks
  right : ∃ asks, t.context = context.asking asks
  frames : t.frames = s.frames
  ownsVariable : ∀ name, context.isEscaped name = false → t.ownsVariable name = s.ownsVariable name
  ownsFunction : ∀ name, context.isEscaped name = false → t.ownsFunction name = s.ownsFunction name
  isOwnMacro : ∀ name, context.isEscaped name = false → t.isOwnMacro name = s.isOwnMacro name
  isMacroName : ∀ name, beginsWith name context.qualifier = false →
    t.host.isMacroName name = s.host.isMacroName name
  grammars : ∀ name, t.grammars.find? name = s.grammars.find? name

namespace Alike

variable {context : Context} {s t : Session}

protected theorem symm (h : s.Alike context t) : t.Alike context s where
  left := h.right
  right := h.left
  frames := h.frames.symm
  ownsVariable name hname := (h.ownsVariable name hname).symm
  ownsFunction name hname := (h.ownsFunction name hname).symm
  isOwnMacro name hname := (h.isOwnMacro name hname).symm
  isMacroName name hname := (h.isMacroName name hname).symm
  grammars name := (h.grammars name).symm

theorem isEscaped_eq (h : s.Alike context t) (name : Text) :
    s.isEscaped name = context.isEscaped name ∧ t.isEscaped name = context.isEscaped name := by
  rcases h.left with ⟨asks, hs⟩
  rcases h.right with ⟨asks', ht⟩
  unfold Session.isEscaped
  rw [hs, ht]
  exact ⟨rfl, rfl⟩

theorem stripProtection_eq (h : s.Alike context t) (name : Text) :
    t.stripProtection name = s.stripProtection name := by
  rcases h.left with ⟨asks, hs⟩
  rcases h.right with ⟨asks', ht⟩
  unfold Session.stripProtection
  rw [hs, ht]
  rfl

theorem qualified_eq (h : s.Alike context t) (name : Text) : t.qualified name = s.qualified name := by
  rcases h.left with ⟨asks, hs⟩
  rcases h.right with ⟨asks', ht⟩
  unfold Session.qualified
  rw [hs, ht]
  rfl

theorem isFree_eq (h : s.Alike context t) (name : Text) : t.isFree name = s.isFree name := by
  unfold Session.isFree Session.isShadowed
  rw [h.frames]

/-- They give the same answer about a variable, the one from its tables and the other one from its
host. -/
theorem isVariable_eq (h : s.Alike context t) {name : Text} (hname : context.isEscaped name = false) :
    t.isVariable name = s.isVariable name :=
  congrArg₂ (· && ·) (h.isFree_eq name) (h.ownsVariable name hname)

theorem isFunction_eq (h : s.Alike context t) {name : Text} (hname : context.isEscaped name = false) :
    t.isFunction name = s.isFunction name :=
  congrArg₂ (· && ·) (h.isFree_eq name) (h.ownsFunction name hname)

/-- So a reference becomes the same name in both. -/
theorem variableReference_eq (h : s.Alike context t) (name : Text) :
    Forms.variableReference t name = Forms.variableReference s name := by
  unfold Forms.variableReference
  rw [(h.isEscaped_eq name).1, (h.isEscaped_eq name).2, h.stripProtection_eq, h.qualified_eq]
  split
  · rfl
  · next hname => rw [h.isVariable_eq (Bool.eq_false_iff.2 hname)]

theorem functionReference_eq (h : s.Alike context t) (name : Text) :
    Forms.functionReference t name = Forms.functionReference s name := by
  unfold Forms.functionReference
  rw [(h.isEscaped_eq name).1, (h.isEscaped_eq name).2, h.stripProtection_eq, h.qualified_eq]
  split
  · rfl
  · next hname => rw [h.isFunction_eq (Bool.eq_false_iff.2 hname)]

/-- A macro is treated by its grammar and by an option that the sessions share. -/
theorem macroTreatment_eq (h : s.Alike context t) (head written : Text) :
    t.macroTreatment head written = s.macroTreatment head written := by
  rcases h.left with ⟨asks, hs⟩
  rcases h.right with ⟨asks', ht⟩
  unfold Session.macroTreatment Session.callGrammar? Session.grammarFor?
  rw [h.grammars, hs, ht]
  rfl

/-- The head of a foreign call is looked up as it is, so it must not look like a name that the
namespace has qualified. -/
theorem callTreatment_foreign (h : s.Alike context t) {head : Text} (written : Text)
    (hhead : beginsWith head context.qualifier = false) :
    t.callTreatment head written false = s.callTreatment head written false := by
  unfold Session.callTreatment
  rw [h.isMacroName head hhead, h.macroTreatment_eq]
  rfl

/-- A call of an own function is treated alike: whether it is a macro, and with which grammar, is
answered alike. -/
theorem callTreatment_own (h : s.Alike context t) (head : Text) {written : Text}
    (hwritten : context.isEscaped written = false) :
    t.callTreatment head written true = s.callTreatment head written true := by
  unfold Session.callTreatment
  rw [h.isOwnMacro written hwritten, h.macroTreatment_eq]
  rfl

/-- A form is approached alike if its head, without protection marker, does not begin with the
qualifier. -/
theorem approach_eq (h : s.Alike context t) {name : Text}
    (hname : beginsWith (context.bare name) context.qualifier = false) :
    t.approach name = s.approach name := by
  rcases h.left with ⟨asks, hs⟩
  unfold Context.bare at hname
  unfold Session.approach
  rw [(h.isEscaped_eq name).1, (h.isEscaped_eq name).2, h.stripProtection_eq, h.qualified_eq]
  by_cases hescaped : context.isEscaped name = true
  · have hstrip : s.stripProtection name = context.stripProtection name := by
      unfold Session.stripProtection
      rw [hs]
      rfl
    rw [if_pos hescaped] at hname
    rw [if_pos hescaped, if_pos hescaped, hstrip, h.callTreatment_foreign _ hname]
  · rw [if_neg hescaped] at hname
    have hplain := Bool.eq_false_iff.2 hescaped
    rw [if_neg hescaped, if_neg hescaped, h.isFunction_eq hplain, h.callTreatment_own _ hplain,
      h.callTreatment_foreign _ hname]

end Alike

end Session

/-! ## Runs from sessions that answer alike -/

/-- Whether the tree is neither a list that begins like a definition nor a symbol that begins, without
protection marker, with the qualifier. -/
def Tree.leavesNamesAlone (context : Context) (t : Tree) : Bool :=
  !t.isListHeadedBy FormRule.definitionNames &&
    !t.symbol?.any fun name => beginsWith (context.bare name) context.qualifier

/-- Macro definitions are definitions. -/
theorem Tree.definesNoMacro_of_leavesNamesAlone {context : Context} (t : Tree)
    (h : t.leavesNamesAlone context = true) : t.definesNoMacro = true := by
  have hmacros : ∀ name ∈ FormRule.macroNames, name ∈ FormRule.definitionNames := by decide
  have hhead := (Bool.and_eq_true_iff.1 h).1
  unfold isListHeadedBy at hhead
  unfold definesNoMacro isListHeadedBy
  rw [Bool.not_eq_true'] at hhead ⊢
  split
  · next name _ =>
    refine Bool.eq_false_iff.2 fun hname => Bool.eq_false_iff.1 hhead ?_
    exact List.contains_iff_mem.2 (hmacros name (List.contains_iff_mem.1 hname))
  · rfl

namespace Comparison

/-- Runs from sessions that answer alike are compared for equal results. -/
def sameAnswers (context : Context) : Comparison where
  Related := Session.Alike context
  Counts _ := True
  Form form := form.everywhere (Tree.leavesNamesAlone context) = true
  Result _ a b := b = a
  Names ns ms := ms = ns

variable {context : Context}

/-- A list whose parts leave names alone begins with a symbol that does. -/
theorem beginsWith_of_form {name : Text} {tail : List Tree}
    (h : (sameAnswers context).Form (Tree.call name tail)) :
    beginsWith (context.bare name) context.qualifier = false := by
  have hhead : (Tree.sym name).everywhere (Tree.leavesNamesAlone context) = true :=
    Tree.everywhere_children h (List.mem_cons_self ..)
  have hname := (Bool.and_eq_true_iff.1 (Tree.test_of_everywhere hhead)).2
  rwa [Bool.not_eq_true'] at hname

/-- Sessions that answer alike go on to do so through all steps that are no definitions. -/
theorem lawful_sameAnswers : (sameAnswers context).Lawful where
  -- the two runs may swap parts, but the context is the same in both up to the option that they
  -- differ in
  context := by
    intro s t h
    rcases h.left with ⟨asks, hs⟩
    rcases h.right with ⟨asks', ht⟩
    rw [hs, ht]
    rfl
  journal _ _ h := { h with }
  pushFrame h hns := { h with frames := congrArg₂ List.cons hns h.frames }
  popFrame _ _ _ h := { h with frames := congrArg List.tail h.frames }
  growFrame := by
    rintro s t ns _ h rfl
    have hframes := h.frames
    unfold Session.growFrame
    rw [hframes]
    split
    · exact h
    · exact { h with frames := rfl }
  counts _ _ := trivial
  counts_frames _ _ := trivial
  names_same _ := rfl
  names_append := by
    rintro ns _ ns' _ rfl rfl
    rfl
  names_result := by
    rintro t a _ rfl
    rfl
  form_children := Tree.everywhere_children
  approach hform h _ := (h.approach_eq (beginsWith_of_form hform)).symm
  macroTreatment name h := (h.macroTreatment_eq name name).symm
  classify _ _ h hends := Grammar.classify_eq h.grammars hends
  result_same _ := rfl
  result_list h := by rw [h.eq]; rfl
  result_ofList _ _ h := by rw [h.eq]; rfl
  result_call _ _ _ h := by rw [h.eq]; rfl
  result_dot h := by rw [h.eq]; rfl
  result_dotAbsent _ h := by rw [h.eq]; rfl
  result_variable name h _ := congrArg Tree.sym (h.variableReference_eq name)
  result_function name h _ := congrArg Tree.sym (h.functionReference_eq name)

/-- No form that is compared defines anything. -/
theorem admitsForms_sameAnswers : (sameAnswers context).AdmitsForms := by
  refine admitsForms_of_noDefinitions fun t h => ?_
  rw [← Bool.not_eq_true']
  exact (Bool.and_eq_true_iff.1 (Tree.test_of_everywhere h)).1

end Comparison

/-- Nothing is asked of sessions, but only grammars that are names of each other end a run. -/
def onlyEndless : Discipline where
  Steps _ _ _ := True
  Allows _ fault := ∃ last, fault = .endlessGrammar last

instance : onlyEndless.Lawful where
  refl _ _ := trivial
  trans _ _ := trivial
  journal _ _ _ := trivial
  clear _ _ := trivial
  growFrame _ _ := trivial
  popFrame _ := trivial
  allows_popFrame h := h
  allows_classify h hfault := Grammar.endless_of_classify h hfault

/-- Names are taken in without a fault. Only a macro definition may fail in another way. -/
theorem learns_onlyEndless : onlyEndless.Learns := fun _ _ _ => trivial

/-- A form in which no macro is defined is converted, or grammars are names of each other. -/
theorem convert_endless {form : Tree} (hform : form.everywhere Tree.definesNoMacro = true) {s : Session}
    {fault : Fault} (h : ((convert form).runFrom s).1 = .error fault) :
    ∃ last, fault = .endlessGrammar last :=
  ((keeps_convert learns_onlyEndless.admitsForms hform .form).keepsFrom s).allows fault h

/-- What one of two sessions that answer alike converts, the other converts to the same. -/
theorem Session.Alike.convert_eq {context : Context} {s t : Session} (h : s.Alike context t)
    {form result : Tree} (hform : form.everywhere (Tree.leavesNamesAlone context) = true)
    (hrun : ((convert form).runFrom s).1 = .ok result) :
    ((convert form).runFrom t).1 = .ok result := by
  have hfollows := Comparison.follows_convert Comparison.lawful_sameAnswers
    Comparison.admitsForms_sameAnswers form hform
  have hrun' : (convert form).runFrom s = (.ok result, ((convert form).runFrom s).2) :=
    Prod.ext hrun rfl
  rcases hfollows s t h trivial result _ hrun' trivial with ⟨_, t', ht, rfl, -⟩
  rw [ht]

/-! ## Owning names and asking for them -/

namespace Session

/-- The session in which the namespace owns the names in the tables. The host is not asked, and has
been told the grammars only. -/
def owning (s : Session) (tables : Tables) : Session :=
  { s with
    context := s.context.asking false
    host := s.host.declare tables.grammars
    tables := tables }

/-- The session in which the namespace owns no names, and asks a host that has been told all names in
the tables. -/
def relying (s : Session) (tables : Tables) : Session :=
  { s with
    context := s.context.asking true
    host := s.host.publish s.context.qualifier tables
    tables := {} }

/-- The session that relies on the host qualifies names as the one that owns them. -/
theorem qualified_relying {s : Session} (tables : Tables) {name : Text}
    (hname : s.context.isEscaped name = false) :
    (s.relying tables).qualified name = s.context.qualifier ++ name :=
  if_neg (Bool.eq_false_iff.1 hname)

/-- The host has been told the qualified form of a name, not protected, just if the name is in the
tables. -/
theorem alike_owning_relying {s : Session} {tables : Tables}
    (hmacros : ∀ name ∈ tables.macros, name ∈ tables.functionNames)
    (hhost : s.host.Spares s.context.qualifier) :
    (s.owning tables).Alike s.context (s.relying tables) where
  left := ⟨false, rfl⟩
  right := ⟨true, rfl⟩
  frames := rfl
  ownsVariable := by
    intro name hname
    have howning : (s.owning tables).ownsVariable name = tables.variableNames.contains name :=
      Bool.or_false _
    unfold ownsVariable at howning ⊢
    rw [howning, qualified_relying tables hname]
    exact Host.isBound_publish hhost name
  ownsFunction := by
    intro name hname
    have howning : (s.owning tables).ownsFunction name = tables.functionNames.contains name :=
      Bool.or_false _
    unfold ownsFunction at howning ⊢
    rw [howning, qualified_relying tables hname]
    exact Host.isFunctionBound_publish hhost hmacros name
  isOwnMacro := by
    intro name hname
    have howning : (s.owning tables).isOwnMacro name = tables.macros.contains name :=
      Bool.or_false _
    unfold isOwnMacro at howning ⊢
    rw [howning, qualified_relying tables hname]
    exact Host.isMacroName_publish hhost name
  isMacroName name hname := Host.isMacroName_publish_of_not_beginsWith hname
  grammars := by
    intro name
    have howning : (s.owning tables).grammars.lookup name =
        (s.host.declare tables.grammars).grammars.lookup name := by
      show (tables.grammars ++ (s.host.declare tables.grammars).grammars).lookup name = _
      -- the tables give what the host was told before it had a grammar of its own
      rw [List.lookup_append, Host.lookup_declare, ← Option.or_assoc, Option.or_self]
    unfold Grammar.Grammars.find?
    rw [howning]
    rfl

end Session

/-- Looking names up in the host means the same as keeping them in tables. Let the macros among the
names in the tables be functions, too, and let no name of the host begin with the qualifier. Whatever
the other options, the frames and the pass are, a form that contains no definition, and no symbol that
begins with the qualifier after the protection marker, is converted to the same by a session that owns
the names in the tables and by one that asks a host which has been told them; or both conversions end
because grammars are names of each other. -/
theorem convert_owning_relying {s : Session} {tables : Tables} {form : Tree}
    (hmacros : ∀ name ∈ tables.macros, name ∈ tables.functionNames)
    (hhost : s.host.Spares s.context.qualifier)
    (hform : form.everywhere (Tree.leavesNamesAlone s.context) = true) :
    (∃ result, ((convert form).runFrom (s.owning tables)).1 = .ok result ∧
      ((convert form).runFrom (s.relying tables)).1 = .ok result) ∨
    (∃ last last', ((convert form).runFrom (s.owning tables)).1 = .error (.endlessGrammar last) ∧
      ((convert form).runFrom (s.relying tables)).1 = .error (.endlessGrammar last')) := by
  have halike := Session.alike_owning_relying hmacros hhost
  have hdefines := Tree.everywhere_mono Tree.definesNoMacro_of_leavesNamesAlone hform
  -- each run is compared with the other one, so a result of one is a result of both
  cases howning : ((convert form).runFrom (s.owning tables)).1 with
  | ok result => exact .inl ⟨result, rfl, halike.convert_eq hform howning⟩
  | error fault =>
      cases hrelying : ((convert form).runFrom (s.relying tables)).1 with
      | ok result =>
          rw [halike.symm.convert_eq hform hrelying] at howning
          cases howning
      | error fault' =>
          rcases convert_endless hdefines howning with ⟨last, rfl⟩
          rcases convert_endless hdefines hrelying with ⟨last', rfl⟩
          exact .inr ⟨last, last', rfl, rfl⟩

/-- The names of a small namespace: a variable, a function, and a macro whose arguments are data. -/
def Tables.sample : Tables where
  variableNames := ["x"]
  functionNames := ["f", "m"]
  macros := ["m"]
  grammars := [("p-m", .int 0)]

/-- Over the standard host, the macro is known to take data only. -/
theorem convert_owning_relying_call :
    ((convert (.call "f" [.call "m" [.sym "x"], .sym "x"])).runFrom
        ((Session.fresh (.unset "p-") .standard).relying .sample)).1 =
      .ok (.call "p-f" [.call "p-m" [.sym "x"], .sym "p-x"]) := by
  have howning : ((convert (.call "f" [.call "m" [.sym "x"], .sym "x"])).runFrom
      ((Session.fresh (.unset "p-") .standard).owning .sample)).1 =
      .ok (.call "p-f" [.call "p-m" [.sym "x"], .sym "p-x"]) := by
    rfl
  have hform : (Tree.call "f" [.call "m" [.sym "x"], .sym "x"]).everywhere
      (Tree.leavesNamesAlone (Session.fresh (.unset "p-") .standard).context) = true := by
    decide
  have hmacros : ∀ name ∈ Tables.sample.macros, name ∈ Tables.sample.functionNames := by decide
  rcases convert_owning_relying hmacros (by decide +kernel) hform
    with ⟨result, hresult, hrelying⟩ | ⟨last, last', hlast, -⟩
  · rw [hrelying, ← hresult, howning]
  · rw [hlast] at howning
    cases howning

end LispNamespace
