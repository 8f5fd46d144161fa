import LispNamespace.Namespace
import LispNamespace.Proofs.Approach
import LispNamespace.Proofs.GrammarChains
import LispNamespace.Proofs.MacroRecords

/-!
# The faults of a rewrite

However malformed a body is, its two passes come to an end with a result. The only exceptions are a
macro definition that the host does not expand, and grammars that are names of each other in a
circle.
-/

namespace LispNamespace

open Rewrite

/-! ## Faults of conversions -/

/-- Which macros the host expands as definitions does not change, and a fault arises only where
grammars run in a circle, or from a head of macro definitions among the given ones that the host does
not expand. -/
def faults (Defines : Text → Prop) : Discipline where
  Steps _ s t := ∀ name, t.host.expandsDefinition name = s.host.expandsDefinition name
  Allows s fault :=
    Grammar.Circular s.grammars ∨ ∃ head ∈ FormRule.macroNames, Defines head ∧
      s.host.expandsDefinition head = false ∧ fault = .notExpandable (Tree.sym head).display

section Faults

variable {Defines : Text → Prop}

instance : (faults Defines).Lawful where
  refl _ _ _ := rfl
  trans h h' name := (h' name).trans (h name)
  journal _ _ _ _ := rfl
  clear _ _ _ := rfl
  growFrame s names := (s.growsTo_growFrame names).hostExpands
  popFrame h := h
  allows_popFrame h := h
  allows_classify hclassify hfault := .inl (Grammar.circular_of_classify hclassify hfault)

theorem learns_faults : (faults Defines).Learns :=
  fun _ s addition => (s.growsTo_learn addition).hostExpands

/-- No step of a macro definition changes which definitions the host expands. -/
theorem expands_faults : (faults Defines).Expands where
  addMacro _ s name := (s.growsTo_addMacro name).hostExpands
  declareGrammar _ s name spec := (s.growsTo_declareGrammar name spec).hostExpands
  announce _ s _ spec hpass hnew := (s.growsTo_announce spec hpass hnew).hostExpands
  final _ s := (s.growsTo_nameIsFinal true).hostExpands

/-- Wherever a list stands that begins like the definition of a macro, its head is one of the given
ones. -/
def Tree.DefinesOnly (Defines : Text → Prop) (form : Tree) : Prop :=
  form.AllParts fun part => ∀ head tail, part = Tree.call head tail →
    head ∈ FormRule.macroNames → Defines head

/-- The form that binds the name of a macro begins no macro definition by itself. -/
theorem definesOnly_boundForm {params : Tree} {definition : List Tree}
    (hparams : params.DefinesOnly Defines) (hdefinition : ∀ form ∈ definition, form.DefinesOnly Defines)
    (name : Text) : (Definition.boundForm (.sym name) params definition).DefinesOnly Defines := by
  have hheads : ∀ head ∈ Definition.boundHeads, head ∉ FormRule.macroNames := by decide
  refine Definition.allParts_boundForm ?_ hparams hdefinition ?_
  · intro symbol head tail heq
    cases heq
  · intro head hhead items other tail heq hother
    cases heq
    exact absurd hother (hheads head hhead)

/-- The form that a macro definition expands into is no part of it, but begins no further macro
definition, so its heads are among the given ones as well. -/
theorem admitsForms_faults : (faults Defines).AdmitsForms fun _ => Tree.DefinesOnly Defines where
  children := Tree.AllParts.child
  inner := Tree.AllParts.child
  learns _ _ hlearn _ scope := keeps_learned learns_faults hlearn scope _
  macros := by
    intro steps head tail hform hrule hwalk scope
    have hhead := FormRule.mem_macroNames hrule
    have hdefines : Defines head := hform.self head tail rfl hhead
    refine Forms.keeps_convertMacro (fun name params definition _ => ?_) ?_
    · refine Forms.keeps_prepareMacro expands_faults (fun s hexpands => ?_) name params definition
      exact .inr ⟨head, hhead, hdefines, hexpands, rfl⟩
    · rintro written params definition rfl name
      have hparts : ∀ part ∈ params :: definition, part.DefinesOnly Defines :=
        fun part hpart => hform.child (List.mem_cons_of_mem _ (List.mem_cons_of_mem _ hpart))
      have hparts' := List.forall_mem_cons.1 hparts
      exact hwalk steps (Nat.le_refl steps) scope _ (definesOnly_boundForm hparts'.1 hparts'.2 name)

end Faults

/-! ## Where grammars come from -/

/-- A macro definition inside the form declares the grammar for the final name: the one that is
written, if it is final already, or its qualified form. -/
def Tree.DeclaresGrammar (context : Context) (form : Tree) (name : Text) (spec : Tree) : Prop :=
  ∃ head written params definition,
    form.HasPart (Tree.call head (.sym written :: params :: definition)) ∧
    head ∈ FormRule.macroNames ∧ Definition.declaredGrammar? definition = some spec ∧
    (name = written ∨ name = context.qualified written)

/-- Every grammar is one of the host or a declared one. -/
structure Session.Provided (context : Context) (host : Host) (Declared : Text → Tree → Prop)
    (s : Session) : Prop where
  context : s.context = context
  tables : ∀ name spec, s.tables.grammars.lookup name = some spec → Declared name spec
  host : ∀ name spec, s.host.grammars.lookup name = some spec →
    host.grammars.lookup name = some spec ∨ Declared name spec

/-- Grammars stay provided. Any fault may end the run. -/
def provided (context : Context) (host : Host) (Declared : Text → Tree → Prop) : Discipline where
  Steps _ s t := s.Provided context host Declared → t.Provided context host Declared
  Allows _ _ := True

section Provided

variable {context : Context} {host : Host} {Declared : Text → Tree → Prop}

instance : (provided context host Declared).Lawful where
  refl _ _ h := h
  trans h h' hs := h' (h hs)
  journal _ _ _ h := { h with }
  clear _ _ h := { h with }
  growFrame := by
    intro s names h
    unfold Session.growFrame
    split
    · exact h
    · exact { h with }
  popFrame h hs := { h { hs with } with }
  allows_popFrame _ := trivial
  allows_classify _ _ := trivial

/-- Names that are taken in bring no grammars with them. -/
theorem learns_provided : (provided context host Declared).Learns := by
  intro scope s addition h
  refine { h with tables := fun name spec hlookup => h.tables name spec ?_ }
  have hgrammars : (s.learn addition).tables.grammars = s.tables.grammars :=
    Addition.grammars_apply s.tables addition
  rwa [hgrammars] at hlookup

/-- An entry of a table that was set is the new one or an old one. -/
theorem of_lookup_setEntry {α : Type} {table : List (Text × α)} {name other : Text} {value found : α}
    (h : (setEntry table name value).lookup other = some found) :
    other = name ∧ found = value ∨ table.lookup other = some found := by
  by_cases hother : other = name
  · subst hother
    rw [lookup_setEntry_self] at h
    exact .inl ⟨rfl, (Option.some.inj h).symm⟩
  · rw [lookup_setEntry_ne table value hother] at h
    exact .inr h

/-- What is recorded about a macro adds its grammar, if one is declared. -/
theorem Session.Provided.recordMacro {s : Session} (h : s.Provided context host Declared) {name : Text}
    {definition : List Tree}
    (hdeclared : ∀ spec, Definition.declaredGrammar? definition = some spec →
      Declared (s.macroName name) spec) :
    (s.recordMacro name definition).Provided context host Declared := by
  have htake : (s.takeMacroName name).Provided context host Declared := by
    unfold Session.takeMacroName
    dsimp only
    split
    · exact { h with }
    · exact { h with }
  have hdeclare : ((s.takeMacroName name).declareIfGiven (s.macroName name)
      (Definition.declaredGrammar? definition)).Provided context host Declared := by
    cases hspec : Definition.declaredGrammar? definition with
    | none => exact htake
    | some spec =>
        have hnew := hdeclared spec hspec
        refine { htake with tables := fun other found hlookup => ?_, host := fun other found hlookup => ?_ }
        · rcases of_lookup_setEntry hlookup with ⟨rfl, rfl⟩ | hold
          · exact hnew
          · exact htake.tables other found hold
        · rcases of_lookup_setEntry hlookup with ⟨rfl, rfl⟩ | hold
          · exact .inr hnew
          · exact htake.host other found hold
  unfold Session.recordMacro Session.announce
  split
  · refine { hdeclare with host := fun other found hlookup => ?_ }
    -- the host is told the grammar that has just been declared
    unfold Host.addMacro at hlookup
    dsimp only at hlookup
    split at hlookup
    · exact hdeclare.host other found hlookup
    · exact hdeclare.host other found hlookup
    · next spec _ hspec =>
      rcases of_lookup_setEntry hlookup with ⟨rfl, rfl⟩ | hold
      · exact .inr (hdeclared _ hspec)
      · exact hdeclare.host other found hold
  · exact hdeclare

/-- Every macro definition inside the form declares given grammars only, under whichever final
name. -/
def Tree.DeclaresOnly (context : Context) (Declared : Text → Tree → Prop) (form : Tree) : Prop :=
  form.AllParts fun part => ∀ head written params definition spec,
    part = Tree.call head (.sym written :: params :: definition) → head ∈ FormRule.macroNames →
    Definition.declaredGrammar? definition = some spec →
    Declared written spec ∧ Declared (context.qualified written) spec

/-- The form that binds the name of a macro declares no grammar by itself. -/
theorem declaresOnly_boundForm {params : Tree} {definition : List Tree}
    (hparams : params.DeclaresOnly context Declared)
    (hdefinition : ∀ form ∈ definition, form.DeclaresOnly context Declared) (name : Text) :
    (Definition.boundForm (.sym name) params definition).DeclaresOnly context Declared := by
  have hheads : ∀ head ∈ Definition.boundHeads, head ∉ FormRule.macroNames := by decide
  refine Definition.allParts_boundForm ?_ hparams hdefinition ?_
  · intro symbol head written params definition spec heq
    cases heq
  · intro head hhead items other written params definition spec heq hother
    cases heq
    exact absurd hother (hheads head hhead)

/-- Whether or not the host expands a definition, what is recorded about it is provided. -/
theorem keeps_prepareMacro_provided {head name : Text} {params : Tree} {definition : List Tree}
    (hdeclared : ∀ spec, Definition.declaredGrammar? definition = some spec →
      Declared name spec ∧ Declared (context.qualified name) spec) (scope : Scope) :
    Keeps (provided context host Declared) scope
      (Forms.prepareMacro head name params definition) := by
  constructor
  intro s
  constructor
  · intro hs
    -- a grammar that the definition declares is kept under the name or the qualified name
    have hrecord : (s.recordMacro name definition).Provided context host Declared := by
      refine hs.recordMacro fun spec hspec => ?_
      unfold Session.macroName Session.qualified
      rw [hs.context]
      split
      · exact (hdeclared spec hspec).1
      · exact (hdeclared spec hspec).2
    rcases Forms.runFrom_prepareMacro head name params definition s with ⟨journal, hrun⟩
    rw [hrun]
    split
    · exact { hrecord with }
    · exact { hrecord with }
  · intro fault _
    trivial

/-- Only macro definitions declare grammars, and what they declare is given. -/
theorem admitsForms_provided :
    (provided context host Declared).AdmitsForms fun _ => Tree.DeclaresOnly context Declared where
  children := Tree.AllParts.child
  inner := Tree.AllParts.child
  learns _ _ hlearn _ scope := keeps_learned learns_provided hlearn scope _
  macros := by
    intro steps head tail hform hrule hwalk scope
    refine Forms.keeps_convertMacro ?_ ?_
    · rintro name params definition rfl
      exact keeps_prepareMacro_provided
        (fun spec => hform.self head name params definition spec rfl (FormRule.mem_macroNames hrule))
        scope
    · rintro written params definition rfl name
      have hparts : ∀ part ∈ params :: definition, part.DeclaresOnly context Declared :=
        fun part hpart => hform.child (List.mem_cons_of_mem _ (List.mem_cons_of_mem _ hpart))
      have hparts' := List.forall_mem_cons.1 hparts
      exact hwalk steps (Nat.le_refl steps) scope _ (declaresOnly_boundForm hparts'.1 hparts'.2 name)

end Provided

/-! ## Bodies -/

namespace Namespace

/-- A discipline that admits all forms of a body, and in which the passes may follow each other, is
kept by the two passes over the body. -/
theorem keeps_passes {D : Discipline} [D.Lawful] {Kind : Tree → Prop} (hD : D.AdmitsForms fun _ => Kind)
    (hpass : ∀ (s : Session) pass, D.Steps .form s { s with pass := pass }) {body : List Tree}
    (hbody : ∀ form ∈ body, Kind form) :
    Keeps D .form (discover body >>= fun _ => transform body) := by
  have hforms := keeps_mapM_convert hD hbody .form
  have hset : ∀ pass, Keeps D .form (modify fun s => { s with pass := pass }) :=
    fun pass => Keeps.modify fun s => hpass s pass
  unfold discover transform
  refine Keeps.bind (Keeps.bind (hset _) fun _ => ?_) fun _ => Keeps.bind (hset _) fun _ => hforms
  infer_instance

/-- The grammars that are known after the passes are those of the host and those that the body
declares. -/
theorem grammars_of_passes {context : Context} {host : Host} {journal : Journal} {body : List Tree}
    {outcome : Except Fault (List Tree)} {t : Session}
    (hrun : (discover body >>= fun _ => transform body).runFrom (.start context host journal) =
      (outcome, t)) {name : Text} {spec : Tree} (hfind : t.grammars.find? name = some spec) :
    host.grammars.lookup name = some spec ∨ ∃ form ∈ body, form.DeclaresGrammar context name spec := by
  have hbody : ∀ form ∈ body, form.DeclaresOnly context fun name spec =>
      ∃ form ∈ body, form.DeclaresGrammar context name spec := by
    intro form hform part hpart head written params definition spec heq hhead hspec
    rw [heq] at hpart
    have hdeclares : ∀ name, name = written ∨ name = context.qualified written →
        ∃ form ∈ body, form.DeclaresGrammar context name spec :=
      fun name hname => ⟨form, hform, head, written, params, definition, hpart, hhead, hspec, hname⟩
    exact ⟨hdeclares _ (.inl rfl), hdeclares _ (.inr rfl)⟩
  have hkeeps : Keeps (provided context host fun name spec =>
      ∃ form ∈ body, form.DeclaresGrammar context name spec) .form
      (discover body >>= fun _ => transform body) :=
    keeps_passes admitsForms_provided (fun _ _ h => { h with }) hbody
  have hstart : (Session.start context host journal).Provided context host fun name spec =>
      ∃ form ∈ body, form.DeclaresGrammar context name spec :=
    ⟨rfl, fun _ _ h => (nomatch h), fun _ _ h => .inl h⟩
  have ht := hkeeps.steps_of_run hrun hstart
  -- an absent grammar counts as none, and the grammars of the session stand first
  unfold Grammar.Grammars.find? at hfind
  split at hfind
  · cases hfind
  · unfold Session.grammars at hfind
    rw [List.lookup_append, Option.or_eq_some_iff] at hfind
    rcases hfind with htables | ⟨-, hhost⟩
    · exact .inr (ht.tables name spec htables)
    · exact ht.host name spec hhost

/-- The two passes succeed, unless grammars run in a circle at their end or the host does not expand
a head of macro definitions that stands in the body. -/
theorem outcome_of_passes {context : Context} {host : Host} {journal : Journal} {body : List Tree}
    {outcome : Except Fault (List Tree)} {t : Session}
    (hrun : (discover body >>= fun _ => transform body).runFrom (.start context host journal) =
      (outcome, t))
    (hchains : ¬Grammar.Circular t.grammars) :
    (∃ results, outcome = .ok results) ∨
      ∃ head ∈ FormRule.macroNames,
        (∃ form ∈ body, ∃ tail, form.HasPart (Tree.call head tail)) ∧
        host.expandsDefinition head = false ∧
        outcome = .error (.notExpandable (Tree.sym head).display) := by
  -- the forms of the body define macros by heads that stand in it, as every head in them does
  have hbody : ∀ form ∈ body, form.DefinesOnly fun head =>
      ∃ form ∈ body, ∃ tail, form.HasPart (Tree.call head tail) := by
    rintro form hform _ hpart head tail rfl _
    exact ⟨form, hform, tail, hpart⟩
  have hkeeps := keeps_passes admitsForms_faults (fun _ _ _ => rfl) hbody
  have hexpands := hkeeps.steps_of_run hrun
  cases outcome with
  | ok results => exact .inl ⟨results, rfl⟩
  | error fault =>
      rcases hkeeps.allows_of_run hrun with hcircular | ⟨head, hhead, hdefines, hhost, rfl⟩
      · exact absurd hcircular hchains
      · exact .inr ⟨head, hhead, hdefines, (hexpands head).symm.trans hhost, rfl⟩

/-- The only faults of a rewrite. Let the two passes run over any body, and let no chain of bare
names among the grammars that are known when they end run in a circle. Each of these grammars is one
of the host or is declared in the body. Then both passes succeed, or they end with the report that
nothing expands a head of macro definitions, where some list in the body begins with that head and
the host does not expand it. So they succeed if the host expands all three heads. -/
theorem discover_transform_faults {context : Context} {host : Host} {journal : Journal}
    {body : List Tree} {outcome : Except Fault (List Tree)} {t : Session}
    (hrun : (discover body >>= fun _ => transform body).runFrom (.start context host journal) =
      (outcome, t))
    (hchains : ¬Grammar.Circular t.grammars) :
    (∀ name spec, t.grammars.find? name = some spec → host.grammars.lookup name = some spec ∨
      ∃ form ∈ body, form.DeclaresGrammar context name spec) ∧
    ((∃ results, outcome = .ok results) ∨
      ∃ head ∈ FormRule.macroNames,
        (∃ form ∈ body, ∃ tail, form.HasPart (Tree.call head tail)) ∧
        host.expandsDefinition head = false ∧
        outcome = .error (.notExpandable (Tree.sym head).display)) ∧
    ((∀ head ∈ FormRule.macroNames, host.expandsDefinition head = true) →
      ∃ results, outcome = .ok results) := by
  have hfaults := outcome_of_passes hrun hchains
  refine ⟨fun _ _ => grammars_of_passes hrun, hfaults, fun hall => ?_⟩
  rcases hfaults with hok | ⟨head, hhead, -, hhost, -⟩
  · exact hok
  · rw [hall head hhead] at hhost
    cases hhost

/-- The definition of a macro that takes its arguments like a macro of the host. -/
def likeWhen : Tree :=
  .call "defmacro" [.sym "m", .list [.sym "x"],
    .call "declare" [.call "debug" [.sym "when"]], .sym "x"]

/-- A macro that names a grammar of the host is rewritten over the standard host. -/
theorem discover_transform_faults_likeWhen :
    ∃ results, ((discover [likeWhen] >>= fun _ => transform [likeWhen]).runFrom
      (.start (.unset "p-") .standard [])).1 = .ok results := by
  have hshort : Grammar.isShort ((discover [likeWhen] >>= fun _ => transform [likeWhen]).runFrom
      (.start (.unset "p-") .standard [])).2.grammars = true := by
    decide +kernel
  have hchains := Grammar.not_circular_of_isShort hshort
  exact (discover_transform_faults (Prod.eta _).symm hchains).2.2 (by decide)

/-! ## Circles that can be seen before the passes -/

/-- The grammar of the first name is the bare second name, be it a grammar of the host or one that the
body declares. -/
def SourceLeads (context : Context) (host : Host) (body : List Tree) (name next : Text) : Prop :=
  name ≠ "t" ∧ (host.grammars.lookup name = some (.sym next) ∨
    ∃ form ∈ body, form.DeclaresGrammar context name (.sym next))

/-- A circle among the grammars that are known in the end can be seen before the passes. -/
theorem exists_source_circle {context : Context} {host : Host} {journal : Journal} {body : List Tree}
    {outcome : Except Fault (List Tree)} {t : Session}
    (hrun : (discover body >>= fun _ => transform body).runFrom (.start context host journal) =
      (outcome, t))
    (hcircular : Grammar.Circular t.grammars) :
    ∃ name, Relation.TransGen (SourceLeads context host body) name name := by
  rcases hcircular with ⟨name, hcircle⟩
  have hsource : ∀ first next, Grammar.Leads t.grammars first next →
      SourceLeads context host body first next := by
    rintro first next ⟨hne, hfind⟩
    exact ⟨hne, grammars_of_passes hrun hfind⟩
  exact ⟨name, Relation.TransGen.mono hsource _ _ hcircle⟩

/-- Where no chain of bare names among the grammars of the host and those that the body declares runs
in a circle, the two passes succeed, or end with the report about a head of macro definitions that the
host does not expand. -/
theorem outcome_of_no_source_circle {context : Context} {host : Host} {body : List Tree}
    (hsources : ∀ name, ¬Relation.TransGen (SourceLeads context host body) name name)
    (journal : Journal) :
    (∃ results, ((discover body >>= fun _ => transform body).runFrom
        (.start context host journal)).1 = .ok results) ∨
      ∃ head ∈ FormRule.macroNames,
        (∃ form ∈ body, ∃ tail, form.HasPart (Tree.call head tail)) ∧
        host.expandsDefinition head = false ∧
        ((discover body >>= fun _ => transform body).runFrom (.start context host journal)).1 =
          .error (.notExpandable (Tree.sym head).display) := by
  refine outcome_of_passes (Prod.eta _).symm fun hcircular => ?_
  rcases exists_source_circle (Prod.eta _).symm hcircular with ⟨name, hname⟩
  exact hsources name hname

end Namespace

end LispNamespace
