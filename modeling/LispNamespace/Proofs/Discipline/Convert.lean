import LispNamespace.Proofs.DefinedNames
import LispNamespace.Proofs.Discipline.Rules

/-!
# Disciplines and conversions

The conversion of a form keeps to a discipline if the discipline allows what the definitions inside
the form do. Which definitions there are is said by a kind of forms that goes down to their parts.
-/

namespace LispNamespace

open Rewrite

/-! ## One rule -/

section Rules

variable {D : Discipline} [D.Lawful] {scope : Scope} (walk : Walk) [KeepsWalk D walk]

namespace Forms

/-- An alias registers the name that it quotes, if it quotes one. -/
theorem keeps_convertAliasWith {learn : Register} (head : Text) {tail : List Tree}
    (h : ∀ name, (tail.head?.bind Tree.quoted?).bind Tree.symbol? = some name →
      Keeps D scope (register (learn name))) :
    Keeps D scope (convertAliasWith learn walk head tail) := by
  unfold convertAliasWith
  split
  · infer_instance
  · next name rest =>
    have : Keeps D scope (convertQuotedName walk learn name) := by
      refine keeps_convertQuotedName walk fun text htext => h text ?_
      rw [List.head?_cons, Option.bind_some, htext]
      rfl
    infer_instance

/-- A definition whose name stands in front registers that name. -/
theorem keeps_definedName {rule : FormRule} {learn : Register} {name : Tree} {rest : List Tree}
    (hlearn : rule.learned? = some learn) (hname : rule.definedName? (name :: rest) = name.symbol?)
    (hlearns : ∀ learn text, rule.learned? = some learn →
      rule.definedName? (name :: rest) = some text → Keeps D scope (register (learn text))) :
    Keeps D scope (convertDefinedName learn name) := by
  refine keeps_convertDefinedName fun text htext => hlearns learn text hlearn ?_
  rw [hname, htext]
  rfl

end Forms

open Forms

/-- A rule for other forms than macro definitions keeps to the discipline if it may register the
name that it defines. -/
theorem keeps_convertRule {rule : FormRule} (hrule : rule ≠ .macroDefinition) (head : Text)
    {tail : List Tree}
    (hlearns : ∀ learn name, rule.learned? = some learn → rule.definedName? tail = some name →
      Keeps D scope (register (learn name))) :
    Keeps D scope (rule.convert walk head tail) := by
  cases rule with
  | variable_ =>
      simp only [FormRule.convert]
      unfold convertVariable
      split
      · infer_instance
      · have := keeps_definedName rfl rfl hlearns
        infer_instance
  | function =>
      simp only [FormRule.convert]
      unfold convertFunction
      split
      · infer_instance
      · have := keeps_definedName rfl rfl hlearns
        refine Keeps.bind this fun name => ?_
        split <;> infer_instance
  | «alias» => exact keeps_convertAliasWith walk head fun name => hlearns _ name rfl
  | variableAlias => exact keeps_convertAliasWith walk head fun name => hlearns _ name rfl
  | minorMode =>
      simp only [FormRule.convert]
      unfold convertMinorMode
      split
      · infer_instance
      · have := keeps_definedName rfl rfl hlearns
        infer_instance
  | derivedMode =>
      simp only [FormRule.convert]
      unfold convertDerivedMode
      split
      · infer_instance
      · have := keeps_definedName rfl rfl hlearns
        refine Keeps.bind this fun name => ?_
        split <;> infer_instance
  | globalizedMode =>
      simp only [FormRule.convert]
      unfold convertGlobalizedMode
      split
      · infer_instance
      · have := keeps_definedName rfl rfl hlearns
        infer_instance
  | macroDefinition => exact absurd rfl hrule
  | _ =>
      simp only [FormRule.convert]
      infer_instance

end Rules

/-! ## Names that are taken in -/

/-- The discipline allows that names are taken in. -/
def Discipline.Learns (D : Discipline) : Prop :=
  ∀ scope (s : Session) addition, D.Steps scope s (s.learn addition)

/-- To register a name is to take in one name after the other. -/
theorem keeps_register {D : Discipline} [hlawful : D.Lawful] (hD : D.Learns) (learn : Forms.Register)
    [Forms.Registers learn] (scope : Scope) (name : Text) :
    Keeps D scope (register (learn name)) := by
  refine Keeps.modify fun s => ?_
  rcases Forms.Registers.tables_eq learn name with ⟨additions, -, heq⟩
  rw [heq]
  clear heq
  induction additions generalizing s with
  | nil => exact hlawful.refl scope s
  | cons addition rest ih => exact hlawful.trans (hD scope s addition) (ih (s.learn addition))

/-- What a rule learns from a name may be registered. -/
theorem keeps_learned {D : Discipline} [D.Lawful] (hD : D.Learns) {rule : FormRule}
    {learn : Forms.Register} (hlearn : rule.learned? = some learn) (scope : Scope) (name : Text) :
    Keeps D scope (register (learn name)) := by
  have hregisters := FormRule.registers_of_learned? hlearn
  exact keeps_register hD learn scope name

/-! ## Forms inside forms -/

/-- What a discipline allows of a kind of forms that goes down to their parts: they may register the
names that they define, and define macros. Of which kind a form has to be may depend on the number of
steps that are left for its conversion. -/
structure Discipline.AdmitsForms (D : Discipline) (Kind : Nat → Tree → Prop) : Prop where
  children : ∀ {steps t child}, Kind steps t → child ∈ t.children → Kind steps child
  inner : ∀ {steps t child}, Kind (steps + 1) t → child ∈ t.children → Kind steps child
  learns : ∀ {steps head tail rule learn name}, Kind steps (Tree.call head tail) →
    FormRule.ofHead? head = some rule → rule.learned? = some learn →
    rule.definedName? tail = some name → ∀ scope, Keeps D scope (register (learn name))
  /-- Forms are converted within fewer steps than the macro definition. -/
  macros : ∀ {steps head tail}, Kind (steps + 1) (Tree.call head tail) →
    FormRule.ofHead? head = some .macroDefinition →
    (∀ n ≤ steps, ∀ scope form, Kind n form → Keeps D scope (convertWithin n form)) →
    ∀ scope, Keeps D scope (Forms.convertMacro (convertWithin steps) head tail)

/-- Where no macro is defined, it is enough that names may be taken in. -/
theorem Discipline.Learns.admitsForms {D : Discipline} [D.Lawful] (hD : D.Learns) :
    D.AdmitsForms fun _ form => form.everywhere Tree.definesNoMacro = true where
  children := Tree.everywhere_children
  inner := Tree.everywhere_children
  learns _ _ hlearn _ scope := keeps_learned hD hlearn scope _
  macros hform hrule :=
    absurd hrule (Tree.ofHead?_ne_macroDefinition (Tree.test_of_everywhere hform))

section Nodes

variable {D : Discipline} [D.Lawful]

open Classical in
/-- The walk on forms of the kind; all other forms are left alone. -/
noncomputable def Walk.within (Kind : Tree → Prop) (walk : Walk) : Walk := fun form =>
  if Kind form then walk form else pure form

theorem Walk.agreeOn_within {Kind : Tree → Prop}
    (hchildren : ∀ {t child : Tree}, Kind t → child ∈ t.children → Kind child) (walk : Walk) :
    Walk.AgreeOn Kind walk (walk.within Kind) where
  children := hchildren
  eq hform := (if_pos hform).symm

/-- A walk that keeps to the discipline on the forms of a kind keeps to it everywhere once it leaves
the other forms alone. -/
theorem keepsWalk_within {Kind : Tree → Prop} {walk : Walk}
    (hwalk : ∀ scope form, Kind form → Keeps D scope (walk form)) :
    KeepsWalk D (walk.within Kind) := by
  intro scope form
  unfold Walk.within
  split
  · next hform => exact hwalk scope form hform
  · infer_instance

section Heads

variable {Kind : Nat → Tree → Prop} (hD : D.AdmitsForms Kind) {steps : Nat}
  (hwalk : ∀ n ≤ steps, ∀ scope form, Kind n form → Keeps D scope (convertWithin n form))

include hD hwalk

/-- A form that begins with a symbol keeps to the discipline if its parts do. -/
theorem keeps_convertNamed {name : Text} {tail : List Tree}
    (hform : Kind (steps + 1) (Tree.call name tail)) (scope : Scope) :
    Keeps D scope (convertHeaded (convertWithin steps) (.sym name) tail) := by
  have htail : ∀ t ∈ tail, Kind steps t := fun t ht => hD.inner hform (List.mem_cons_of_mem _ ht)
  have hagree : Walk.AgreeOn (Kind steps) (convertWithin steps) _ :=
    Walk.agreeOn_within hD.children (convertWithin steps)
  have hwithin : KeepsWalk D ((convertWithin steps).within (Kind steps)) :=
    keepsWalk_within (hwalk steps (Nat.le_refl steps))
  have hcall : ∀ head written isOwn,
      Keeps D scope (Forms.convertCall (convertWithin steps) head written isOwn tail) := by
    intro head written isOwn
    rw [hagree.convertCall head written isOwn htail]
    infer_instance
  unfold convertHeaded
  refine Keeps.bind inferInstance fun s => ?_
  dsimp only
  split
  · exact hcall _ _ _
  · split
    · exact hcall _ _ _
    · split
      · next rule hrule =>
        refine Keeps.bind inferInstance fun _ => ?_
        -- only the rule for macro definitions walks a form that is no part of this one
        by_cases hkind : rule = .macroDefinition
        · rw [hkind] at hrule ⊢
          exact hD.macros hform hrule hwalk scope
        · rw [hagree.convertRule hkind name htail]
          exact keeps_convertRule _ hkind name fun learn text hlearn htext =>
            hD.learns hform hrule hlearn htext scope
      · exact hcall _ _ _

/-- So does a form with any head: a call of a lambda expression and a list of forms are converted
through their parts. -/
theorem keeps_convertHeaded {head : Tree} {tail : List Tree}
    (hform : Kind (steps + 1) (.list (head :: tail))) (scope : Scope) :
    Keeps D scope (convertHeaded (convertWithin steps) head tail) := by
  have hitems : ∀ t ∈ head :: tail, Kind steps t := fun t ht => hD.inner hform ht
  have hagree : Walk.AgreeOn (Kind steps) (convertWithin steps) _ :=
    Walk.agreeOn_within hD.children (convertWithin steps)
  have hwithin : KeepsWalk D ((convertWithin steps).within (Kind steps)) :=
    keepsWalk_within (hwalk steps (Nat.le_refl steps))
  cases head with
  | sym name => exact keeps_convertNamed hD hwalk hform scope
  | list _ | vec _ | dot _ _ =>
      unfold convertHeaded
      refine Keeps.bind inferInstance fun s => ?_
      dsimp only
      split
      · next parts hparts =>
        have hlambda : ∀ t ∈ parts, Kind steps t := fun t ht =>
          hD.children (hitems _ (List.mem_cons_self ..)) (Tree.children_of_tailOf? hparts t ht)
        rw [hagree.convertLambda "lambda" hlambda, hagree.mapM (List.forall_mem_cons.1 hitems).2]
        infer_instance
      · rw [hagree.mapM hitems]
        infer_instance
  | _ =>
      unfold convertHeaded
      infer_instance

end Heads

variable {Kind : Nat → Tree → Prop}

/-- Whatever the nesting of steps, the conversion of a form keeps to a discipline that admits the
form. -/
theorem keeps_convertWithin (hD : D.AdmitsForms Kind) (steps : Nat) {form : Tree}
    (hform : Kind steps form) (scope : Scope) : Keeps D scope (convertWithin steps form) := by
  induction steps using Nat.strongRecOn generalizing form scope with
  | _ steps ih =>
  cases steps with
  | zero =>
      unfold convertWithin
      infer_instance
  | succ steps =>
      have hwalk : ∀ n ≤ steps, ∀ scope form, Kind n form → Keeps D scope (convertWithin n form) :=
        fun n hn scope form hform => ih n (Nat.lt_succ_of_le hn) hform scope
      unfold convertWithin convertNode
      split
      · infer_instance
      · exact keeps_convertHeaded hD hwalk hform scope
      · infer_instance

/-- As many steps as the form weighs are enough for its conversion. -/
theorem keeps_convert (hD : D.AdmitsForms Kind) {form : Tree} (hform : Kind (weight form) form)
    (scope : Scope) : Keeps D scope (convert form) :=
  keeps_convertWithin hD (weight form) hform scope

/-- The forms of a body are converted within the discipline. -/
theorem keeps_mapM_convert (hD : D.AdmitsForms Kind) {body : List Tree}
    (hbody : ∀ form ∈ body, Kind (weight form) form) (scope : Scope) :
    Keeps D scope (body.mapM convert) := by
  have hwithin : KeepsWalk D (Walk.within (fun form => Kind (weight form) form) convert) :=
    keepsWalk_within fun scope form hform => keeps_convert hD hform scope
  have hagree : ∀ form ∈ body,
      convert form = Walk.within (fun form => Kind (weight form) form) convert form :=
    fun form hform => (if_pos (hbody form hform)).symm
  rw [mapM_congr hagree]
  infer_instance

end Nodes

/-! ## Macro definitions -/

/-- What a discipline allows about macros that are defined. -/
structure Discipline.Expands (D : Discipline) : Prop where
  addMacro : ∀ scope (s : Session) name,
    D.Steps scope s { s with tables := s.tables.addMacro name }
  declareGrammar : ∀ scope (s : Session) name spec, D.Steps scope s (s.declareGrammar name spec)
  announce : ∀ scope (s : Session) name spec, s.pass = .rewriting →
    s.host.isMacroName name = false →
    D.Steps scope s { s with host := s.host.addMacro name false spec }
  final : ∀ scope (s : Session), D.Steps scope s { s with nameIsFinal := true }

section Macros

variable {D : Discipline} [hlawful : D.Lawful] {scope : Scope}

namespace Forms

/-- The name of a macro is taken in, unless it is final or protected. -/
theorem keeps_convertMacroName (hD : D.Expands) (name : Text) :
    Keeps D scope (convertMacroName name) := by
  have : Keeps D scope (register (·.addMacro name)) :=
    Keeps.modify fun s => hD.addMacro scope s name
  unfold convertMacroName
  infer_instance

theorem keeps_declareMacroGrammar (hD : D.Expands) (name : Text) (spec : Option Tree) :
    Keeps D scope (declareMacroGrammar name spec) := by
  unfold declareMacroGrammar
  split
  · infer_instance
  · next spec =>
    have := Keeps.modify fun s => hD.declareGrammar scope s name spec
    infer_instance

/-- The host is told in the rewriting pass only, and only of a macro that is new to it. -/
theorem keeps_announceMacro (hD : D.Expands) (name : Text) (spec : Option Tree) :
    Keeps D scope (announceMacro name spec) := by
  constructor
  intro s
  have hrun : (announceMacro name spec).runFrom s = (.ok (),
      if s.pass = .rewriting ∧ !s.host.isMacroName name then
        { s with host := s.host.addMacro name false spec } else s) := by
    unfold announceMacro
    rw [runFrom_bind, runFrom_get]
    dsimp only
    split <;> rfl
  constructor
  · rw [hrun]
    split
    · next hnew => exact hD.announce scope s name spec hnew.1 (by simpa using hnew.2)
    · exact hlawful.refl scope s
  · intro fault hfault
    rw [hrun] at hfault
    cases hfault

/-- The fault of an expansion is that nothing expands the head. -/
theorem keeps_expandDefinition {head : Text} {name params : Tree} {definition : List Tree}
    (hfault : ∀ s : Session, s.host.expandsDefinition head = false →
      D.Allows s (.notExpandable (Tree.sym head).display)) :
    Keeps D scope (expandDefinition (Tree.call head (name :: params :: definition))) := by
  unfold expandDefinition
  refine Keeps.read fun s => ?_
  split
  · next fault hexpand =>
    rcases Definition.of_expandOrFail_error hexpand with ⟨hexpands, rfl⟩
    exact KeepsFrom.throw (hfault s hexpands)
  · next expansion notes _ =>
    have hjournal := Keeps.modify fun t : Session =>
      hlawful.journal scope t
        (notes.reverse.map (.note .debug) ++ t.journal)
    exact (Keeps.bind hjournal inferInstance).keepsFrom s

/-- To record a macro is all that a definition does before the form that binds its name. -/
theorem keeps_prepareMacro (hD : D.Expands) {head : Text}
    (hfault : ∀ s : Session, s.host.expandsDefinition head = false →
      D.Allows s (.notExpandable (Tree.sym head).display))
    (name : Text) (params : Tree) (definition : List Tree) :
    Keeps D scope (prepareMacro head name params definition) := by
  have hfinal := Keeps.modify fun s => hD.final scope s
  unfold prepareMacro
  refine Keeps.bind (keeps_convertMacroName hD name) fun final => ?_
  refine Keeps.bind (keeps_declareMacroGrammar hD final _) fun _ => ?_
  refine Keeps.bind (keeps_announceMacro hD final _) fun _ => ?_
  exact Keeps.bind (keeps_expandDefinition hfault) inferInstance

end Forms

/-- The rule for macro definitions keeps to the discipline if what is recorded about the macro does,
and the conversion of the form that binds its name. -/
theorem Forms.keeps_convertMacro {walk : Walk} {head : Text} {tail : List Tree}
    (hprepare : ∀ name params definition, tail = .sym name :: params :: definition →
      Keeps D scope (prepareMacro head name params definition))
    (hbound : ∀ written params definition, tail = .sym written :: params :: definition →
      ∀ name : Text, Keeps D scope (walk (Definition.boundForm (.sym name) params definition))) :
    Keeps D scope (convertMacro walk head tail) := by
  by_cases hshape : ∃ name params definition, tail = .sym name :: params :: definition
  · rcases hshape with ⟨name, params, definition, rfl⟩
    rw [convertMacro_eq]
    refine Keeps.bind (hprepare name params definition rfl) fun final => ?_
    exact Keeps.bind (hbound name params definition rfl final) inferInstance
  · rw [convertMacro_shapeless walk head hshape]
    infer_instance

end Macros

end LispNamespace
