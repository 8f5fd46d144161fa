import LispNamespace.Proofs.Written.Rules

/-!
# Conversions carry names to the output

A definition is converted again in the second pass, as long as it stands in no form whose treatment
has changed since the first one.
-/

namespace LispNamespace

open Rewrite

/-! ## Forms that hide a definition -/

/-- Somewhere in the tree, the name is introduced. -/
def Tree.Brings (addition : Addition) (t : Tree) : Prop :=
  ∃ part, t.HasPart part ∧ part.Introduces addition

/-- The root of the tree is a form that brings the name and whose treatment may change in the run: the
head of the form shifts, or the form defines a macro and a head in the expander of the macro does. -/
def Tree.Obscures (host : Host) (last : Session) (addition : Addition) (t : Tree) : Prop :=
  ∃ head tail, t = Tree.call head tail ∧
    (last.shifts host head = true ∧ t.Brings addition ∨
      head ∈ FormRule.macroNames ∧
        (∃ inner ∈ Definition.expanderHeads, last.shifts host inner = true) ∧
        ∃ item ∈ tail, item.Brings addition)

/-- The form can be converted in the given number of steps, and nothing in it hides the name. -/
structure Tree.Clear (host : Host) (last : Session) (addition : Addition) (steps : Nat) (t : Tree) :
    Prop where
  permits : t.PermitsWithin last (fun _ => False) steps
  shows : t.AllParts fun part => ¬part.Obscures host last addition

section Clear

variable {host : Host} {last : Session} {addition : Addition} {steps : Nat}

theorem Tree.Brings.of_child {t child : Tree} (h : child.Brings addition) (hchild : child ∈ t.children) :
    t.Brings addition := by
  rcases h with ⟨part, hpart, hintroduces⟩
  exact ⟨part, hpart.of_child hchild, hintroduces⟩

/-- A form brings the name that hides it. -/
theorem Tree.Obscures.brings {t : Tree} (h : t.Obscures host last addition) : t.Brings addition := by
  rcases h with ⟨head, tail, rfl, ⟨-, hbrings⟩ | ⟨-, -, item, hitem, hbrings⟩⟩
  · exact hbrings
  · exact hbrings.of_child (List.mem_cons_of_mem _ hitem)

theorem Tree.Clear.child {t child : Tree} (h : t.Clear host last addition steps)
    (hchild : child ∈ t.children) : child.Clear host last addition steps :=
  ⟨⟨Nat.le_trans (Nat.le_of_lt (weight_lt_of_mem_children hchild)) h.permits.1,
    h.permits.2.child hchild⟩, h.shows.child hchild⟩

theorem Tree.Clear.inner {t child : Tree} (h : t.Clear host last addition (steps + 1))
    (hchild : child ∈ t.children) : child.Clear host last addition steps :=
  ⟨⟨Nat.le_of_lt_succ (Nat.lt_of_lt_of_le (weight_lt_of_mem_children hchild) h.permits.1),
    h.permits.2.child hchild⟩, h.shows.child hchild⟩

/-- Where no part of the definition brings the name, its expander does not. -/
theorem Definition.not_brings_expander {params : Tree} {definition : List Tree}
    (h : ∀ item ∈ params :: definition, ¬item.Brings addition) :
    (expander params definition).AllParts fun part => ¬part.Introduces addition := by
  have hitems : ∀ item ∈ params :: definition, item.AllParts fun part => ¬part.Introduces addition :=
    fun item hitem part hpart hintroduces => h item hitem ⟨part, hpart, hintroduces⟩
  rcases List.forall_mem_cons.1 hitems with ⟨hparams, hdefinition⟩
  exact allParts_expander (Tree.not_introduces_sym · addition) hparams hdefinition
    (Tree.not_introduces_call (List.mem_cons_self ..) _ addition)
    fun head hhead items => Tree.not_introduces_call (List.mem_cons_of_mem _ hhead) items addition

/-- The expander of a macro hides no name that its definition does not hide. -/
theorem Tree.Clear.expander {head name : Text} {params : Tree} {definition : List Tree}
    (h : (Tree.call head (.sym name :: params :: definition)).Clear host last addition (steps + 2))
    (hrule : FormRule.ofHead? head = some .macroDefinition) :
    (Definition.expander params definition).Clear host last addition steps := by
  have hroom : weight (Definition.expander params definition) + 6 ≤ steps + 2 :=
    Nat.le_trans (weight_expander hrule) h.permits.1
  refine ⟨⟨by omega, permits_expander_of_call h.permits.2⟩, ?_⟩
  by_cases hbrings : ∃ item ∈ params :: definition, item.Brings addition
  -- the heads in the expander do not shift
  · have hsteady : ∀ inner ∈ Definition.expanderHeads, last.shifts host inner = false := by
      intro inner hinner
      rw [Bool.eq_false_iff]
      intro hshifts
      rcases hbrings with ⟨item, hitem, hbrings⟩
      exact h.shows.self ⟨head, _, rfl, .inr ⟨FormRule.mem_macroNames hrule, ⟨inner, hinner, hshifts⟩,
        item, List.mem_cons_of_mem _ hitem, hbrings⟩⟩
    have hparts : ∀ part ∈ params :: definition,
        part.AllParts fun part => ¬part.Obscures host last addition :=
      fun part hpart => h.shows.child (List.mem_cons_of_mem _ (List.mem_cons_of_mem _ hpart))
    rcases List.forall_mem_cons.1 hparts with ⟨hparams, hdefinition⟩
    refine Definition.allParts_expander ?_ hparams hdefinition ?_ ?_
    · rintro symbol ⟨head, tail, heq, -⟩
      cases heq
    · intro hobscures
      rcases hobscures.brings with ⟨part, hpart, hintroduces⟩
      have hquote : (Tree.quote (.sym "macro")).AllParts fun part => ¬part.Introduces addition :=
        Definition.allParts_quoteSym (Tree.not_introduces_sym · addition)
          (Tree.not_introduces_call (List.mem_cons_self ..) _ addition)
      exact hquote part hpart hintroduces
    · rintro inner hinner items ⟨other, tail, heq, ⟨hshifts, -⟩ | ⟨hkind, -⟩⟩
      · cases heq
        rw [hsteady inner hinner] at hshifts
        cases hshifts
      · cases heq
        exact Definition.not_mem_macroNames (List.mem_cons_of_mem _ hinner) hkind
  · have hnone := Definition.not_brings_expander fun item hitem hitem' => hbrings ⟨item, hitem, hitem'⟩
    intro part hpart hobscures
    rcases hobscures.brings with ⟨inner, hinner, hintroduces⟩
    exact hnone inner (hpart.trans hinner) hintroduces

end Clear

/-! ## One form -/

section Heads

variable {host : Host} {last : Session} {addition : Addition} {walk : Walk}
  [KeepsWalk (rooting host last fun _ => False) walk] (hwalk : CarriesWalk host last addition walk)
  (hhost : ∀ name spec, host.grammars.lookup name = some spec →
    Grammar.isSelfContained spec = true)
  (hglobal : last.context.options.globalLookup = false)

include hwalk

/-- A form whose head is no symbol carries what the forms in it carry. -/
theorem carries_convertCompound {head : Tree} (hhead : ∀ name, head ≠ .sym name) (tail : List Tree) :
    CarriesForm host last addition (convertHeaded walk head tail) (convertHeaded walk head tail) := by
  cases head with
  | sym name => exact absurd rfl (hhead name)
  | list _ | vec _ | dot _ _ =>
      unfold convertHeaded
      refine .read fun s t _ _ => ?_
      dsimp only
      split
      · next parts _ =>
        refine (Forms.carries_convertLambda hwalk "lambda" parts).bind fun a b => ?_
        refine (Carries.forms hwalk).bind fun as bs => .pure fun h => ?_
        exact Tree.shows_list (by simpa using h)
      · refine .skip fun _ _ => (Carries.forms hwalk).bind fun as bs => .pure fun h => ?_
        exact Tree.shows_list (by simpa using h)
  | _ =>
      unfold convertHeaded
      exact .silent

include hhost hglobal

/-- A form with a steady head is approached alike whenever it is met. -/
theorem carries_convertSteady {name : Text} (hsteady : last.Steady host name)
    (hkind : (Session.fresh last.context host).approach name ≠ .rule .macroDefinition)
    (tail : List Tree) :
    CarriesForm host last addition (convertHeaded walk (.sym name) tail)
      (convertHeaded walk (.sym name) tail) := by
  intro s t s' t' a b hrun hrun' hs ht hs' ht' hshown
  rw [runFrom_convertHeaded, hsteady.approach_eq hs.rooted hs.bounded hglobal] at hrun
  rw [runFrom_convertHeaded, hsteady.approach_eq ht.rooted ht.bounded hglobal] at hrun'
  -- a rule or the treatment of a call, and the same one in both runs
  cases happroach : (Session.fresh last.context host).approach name with
  | rule rule =>
      rw [happroach] at hrun hrun'
      have hne : rule ≠ .macroDefinition := by
        rintro rfl
        exact hkind happroach
      have hplain := Session.isEscaped_of_approach happroach
      have hconvert := Forms.carries_convertRule hwalk hne (Session.ofHead?_of_approach happroach)
        (Forms.carries_convertShapeless hwalk hhost hsteady hplain tail)
      have hroots : Roots host last (rule.convert walk name tail) :=
        Forms.roots_convertRule walk hne name tail
      exact Carries.skip (fun _ _ => hconvert) hrun hrun' hs ht hs' ht' hshown
  | call treatment =>
      rw [happroach] at hrun hrun'
      have hspec : ∀ spec, treatment = .byGrammar spec → Grammar.isSelfContained spec = true := by
        rintro spec rfl
        exact isSelfContained_of_approach hhost happroach
      exact Carries.call (Forms.carries_convertTreated hwalk _ _ hspec tail) hrun hrun' hs ht hs' ht'
        hshown

end Heads

/-! ## Macro definitions -/

/-- The bound name is a part of what a macro definition is rewritten to, whatever is declared with
it. -/
theorem Definition.hasPart_withDeclared (name : Tree) (definition : List Tree) (bound : Tree) :
    (withDeclared name definition bound).HasPart bound := by
  unfold withDeclared
  dsimp only
  split
  · exact Tree.hasPart_self bound
  · exact .of_child (List.mem_cons_of_mem _ (List.mem_cons_self ..)) (Tree.hasPart_self bound)

section Macros

variable {host : Host} {last : Session} {addition : Addition}
  (hglobal : last.context.options.globalLookup = false)

include hglobal

/-- A macro definition that is converted within a run is written as a definition of the qualified name
by the converted expander. -/
theorem Session.Within.of_runFrom_convertMacro {s s' : Session} (hs : s.Within host last)
    (hbinds : last.BindsMacros) {steps : Nat} {head name : Text} {params result : Tree}
    {definition : List Tree}
    (hrun : (Forms.convertMacro (convertWithin (steps + 1)) head
      (.sym name :: params :: definition)).runFrom s = (.ok result, s')) (hs' : last.Bounded s') :
    ∃ journal bound,
      (convertWithin steps (Definition.expander params definition)).runFrom
        { s.recordMacro name definition with journal := journal } = (.ok bound, s') ∧
      ({ s.recordMacro name definition with journal := journal } : Session).Within host last ∧
      result.HasPart (Tree.call "defalias" [Tree.quote (.sym (s.qualified name)), bound]) := by
  have hname : s.macroName name = s.qualified name := by
    unfold Session.macroName
    rw [hs.rooted.nameIsFinal]
    rfl
  rcases Forms.of_runFrom_convertMacro hbinds hglobal hrun hs' with
    ⟨journal, ⟨fault, hfault, -⟩ | ⟨inner | bound, hinner, hresult⟩⟩
  · cases hfault
  · cases hresult
  · cases hresult
    have hbounded := (Growing.of_run hinner).bounded hs'
    refine ⟨journal, bound, hinner, ⟨{ hs.rooted.recordMacro name definition with }, hbounded⟩, ?_⟩
    rw [← hname]
    exact Definition.hasPart_withDeclared _ _ _

/-- A macro definition carries the name of the macro and what its expander carries. -/
theorem carries_convertMacro {steps : Nat} {head : Text} {tail : List Tree}
    (hclear : (Tree.call head tail).Clear host last addition (steps + 1))
    (hrule : FormRule.ofHead? head = some .macroDefinition)
    (hwalk : ∀ n ≤ steps, ∀ form : Tree, form.Clear host last addition n →
      CarriesForm host last addition (convertWithin n form) (convertWithin n form)) :
    CarriesForm host last addition (Forms.convertMacro (convertWithin steps) head tail)
      (Forms.convertMacro (convertWithin steps) head tail) := by
  by_cases hshape : ∃ name params definition, tail = .sym name :: params :: definition
  · rcases hshape with ⟨name, params, definition, rfl⟩
    have hroom : weight (Definition.expander params definition) + 6 ≤ steps + 1 :=
      Nat.le_trans (weight_expander hrule) hclear.permits.1
    obtain ⟨steps, rfl⟩ : ∃ n, steps = n + 1 := ⟨steps - 1, by omega⟩
    have hexpander := hwalk steps (Nat.le_succ steps) _ (hclear.expander hrule)
    intro s t s' t' a b hrun hrun' hs ht hs' ht' hshown
    have hrecorded := (Forms.growsTo_of_runFrom_convertMacro hrun).bounded hs'
    -- the name is among the macros in the end, so the form that binds it is rewritten by its rule
    have hbinds := hclear.permits.2.self.binds (Session.definesMacro_of_recordMacro
      hs.rooted.nameIsFinal hrecorded (FormRule.mem_macroNames hrule))
    rcases hs.of_runFrom_convertMacro hglobal hbinds hrun hs' with
      ⟨journal, bound, hinner, hrecord, -⟩
    rcases ht.of_runFrom_convertMacro hglobal hbinds hrun' ht' with
      ⟨journal', bound', hinner', hrecord', hpart⟩
    rcases hshown with hnone | ⟨hnew, hold⟩
    · exact hnone.elim
    -- the name is that of the macro, or it is taken in while the expander is converted
    by_cases hheld : (s.recordMacro name definition).tables.Holds addition
    · rcases Session.holds_recordMacro hheld with hheld | ⟨rfl, -, hplain⟩
      · exact absurd hheld hold
      · rw [hs.isEscaped_eq] at hplain
        rw [ht.qualified_eq hplain] at hpart
        have hbinding : FormRule.ofHead? "defalias" = some .alias := by decide
        exact ⟨_, hpart, "defalias", _, .alias, _, _, rfl, hbinding, rfl, rfl,
          List.mem_singleton_self _⟩
    · rcases hexpander hinner hinner' hrecord hrecord' hs' ht' (.inr ⟨hnew, hheld⟩) with
        ⟨part, hinside, hdefines⟩
      refine ⟨part, hpart.trans (.of_child ?_ hinside), hdefines⟩
      exact List.mem_cons_of_mem _ (List.mem_cons_of_mem _ (List.mem_singleton_self _))
  · rw [Forms.convertMacro_shapeless _ head hshape]
    exact .pure False.elim

end Macros

/-! ## Forms inside forms -/

section Forms

variable {host : Host} {last : Session} {addition : Addition}
  (hhost : ∀ name spec, host.grammars.lookup name = some spec →
    Grammar.isSelfContained spec = true)
  (hglobal : last.context.options.globalLookup = false)

include hglobal

omit hglobal in
/-- A walk that stops at forms of other kinds carries names if it does on forms of the kind. -/
theorem carriesWalk_within {Kind : Tree → Prop} {walk : Walk}
    (h : ∀ form, Kind form → CarriesForm host last addition (walk form) (walk form)) :
    CarriesWalk host last addition (walk.within Kind) := by
  intro form
  unfold Walk.within
  split
  · next hform => exact h form hform
  · exact .pure False.elim

/-- On clear forms, the walk stays in the run. -/
theorem keepsWalk_clear (host : Host) (addition : Addition) (steps : Nat) :
    KeepsWalk (rooting host last fun _ => False)
      ((convertWithin steps).within (Tree.Clear host last addition steps)) :=
  keepsWalk_within fun scope _ hclear =>
    keeps_convertWithin (admitsForms_rooting hglobal) steps hclear.permits scope

/-- A form whose treatment may change does not take in a name that it does not hide. -/
theorem Tree.Clear.silent {steps : Nat} {head : Text} {tail : List Tree}
    (hclear : (Tree.call head tail).Clear host last addition steps)
    (hshifts : last.shifts host head = true) :
    Silent host last addition (convertWithin steps (Tree.call head tail)) := by
  have hnone : (Tree.call head tail).AllParts fun part => ¬part.Introduces addition :=
    fun part hpart hintroduces =>
      hclear.shows.self ⟨head, tail, rfl, .inl ⟨hshifts, part, hpart, hintroduces⟩⟩
  refine keeps_convertWithin (admitsForms_rooting hglobal) steps ⟨hclear.permits.1, ?_⟩ .frame
  intro part hpart
  refine ⟨?_, (hclear.permits.2 part hpart).binds⟩
  rintro other rfl
  exact hnone part hpart

include hhost

/-- A form that begins with a symbol carries the name if its parts do. -/
theorem carries_convertNamed {steps : Nat} {name : Text} {tail : List Tree}
    (hclear : (Tree.call name tail).Clear host last addition (steps + 1))
    (hwalk : ∀ n ≤ steps, ∀ form : Tree, form.Clear host last addition n →
      CarriesForm host last addition (convertWithin n form) (convertWithin n form)) :
    CarriesForm host last addition (convertHeaded (convertWithin steps) (.sym name) tail)
      (convertHeaded (convertWithin steps) (.sym name) tail) := by
  by_cases hshifts : last.shifts host name = true
  · have hsilent : Silent host last addition (convertHeaded (convertWithin steps) (.sym name) tail) :=
      hclear.silent hglobal hshifts
    exact .silent
  -- a steady head is approached by both runs as it is in the beginning
  have hsteady := Session.steady_of_shifts (Bool.eq_false_iff.2 hshifts)
  have hroots : ∀ n ≤ steps, ∀ scope form, Tree.PermitsWithin last (fun _ => False) n form →
      Keeps (rooting host last fun _ => False) scope (convertWithin n form) :=
    fun n _ scope form hform => keeps_convertWithin (admitsForms_rooting hglobal) n hform scope
  intro s t s' t' a b hrun hrun' hs ht hs' ht' hshown
  have happroach : ∀ {u : Session}, u.Within host last →
      u.approach name = (Session.fresh last.context host).approach name :=
    fun hu => hsteady.approach_eq hu.rooted hu.bounded hglobal
  by_cases hkind : (Session.fresh last.context host).approach name = .rule .macroDefinition
  · rw [runFrom_convertHeaded, happroach hs, hkind] at hrun
    rw [runFrom_convertHeaded, happroach ht, hkind] at hrun'
    have hrule := Session.ofHead?_of_approach hkind
    have hmacro : Roots host last (Forms.convertMacro (convertWithin steps) name tail) :=
      (admitsForms_rooting hglobal).macros hclear.permits hrule hroots .frame
    have hconvert := carries_convertMacro hglobal hclear hrule hwalk
    exact Carries.skip (fun _ _ => hconvert) hrun hrun' hs ht hs' ht' hshown
  -- all other forms are converted part by part
  · have hagree : Walk.AgreeOn (Tree.Clear host last addition steps) (convertWithin steps) _ :=
      Walk.agreeOn_within Tree.Clear.child (convertWithin steps)
    have htail : ∀ item ∈ tail, item.Clear host last addition steps :=
      fun item hitem => hclear.inner (List.mem_cons_of_mem _ hitem)
    rw [hagree.runFrom_convertHeaded htail (by rwa [happroach hs])] at hrun
    rw [hagree.runFrom_convertHeaded htail (by rwa [happroach ht])] at hrun'
    have := keepsWalk_clear hglobal host addition steps
    have hwithin := carriesWalk_within (hwalk steps (Nat.le_refl steps))
    exact carries_convertSteady hwithin hhost hglobal hsteady hkind tail hrun hrun' hs ht hs' ht' hshown

/-- Whatever the nesting of steps, the conversion of a form that does not hide the name carries it. -/
theorem carries_convertWithin (steps : Nat) {form : Tree}
    (hclear : form.Clear host last addition steps) :
    CarriesForm host last addition (convertWithin steps form) (convertWithin steps form) := by
  -- the expander of a macro is converted with fewer steps than by one, so the induction is a strong
  -- one
  induction steps using Nat.strongRecOn generalizing form with
  | _ steps ih =>
  cases steps with
  | zero =>
      unfold convertWithin
      exact .pure False.elim
  | succ steps =>
      have hwalk : ∀ n ≤ steps, ∀ form : Tree, form.Clear host last addition n →
          CarriesForm host last addition (convertWithin n form) (convertWithin n form) :=
        fun n hn form hform => ih n (Nat.lt_succ_of_le hn) hform
      unfold convertWithin convertNode
      split
      · exact .silent
      · next head tail =>
        by_cases hnamed : ∃ name, head = .sym name
        · rcases hnamed with ⟨name, rfl⟩
          exact carries_convertNamed hhost hglobal hclear hwalk
        · have hhead : ∀ name, head ≠ .sym name := fun name heq => hnamed ⟨name, heq⟩
          have hagree : Walk.AgreeOn (Tree.Clear host last addition steps) (convertWithin steps) _ :=
            Walk.agreeOn_within Tree.Clear.child (convertWithin steps)
          have := keepsWalk_clear hglobal host addition steps
          rw [hagree.convertCompound hhead fun item hitem => hclear.inner hitem]
          exact carries_convertCompound (carriesWalk_within (hwalk steps (Nat.le_refl steps))) hhead tail
      · exact .pure False.elim

end Forms

end LispNamespace
