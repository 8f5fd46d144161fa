import LispNamespace.Proofs.Binding.References
import LispNamespace.Proofs.Parts

/-!
# Names bound one after the other, or all at once

A form that binds variables rewrites its bindings from left to right. Each name is rewritten in the
session in which its binding is reached, and becomes local either at once or with all others.
-/

namespace LispNamespace

open Rewrite Forms

/-! ## Places of names -/

/-- A binding has its name at a position: the name is the whole binding, or stands in front of its
values. -/
inductive BindingPlace : Tree → Text → List Nat → Prop
  | alone (name : Text) : BindingPlace (.sym name) name []
  | valued (name : Text) (values : List Tree) : BindingPlace (.list (.sym name :: values)) name [0]

/-- A test has a name at a position: it stands in front of the value that is tested. -/
inductive TestPlace : Tree → Text → List Nat → Prop
  | valued (name : Text) (value : Tree) : TestPlace (.list [.sym name, value]) name [0]

variable {Place : Tree → Text → List Nat → Prop}

/-- In the session `s`, a binding has become `result`, which binds the given names: those at its
places, as they are bound there, and no others. -/
structure Session.Rebinds (Place : Tree → Text → List Nat → Prop) (s : Session) (binding result : Tree)
    (names : List Text) : Prop where
  written : ∀ name position, Place binding name position →
    result.at? position = some (.sym (boundName s name)) ∧ boundName s name ∈ names
  place : ∀ name ∈ names, ∃ other position, Place binding other position ∧
    result.at? position = some (.sym name)

/-- What has no place for a name binds none. -/
theorem Session.Rebinds.of_no_place {s : Session} {binding : Tree} (result : Tree)
    (h : ∀ name position, ¬Place binding name position) : s.Rebinds Place binding result [] :=
  ⟨fun name position hplace => absurd hplace (h name position), fun _ h => absurd h List.not_mem_nil⟩

/-- One of the bindings has the name in its result. -/
def Gives (Place : Tree → Text → List Nat → Prop) (bindings results : List Tree) (name : Text) : Prop :=
  ∃ (i : Nat) (binding result : Tree) (other : Text) (position : List Nat),
    bindings[i]? = some binding ∧ results[i]? = some result ∧ Place binding other position ∧
      result.at? position = some (.sym name)

theorem Gives.cons {bindings results : List Tree} {name : Text} (h : Gives Place bindings results name)
    (binding result : Tree) : Gives Place (binding :: bindings) (result :: results) name := by
  rcases h with ⟨i, binding', result', other, position, hbinding, hresult, hplace⟩
  exact ⟨i + 1, binding', result', other, position, hbinding, hresult, hplace⟩

/-- The session `t` after some bindings: each one has been rewritten in a session whose variables are
still known, its names are local now, and a name has become local only if a binding has it in its
result. -/
def Introduces (Place : Tree → Text → List Nat → Prop) (bindings results : List Tree) (t : Session) :
    Prop :=
  ∀ (i : Nat) (binding : Tree), bindings[i]? = some binding → ∃ s result names, results[i]? = some result ∧
    t.Recalls s ∧ s.Rebinds Place binding result names ∧
    (∀ name ∈ names, t.isShadowed name = true) ∧
    ∀ name, t.isShadowed name = true →
      s.isShadowed name = true ∨ Gives Place bindings results name

/-- A name that some bindings introduce is written as references to it are, unless another binding has
been written as it is. -/
theorem Introduces.resolves {bindings results : List Tree} {t : Session}
    (h : Introduces Place bindings results t) {i : Nat} {binding : Tree} {name : Text}
    {position : List Nat} (hbinding : bindings[i]? = some binding) (hplace : Place binding name position)
    (hclash : t.context.options.letVars = true → Gives Place bindings results name →
      results[i]?.bind (·.at? position) = some (.sym name)) :
    ∃ result, results[i]?.bind (·.at? position) = some (.sym result) ∧ t.Resolves name result := by
  rcases h i binding hbinding with ⟨s, result, names, hresult, hrecalls, hrebinds, hlocal, hothers⟩
  rcases hrebinds.written name position hplace with ⟨hwritten, hmem⟩
  have hat : results[i]?.bind (·.at? position) = some (.sym (boundName s name)) := by
    rw [hresult]
    exact hwritten
  refine ⟨boundName s name, hat, hrecalls.resolves_boundName (hlocal _ hmem) ?_⟩
  intro hletVars hshadowed
  rcases hothers name hshadowed with hbefore | hgives
  · exact .inl hbefore
  · rw [← hrecalls.context] at hletVars
    have hsame := hat.symm.trans (hclash hletVars hgives)
    exact .inr (Tree.sym.inj (Option.some.inj hsame))

/-! ## Single bindings -/

theorem Session.growFrame_nil (s : Session) : s.growFrame [] = s := by
  unfold Session.growFrame
  split
  · rfl
  · next frame outer hframes =>
    rw [List.nil_append, ← hframes]

/-- The name of a binding, and nothing else, is what it introduces. -/
theorem rebinds_of_convertBinding {s s' : Session} {binding result : Tree} {name? : Option Text}
    (hrun : (convertBinding convert binding).runFrom s = (.ok (result, name?), s')) :
    s'.Rebinds BindingPlace binding result name?.toList := by
  unfold convertBinding at hrun
  split at hrun
  · next name =>
    rw [runFrom_bind, runFrom_convertBoundName] at hrun
    cases hrun
    constructor
    · rintro _ _ ⟨⟩
      exact ⟨rfl, List.mem_singleton_self _⟩
    · intro other hother
      cases List.mem_singleton.1 hother
      exact ⟨name, [], .alone name, rfl⟩
  · next first values =>
    rcases runFrom_bind_ok.1 hrun with ⟨values', t, -, hrun⟩
    rcases runFrom_bind_ok.1 hrun with ⟨first', u, hfirst, hpure⟩
    rcases runFrom_pure_ok.1 hpure with ⟨hresult, rfl⟩
    cases hresult
    by_cases hsymbol : ∃ name, first = .sym name
    · rcases hsymbol with ⟨name, rfl⟩
      rw [runFrom_convertBoundName] at hfirst
      cases hfirst
      constructor
      · rintro _ _ ⟨⟩
        exact ⟨rfl, List.mem_singleton_self _⟩
      · intro other hother
        cases List.mem_singleton.1 hother
        exact ⟨name, [0], .valued name values, rfl⟩
    -- what is no symbol is no name, and stays
    · have hsame : first' = first ∧ first.symbol? = none := by
        cases first with
        | sym name => exact absurd ⟨name, rfl⟩ hsymbol
        | _ =>
            cases hfirst
            exact ⟨rfl, rfl⟩
      rw [hsame.1, hsame.2]
      constructor
      · rintro _ _ ⟨⟩
        exact absurd ⟨_, rfl⟩ hsymbol
      · intro other hother
        cases hother
  · next hsym hlist =>
    cases hrun
    constructor
    · intro name position hplace
      cases hplace with
      | alone => exact absurd rfl (hsym name)
      | valued _ values => exact absurd rfl (hlist _ values)
    · intro other hother
      cases hother

/-- A step that rewrites one binding binds the names that the binding introduces. -/
def BindsInOrder (Place : Tree → Text → List Nat → Prop) (step : Tree → Rewrite Tree) : Prop :=
  ∀ {binding s result s'}, (step binding).runFrom s = (.ok result, s') →
    ∃ t names, growth.Steps .form s t ∧ s' = t.growFrame names ∧ t.Rebinds Place binding result names

/-- A variable binding is converted with the names of the earlier ones bound, and binds its own name
for those that follow. -/
theorem bindsInOrder_convertBinding : BindsInOrder BindingPlace fun binding => do
    let (binding, name) ← convertBinding convert binding
    bindNames name.toList
    return binding := by
  intro binding s result s' hrun
  rcases runFrom_bind_ok.1 hrun with ⟨⟨result', name?⟩, t, hbinding, hrun⟩
  dsimp only at hrun
  rw [runFrom_bindNames] at hrun
  rcases runFrom_pure_ok.1 hrun with ⟨rfl, rfl⟩
  have hgrowth : growth.Steps .form s t := Keeps.steps_of_run inferInstance hbinding
  exact ⟨t, name?.toList, hgrowth, rfl, rebinds_of_convertBinding hbinding⟩

/-- So is a binding with a test, which may as well be a bare test and bind nothing. -/
theorem bindsInOrder_convertTest : BindsInOrder TestPlace (convertTest convert) := by
  intro binding s result s' hrun
  -- a test that binds nothing leaves the frames as they are
  have hnothing : growth.Steps .form s s' → (∀ name position, ¬TestPlace binding name position) →
      ∃ t names, growth.Steps .form s t ∧ s' = t.growFrame names ∧
        t.Rebinds TestPlace binding result names := by
    intro hgrowth hplace
    exact ⟨s', [], hgrowth, s'.growFrame_nil.symm, .of_no_place result hplace⟩
  unfold convertTest at hrun
  split at hrun
  · refine hnothing (Keeps.steps_of_run inferInstance hrun) ?_
    rintro _ _ ⟨⟩
  · rcases runFrom_bind_ok.1 hrun with ⟨test, t, htest, hpure⟩
    rcases runFrom_pure_ok.1 hpure with ⟨-, rfl⟩
    refine hnothing (Keeps.steps_of_run inferInstance htest) ?_
    rintro _ _ ⟨⟩
  · next name value =>
    rcases runFrom_bind_ok.1 hrun with ⟨value', t, hvalue, hrun⟩
    rw [runFrom_bind, runFrom_convertBoundName] at hrun
    dsimp only at hrun
    rw [runFrom_bindNames] at hrun
    rcases runFrom_pure_ok.1 hrun with ⟨rfl, rfl⟩
    have hgrowth : growth.Steps .form s t := Keeps.steps_of_run inferInstance hvalue
    refine ⟨t, [boundName t name], hgrowth, rfl, ?_, ?_⟩
    · rintro _ _ ⟨⟩
      exact ⟨rfl, List.mem_singleton_self _⟩
    · intro other hother
      cases List.mem_singleton.1 hother
      exact ⟨name, [0], .valued name value, rfl⟩
  · next hvalued =>
    rcases runFrom_pure_ok.1 hrun with ⟨rfl, rfl⟩
    refine hnothing (Discipline.Lawful.refl _ s') ?_
    intro name position hplace
    cases hplace with
    | valued _ value => exact hvalued name value rfl

/-! ## All bindings of a form -/

/-- Bindings in order introduce their names, and a name is local after them only if it was before or if
one of them gives it. -/
theorem introduces_of_mapM {step : Tree → Rewrite Tree} (hstep : BindsInOrder Place step)
    {s t : Session} {bindings results : List Tree} (hframes : s.frames ≠ [])
    (hrun : (bindings.mapM step).runFrom s = (.ok results, t)) :
    s.GrowsTo t ∧ Introduces Place bindings results t ∧
      ∀ name, t.isShadowed name = true →
        s.isShadowed name = true ∨ Gives Place bindings results name := by
  induction bindings generalizing s results with
  | nil =>
      rcases runFrom_pure_ok.1 hrun with ⟨rfl, rfl⟩
      refine ⟨.refl t, ?_, fun _ hname => .inl hname⟩
      intro i binding hbinding
      cases hbinding
  | cons binding bindings ih =>
      rcases runFrom_mapM_cons.1 hrun with ⟨result, _, rest, hfirst, hrest, rfl⟩
      rcases hstep hfirst with ⟨u, names, ⟨hgrows, hsame⟩, rfl, hrebinds⟩
      have hu : u.frames ≠ [] := by
        rw [hsame]
        exact hframes
      have hu' : (u.growFrame names).frames ≠ [] := (u.growsTo_growFrame names).frames_ne_nil hu
      rcases ih hu' hrest with ⟨hgrowth, hintroduces, hothers⟩
      have hgrowth' : u.GrowsTo t := (u.growsTo_growFrame names).trans hgrowth
      -- the first binding gives its own names, and the others the rest
      have hall : ∀ name, t.isShadowed name = true →
          u.isShadowed name = true ∨ Gives Place (binding :: bindings) (result :: rest) name := by
        intro name hname
        rcases hothers name hname with hbefore | hgives
        · rw [u.isShadowed_growFrame hu, Bool.or_eq_true] at hbefore
          rcases hbefore with hmem | hbefore
          · rcases hrebinds.place name (List.contains_iff_mem.1 hmem) with ⟨other, position, hplace⟩
            exact .inr ⟨0, binding, result, other, position, rfl, rfl, hplace⟩
          · exact .inl hbefore
        · exact .inr (hgives.cons binding result)
      refine ⟨hgrows.trans hgrowth', ?_, ?_⟩
      · intro i binding' hbinding'
        cases i with
        | zero =>
            cases hbinding'
            refine ⟨u, result, names, rfl, hgrowth'.recalls, hrebinds, ?_, hall⟩
            intro name hname
            refine hgrowth.shadowed name ?_
            rw [u.isShadowed_growFrame hu, List.contains_iff_mem.2 hname, Bool.true_or]
        | succ i =>
            rcases hintroduces i binding' hbinding' with
              ⟨v, result', names', hresult, hrecalls, hrebinds', hlocal, hothers'⟩
            refine ⟨v, result', names', hresult, hrecalls, hrebinds', hlocal, ?_⟩
            intro name hname
            exact (hothers' name hname).imp_right fun hgives => hgives.cons binding result
      · intro name hname
        rcases hall name hname with hbefore | hgives
        · exact .inl ((Session.isShadowed_congr hsame).symm.trans hbefore)
        · exact .inr hgives

/-- Bindings that all become local at once introduce their names, too. -/
theorem introduces_pushFrame {s s' : Session} {bindings : List Tree} {results : List (Tree × Option Text)}
    (hrun : (bindings.mapM (convertBinding convert)).runFrom s = (.ok results, s')) :
    Introduces BindingPlace bindings (results.map (·.1)) (s'.pushFrame (results.filterMap (·.2))) := by
  have hspec : ∀ {i : Nat} {binding : Tree}, bindings[i]? = some binding →
      ∃ t result, results[i]? = some result ∧ growth.Steps .form t s' ∧
        t.Rebinds BindingPlace binding result.1 result.2.toList := by
    intro i binding hbinding
    rcases exists_growth_of_mapM .form hrun hbinding with ⟨_, ⟨result, name?⟩, t, -, hstep, hgrowth, hresult⟩
    exact ⟨t, ⟨result, name?⟩, hresult, hgrowth, rebinds_of_convertBinding hstep⟩
  intro i binding hbinding
  rcases hspec hbinding with ⟨t, result, hresult, ⟨hgrows, hframes⟩, hrebinds⟩
  refine ⟨t, result.1, result.2.toList, ?_, hgrows.recalls.pushFrame _, hrebinds, ?_, ?_⟩
  · rw [List.getElem?_map, hresult]
    rfl
  · intro name hname
    have hmem : name ∈ results.filterMap (·.2) :=
      List.mem_filterMap.2 ⟨result, List.mem_of_getElem? hresult, Option.mem_toList.1 hname⟩
    exact Session.isShadowed_pushFrame_of_mem hmem
  · intro name hname
    rw [Session.isShadowed_pushFrame, Bool.or_eq_true] at hname
    rcases hname with hmem | hbefore
    -- a name that has become local is the result of some binding
    · rcases List.mem_filterMap.1 (List.contains_iff_mem.1 hmem) with ⟨result', hresult', hname⟩
      rcases List.getElem?_of_mem hresult' with ⟨k, hk⟩
      have hlt : k < bindings.length := by
        rw [← length_of_mapM hrun]
        exact (List.getElem?_eq_some_iff.1 hk).1
      rcases hspec (List.getElem?_eq_getElem hlt) with ⟨u, result'', hresult'', -, hrebinds'⟩
      rw [hk] at hresult''
      cases hresult''
      rcases hrebinds'.place name (Option.mem_toList.2 hname) with ⟨other, position, hplace, hgiven⟩
      refine .inr ⟨k, bindings[k], result'.1, other, position, List.getElem?_eq_getElem hlt, ?_, hplace,
        hgiven⟩
      rw [List.getElem?_map, hk]
      rfl
    · exact .inl ((Session.isShadowed_congr hframes).symm.trans hbefore)

end LispNamespace
