import LispNamespace.Proofs.Growth.Rules
import LispNamespace.Proofs.Runs

/-!
# References to bound names

A reference is looked up where it stands, and so is a name where it is bound. Both lead to the same
name when the session still knows what it knew at the binding, and the name that was bound is local,
unless another binding has made the name local that was written.
-/

namespace LispNamespace

open Rewrite Forms

/-! ## What a session knows of variables -/

/-- The session `t` knows the variables that `s` knows. Frames play no part in that. -/
structure Session.Recalls (t s : Session) : Prop where
  context : t.context = s.context
  variableNames : ∀ name ∈ s.tables.variableNames, name ∈ t.tables.variableNames
  hostVariables : t.host.variableNames = s.host.variableNames

namespace Session

variable {s t u : Session} {name : Text}

theorem GrowsTo.recalls (h : s.GrowsTo t) : t.Recalls s :=
  ⟨h.context, h.variableNames, h.hostVariables⟩

/-- Inside a frame, growth stays there. -/
theorem GrowsTo.frames_ne_nil (h : s.GrowsTo t) (hs : s.frames ≠ []) : t.frames ≠ [] := by
  intro hnil
  have hdepth := h.depth
  rw [hnil] at hdepth
  exact hs (List.eq_nil_of_length_eq_zero hdepth.symm)

namespace Recalls

theorem trans (h : t.Recalls s) (h' : u.Recalls t) : u.Recalls s where
  context := h'.context.trans h.context
  variableNames name hname := h'.variableNames name (h.variableNames name hname)
  hostVariables := h'.hostVariables.trans h.hostVariables

theorem pushFrame (h : t.Recalls s) (names : List Text) : (t.pushFrame names).Recalls s :=
  ⟨h.context, h.variableNames, h.hostVariables⟩

/-- Inside a form that binds names, nothing of what was known around the form is lost. -/
theorem of_pushFrame {names : List Text} (h : t.Recalls (s.pushFrame names)) : t.Recalls s :=
  ⟨h.context, h.variableNames, h.hostVariables⟩

theorem isEscaped (h : t.Recalls s) : t.isEscaped name = s.isEscaped name := by
  unfold Session.isEscaped
  rw [h.context]

theorem stripProtection (h : t.Recalls s) : t.stripProtection name = s.stripProtection name := by
  unfold Session.stripProtection
  rw [h.context]

theorem qualified (h : t.Recalls s) : t.qualified name = s.qualified name := by
  unfold Session.qualified
  rw [h.context]

/-- A variable is still one unless it has become local. -/
theorem isVariable (h : t.Recalls s) (hs : s.isVariable name = true)
    (ht : t.isShadowed name = false) : t.isVariable name = true := by
  unfold Session.isVariable Session.isFree at hs ⊢
  rcases Bool.and_eq_true_iff.1 hs with ⟨hfree, hknown⟩
  rw [ht, (Bool.and_eq_true_iff.1 hfree).1]
  rcases Bool.or_eq_true_iff.1 hknown with htable | hhost
  · have hmem := h.variableNames name (List.contains_iff_mem.1 htable)
    rw [List.contains_iff_mem.2 hmem]
    rfl
  · unfold Session.asksHost Host.isBound at hhost ⊢
    rw [h.context, h.hostVariables, h.qualified, hhost, Bool.or_true]
    rfl

end Recalls

/-- Names that join the innermost frame are shadowed, and no others. -/
theorem isShadowed_growFrame (hs : s.frames ≠ []) (names : List Text) :
    (s.growFrame names).isShadowed name = (names.contains name || s.isShadowed name) := by
  unfold growFrame
  split
  · next hnil => exact absurd hnil hs
  · next frame outer hframes =>
    simp only [isShadowed, hframes, List.any_cons, List.contains_eq_mem, List.mem_append,
      Bool.decide_or, Bool.or_assoc]

theorem isShadowed_pushFrame_of_mem {names : List Text} (h : name ∈ names) :
    (s.pushFrame names).isShadowed name = true := by
  rw [isShadowed_pushFrame, List.contains_iff_mem.2 h, Bool.true_or]

/-- No variable of the namespace is bound by a form around the reference. -/
theorem not_isShadowed_of_isVariable (h : s.isVariable name = true) : s.isShadowed name = false := by
  unfold isVariable isFree at h
  rcases Bool.and_eq_true_iff.1 h with ⟨hfree, -⟩
  have hlocal := (Bool.and_eq_true_iff.1 hfree).2
  rwa [Bool.not_eq_true'] at hlocal

end Session

/-! ## References to local names -/

/-- A local variable stays as it is. -/
theorem variableReference_of_isShadowed {s : Session} {name : Text} (hescaped : s.isEscaped name = false)
    (hshadowed : s.isShadowed name = true) : variableReference s name = name := by
  have hvariable : s.isVariable name = false := by
    unfold Session.isVariable Session.isFree
    rw [hshadowed, Bool.not_true, Bool.and_false, Bool.false_and]
  unfold variableReference
  rw [hescaped, hvariable]
  rfl

/-- So does a local function. -/
theorem functionReference_of_isShadowed {s : Session} {name : Text} (hescaped : s.isEscaped name = false)
    (hshadowed : s.isShadowed name = true) : functionReference s name = name := by
  have hfunction : s.isFunction name = false := by
    unfold Session.isFunction Session.isFree
    rw [hshadowed, Bool.not_true, Bool.and_false, Bool.false_and]
  unfold functionReference
  rw [hescaped, hfunction]
  rfl

/-- Every reference to the variable `name` becomes `result`, as long as whole forms are converted. -/
def Session.Resolves (s : Session) (name result : Text) : Prop :=
  ∀ t, growth.Steps .form s t → variableReference t name = result

/-- A reference that is resolved once is resolved in the same way for the rest of the run. -/
theorem Session.Resolves.of_growth {s t : Session} {name result : Text} (h : s.Resolves name result)
    (hgrowth : growth.Steps .form s t) : t.Resolves name result :=
  fun u hu => h u (Discipline.Lawful.trans hgrowth hu)

/-- A protected name is resolved by taking off the marker, no matter what is known later. -/
theorem Session.resolves_of_isEscaped {s : Session} {name : Text} (h : s.isEscaped name = true) :
    s.Resolves name (s.stripProtection name) := by
  rintro t ⟨hgrows, -⟩
  unfold variableReference
  rw [if_pos (hgrows.recalls.isEscaped.trans h), hgrows.recalls.stripProtection]

/-- A bound name is resolved to itself. -/
theorem Session.resolves_of_isShadowed {s : Session} {name : Text} (hescaped : s.isEscaped name = false)
    (hshadowed : s.isShadowed name = true) : s.Resolves name name := by
  rintro t ⟨hgrows, -⟩
  exact variableReference_of_isShadowed (hgrows.recalls.isEscaped.trans hescaped)
    (hgrows.shadowed name hshadowed)

/-- A variable that is not local is qualified wherever it is met. -/
theorem Session.resolves_of_isVariable {s : Session} {name : Text} (hescaped : s.isEscaped name = false)
    (hvariable : s.isVariable name = true) : s.Resolves name (s.qualified name) := by
  rintro t ⟨hgrows, hframes⟩
  have hlocal : t.isShadowed name = false :=
    (isShadowed_congr hframes).trans (not_isShadowed_of_isVariable hvariable)
  unfold variableReference
  rw [hgrows.recalls.isEscaped, hescaped, hgrows.recalls.isVariable hvariable hlocal,
    hgrows.recalls.qualified]
  rfl

/-! ## Bound names -/

/-- What becomes of a name where a form binds it. -/
def Forms.boundName (s : Session) (name : Text) : Text :=
  if s.context.options.letVars then variableReference s name
  else if s.isEscaped name then s.stripProtection name
  else name

theorem runFrom_convert_sym (name : Text) (s : Session) :
    (convert (.sym name)).runFrom s = (.ok (.sym (variableReference s name)), s) := rfl

theorem runFrom_convertBoundName (name : Text) (s : Session) :
    (convertBoundName convert (.sym name)).runFrom s = (.ok (.sym (boundName s name)), s) := by
  unfold convertBoundName
  rw [runFrom_bind, runFrom_get]
  dsimp only
  unfold boundName
  split
  · exact runFrom_convert_sym name s
  · split <;> rfl

/-- A name that has the protection marker loses it, whatever the options are. -/
theorem boundName_of_isEscaped {s : Session} {name : Text} (h : s.isEscaped name = true) :
    boundName s name = s.stripProtection name := by
  unfold boundName variableReference
  rw [if_pos h, if_pos h, ite_self]

/-- Any other name is qualified at most, and only if an option says so. -/
theorem eq_or_qualified_of_boundName {s : Session} {name : Text} (h : s.isEscaped name = false) :
    boundName s name = name ∨ s.context.options.letVars = true ∧ s.isVariable name = true ∧
      boundName s name = s.qualified name := by
  unfold boundName variableReference
  rw [h]
  split
  · next hletVars =>
    by_cases hvariable : s.isVariable name = true
    · exact .inr ⟨hletVars, hvariable, by rw [hvariable]; rfl⟩
    · exact .inl (by rw [Bool.eq_false_iff.2 hvariable]; rfl)
  · exact .inl rfl

/-- A name that is bound in the session `s` becomes the same in a reference in `t`, provided that the
bound name is local there, and the name as it was written is local only if it was before or if it was
bound as it is written. -/
theorem Session.Recalls.resolves_boundName {s t : Session} {name : Text} (h : t.Recalls s)
    (hbound : t.isShadowed (boundName s name) = true)
    (hclash : s.context.options.letVars = true → t.isShadowed name = true →
      s.isShadowed name = true ∨ boundName s name = name) :
    t.Resolves name (boundName s name) := by
  by_cases hescaped : s.isEscaped name = true
  · rw [boundName_of_isEscaped hescaped, ← h.stripProtection]
    exact Session.resolves_of_isEscaped (h.isEscaped.trans hescaped)
  · have hescaped' := Bool.eq_false_iff.2 hescaped
    have ht := h.isEscaped.trans hescaped'
    rcases eq_or_qualified_of_boundName hescaped' with hsame | ⟨hletVars, hvariable, hqualified⟩
    · rw [hsame] at hbound ⊢
      exact Session.resolves_of_isShadowed ht hbound
    · by_cases hlocal : t.isShadowed name = true
      · rcases hclash hletVars hlocal with hbefore | hsame
        · rw [Session.not_isShadowed_of_isVariable hvariable] at hbefore
          cases hbefore
        · rw [hsame]
          exact Session.resolves_of_isShadowed ht hlocal
      -- the name is qualified at the binding and is a variable still
      · rw [hqualified, ← h.qualified]
        exact Session.resolves_of_isVariable ht (h.isVariable hvariable (Bool.eq_false_iff.2 hlocal))

/-! ## References in a body -/

/-- Each item of a list is treated between the session at first and the one at last. -/
theorem exists_growth_of_mapM {α β : Type} (scope : Scope) {f : α → Rewrite β}
    [hf : ∀ item, Keeps growth scope (f item)] {items : List α} {results : List β} {s s' : Session}
    (hrun : (items.mapM f).runFrom s = (.ok results, s')) {i : Nat} {item : α}
    (hitem : items[i]? = some item) :
    ∃ t result t', growth.Steps scope s t ∧ (f item).runFrom t = (.ok result, t') ∧
      growth.Steps scope t' s' ∧ results[i]? = some result := by
  induction items generalizing s results i with
  | nil => cases hitem
  | cons first items ih =>
      rcases runFrom_mapM_cons.1 hrun with ⟨result, t, rest, hfirst, hrest, rfl⟩
      cases i with
      | zero =>
          cases hitem
          have hgrowth : growth.Steps scope t s' := Keeps.steps_of_run inferInstance hrest
          exact ⟨s, result, t, Discipline.Lawful.refl _ s, hfirst, hgrowth, rfl⟩
      | succ i =>
          have hgrowth : growth.Steps scope s t := Keeps.steps_of_run (hf first) hfirst
          rcases ih hrest hitem with ⟨u, other, u', hu, hother, hu', hresult⟩
          exact ⟨u, other, u', Discipline.Lawful.trans hgrowth hu, hother, hu', hresult⟩

/-- A variable that is a form of a body becomes what references to it become. -/
theorem reference_of_mapM {s s' : Session} {body results : List Tree} {name result : Text} {j : Nat}
    (h : s.Resolves name result) (hrun : (body.mapM convert).runFrom s = (.ok results, s'))
    (hj : body[j]? = some (.sym name)) : results[j]? = some (.sym result) := by
  rcases exists_growth_of_mapM .form hrun hj with ⟨t, form, t', ht, hform, -, hresult⟩
  rw [runFrom_convert_sym, h t ht] at hform
  cases hform
  exact hresult

end LispNamespace
