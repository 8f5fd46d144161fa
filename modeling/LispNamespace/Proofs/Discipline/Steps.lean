import LispNamespace.Convert

/-!
# Disciplines

A discipline says how the session may change while a step runs, and which faults may end the run.
The rules for forms are put together from a few kinds of steps, so a discipline that allows the
changes of the single steps is kept by whole conversions, whether they yield a result or a fault.
-/

namespace LispNamespace

/-- The part of a conversion that a step makes up. -/
inductive Scope where
  /-- The treatment of a whole form, which leaves the frames around the form as they are. -/
  | form
  /-- A part of the treatment of a binding form, which may bind names in the frame of that form. -/
  | frame

/-- What a run has to keep to. -/
structure Discipline where
  /-- The first session may become the second one. -/
  Steps : Scope → Session → Session → Prop
  /-- The fault may end a run in the session. -/
  Allows : Session → Fault → Prop

namespace Discipline

/-- What is asked of a discipline for the steps that every kind of form is made of. -/
class Lawful (D : Discipline) : Prop where
  refl : ∀ scope s, D.Steps scope s s
  trans : ∀ {scope s t u}, D.Steps scope s t → D.Steps scope t u → D.Steps scope s u
  journal : ∀ scope (s : Session) journal, D.Steps scope s { s with journal := journal }
  clear : ∀ scope (s : Session), D.Steps scope s { s with nameIsFinal := false }
  growFrame : ∀ (s : Session) names, D.Steps .frame s (s.growFrame names)
  /-- What happens inside a frame is allowed outside of it, once the frame is closed. -/
  popFrame : ∀ {scope s t names}, D.Steps .frame (s.pushFrame names) t → D.Steps scope s t.popFrame
  allows_popFrame : ∀ {s fault}, D.Allows s fault → D.Allows s.popFrame fault
  /-- Arguments that do not fit a grammar are no fault of the conversion. -/
  allows_classify : ∀ {s : Session} {spec args fault},
    Grammar.classify s.grammars spec args = .error fault → (∀ why, fault ≠ .mismatch why) →
      D.Allows s fault

end Discipline

namespace Rewrite

/-- Run from the session, the step keeps to the discipline. -/
structure KeepsFrom (D : Discipline) (scope : Scope) (s : Session) {α : Type} (step : Rewrite α) :
    Prop where
  steps : D.Steps scope s (step.runFrom s).2
  allows : ∀ fault, (step.runFrom s).1 = .error fault → D.Allows (step.runFrom s).2 fault

/-- The step keeps to the discipline, wherever it is run from. -/
class Keeps (D : Discipline) (scope : Scope) {α : Type} (step : Rewrite α) : Prop where
  keepsFrom : ∀ s, KeepsFrom D scope s step

/-- A walk keeps to a discipline when it does so on every form. -/
abbrev KeepsWalk (D : Discipline) (walk : Walk) : Prop := ∀ scope form, Keeps D scope (walk form)

variable {D : Discipline} {scope : Scope} {α β : Type}

/-- Running a step that keeps to the discipline changes the session as the discipline says. -/
theorem steps_runFrom (D : Discipline) (scope : Scope) (step : Rewrite α) [h : Keeps D scope step]
    (s : Session) : D.Steps scope s (step.runFrom s).2 := (h.keepsFrom s).steps

/-- A run that is known changes the session as the discipline says. -/
theorem Keeps.steps_of_run {step : Rewrite α} (h : Keeps D scope step) {s t : Session}
    {result : Except Fault α} (hrun : step.runFrom s = (result, t)) : D.Steps scope s t := by
  have hs := (h.keepsFrom s).steps
  rwa [hrun] at hs

/-- A run that ends with a fault ends with one that the discipline allows. -/
theorem Keeps.allows_of_run {step : Rewrite α} (h : Keeps D scope step) {s t : Session}
    {fault : Fault} (hrun : step.runFrom s = (.error fault, t)) : D.Allows t fault := by
  have hs := (h.keepsFrom s).allows fault
  rw [hrun] at hs
  exact hs rfl

/-- What is done after the session has been looked at may depend on it. -/
theorem Keeps.read {f : Session → Rewrite α} (h : ∀ s, KeepsFrom D scope s (f s)) :
    Keeps D scope (get >>= f) := by
  constructor
  intro s
  have hrun : (get >>= f).runFrom s = (f s).runFrom s := by rw [runFrom_bind, runFrom_get]
  constructor
  · rw [hrun]
    exact (h s).steps
  · rw [hrun]
    exact (h s).allows

/-- A change of the session that always succeeds. -/
theorem Keeps.modify {f : Session → Session} (h : ∀ s, D.Steps scope s (f s)) :
    Keeps D scope (modify f : Rewrite Unit) := by
  constructor
  intro s
  constructor
  · exact h s
  · intro fault hfault
    cases hfault

/-! ## How steps are put together -/

section Lawful

variable [hD : D.Lawful]

/-- A fault that the discipline allows where it arises. -/
theorem KeepsFrom.throw {s : Session} {fault : Fault} (h : D.Allows s fault) :
    KeepsFrom D scope s (throw fault : Rewrite α) := by
  constructor
  · exact hD.refl scope s
  · intro other hother
    cases hother
    exact h

instance (a : α) : Keeps D scope (pure a : Rewrite α) := by
  constructor
  intro s
  constructor
  · exact hD.refl scope s
  · intro fault hfault
    cases hfault

instance : Keeps D scope (get : Rewrite Session) := by
  constructor
  intro s
  constructor
  · exact hD.refl scope s
  · intro fault hfault
    cases hfault

/-- A sequence keeps to the discipline if its steps do. The first one may end the run. -/
theorem Keeps.bind {step : Rewrite α} {next : α → Rewrite β} (hstep : Keeps D scope step)
    (hnext : ∀ a, Keeps D scope (next a)) : Keeps D scope (step >>= next) := by
  constructor
  intro s
  have hs := hstep.keepsFrom s
  rcases hrun : step.runFrom s with ⟨fault | a, t⟩
  -- after a fault, the session is the one that the first step left
  · have hbind : (step >>= next).runFrom s = (.error fault, t) := by rw [runFrom_bind, hrun]
    constructor
    · rw [hbind]
      exact hstep.steps_of_run hrun
    · rw [hbind]
      intro other hother
      cases hother
      exact hstep.allows_of_run hrun
  · have hbind : (step >>= next).runFrom s = (next a).runFrom t := by rw [runFrom_bind, hrun]
    have ht := (hnext a).keepsFrom t
    constructor
    · rw [hbind]
      exact hD.trans (hstep.steps_of_run hrun) ht.steps
    · rw [hbind]
      exact ht.allows

instance (step : Rewrite α) (next : α → Rewrite β) [Keeps D scope step]
    [∀ a, Keeps D scope (next a)] : Keeps D scope (step >>= next) :=
  Keeps.bind inferInstance inferInstance

omit hD in
instance (c : Prop) [Decidable c] (step other : Rewrite α) [Keeps D scope step]
    [Keeps D scope other] : Keeps D scope (if c then step else other) := by
  split <;> infer_instance

instance (names : List Text) (step : Rewrite α) [h : Keeps D .frame step] :
    Keeps D scope (withFrame names step) := by
  constructor
  intro s
  have hs := h.keepsFrom (s.pushFrame names)
  constructor
  · rw [runFrom_withFrame]
    exact hD.popFrame hs.steps
  · intro fault hfault
    rw [runFrom_withFrame] at hfault ⊢
    exact hD.allows_popFrame (hs.allows fault hfault)

instance (f : α → Rewrite β) [∀ a, Keeps D scope (f a)] (items : List α) :
    Keeps D scope (items.mapM f) := by
  induction items with
  | nil => rw [List.mapM_nil]; infer_instance
  | cons a items ih => rw [List.mapM_cons]; infer_instance

/-! ## Single steps -/

instance (w : Warning) : Keeps D scope (warn w) := by
  refine Keeps.modify fun s => ?_
  unfold Session.warn
  split
  · exact hD.journal scope s _
  · exact hD.refl scope s

instance (note : Note) : Keeps D scope (trace note) :=
  Keeps.modify fun s => hD.journal scope s _

instance (names : List Text) : Keeps D .frame (bindNames names) :=
  Keeps.modify fun s => hD.growFrame s names

instance : Keeps D scope takeNameIsFinal := by
  constructor
  intro s
  constructor
  · exact hD.clear scope s
  · intro fault hfault
    cases hfault

end Lawful

end Rewrite

end LispNamespace
