import LispNamespace.Proofs.Discipline.Convert
import LispNamespace.Proofs.Growth.Steps

/-!
# Conversions grow the session

Growth is a discipline that admits every form. Whole forms also leave the frames around them with
the names that they had, since only the parts of a binding form bind names in its frame.
-/

namespace LispNamespace

open Rewrite

/-- The session only grows, and treating a whole form leaves the frames as they are. Any fault may
end the run. -/
def growth : Discipline where
  Steps scope s t :=
    s.GrowsTo t ∧
      match scope with
      | .form => t.frames = s.frames
      | .frame => True
  Allows _ _ := True

/-- A change that keeps the frames is allowed wherever it is made. -/
theorem growth_steps {s t : Session} (h : s.GrowsTo t) (hframes : t.frames = s.frames)
    (scope : Scope) : growth.Steps scope s t := by
  cases scope with
  | form => exact ⟨h, hframes⟩
  | frame => exact ⟨h, trivial⟩

instance : growth.Lawful where
  refl scope s := growth_steps (.refl s) rfl scope
  trans := by
    intro scope s t u h h'
    cases scope with
    | form => exact ⟨h.1.trans h'.1, h'.2.trans h.2⟩
    | frame => exact ⟨h.1.trans h'.1, trivial⟩
  journal scope s journal := growth_steps (s.growsTo_journal journal) rfl scope
  clear scope s := growth_steps (s.growsTo_nameIsFinal false) rfl scope
  growFrame s names := ⟨s.growsTo_growFrame names, trivial⟩
  popFrame := by
    intro scope s t names h
    exact growth_steps h.1.popFrame h.1.outerFrames scope
  allows_popFrame _ := trivial
  allows_classify _ _ := trivial

theorem learns_growth : growth.Learns :=
  fun scope s addition => growth_steps (s.growsTo_learn addition) rfl scope

/-- The records of a macro definition only add to what the session and the host know. -/
theorem expands_growth : growth.Expands where
  addMacro scope s name := growth_steps (s.growsTo_addMacro name) rfl scope
  declareGrammar scope s name spec := growth_steps (s.growsTo_declareGrammar name spec) rfl scope
  announce scope s _ spec hpass hnew := growth_steps (s.growsTo_announce spec hpass hnew) rfl scope
  final scope s := growth_steps (s.growsTo_nameIsFinal true) rfl scope

instance (learn : Forms.Register) [Forms.Registers learn] (scope : Scope) (name : Text) :
    Keeps growth scope (register (learn name)) := keeps_register learns_growth learn scope name

instance (walk : Walk) [KeepsWalk growth walk] (scope : Scope) (rule : FormRule) (head : Text)
    (tail : List Tree) : Keeps growth scope (rule.convert walk head tail) := by
  by_cases hkind : rule = .macroDefinition
  · rw [hkind]
    refine Forms.keeps_convertMacro (fun name params definition _ => ?_) fun _ _ _ _ _ => ?_
    · exact Forms.keeps_prepareMacro expands_growth (fun _ _ => trivial) name params definition
    · infer_instance
  · refine keeps_convertRule walk hkind head fun learn name hlearn _ => ?_
    have := FormRule.registers_of_learned? hlearn
    infer_instance

instance (walk : Walk) [KeepsWalk growth walk] (scope : Scope) (head : Tree) (tail : List Tree) :
    Keeps growth scope (convertHeaded walk head tail) := by
  unfold convertHeaded
  refine Keeps.bind inferInstance fun s => ?_
  split
  · split
    · infer_instance
    · split
      · infer_instance
      · split <;> infer_instance
  · split <;> infer_instance
  · split <;> infer_instance
  · split <;> infer_instance
  · infer_instance

/-- Whatever the form, its conversion is growth if that of the forms inside it is. -/
instance (walk : Walk) [KeepsWalk growth walk] (scope : Scope) (form : Tree) :
    Keeps growth scope (convertNode walk form) := by
  unfold convertNode
  split <;> infer_instance

/-! ## Steps that only grow the session -/

namespace Rewrite

/-- Steps after which the session has grown, whether they yield a result or a fault. -/
abbrev Growing {α : Type} (step : Rewrite α) : Prop := Keeps growth .frame step

/-- A walk is growing when it is so on every form. -/
abbrev GrowingWalk (walk : Walk) : Prop := KeepsWalk growth walk

/-- Running a growing step is growth. -/
theorem growsTo_runFrom {α : Type} (step : Rewrite α) [Growing step] (s : Session) :
    s.GrowsTo (step.runFrom s).2 := (steps_runFrom growth .frame step s).1

/-- A run that is known is growth. -/
theorem Growing.of_run {α : Type} {step : Rewrite α} [h : Growing step] {s t : Session}
    {result : Except Fault α} (hrun : step.runFrom s = (result, t)) : s.GrowsTo t :=
  (Keeps.steps_of_run h hrun).1

end Rewrite

instance (steps : Nat) : GrowingWalk (convertWithin steps) := by
  induction steps with
  | zero => exact fun scope form => inferInstanceAs (Keeps growth scope (pure form))
  | succ steps ih => exact fun scope form => inferInstanceAs (Keeps growth scope (convertNode _ form))

instance : GrowingWalk convert := fun scope form =>
  inferInstanceAs (Keeps growth scope (convertWithin (weight form) form))

end LispNamespace
