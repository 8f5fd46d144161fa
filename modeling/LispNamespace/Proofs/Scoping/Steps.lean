import LispNamespace.Proofs.Approach
import LispNamespace.Proofs.Binding.References

/-!
# Steps that only ask which names are local

A conversion asks whether a name is local, and never which of the frames binds it. So two sessions in
which the same names are local, spread over frames in whatever way, are converted from alike: with
the same result or the same fault, and to sessions that again agree in this way. What is reported on
the way may differ.
-/

namespace LispNamespace

/-! ## Sessions that know the same -/

/-- The sessions know the same. They may differ in their frames and in what has been reported. -/
structure Session.SameKnowledge (s t : Session) : Prop where
  context : t.context = s.context
  host : t.host = s.host
  tables : t.tables = s.tables
  pass : t.pass = s.pass
  nameIsFinal : t.nameIsFinal = s.nameIsFinal

/-- The sessions know the same, and the same names are local in them. A part of a binding form has a
frame in which it binds names. -/
structure Session.SameScope (scope : Scope) (s t : Session) : Prop extends s.SameKnowledge t where
  shadowed : ∀ name, t.isShadowed name = s.isShadowed name
  framed : scope = .frame → s.frames ≠ [] ∧ t.frames ≠ []

namespace Session

variable {scope : Scope} {s t u : Session}

namespace SameKnowledge

protected theorem refl (s : Session) : s.SameKnowledge s := ⟨rfl, rfl, rfl, rfl, rfl⟩

protected theorem symm (h : s.SameKnowledge t) : t.SameKnowledge s :=
  ⟨h.context.symm, h.host.symm, h.tables.symm, h.pass.symm, h.nameIsFinal.symm⟩

protected theorem trans (h : s.SameKnowledge t) (h' : t.SameKnowledge u) : s.SameKnowledge u where
  context := h'.context.trans h.context
  host := h'.host.trans h.host
  tables := h'.tables.trans h.tables
  pass := h'.pass.trans h.pass
  nameIsFinal := h'.nameIsFinal.trans h.nameIsFinal

theorem growFrame (s : Session) (names : List Text) : s.SameKnowledge (s.growFrame names) := by
  unfold Session.growFrame
  split <;> exact ⟨rfl, rfl, rfl, rfl, rfl⟩

/-- Only the frames and the journal tell the sessions apart. -/
theorem eq (h : s.SameKnowledge t) : t = { s with frames := t.frames, journal := t.journal } := by
  cases t
  cases h.context
  cases h.host
  cases h.tables
  cases h.pass
  cases h.nameIsFinal
  rfl

/-- With the same frames, only the journal does. -/
theorem eq_of_frames (h : s.SameKnowledge t) (hframes : t.frames = s.frames) :
    t = { s with journal := t.journal } := by
  have heq := h.eq
  rw [hframes] at heq
  exact heq

end SameKnowledge

namespace SameScope

protected theorem refl (s : Session) : SameScope .form s s := ⟨.refl s, fun _ => rfl, nofun⟩

protected theorem symm (h : SameScope scope s t) : SameScope scope t s where
  toSameKnowledge := h.toSameKnowledge.symm
  shadowed name := (h.shadowed name).symm
  framed hscope := (h.framed hscope).symm

/-- What changes neither the frames nor makes the sessions know different things. -/
theorem update (h : SameScope scope s t) {s' t' : Session} (hknow : s'.SameKnowledge t')
    (hs : s'.frames = s.frames) (ht : t'.frames = t.frames) : SameScope scope s' t' where
  toSameKnowledge := hknow
  shadowed name := by rw [isShadowed_congr ht, isShadowed_congr hs, h.shadowed]
  framed hscope := by
    rw [hs, ht]
    exact h.framed hscope

/-- The names that are local to a form are bound in a frame of its own. -/
theorem pushFrame (h : SameScope scope s t) (names : List Text) :
    SameScope .frame (s.pushFrame names) (t.pushFrame names) where
  toSameKnowledge := { h.toSameKnowledge with }
  shadowed name := by rw [isShadowed_pushFrame, isShadowed_pushFrame, h.shadowed]
  framed _ := ⟨List.cons_ne_nil _ _, List.cons_ne_nil _ _⟩

/-- A frame that makes no other names local makes no difference. -/
theorem pushFrame_right (h : SameScope .form s t) (names : List Text)
    (hnames : ∀ name ∈ names, s.isShadowed name = true) : SameScope .form s (t.pushFrame names) where
  toSameKnowledge := { h.toSameKnowledge with }
  shadowed name := by
    rw [isShadowed_pushFrame, h.shadowed]
    by_cases hname : name ∈ names
    · rw [hnames name hname, Bool.or_true]
    · rw [List.contains_eq_mem, decide_eq_false hname, Bool.false_or]
  framed := nofun

theorem growFrame (h : SameScope .frame s t) (names : List Text) :
    SameScope .frame (s.growFrame names) (t.growFrame names) := by
  have hs := (h.framed rfl).1
  have ht := (h.framed rfl).2
  exact {
    toSameKnowledge :=
      ((SameKnowledge.growFrame s names).symm.trans h.toSameKnowledge).trans (.growFrame t names)
    shadowed := fun name => by
      rw [isShadowed_growFrame ht, isShadowed_growFrame hs, h.shadowed]
    framed := fun _ =>
      ⟨(s.growsTo_growFrame names).frames_ne_nil hs, (t.growsTo_growFrame names).frames_ne_nil ht⟩ }

/-- To bind names in the innermost frame or in a new one makes the same names local. -/
theorem growFrame_pushFrame (h : SameScope .form s t) (hs : s.frames ≠ []) (names : List Text) :
    SameScope .form (s.growFrame names) (t.pushFrame names) where
  toSameKnowledge := { (SameKnowledge.growFrame s names).symm.trans h.toSameKnowledge with }
  shadowed name := by rw [isShadowed_pushFrame, isShadowed_growFrame hs, h.shadowed]
  framed := nofun

/-! ### What is asked of a session -/

theorem isFree (h : SameScope scope s t) (name : Text) : t.isFree name = s.isFree name := by
  unfold Session.isFree
  rw [h.shadowed]

/-- The tables and the host are the same, so that references are treated alike. -/
theorem isVariable (h : SameScope scope s t) (name : Text) : t.isVariable name = s.isVariable name := by
  unfold Session.isVariable asksHost qualified
  rw [h.isFree, h.tables, h.host, h.context]

theorem isFunction (h : SameScope scope s t) (name : Text) : t.isFunction name = s.isFunction name := by
  unfold Session.isFunction asksHost qualified
  rw [h.isFree, h.tables, h.host, h.context]

end SameScope

end Session

namespace Rewrite

/-! ## Runs from sessions with the same scope -/

/-- Run from sessions in which the same names are local, the steps give the same result or fault, and
leave sessions in which the same names are local. -/
structure Matches (scope : Scope) {α : Type} (step other : Rewrite α) : Prop where
  result : ∀ {s t : Session}, s.SameScope scope t → (other.runFrom t).1 = (step.runFrom s).1
  session : ∀ {s t : Session}, s.SameScope scope t →
    (step.runFrom s).2.SameScope scope (other.runFrom t).2

/-- It makes no difference for the step over which frames the local names are spread. -/
class Indifferent (scope : Scope) {α : Type} (step : Rewrite α) : Prop where
  matches_self : Matches scope step step

/-- A walk is indifferent when it is so on every form. -/
abbrev IndifferentWalk (walk : Walk) : Prop := ∀ scope form, Indifferent scope (walk form)

variable {scope : Scope} {α β : Type}

namespace Matches

/-- Two runs that match, where the first one is known. -/
theorem of_run {step other : Rewrite α} (h : Matches scope step other) {s t s' : Session}
    (hst : s.SameScope scope t) {result : Except Fault α} (hrun : step.runFrom s = (result, s')) :
    ∃ t', other.runFrom t = (result, t') ∧ s'.SameScope scope t' := by
  have hresult := h.result hst
  have hsession := h.session hst
  rw [hrun] at hresult hsession
  exact ⟨(other.runFrom t).2, Prod.ext hresult rfl, hsession⟩

/-- Steps match if their runs do, however the first one ends. -/
theorem of_forall_run {step other : Rewrite α}
    (h : ∀ {s t}, s.SameScope scope t → ∀ result s', step.runFrom s = (result, s') →
      ∃ t', other.runFrom t = (result, t') ∧ s'.SameScope scope t') : Matches scope step other where
  result {s _} hst := by
    rcases h hst (step.runFrom s).1 (step.runFrom s).2 rfl with ⟨t', hrun, -⟩
    rw [hrun]
  session {s _} hst := by
    rcases h hst (step.runFrom s).1 (step.runFrom s).2 rfl with ⟨t', hrun, hsame⟩
    rwa [hrun]

theorem pure (a : α) : Matches scope (pure a : Rewrite α) (pure a) := ⟨fun _ => rfl, fun h => h⟩

theorem throw (fault : Fault) : Matches scope (throw fault : Rewrite α) (throw fault) :=
  ⟨fun _ => rfl, fun h => h⟩

theorem modify {f : Session → Session}
    (h : ∀ s t, s.SameScope scope t → (f s).SameScope scope (f t)) :
    Matches scope (modify f : Rewrite Unit) (modify f) := ⟨fun _ => rfl, fun hst => h _ _ hst⟩

theorem bind {step other : Rewrite α} {next next' : α → Rewrite β} (h : Matches scope step other)
    (hnext : ∀ a, Matches scope (next a) (next' a)) :
    Matches scope (step >>= next) (other >>= next') := by
  refine of_forall_run fun {s t} hst result s' hrun => ?_
  rw [runFrom_bind] at hrun
  rcases hstep : step.runFrom s with ⟨fault | a, s₁⟩
  · rw [hstep] at hrun
    cases hrun
    rcases h.of_run hst hstep with ⟨t', hother, hsame⟩
    exact ⟨t', by rw [runFrom_bind, hother], hsame⟩
  · rw [hstep] at hrun
    rcases h.of_run hst hstep with ⟨t₁, hother, hsame⟩
    rw [runFrom_bind, hother]
    exact (hnext a).of_run hsame hrun

/-- What is done after the session has been looked at depends on what both sessions tell. -/
theorem read {f : Session → Rewrite α} (heq : ∀ s t, s.SameScope scope t → f t = f s)
    (hf : ∀ s, Matches scope (f s) (f s)) : Matches scope (get >>= f) (get >>= f) := by
  refine of_forall_run fun {s t} hst result s' hrun => ?_
  rw [runFrom_bind, runFrom_get] at hrun ⊢
  dsimp only at hrun ⊢
  rw [heq s t hst]
  exact (hf s).of_run hst hrun

/-- A frame is closed with the frames around it as they were. -/
theorem withFrame (names : List Text) {step other : Rewrite α} [Growing step] [Growing other]
    (h : Matches .frame step other) :
    Matches scope (withFrame names step) (withFrame names other) := by
  have houter : ∀ (inner : Rewrite α) [Growing inner] (s : Session),
      (inner.runFrom (s.pushFrame names)).2.popFrame.frames = s.frames := by
    intro inner hgrowing s
    exact (growsTo_runFrom inner (s.pushFrame names)).outerFrames
  constructor
  · intro s t hst
    rw [runFrom_withFrame, runFrom_withFrame]
    exact h.result (hst.pushFrame names)
  · intro s t hst
    rw [runFrom_withFrame, runFrom_withFrame]
    have hknow := (h.session (hst.pushFrame names)).toSameKnowledge
    exact hst.update { hknow with } (houter step s) (houter other t)

end Matches

/-! ## How indifferent steps are put together -/

namespace Indifferent

theorem bind {step : Rewrite α} {next : α → Rewrite β} (h : Indifferent scope step)
    (hnext : ∀ a, Indifferent scope (next a)) : Indifferent scope (step >>= next) :=
  ⟨h.matches_self.bind fun a => (hnext a).matches_self⟩

theorem read {f : Session → Rewrite α} (heq : ∀ s t, s.SameScope scope t → f t = f s)
    (hf : ∀ s, Indifferent scope (f s)) : Indifferent scope (get >>= f) :=
  ⟨.read heq fun s => (hf s).matches_self⟩

theorem modify {f : Session → Session}
    (h : ∀ s t, s.SameScope scope t → (f s).SameScope scope (f t)) :
    Indifferent scope (modify f : Rewrite Unit) := ⟨.modify h⟩

end Indifferent

instance (a : α) : Indifferent scope (pure a : Rewrite α) := ⟨.pure a⟩

instance (fault : Fault) : Indifferent scope (throw fault : Rewrite α) := ⟨.throw fault⟩

instance (step : Rewrite α) (next : α → Rewrite β) [h : Indifferent scope step]
    [hnext : ∀ a, Indifferent scope (next a)] : Indifferent scope (step >>= next) := h.bind hnext

/-- Nothing depends on a session that is looked at for nothing. -/
instance (step : Rewrite α) [Indifferent scope step] :
    Indifferent scope (get >>= fun _ => step) := .read (fun _ _ _ => rfl) inferInstance

instance (c : Prop) [Decidable c] (step other : Rewrite α) [Indifferent scope step]
    [Indifferent scope other] : Indifferent scope (if c then step else other) := by
  split <;> infer_instance

instance (names : List Text) (step : Rewrite α) [h : Indifferent .frame step] [Growing step] :
    Indifferent scope (withFrame names step) := ⟨h.matches_self.withFrame names⟩

instance (f : α → Rewrite β) [∀ a, Indifferent scope (f a)] (items : List α) :
    Indifferent scope (items.mapM f) := by
  induction items with
  | nil => rw [List.mapM_nil]; infer_instance
  | cons a items ih => rw [List.mapM_cons]; infer_instance

/-! ## Single steps -/

instance (w : Warning) : Indifferent scope (warn w) := by
  refine .modify fun s t h => ?_
  unfold Session.warn
  by_cases hpass : s.pass = .rewriting
  · rw [if_pos hpass, if_pos (h.pass.trans hpass)]
    exact h.update { h.toSameKnowledge with } rfl rfl
  · rw [if_neg hpass, if_neg (h.pass ▸ hpass)]
    exact h

instance (note : Note) : Indifferent scope (trace note) :=
  .modify fun _ _ h => h.update { h.toSameKnowledge with } rfl rfl

instance (names : List Text) : Indifferent .frame (bindNames names) :=
  .modify fun _ _ h => h.growFrame names

instance (change : Tables → Tables) : Indifferent scope (register change) :=
  .modify fun _ _ h =>
    h.update { h.toSameKnowledge with tables := congrArg change h.tables } rfl rfl

instance : Indifferent scope takeNameIsFinal where
  matches_self :=
    { result := fun h => congrArg Except.ok h.nameIsFinal
      session := fun h => h.update { h.toSameKnowledge with nameIsFinal := rfl } rfl rfl }

end Rewrite

end LispNamespace
