import LispNamespace.Proofs.Approach

/-!
# The frame of a conversion

A conversion leaves alone what it has no business with, whether it yields a result or a fault. The
frames around the form, the context and the pass stay as they are, nothing that is known is
forgotten, and where no macro is defined, nothing about macros or about the host changes.
-/

namespace LispNamespace

open Rewrite

/-- What is known about macros, and the host, stay as they are. Any fault may end the run. -/
def macrosUnchanged : Discipline where
  Steps _ s t :=
    t.tables.macros = s.tables.macros ∧ t.tables.grammars = s.tables.grammars ∧ t.host = s.host
  Allows _ _ := True

instance : macrosUnchanged.Lawful where
  refl _ _ := ⟨rfl, rfl, rfl⟩
  trans h h' := ⟨h'.1.trans h.1, h'.2.1.trans h.2.1, h'.2.2.trans h.2.2⟩
  journal _ _ _ := ⟨rfl, rfl, rfl⟩
  clear _ _ := ⟨rfl, rfl, rfl⟩
  growFrame := by
    intro s names
    unfold Session.growFrame
    split <;> exact ⟨rfl, rfl, rfl⟩
  popFrame h := h
  allows_popFrame _ := trivial
  allows_classify _ _ := trivial

theorem learns_macrosUnchanged : macrosUnchanged.Learns :=
  fun _ s addition => ⟨Addition.macros_apply s.tables addition, Addition.grammars_apply s.tables addition, rfl⟩

/-- Whatever the session and the form, and however the conversion ends: the session has only grown,
which leaves the context, the pass and the names of the host as they are, forgets no name, macro or
grammar, and makes macros known to the host in the rewriting pass only; the frames are those from
before; and if no list in the form defines a macro, then the macros and grammars of the namespace
and the whole host are unchanged. -/
theorem convert_frame (s : Session) (form : Tree) :
    s.GrowsTo ((convert form).runFrom s).2 ∧
      ((convert form).runFrom s).2.frames = s.frames ∧
      (form.everywhere Tree.definesNoMacro = true →
        ((convert form).runFrom s).2.tables.macros = s.tables.macros ∧
        ((convert form).runFrom s).2.tables.grammars = s.tables.grammars ∧
        ((convert form).runFrom s).2.host = s.host) := by
  have hgrowth : growth.Steps .form s ((convert form).runFrom s).2 :=
    steps_runFrom growth .form (convert form) s
  refine ⟨hgrowth.1, hgrowth.2, fun hform => ?_⟩
  -- only the definition of a macro changes what is known about macros
  have hkeeps := keeps_convert learns_macrosUnchanged.admitsForms hform .form
  exact (hkeeps.keepsFrom s).steps

/-- The definition of a function tells the host nothing. -/
theorem convert_frame_recursion :
    (Tree.recursion "f").everywhere Tree.definesNoMacro = true ∧
      ((convert (.recursion "f")).runFrom (.unset "p-")).2.host = .empty := by
  have hform : (Tree.recursion "f").everywhere Tree.definesNoMacro = true := by decide
  exact ⟨hform, ((convert_frame (.unset "p-") (.recursion "f")).2.2 hform).2.2⟩

end LispNamespace
