import LispNamespace.Session.Basic

/-!
# Rewriting steps

A rewriting step reads and changes the session and yields a result or a fault. The session is kept
either way. The rules for the various forms are steps that call a *walk* on the parts of a form that
are forms themselves; the walk is a parameter of the rules, so that each rule can be read and
reasoned about on its own.
-/

namespace LispNamespace

/-- A step of a rewrite. -/
abbrev Rewrite := ExceptT Fault (StateM Session)

/-- What is done with a form inside another one. -/
abbrev Walk := Tree → Rewrite Tree

namespace Rewrite

/-- Runs a step from a session. -/
def runFrom {α : Type} (step : Rewrite α) (s : Session) : Except Fault α × Session :=
  Id.run (StateT.run (ExceptT.run step) s)

/-- Runs a step inside a form that binds the given names. The frame is closed however the step
ends. -/
def withFrame {α : Type} (names : List Text) (step : Rewrite α) : Rewrite α :=
  ExceptT.mk fun s =>
    let (result, s) := step.runFrom (s.pushFrame names)
    (result, s.popFrame)

/-- Binds more names in the innermost frame. -/
def bindNames (names : List Text) : Rewrite Unit := modify (·.growFrame names)

/-- Reports a warning. -/
def warn (w : Warning) : Rewrite Unit := modify (·.warn w)

/-- Reports progress. -/
def trace (note : Note) : Rewrite Unit := modify (·.trace note)

/-- Changes the tables. -/
def register (change : Tables → Tables) : Rewrite Unit :=
  modify fun s => { s with tables := change s.tables }

/-- Whether the next definition already carries the final name; afterwards it does not. -/
def takeNameIsFinal : Rewrite Bool := do
  let s ← get
  set { s with nameIsFinal := false }
  return s.nameIsFinal

/-! ## What running a step does -/

variable {α β : Type}

@[simp] theorem runFrom_pure (a : α) (s : Session) : runFrom (pure a) s = (.ok a, s) := rfl

@[simp] theorem runFrom_throw (e : Fault) (s : Session) :
    runFrom (throw e : Rewrite α) s = (.error e, s) := rfl

@[simp] theorem runFrom_get (s : Session) : runFrom get s = (.ok s, s) := rfl

@[simp] theorem runFrom_modify (f : Session → Session) (s : Session) :
    runFrom (modify f) s = (.ok (), f s) := rfl

/-- A fault ends a sequence of steps where it arises, and the session reached there is kept. -/
theorem runFrom_bind (step : Rewrite α) (next : α → Rewrite β) (s : Session) :
    runFrom (step >>= next) s =
      match runFrom step s with
      | (.ok a, s) => runFrom (next a) s
      | (.error e, s) => (.error e, s) := by
  simp only [runFrom, bind, ExceptT.bind, ExceptT.mk, ExceptT.run, StateT.bind, StateT.run, Id.run]
  rcases step s with ⟨_ | _, _⟩ <;> rfl

/-- The frame is closed also when the step inside it ends with a fault. -/
@[simp] theorem runFrom_withFrame (names : List Text) (step : Rewrite α) (s : Session) :
    runFrom (withFrame names step) s =
      ((runFrom step (s.pushFrame names)).1, (runFrom step (s.pushFrame names)).2.popFrame) := rfl

end Rewrite

end LispNamespace
