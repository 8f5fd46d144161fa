import LispNamespace.Session.Rewrite

/-!
# Runs that yield a result

A run of several steps that yields a result is made of runs of the single steps that do. A step may
also demand that something holds, and end the run if it does not.
-/

namespace LispNamespace.Rewrite

variable {α β : Type} {s s' s'' : Session}

/-- A sequence of steps yields a result when both of them do, one after the other. -/
theorem runFrom_bind_ok {step : Rewrite α} {next : α → Rewrite β} {b : β} :
    (step >>= next).runFrom s = (.ok b, s'') ↔
      ∃ a s', step.runFrom s = (.ok a, s') ∧ (next a).runFrom s' = (.ok b, s'') := by
  rw [runFrom_bind]
  rcases hstep : step.runFrom s with ⟨fault | a, s'⟩
  · constructor
    · intro h
      cases h
    · rintro ⟨_, _, h, -⟩
      cases h
  · constructor
    · intro h
      exact ⟨a, s', rfl, h⟩
    · rintro ⟨_, _, h, h'⟩
      cases h
      exact h'

/-- Whether the run yields a result, and the result and the session that it ends in pass the check. -/
def yields (check : α → Session → Bool) (run : Except Fault α × Session) : Bool :=
  match run with
  | (.ok a, t) => check a t
  | _ => false

/-- A run that passes a check yields a result which does. -/
theorem exists_of_yields {check : α → Session → Bool} {run : Except Fault α × Session}
    (h : yields check run = true) : ∃ a t, run = (.ok a, t) ∧ check a t = true := by
  rcases run with ⟨fault | a, t⟩
  · cases h
  · exact ⟨a, t, rfl, h⟩

theorem runFrom_pure_ok {a b : α} : (pure a : Rewrite α).runFrom s = (.ok b, s') ↔ b = a ∧ s' = s := by
  rw [runFrom_pure]
  constructor
  · intro h
    cases h
    exact ⟨rfl, rfl⟩
  · rintro ⟨rfl, rfl⟩
    rfl

/-- A step in a frame of its own yields a result if it does with the frame in place, and the frame
is gone afterwards. -/
theorem runFrom_withFrame_ok {names : List Text} {step : Rewrite α} {a : α} :
    (withFrame names step).runFrom s = (.ok a, s'') ↔
      ∃ s', step.runFrom (s.pushFrame names) = (.ok a, s') ∧ s'' = s'.popFrame := by
  rw [runFrom_withFrame]
  rcases step.runFrom (s.pushFrame names) with ⟨fault | b, s'⟩
  · constructor
    · intro h
      cases h
    · rintro ⟨_, h, -⟩
      cases h
  · constructor
    · intro h
      cases h
      exact ⟨s', rfl, rfl⟩
    · rintro ⟨_, h, rfl⟩
      cases h
      rfl

/-- After names have been bound, the next step runs with a grown frame. -/
theorem runFrom_bindNames (names : List Text) (next : Unit → Rewrite α) (s : Session) :
    (bindNames names >>= next).runFrom s = (next ()).runFrom (s.growFrame names) := by
  unfold bindNames
  rw [runFrom_bind, runFrom_modify]

/-! ## Demands -/

/-- Ends a run with the report unless the condition holds. -/
def demand (report : Fault) (condition : Bool) : Rewrite Unit :=
  if condition then pure () else throw report

/-! ## Walks over lists -/

variable {f : α → Rewrite β} {items : List α} {results : List β}

/-- A list is walked by walking its first item and then the others. -/
theorem runFrom_mapM_cons {item : α} :
    ((item :: items).mapM f).runFrom s = (.ok results, s'') ↔
      ∃ result s' rest, (f item).runFrom s = (.ok result, s') ∧
        (items.mapM f).runFrom s' = (.ok rest, s'') ∧ results = result :: rest := by
  rw [List.mapM_cons, runFrom_bind_ok]
  constructor
  · rintro ⟨result, s', hfirst, h⟩
    rcases runFrom_bind_ok.1 h with ⟨rest, s₂, hrest, hpure⟩
    rcases runFrom_pure_ok.1 hpure with ⟨rfl, rfl⟩
    exact ⟨result, s', rest, hfirst, hrest, rfl⟩
  · rintro ⟨result, s', rest, hfirst, hrest, rfl⟩
    exact ⟨result, s', hfirst, runFrom_bind_ok.2 ⟨rest, s'', hrest, runFrom_pure_ok.2 ⟨rfl, rfl⟩⟩⟩

/-- As many results come out as there are items. -/
theorem length_of_mapM (h : (items.mapM f).runFrom s = (.ok results, s')) :
    results.length = items.length := by
  induction items generalizing s results with
  | nil =>
      cases h
      rfl
  | cons item items ih =>
      rcases runFrom_mapM_cons.1 h with ⟨_, _, rest, -, hrest, rfl⟩
      exact congrArg (· + 1) (ih hrest)

end LispNamespace.Rewrite
