import LispNamespace.Namespace
import LispNamespace.Proofs.Runs

/-!
# Rewrites of whole bodies

How the rewrite of a body is made up of the conversions of its forms: the two passes of a session,
and the rewrite of a namespace in a session of its own.
-/

namespace LispNamespace

open Rewrite

/-! ## The passes of a session -/

namespace Namespace

/-- Discovery converts all forms and drops what comes out. -/
theorem runFrom_discover {body : List Tree} {s s' : Session} :
    (discover body).runFrom s = (.ok (), s') ↔ ∃ results,
      (body.mapM convert).runFrom { s with pass := .discovery } = (.ok results, s') := by
  unfold discover
  rw [Rewrite.runFrom_bind, Rewrite.runFrom_modify]
  dsimp only
  rw [Rewrite.runFrom_bind]
  rcases (body.mapM convert).runFrom { s with pass := .discovery } with ⟨fault | results, t⟩
  · constructor
    · intro h
      cases h
    · rintro ⟨_, h⟩
      cases h
  · constructor
    · intro h
      cases h
      exact ⟨results, rfl⟩
    · rintro ⟨_, h⟩
      cases h
      rfl

theorem runFrom_transform (body : List Tree) (s : Session) :
    (transform body).runFrom s = (body.mapM convert).runFrom { s with pass := .rewriting } := by
  unfold transform
  rw [Rewrite.runFrom_bind, Rewrite.runFrom_modify]

/-- The first pass over the forms, up to the beginning of the second one. -/
def survey (forms : List Tree) : Rewrite Unit := do
  let qualifier := (← get).context.qualifier
  Rewrite.trace (.discovering qualifier forms.length)
  discover forms
  let tables := (← get).tables
  Rewrite.trace (.discovered qualifier tables.variableNames.length tables.functionNames.length
    tables.macros.length)
  modify fun s => { s with pass := .rewriting }

/-- The passes are a survey of the forms, after which the forms to put out are converted. -/
theorem passes_eq (forms output : List Tree) :
    passes forms output = survey forms >>= fun _ => output.mapM convert := by
  unfold passes survey transform
  simp only [bind_assoc]

/-- The passes succeed if the first one does and the other forms can be converted after it. -/
theorem runFrom_passes {forms output results : List Tree} {s s' : Session} :
    (passes forms output).runFrom s = (.ok results, s') ↔ ∃ s₁,
      (survey forms).runFrom s = (.ok (), s₁) ∧
      (output.mapM convert).runFrom s₁ = (.ok results, s') := by
  rw [passes_eq, runFrom_bind]
  rcases (survey forms).runFrom s with ⟨fault | ⟨⟩, s₁⟩
  · constructor
    · intro h
      cases h
    · rintro ⟨_, h, -⟩
      cases h
  · constructor
    · intro h
      exact ⟨s₁, rfl, h⟩
    · rintro ⟨_, h, hrun⟩
      cases h
      exact hrun

/-- Between the passes, nothing but the pass and the journal changes. -/
theorem of_runFrom_survey {forms : List Tree} {s s₁ : Session}
    (h : (survey forms).runFrom s = (.ok (), s₁)) :
    ∃ j results s' k,
      (forms.mapM convert).runFrom { s with pass := .discovery, journal := j } = (.ok results, s') ∧
      s₁ = { s' with pass := .rewriting, journal := k } := by
  unfold survey at h
  rw [runFrom_bind, runFrom_get] at h
  dsimp only at h
  rw [runFrom_bind, Rewrite.trace, runFrom_modify] at h
  dsimp only at h
  rw [runFrom_bind] at h
  rcases hdiscover : (discover forms).runFrom (s.trace (.discovering s.context.qualifier forms.length))
    with ⟨fault | ⟨⟩, s'⟩
  · rw [hdiscover] at h
    cases h
  · rw [hdiscover] at h
    cases h
    rcases runFrom_discover.1 hdiscover with ⟨results, hrun⟩
    exact ⟨_, results, s', _, hrun, rfl⟩

end Namespace

/-! ## Sessions of their own -/

namespace Work

variable {α β : Type}

/-- A sequence of steps fails with the first step that does, and the workshop is left as that step
left it. -/
theorem runFrom_bind (step : Work α) (next : α → Work β) (w : Workshop) :
    runFrom (step >>= next) w =
      match runFrom step w with
      | (.ok a, w) => runFrom (next a) w
      | (.error e, w) => (.error e, w) := by
  simp only [runFrom, bind, ExceptT.bind, ExceptT.mk, ExceptT.run, StateT.bind, StateT.run, Id.run]
  rcases step w with ⟨_ | _, _⟩ <;> rfl

/-- A sequence of steps succeeds if all of them do. -/
theorem runFrom_bind_ok {step : Work α} {next : α → Work β} {w w' : Workshop} {b : β} :
    runFrom (step >>= next) w = (.ok b, w') ↔
      ∃ a w₁, runFrom step w = (.ok a, w₁) ∧ runFrom (next a) w₁ = (.ok b, w') := by
  rw [runFrom_bind]
  rcases runFrom step w with ⟨fault | a, w₁⟩
  · constructor
    · intro h
      cases h
    · rintro ⟨_, _, h, -⟩
      cases h
  · constructor
    · intro h
      exact ⟨a, w₁, rfl, h⟩
    · rintro ⟨_, _, h, hnext⟩
      cases h
      exact hnext

theorem runFrom_ofOptions {result : Except OptionError α} {w w' : Workshop} {a : α} :
    runFrom (ofOptions result) w = (.ok a, w') ↔ result = .ok a ∧ w' = w := by
  cases result with
  | error e =>
      constructor
      · intro h
        cases h
      · rintro ⟨h, -⟩
        cases h
  | ok value =>
      constructor
      · intro h
        cases h
        exact ⟨rfl, rfl⟩
      · rintro ⟨h, rfl⟩
        cases h
        rfl

end Work

/-! ## Namespaces -/

namespace Namespace

/-- The forms of a body without its markers. -/
def forms (body : List Tree) : List Tree := (splitMarked false body).1

/-- The forms of a body that are marked. -/
def marked (body : List Tree) : List Tree := (splitMarked false body).2.1

/-- The workshop once a body has been split. A marker at the end of the body has been reported. -/
def splitting (w : Workshop) (body : List Tree) : Workshop :=
  if (splitMarked false body).2.2 then
    { w with journal := .note .debug .trailingMarker :: w.journal }
  else w

/-- A body falls into its forms and those that are marked among them. Only a trace of this is left
in the journal. -/
theorem runFrom_splitAutoload (body : List Tree) (w : Workshop) :
    (splitAutoload body).runFrom w = (.ok (forms body, marked body), splitting w body) := by
  unfold splitAutoload splitting forms marked
  rcases splitMarked false body with ⟨forms, marked, _ | _⟩
  · rfl
  · rfl

/-- The session in which the passes over a body begin. -/
def begin (context : Context) (w : Workshop) (body : List Tree) : Session :=
  .start context w.host (splitting w body).journal

/-- The passes run in a session of their own, if no other rewrite is active. -/
theorem runFrom_run {context : Context} {forms output results : List Tree} {w w' : Workshop} :
    (run context forms output).runFrom w = (.ok results, w') ↔
      w.active = none ∧ ∃ s,
        (passes forms output).runFrom (.start context w.host w.journal) = (.ok results, s) ∧
        w' = ⟨s.host, none, s.journal⟩ := by
  have hsession : ∀ w : Workshop,
      (Work.inSession context (passes forms output)).runFrom w =
        let (result, s) := (passes forms output).runFrom (.start context w.host w.journal)
        (result, { w with host := s.host, journal := s.journal, active := none }) := fun _ => rfl
  unfold run
  rw [Work.runFrom_bind]
  rcases w with ⟨host, _ | current, journal⟩
  · have henter : (Work.enter context.written).runFrom ⟨host, none, journal⟩ =
        (.ok (), ⟨host, some context.written, journal⟩) := rfl
    rw [henter]
    dsimp only
    rw [hsession]
    dsimp only
    rcases (passes forms output).runFrom (.start context host journal) with ⟨outcome, s⟩
    constructor
    · intro h
      cases h
      exact ⟨rfl, s, rfl, rfl⟩
    · rintro ⟨-, s', h, rfl⟩
      cases h
      rfl
  -- while another rewrite is active, the session is not begun
  · constructor
    · intro h
      cases h
    · rintro ⟨h, -⟩
      cases h

theorem active_splitting (w : Workshop) (body : List Tree) :
    (splitting w body).active = w.active := by
  unfold splitting
  split
  · rfl
  · rfl

theorem host_splitting (w : Workshop) (body : List Tree) : (splitting w body).host = w.host := by
  unfold splitting
  split
  · rfl
  · rfl

variable {ambient : Ambient} {identifier : Tree} {options : WrittenOptions} {body : List Tree}
  {w w' : Workshop} {result : Tree}

/-- What is made of the results of the passes over a body: the context has been created, no other
rewrite was active, and both passes have succeeded. -/
theorem runFrom_passing (output : List Tree × List Tree → List Tree)
    (finish : Context → List Tree → Work Tree) :
    (Work.ofOptions (Context.create ambient identifier options) >>= fun context =>
        splitAutoload body >>= fun split =>
        run context split.1 (output split) >>= finish context).runFrom w = (.ok result, w') ↔
      ∃ context rewritten s, Context.create ambient identifier options = .ok context ∧
        w.active = none ∧
        (passes (forms body) (output (forms body, marked body))).runFrom (begin context w body) =
          (.ok rewritten, s) ∧
        (finish context rewritten).runFrom ⟨s.host, none, s.journal⟩ = (.ok result, w') := by
  unfold begin
  -- the steps are peeled off from the front, and put back in the other direction
  constructor
  · intro h
    rcases Work.runFrom_bind_ok.1 h with ⟨context, _, hoptions, hrest⟩
    rcases Work.runFrom_ofOptions.1 hoptions with ⟨hcontext, rfl⟩
    rcases Work.runFrom_bind_ok.1 hrest with ⟨split, w₂, hsplit, hrest₂⟩
    rw [runFrom_splitAutoload] at hsplit
    cases hsplit
    rcases Work.runFrom_bind_ok.1 hrest₂ with ⟨rewritten, w₃, hrun, hfinish⟩
    rcases runFrom_run.1 hrun with ⟨hactive, s, hpasses, rfl⟩
    rw [active_splitting] at hactive
    rw [host_splitting] at hpasses
    exact ⟨context, rewritten, s, hcontext, hactive, hpasses, hfinish⟩
  · rintro ⟨context, rewritten, s, hcontext, hactive, hpasses, hfinish⟩
    rw [← active_splitting w body] at hactive
    rw [← host_splitting w body] at hpasses
    refine Work.runFrom_bind_ok.2 ⟨context, w, Work.runFrom_ofOptions.2 ⟨hcontext, rfl⟩, ?_⟩
    refine Work.runFrom_bind_ok.2 ⟨_, _, runFrom_splitAutoload body w, ?_⟩
    exact Work.runFrom_bind_ok.2 ⟨rewritten, _, runFrom_run.2 ⟨hactive, s, hpasses, rfl⟩, hfinish⟩

/-- A namespace is rewritten if its context can be created, no other rewrite is active, the passes
succeed, and the customization group can be declared. -/
theorem runFrom_rewrite :
    (rewrite ambient identifier options body).runFrom w = (.ok result, w') ↔
      ∃ context rewritten groups s, Context.create ambient identifier options = .ok context ∧
        w.active = none ∧
        (passes (forms body) (forms body)).runFrom (begin context w body) = (.ok rewritten, s) ∧
        context.groupForms = .ok groups ∧ result = Tree.call "progn" (groups ++ rewritten) ∧
        w' = ⟨s.host, none, s.journal⟩ := by
  refine (runFrom_passing Prod.fst fun context rewritten =>
    Work.ofOptions context.groupForms >>= fun groups =>
      pure (Tree.call "progn" (groups ++ rewritten))).trans ?_
  constructor
  · rintro ⟨context, rewritten, s, hcontext, hactive, hpasses, hfinish⟩
    rcases Work.runFrom_bind_ok.1 hfinish with ⟨groups, _, hwritten, hpure⟩
    rcases Work.runFrom_ofOptions.1 hwritten with ⟨hgroups, rfl⟩
    cases hpure
    exact ⟨context, rewritten, groups, s, hcontext, hactive, hpasses, hgroups, rfl, rfl⟩
  · rintro ⟨context, rewritten, groups, s, hcontext, hactive, hpasses, hgroups, rfl, rfl⟩
    refine ⟨context, rewritten, s, hcontext, hactive, hpasses, ?_⟩
    exact Work.runFrom_bind_ok.2 ⟨groups, _, Work.runFrom_ofOptions.2 ⟨hgroups, rfl⟩, rfl⟩

/-- For the marked forms alone, the customization group plays no part. -/
theorem runFrom_autoload :
    (autoload ambient identifier options body).runFrom w = (.ok result, w') ↔
      ∃ context rewritten s, Context.create ambient identifier options = .ok context ∧
        w.active = none ∧
        (passes (forms body) (marked body)).runFrom (begin context w body) = (.ok rewritten, s) ∧
        result = Tree.call "progn" rewritten ∧ w' = ⟨s.host, none, s.journal⟩ := by
  refine (runFrom_passing Prod.snd fun _ rewritten =>
    pure (Tree.call "progn" rewritten)).trans ?_
  constructor
  · rintro ⟨context, rewritten, s, hcontext, hactive, hpasses, hpure⟩
    cases hpure
    exact ⟨context, rewritten, s, hcontext, hactive, hpasses, rfl, rfl⟩
  · rintro ⟨context, rewritten, s, hcontext, hactive, hpasses, rfl, rfl⟩
    exact ⟨context, rewritten, s, hcontext, hactive, hpasses, rfl⟩

/-! ## Small bodies -/

/-- A run that is no fault has a result. -/
theorem exists_of_isOk {α β : Type} {run : Except Fault α × β} (h : run.1.isOk = true) :
    ∃ result after, run = (.ok result, after) := by
  rcases run with ⟨fault | result, after⟩
  · cases h
  · exact ⟨result, after, rfl⟩

/-- The definition of a macro that expands to its argument, with declarations. -/
def identityMacro (name : Text) (declarations : List Tree) : Tree :=
  .call "defmacro" (.sym name :: .list [.sym "x"] :: declarations ++ [.sym "x"])

/-- The definition of a function without parameters. -/
def constantFunction (name : Text) (value : Tree) : Tree :=
  .call "defun" [.sym name, .nil, value]

end Namespace

end LispNamespace
