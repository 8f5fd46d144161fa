import LispNamespace.Proofs.Approach
import LispNamespace.Proofs.GrammarChains
import LispNamespace.Proofs.PlanOrder
import LispNamespace.Proofs.Discipline.Convert
import LispNamespace.Proofs.Runs

/-!
# Arguments that do not fit their grammar

Arguments are classified before any of them is converted, so when they do not fit, nothing has been
done to them. To convert the arguments may itself meet calls whose arguments do not fit. These are
reported where they are met and are no faults, so a mismatch that is caught around the classification
and the conversion together is always one of the classification.
-/

namespace LispNamespace

open Rewrite

/-! ## Conversions end with no mismatch -/

/-- Nothing is asked of sessions, but no run ends because arguments do not fit. -/
def fitting : Discipline where
  Steps _ _ _ := True
  Allows _ fault := ∀ why, fault ≠ .mismatch why

instance : fitting.Lawful where
  refl _ _ := trivial
  trans _ _ := trivial
  journal _ _ _ := trivial
  clear _ _ := trivial
  growFrame _ _ := trivial
  popFrame _ := trivial
  allows_popFrame h := h
  allows_classify _ hfault := hfault

theorem expands_fitting : fitting.Expands where
  addMacro _ _ _ := trivial
  declareGrammar _ _ _ _ := trivial
  announce _ _ _ _ _ _ := trivial
  final _ _ := trivial

/-- Every form is admitted: no step of a conversion lets a misfit out. -/
theorem admitsForms_fitting : fitting.AdmitsForms fun _ _ => True where
  children _ _ := trivial
  inner _ _ := trivial
  learns _ _ hlearn _ scope := keeps_learned (fun _ _ _ => trivial) hlearn scope _
  macros := by
    intro steps head tail _ _ hwalk scope
    refine Forms.keeps_convertMacro (fun name params definition _ => ?_) ?_
    · refine Forms.keeps_prepareMacro expands_fitting (fun s _ => ?_) name params definition
      rintro why ⟨⟩
    · exact fun _ params definition _ name => hwalk steps (Nat.le_refl steps) scope _ trivial

instance keepsWalk_fitting : KeepsWalk fitting convert :=
  fun scope _ => keeps_convert admitsForms_fitting trivial scope

/-! ## Catching mismatches -/

/-- A fault is handled in the session that was reached with it. -/
theorem Rewrite.runFrom_tryCatch {α : Type} (step : Rewrite α) (handle : Fault → Rewrite α)
    (s : Session) :
    (tryCatch step handle).runFrom s =
      match step.runFrom s with
      | (.ok a, t) => (.ok a, t)
      | (.error fault, t) => (handle fault).runFrom t := by
  simp only [runFrom, tryCatch, tryCatchThe, MonadExceptOf.tryCatch, ExceptT.tryCatch, ExceptT.mk,
    ExceptT.run, StateT.run, StateT.bind, bind, Id.run]
  rcases step s with ⟨_ | _, _⟩ <;> rfl

namespace Forms

/-- Rewrites arguments as their grammar says in one attempt. A mismatch, no matter where it arises,
leaves the arguments as they are, with a warning. -/
def attemptByGrammar (walk : Walk) (head : Text) (spec : Tree) (args : List Tree) :
    Rewrite (List Tree) :=
  tryCatch
    (do
      match Grammar.classify (← get).grammars spec args with
      | .ok plans => Plan.applyAll walk pure plans args
      | .error fault => throw fault)
    fun
      | .mismatch why => do
          warn (.ambiguousShape (Tree.call head args) spec why)
          return args
      | fault => throw fault

/-- Whether the arguments fit is settled before any of them is walked. -/
theorem runFrom_convertByGrammar (walk : Walk) (head : Text) (spec : Tree) (args : List Tree)
    (s : Session) :
    (convertByGrammar walk head spec args).runFrom s =
      match Grammar.classify s.grammars spec args with
      | .ok plans => (Plan.applyAll walk pure plans args : Rewrite (List Tree)).runFrom s
      | .error (.mismatch why) => (.ok args, s.warn (.ambiguousShape (Tree.call head args) spec why))
      | .error fault => (.error fault, s) := by
  unfold convertByGrammar
  rw [runFrom_bind, runFrom_get]
  dsimp only
  cases Grammar.classify s.grammars spec args with
  | ok plans => rfl
  | error fault => cases fault <;> rfl

/-- Because no conversion ends with a mismatch, it makes no difference that mismatches are caught
around the conversion of the arguments, too. -/
theorem attemptByGrammar_eq (head : Text) (spec : Tree) (args : List Tree) :
    attemptByGrammar convert head spec args = convertByGrammar convert head spec args := by
  refine Rewrite.ext fun s => ?_
  unfold attemptByGrammar
  rw [runFrom_convertByGrammar, runFrom_tryCatch, runFrom_bind, runFrom_get]
  dsimp only
  cases hclassify : Grammar.classify s.grammars spec args with
  | ok plans =>
      have hkeeps : Keeps fitting .form (Plan.applyAll convert pure plans args : Rewrite (List Tree)) :=
        inferInstance
      dsimp only
      rcases hrun : (Plan.applyAll convert pure plans args : Rewrite (List Tree)).runFrom s with
        ⟨fault | results, t⟩
      · have hfault := hkeeps.allows_of_run hrun
        dsimp only
        split
        · exact absurd rfl (hfault _)
        · rfl
      · rfl
  | error fault => cases fault <;> rfl

/-- A call whose arguments do not fit is left alone as a whole. Let the arguments of a call have been
rewritten as their grammar says. If they do not fit it, they come out as they are, whatever is done
with forms, and all that happened is that a warning was reported, in the rewriting pass. If they fit,
they come out as their plan says, and the session is the one that the conversion of the code among
them leaves, so that all warnings are those of calls inside it. The same comes out if mismatches are
caught around the conversion of the arguments, too. -/
theorem convertByGrammar_atomic {s t : Session} {head : Text} {spec : Tree} {args out : List Tree}
    (hrun : (convertByGrammar convert head spec args).runFrom s = (.ok out, t)) :
    (∀ fault, Grammar.classify s.grammars spec args = .error fault →
      ∃ why, fault = .mismatch why ∧ out = args ∧ t = { s with journal := t.journal } ∧
        t.journal =
          (if s.pass = .rewriting then
            .warning (.ambiguousShape (Tree.call head args) spec why) :: s.journal
          else s.journal) ∧
        ∀ walk, (convertByGrammar walk head spec args).runFrom s = (.ok args, t)) ∧
    (∀ plans, Grammar.classify s.grammars spec args = .ok plans →
      (Plan.applyAll convert pure plans args : Rewrite (List Tree)).runFrom s = (.ok out, t) ∧
      ∃ results,
        ((Plan.sitesFrom 0 plans args).mapM (Plan.Site.visit convert pure)).runFrom s =
          (.ok results, t) ∧
        out = Plan.refillAll plans args results) ∧
    attemptByGrammar convert head spec args = convertByGrammar convert head spec args := by
  rw [runFrom_convertByGrammar] at hrun
  refine ⟨fun fault hclassify => ?_, fun plans hclassify => ?_, attemptByGrammar_eq head spec args⟩
  · rw [hclassify] at hrun
    -- a grammar that does not fit is the only fault that is caught
    cases fault with
    | mismatch why =>
        cases hrun
        refine ⟨why, rfl, rfl, ?_, ?_, fun walk => ?_⟩
        · unfold Session.warn
          split <;> rfl
        · unfold Session.warn
          split <;> rfl
        · rw [runFrom_convertByGrammar, hclassify]
    | _ => cases hrun
  · rw [hclassify] at hrun
    refine ⟨hrun, ?_⟩
    dsimp only at hrun
    rw [Plan.applyAll_eq convert pure 0] at hrun
    rcases runFrom_bind_ok.1 hrun with ⟨results, t', hvisits, hrefill⟩
    rcases runFrom_pure_ok.1 hrefill with ⟨rfl, rfl⟩
    exact ⟨results, hvisits, rfl⟩

/-- In the rewriting pass, a symbol in the place of a string is reported. -/
theorem convertByGrammar_atomic_stringp :
    ∃ why t, (convertByGrammar convert "m" (.list [.sym "stringp"]) [.sym "x"]).runFrom
        { Session.unset "p-" with pass := .rewriting } = (.ok [.sym "x"], t) ∧
      t.journal = [.warning (.ambiguousShape (Tree.call "m" [.sym "x"]) (.list [.sym "stringp"]) why)] := by
  have hrejected : (Grammar.classify
      (Session.grammars { Session.unset "p-" with pass := .rewriting }) (.list [.sym "stringp"])
      [.sym "x"]).isOk = false := by
    decide +kernel
  cases hclassify : Grammar.classify
      (Session.grammars { Session.unset "p-" with pass := .rewriting }) (.list [.sym "stringp"])
      [.sym "x"] with
  | ok plans =>
      rw [hclassify] at hrejected
      cases hrejected
  | error fault =>
      rcases Grammar.mismatch_of_classify_list hclassify with ⟨why, rfl⟩
      have hrun := runFrom_convertByGrammar convert "m" (.list [.sym "stringp"]) [.sym "x"]
        { Session.unset "p-" with pass := .rewriting }
      rw [hclassify] at hrun
      rcases (convertByGrammar_atomic hrun).1 _ hclassify with ⟨why', hwhy, -, -, hjournal, -⟩
      cases hwhy
      exact ⟨why, _, hrun, hjournal⟩

end Forms

end LispNamespace
