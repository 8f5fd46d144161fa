import LispNamespace.Proofs.Growth.Rules

/-!
# What is done with a form

What is done with a form that begins with a symbol depends on the symbol and on the session in which
the conversion begins, and on nothing else. It is either a call, whose arguments are treated in one
of four ways, or a form with a rule of its own.
-/

namespace LispNamespace

open Rewrite

/-! ## Treatments and approaches -/

/-- The name without the protection marker, if it has one: what the host is asked about at the head
of a call. -/
def Context.bare (c : Context) (name : Text) : Text :=
  if c.isEscaped name then c.stripProtection name else name

/-- What is done with the arguments of a call. -/
inductive Treatment where
  /-- Each one is converted. -/
  | forms
  /-- They are left alone. -/
  | data
  /-- They are left alone, because nothing is known about them. -/
  | unknown
  /-- They are converted as a grammar says. -/
  | byGrammar (spec : Tree)

/-- What is done with a form by the symbol at its head. -/
inductive Approach where
  /-- It has a rule of its own. -/
  | rule (rule : FormRule)
  /-- It is a call. -/
  | call (treatment : Treatment)

namespace Session

/-- What is done with the arguments of a macro. -/
def macroTreatment (s : Session) (head written : Text) : Treatment :=
  match s.callGrammar? head written with
  | none => .unknown
  | some spec =>
      if spec.isZero || spec.isNil then .data else if spec.isSym "t" then .forms else .byGrammar spec

/-- What is done with the arguments of a call. -/
def callTreatment (s : Session) (head written : Text) (isOwn : Bool) : Treatment :=
  if (if isOwn then s.isOwnMacro written else s.host.isMacroName head) then
    s.macroTreatment head written
  else .forms

/-- What is done with a form whose head is the symbol of the given name. -/
def approach (s : Session) (name : Text) : Approach :=
  if s.isEscaped name then
    .call (s.callTreatment (s.stripProtection name) (s.stripProtection name) false)
  else if s.isFunction name then .call (s.callTreatment (s.qualified name) name true)
  else
    match FormRule.ofHead? name with
    | some rule => .rule rule
    | none => .call (s.callTreatment name name false)

end Session

/-! ## Conversion by treatment -/

namespace Forms

/-- Rewrites the arguments of a call as it is done with them. -/
def convertTreated (walk : Walk) (head : Text) (treatment : Treatment) (args : List Tree) :
    Rewrite (List Tree) :=
  match treatment with
  | .forms => args.mapM walk
  | .data => return args
  | .unknown => do
      trace (.noGrammar (← get).context.qualifier head)
      return args
  | .byGrammar spec => convertByGrammar walk head spec args

/-- Rewrites a call whose head has the final name `head`. -/
def convertCallAs (walk : Walk) (head : Text) (treatment : Treatment) (args : List Tree) :
    Rewrite Tree := do
  return Tree.call head (← convertTreated walk head treatment args)

variable (walk : Walk)

instance {D : Discipline} [D.Lawful] [KeepsWalk D walk] (scope : Scope) (head : Text)
    (treatment : Treatment) (args : List Tree) :
    Keeps D scope (convertTreated walk head treatment args) := by
  unfold convertTreated
  split <;> infer_instance

/-- The arguments of a macro are treated as the session says in which they are met. -/
theorem runFrom_convertMacroArguments (head written : Text) (args : List Tree) (s : Session) :
    (convertMacroArguments walk head written args).runFrom s =
      (convertTreated walk head (s.macroTreatment head written) args).runFrom s := by
  unfold convertMacroArguments
  rw [runFrom_bind, runFrom_get]
  dsimp only
  unfold Session.macroTreatment
  cases hspec : s.callGrammar? head written with
  | none => rfl
  | some spec =>
      dsimp only
      split
      · rfl
      · split <;> rfl

/-- So are those of a call. -/
theorem runFrom_convertCall (head written : Text) (isOwn : Bool) (args : List Tree) (s : Session) :
    (convertCall walk head written isOwn args).runFrom s =
      (convertCallAs walk head (s.callTreatment head written isOwn) args).runFrom s := by
  unfold convertCall convertCallAs
  rw [runFrom_bind, runFrom_get]
  dsimp only
  unfold Session.callTreatment
  -- who owns the head plays no part once it is known whether the call is expanded
  generalize (if isOwn then s.isOwnMacro written else s.host.isMacroName head) = isExpanded
  cases isExpanded with
  | true =>
      simp only [if_true]
      rw [runFrom_bind, runFrom_bind, runFrom_convertMacroArguments]
  | false => rfl

end Forms

/-- A form that begins with a symbol is approached as the session says in which it is met. Its head
becomes what a reference to the function becomes. -/
theorem runFrom_convertHeaded (walk : Walk) (name : Text) (tail : List Tree) (s : Session) :
    (convertHeaded walk (.sym name) tail).runFrom s =
      match s.approach name with
      | .rule rule =>
          (trace (.specialForm s.context.qualifier name) >>= fun _ =>
            rule.convert walk name tail).runFrom s
      | .call treatment =>
          (Forms.convertCallAs walk (Forms.functionReference s name) treatment tail).runFrom s := by
  unfold convertHeaded
  rw [runFrom_bind, runFrom_get]
  dsimp only
  unfold Session.approach Forms.functionReference
  -- the cases of the head: protected, owned, and neither
  by_cases hescaped : s.isEscaped name = true
  · simp only [if_pos hescaped]
    exact Forms.runFrom_convertCall walk _ _ _ tail s
  · simp only [if_neg hescaped]
    by_cases hfunction : s.isFunction name = true
    · simp only [if_pos hfunction]
      exact Forms.runFrom_convertCall walk _ _ _ tail s
    · simp only [if_neg hfunction]
      cases FormRule.ofHead? name with
      | none => exact Forms.runFrom_convertCall walk _ _ _ tail s
      | some rule => rfl

/-- Walks that agree on the forms inside a form do the same with it, unless it defines a macro. -/
theorem Walk.AgreeOn.runFrom_convertHeaded {Kind : Tree → Prop} {walk other : Walk}
    (h : Walk.AgreeOn Kind walk other) {name : Text} {tail : List Tree} (htail : ∀ t ∈ tail, Kind t)
    {s : Session} (hkind : s.approach name ≠ .rule .macroDefinition) :
    (convertHeaded walk (.sym name) tail).runFrom s =
      (convertHeaded other (.sym name) tail).runFrom s := by
  rw [LispNamespace.runFrom_convertHeaded, LispNamespace.runFrom_convertHeaded]
  cases happroach : s.approach name with
  | rule rule =>
      have hrule : rule ≠ .macroDefinition := by
        rintro rfl
        exact hkind happroach
      dsimp only
      rw [h.convertRule hrule name htail]
  | call treatment =>
      dsimp only
      unfold Forms.convertCallAs Forms.convertTreated
      cases treatment with
      | forms => simp only [h.mapM htail]
      | byGrammar spec => simp only [h.convertByGrammar _ spec htail]
      | _ => rfl

namespace Session

variable {s : Session} {name : Text} {rule : FormRule}

/-- A form is approached by a rule if its head has it, is not protected, and is no function of the
namespace. -/
theorem approach_eq_rule_iff : s.approach name = .rule rule ↔
    s.isEscaped name = false ∧ s.isFunction name = false ∧ FormRule.ofHead? name = some rule := by
  unfold approach
  by_cases hescaped : s.isEscaped name = true
  · simp [hescaped]
  · by_cases hfunction : s.isFunction name = true
    · simp [hescaped, hfunction]
    · cases hrule : FormRule.ofHead? name with
      | none => simp [hescaped, hfunction]
      | some other => simp [hescaped, hfunction]

/-- A rule is only chosen by the head that the table has it under. -/
theorem ofHead?_of_approach (h : s.approach name = .rule rule) : FormRule.ofHead? name = some rule :=
  (approach_eq_rule_iff.1 h).2.2

/-- A protected head is that of a call, whatever rule it has. -/
theorem isEscaped_of_approach (h : s.approach name = .rule rule) : s.isEscaped name = false :=
  (approach_eq_rule_iff.1 h).1

/-- The qualifier goes in front of every name that is not protected, whether or not the namespace
owns it. -/
theorem qualified_of_not_isEscaped (h : s.isEscaped name = false) :
    s.qualified name = s.context.qualifier ++ name := by
  unfold qualified Context.qualified
  exact if_neg (Bool.eq_false_iff.1 h)

end Session

/-! ## A first session -/

/-- The session in which nothing has been found yet. -/
def Session.fresh (context : Context) (host : Host) : Session := .start context host []

/-- The options of a namespace for which none are given. -/
def Options.unset : Options where
  letVars := false
  globalLookup := false
  verbose := false
  assumeVarQuote := false
  dontAssumeFunctionQuote := false
  protection := "::"
  functionlikeMacros := []
  group := .absent
  version := .absent
  package := .absent

/-- The context of a namespace for which no options are given. -/
def Context.unset (qualifier : Text) : Context := ⟨qualifier, .str qualifier, .unset⟩

/-- The session before the first pass of a namespace for which no options are given, where no other
names are known. -/
def Session.unset (qualifier : Text) : Session := .start (.unset qualifier) .empty []

/-- The definition of a function that calls itself. -/
def Tree.recursion (name : Text) : Tree :=
  .call "defun" [.sym name, .list [.sym "x"], .call name [.sym "x"]]

end LispNamespace
