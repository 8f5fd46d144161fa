import LispNamespace.Convert
import LispNamespace.Host.Standard

/-!
# Namespaces

A namespace is an identifier with options and a body of forms. It is rewritten in two passes over
the same forms: the first one collects the names that the body defines, wherever they stand, and its
output is dropped; the second one converts the forms with these names known. The result is one
`progn` form, with the customization group in front if one is asked for.

The keyword `:autoload` marks the form after it. Markers are dropped, and on demand only the marked
forms are written out, though the names are still collected from all of them.
-/

namespace LispNamespace

/-! ## The surroundings of rewrites -/

/-- What outlives a rewrite: the host, the qualifier of the rewrite that is active as it was given,
and the journal. -/
structure Workshop where
  /-- What is known about names outside the namespaces. -/
  host : Host
  /-- The qualifier of the active rewrite. -/
  active : Option Tree := none
  /-- What has been reported. -/
  journal : Journal := []
  deriving Inhabited

/-- A step that uses the host and reports to the journal. -/
abbrev Work := ExceptT Fault (StateM Workshop)

namespace Work

/-- Runs a step from a workshop. -/
def runFrom {α : Type} (step : Work α) (w : Workshop) : Except Fault α × Workshop :=
  Id.run (StateT.run (ExceptT.run step) w)

/-- Reports a note. -/
def note (n : Note) : Work Unit := modify fun w => { w with journal := .note .debug n :: w.journal }

/-- A result of reading options. -/
def ofOptions {α : Type} (result : Except OptionError α) : Work α :=
  match result with
  | .ok value => pure value
  | .error e => throw (.options e)

/-- A result of reading source text. -/
def ofReading {α : Type} (result : Except ReadError α) : Work α :=
  match result with
  | .ok value => pure value
  | .error e => throw (.reading e)

/-- Makes a rewrite the active one, given its qualifier as it was written. It is refused while
another rewrite is active. -/
def enter (qualifier : Tree) : Work Unit := do
  match (← get).active with
  | some current => throw (.stillActive current qualifier)
  | none => modify fun w => { w with active := some qualifier }

/-- Ends the active rewrite. -/
def leave : Work Unit := modify fun w => { w with active := none }

/-- Runs a step of the active rewrite in a session of its own. The rewrite ends with it, however it
ends. -/
def inSession {α : Type} (context : Context) (step : Rewrite α) : Work α :=
  ExceptT.mk fun w =>
    let (result, s) := step.runFrom (Session.start context w.host w.journal)
    (result, { w with host := s.host, journal := s.journal, active := none })

end Work

/-! ## Bodies -/

namespace Namespace

/-- The forms of a body after a marker or not: all of them, those that are marked, and whether a
marker stands last. -/
def splitMarked (pending : Bool) : List Tree → List Tree × List Tree × Bool
  | [] => ([], [], pending)
  | form :: rest =>
      if form.isSym autoloadMarker then splitMarked true rest
      else
        let (forms, marked, trailing) := splitMarked false rest
        (form :: forms, if pending then form :: marked else marked, trailing)

/-- The forms of a body without markers, and those that are marked. -/
def splitAutoload (body : List Tree) : Work (List Tree × List Tree) := do
  let (forms, marked, trailing) := splitMarked false body
  if trailing then Work.note .trailingMarker
  return (forms, marked)

/-! ## The two passes -/

/-- Collects the names that the forms define. -/
def discover (forms : List Tree) : Rewrite Unit := do
  modify fun s => { s with pass := .discovery }
  let _ ← forms.mapM convert

/-- Converts the forms. -/
def transform (forms : List Tree) : Rewrite (List Tree) := do
  modify fun s => { s with pass := .rewriting }
  forms.mapM convert

/-- Collects the names of some forms and converts others. -/
def passes (forms output : List Tree) : Rewrite (List Tree) := do
  let qualifier := (← get).context.qualifier
  Rewrite.trace (.discovering qualifier forms.length)
  discover forms
  let tables := (← get).tables
  Rewrite.trace (.discovered qualifier tables.variableNames.length tables.functionNames.length
    tables.macros.length)
  transform output

/-- Runs both passes in a session of its own, unless another rewrite is active. -/
def run (context : Context) (forms output : List Tree) : Work (List Tree) := do
  Work.enter context.written
  Work.inSession context (passes forms output)

/-! ## Whole namespaces -/

/-- Rewrites a namespace. -/
def rewrite (ambient : Ambient) (identifier : Tree) (options : WrittenOptions)
    (body : List Tree) : Work Tree := do
  let context ← Work.ofOptions (Context.create ambient identifier options)
  let (forms, _) ← splitAutoload body
  let rewritten ← run context forms forms
  -- the groups are made after the passes, so what is wrong with them is found last
  let groups ← Work.ofOptions context.groupForms
  return Tree.call "progn" (groups ++ rewritten)

/-- Rewrites the marked forms of a namespace. -/
def autoload (ambient : Ambient) (identifier : Tree) (options : WrittenOptions)
    (body : List Tree) : Work Tree := do
  let context ← Work.ofOptions (Context.create ambient identifier options)
  let (forms, marked) ← splitAutoload body
  return Tree.call "progn" (← run context forms marked)

/-- The arguments of a namespace form: its identifier, its options, and its body. -/
def parts (ambient : Ambient) (args : List Tree) :
    Except OptionError (Tree × Options × List Tree) :=
  match args with
  | [] => .error .missingIdentifier
  | identifier :: rest =>
      (Options.ofKeywords ambient rest).map fun (options, body) => (identifier, options, body)

/-- Rewrites a namespace from the arguments of its form. -/
def define (ambient : Ambient) (args : List Tree) : Work Tree := do
  let (identifier, options, body) ← Work.ofOptions (parts ambient args)
  rewrite ambient identifier (.ready options) body

end Namespace

end LispNamespace
