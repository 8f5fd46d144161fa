import LispNamespace.Context
import LispNamespace.Grammar.Matching
import LispNamespace.Host.Basic
import LispNamespace.Journal

/-!
# Sessions

A session is the state of one rewrite: the names the namespace owns so far, the names bound by the
forms around the current one, the pass, and what has been reported. It answers whether a name in a
given role belongs to the namespace.

Tables hold names without their qualifier; declared grammars are kept under the qualified name of
their macro.
-/

namespace LispNamespace

/-! ## State -/

/-- The names that the namespace owns. -/
structure Tables where
  /-- The variables. -/
  variableNames : List Text := []
  /-- The functions and macros. -/
  functionNames : List Text := []
  /-- The macros. -/
  macros : List Text := []
  /-- The grammars that macro definitions declare. -/
  grammars : List (Text × Tree) := []
  deriving Inhabited, Repr

namespace Tables

/-- The tables with one more variable. -/
def addVariable (tables : Tables) (name : Text) : Tables :=
  { tables with variableNames := addName tables.variableNames name }

/-- The tables with one more function. -/
def addFunction (tables : Tables) (name : Text) : Tables :=
  { tables with functionNames := addName tables.functionNames name }

/-- The tables with one more macro, which is also a function. -/
def addMacro (tables : Tables) (name : Text) : Tables :=
  { tables.addFunction name with macros := addName tables.macros name }

/-- The tables with the grammar of a macro set. -/
def setGrammar (tables : Tables) (name : Text) (spec : Tree) : Tables :=
  { tables with grammars := setEntry tables.grammars name spec }

end Tables

/-- The passes of a rewrite over its forms. -/
inductive Pass where
  /-- No pass has begun. -/
  | idle
  /-- The names that the namespace defines are collected. -/
  | discovery
  /-- The forms are rewritten. -/
  | rewriting
  deriving DecidableEq, Repr, Inhabited

/-- The state of one rewrite. -/
structure Session where
  /-- The qualifier and the options. -/
  context : Context
  /-- What is known about names outside the namespace. -/
  host : Host
  /-- The names that the namespace owns. -/
  tables : Tables
  /-- The names bound by the forms around the current one, the innermost frame first. -/
  frames : List (List Text)
  /-- The current pass. -/
  pass : Pass
  /-- Whether the next definition already carries the final name. -/
  nameIsFinal : Bool
  /-- What has been reported. -/
  journal : Journal
  deriving Inhabited

namespace Session

/-- The session before its first pass. -/
def start (context : Context) (host : Host) (journal : Journal) : Session where
  context := context
  host := host
  tables := {}
  frames := []
  pass := .idle
  nameIsFinal := false
  journal := journal

/-! ## Resolution of names -/

/-- Whether a form around the current one binds the name. -/
def isShadowed (s : Session) (name : Text) : Bool := s.frames.any (·.contains name)

/-- Whether the name begins with the protection marker. -/
def isEscaped (s : Session) (name : Text) : Bool := s.context.isEscaped name

/-- The namespace's own form of a name. -/
def qualified (s : Session) (name : Text) : Text := s.context.qualified name

/-- The name without its protection marker. -/
def stripProtection (s : Session) (name : Text) : Text := s.context.stripProtection name

/-- Whether the host is asked about qualified names. -/
def asksHost (s : Session) : Bool := s.context.options.globalLookup

/-- Whether a name can belong to the namespace at all: keywords and locally bound names cannot. -/
def isFree (s : Session) (name : Text) : Bool :=
  !Tree.isKeywordName name && !s.isShadowed name

/-- Whether a name as a variable belongs to the namespace. -/
def isVariable (s : Session) (name : Text) : Bool :=
  s.isFree name &&
    (s.tables.variableNames.contains name || (s.asksHost && s.host.isBound (s.qualified name)))

/-- Whether a name as a function belongs to the namespace. -/
def isFunction (s : Session) (name : Text) : Bool :=
  s.isFree name &&
    (s.tables.functionNames.contains name ||
      (s.asksHost && s.host.isFunctionBound (s.qualified name)))

/-- Whether a function of the namespace is a macro. -/
def isOwnMacro (s : Session) (name : Text) : Bool :=
  s.tables.macros.contains name || (s.asksHost && s.host.isMacroName (s.qualified name))

/-! ## Grammars -/

/-- The grammars that are known, those of the session first. -/
def grammars (s : Session) : Grammar.Grammars := s.tables.grammars ++ s.host.grammars

/-- The grammar of a macro under its final name. -/
def grammarFor? (s : Session) (name : Text) : Option Tree := s.grammars.find? name

/-- The grammar of a call whose head has the final name `head` and was written as `written`. A
macro without one may be said by an option to take forms only. -/
def callGrammar? (s : Session) (head written : Text) : Option Tree :=
  match s.grammarFor? head with
  | some spec => some spec
  | none =>
      let takesForms := s.context.options.functionlikeMacros
      if takesForms.contains head || takesForms.contains written then some (.sym "t") else none

/-- The session with the grammar of a macro declared, to itself and to the host. -/
def declareGrammar (s : Session) (name : Text) (spec : Tree) : Session :=
  { s with tables := s.tables.setGrammar name spec, host := s.host.setGrammar name spec }

/-! ## Frames -/

/-- The session inside a form that binds the given names. -/
def pushFrame (s : Session) (names : List Text) : Session :=
  { s with frames := names :: s.frames }

/-- The session after the innermost binding form. -/
def popFrame (s : Session) : Session := { s with frames := s.frames.tail }

/-- The session with more names bound by the innermost binding form. -/
def growFrame (s : Session) (names : List Text) : Session :=
  match s.frames with
  | [] => s
  | frame :: outer => { s with frames := (names ++ frame) :: outer }

@[simp] theorem isShadowed_pushFrame (s : Session) (names : List Text) (name : Text) :
    (s.pushFrame names).isShadowed name = (names.contains name || s.isShadowed name) := rfl

/-! ## Reports -/

/-- The session with a warning reported. Warnings count in the rewriting pass only. -/
def warn (s : Session) (w : Warning) : Session :=
  if s.pass = .rewriting then { s with journal := .warning w :: s.journal } else s

/-- The session with a note of progress. -/
def trace (s : Session) (note : Note) : Session :=
  let level := if s.context.options.verbose then .info else .debug
  { s with journal := .note level note :: s.journal }

end Session

end LispNamespace
