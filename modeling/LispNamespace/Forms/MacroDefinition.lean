import LispNamespace.Forms.Definition

/-!
# Macro definitions

The name of a macro is taken in and qualified first, and the grammar that its declarations give is
attached to the final name. The host then expands the definition, and the form that binds the name
is rewritten like any definition, except that its name is already final. The forms that come from
declarations name the macro by its final name and are left alone.
-/

namespace LispNamespace.Forms

open Rewrite

/-- The final name of a macro that is being defined. -/
def convertMacroName (name : Text) : Rewrite Text := do
  if ← takeNameIsFinal then return name
  let s ← get
  if s.isEscaped name then return s.stripProtection name
  else
    register (·.addMacro name)
    return s.qualified name

/-- Attaches the grammar that the declarations of a body give to the final name of a macro. -/
def declareMacroGrammar (name : Text) (spec : Option Tree) : Rewrite Unit := do
  match spec with
  | none => return
  | some spec =>
      modify (·.declareGrammar name spec)
      trace (.declaresGrammar (← get).context.qualifier name spec)

/-- Makes a macro known to the host, once its definition is being written out. -/
def announceMacro (name : Text) (spec : Option Tree) : Rewrite Unit := do
  let s ← get
  -- a definition that is not written out is none for the host
  if s.pass = .rewriting ∧ !s.host.isMacroName name then
    set { s with host := s.host.addMacro name false spec }

/-- Expands a macro definition, with notes on declarations that were dropped. -/
def expandDefinition (form : Tree) : Rewrite Tree := do
  match Definition.expandOrFail (← get).host form with
  | .error fault => throw fault
  | .ok (expansion, notes) =>
      modify fun s => { s with journal := notes.reverse.map (.note .debug) ++ s.journal }
      return expansion

/-- Rewrites a definition of a macro. -/
def convertMacro (walk : Walk) (head : Text) (tail : List Tree) : Rewrite Tree := do
  match tail with
  | .sym name :: params :: body =>
      let name ← convertMacroName name
      let spec := Definition.declaredGrammar? body
      declareMacroGrammar name spec
      announceMacro name spec
      let expansion ← expandDefinition (Tree.call head (.sym name :: params :: body))
      -- the form that binds the macro is converted next, with the name as it is now
      modify fun s => { s with nameIsFinal := true }
      match expansion with
      | .list (first :: binding :: declared) =>
          -- what comes from declarations stays as it is
          if first.isSym "prog1" then return Tree.call "prog1" ((← walk binding) :: declared)
          else walk expansion
      | expansion => walk expansion
  | tail => return Tree.call head tail

end LispNamespace.Forms
