import LispNamespace.Forms.Call
import LispNamespace.Forms.LambdaList

/-!
# Definitions

A definition makes its name a name of the namespace and is written with the qualified name. A name
that begins with the protection marker is not taken in, and one that is already final stays as it
is. The definition of a mode also makes names for the variables that come with the mode.
-/

namespace LispNamespace.Forms

open Rewrite

/-- What the tables learn from a defined name. -/
abbrev Register := Text → Tables → Tables

/-! ## Defined names -/

/-- Rewrites a defined name. -/
def convertDefinedName (learn : Register) (name : Tree) : Rewrite Tree := do
  if ← takeNameIsFinal then return name
  match name with
  | .sym name =>
      let s ← get
      if s.isEscaped name then return .sym (s.stripProtection name)
      else
        register (learn name)
        return .sym (s.qualified name)
  | name => return name

/-- Rewrites a defined name that stands quoted. A name that is computed is a form like any other and
defines nothing. -/
def convertQuotedName (walk : Walk) (learn : Register) (name : Tree) : Rewrite Tree := do
  match name.quoted? with
  | some (.sym quoted) =>
      return Tree.quote (← convertDefinedName learn (.sym quoted))
  | _ =>
      -- the flag is meant for this name, whatever stands in its place
      let _ ← takeNameIsFinal
      walk name

/-! ## Variables, functions and aliases -/

/-- Rewrites a definition of a variable: the name, and forms. -/
def convertVariable (walk : Walk) (head : Text) (tail : List Tree) : Rewrite Tree := do
  match tail with
  | [] => return Tree.call head []
  | name :: rest =>
      let name ← convertDefinedName (fun n t => t.addVariable n) name
      return Tree.call head (name :: (← rest.mapM walk))

/-- Rewrites a definition of a function: the name, the parameters, and the body. -/
def convertFunction (walk : Walk) (head : Text) (tail : List Tree) : Rewrite Tree := do
  match tail with
  | [] => return Tree.call head []
  | name :: rest =>
      let name ← convertDefinedName (fun n t => t.addFunction n) name
      match rest with
      | [] => return Tree.call head [name]
      | params :: body => return Tree.call head (name :: (← convertLambdaTail walk params body))

/-- Rewrites a definition whose name stands quoted. -/
def convertAliasWith (learn : Register) (walk : Walk) (head : Text) (tail : List Tree) :
    Rewrite Tree := do
  match tail with
  | [] => return Tree.call head []
  | name :: rest =>
      let name ← convertQuotedName walk learn name
      return Tree.call head (name :: (← rest.mapM walk))

/-- Rewrites a definition of an alias of a function. -/
def convertAlias : Walk → Text → List Tree → Rewrite Tree :=
  convertAliasWith fun n t => t.addFunction n

/-- Rewrites a definition of an alias of a variable. -/
def convertVariableAlias : Walk → Text → List Tree → Rewrite Tree :=
  convertAliasWith fun n t => t.addVariable n

/-! ## Modes -/

/-- What follows the name of a minor mode. -/
def minorModeGrammar : Tree :=
  .list
    [.vec [.sym "&optional", .sym "string-or-null-p"],
     .vec [.sym "&rest", .vec [.sym "keywordp", .sym "form"]], .sym "def-body"]

/-- What follows the name and the parent of a derived mode. -/
def derivedModeGrammar : Tree :=
  .list
    [.sym "form", .vec [.sym "&optional", .sym "stringp"],
     .vec [.sym "&rest", .vec [.sym "keywordp", .sym "form"]], .sym "def-body"]

/-- What follows the names of a globalized mode. -/
def globalizedModeGrammar : Tree :=
  .list
    [.vec [.sym "&optional", .sym "stringp"],
     .vec [.sym "&rest", .vec [.sym "keywordp", .sym "form"]], .sym "def-body"]

/-- A mode is a function, and a variable if it can be switched, and has variables whose names end in
the given ways. -/
def learnMode (isVariable : Bool) (companions : List Text) : Register := fun name tables =>
  let tables := tables.addFunction name
  let tables := if isVariable then tables.addVariable name else tables
  companions.foldl (fun tables ending => tables.addVariable (name ++ ending)) tables

/-- What the tables learn from a minor mode. -/
def learnMinorMode : Register := learnMode true ["-map", "-hook"]

/-- What the tables learn from a derived mode. -/
def learnDerivedMode : Register :=
  learnMode false ["-map", "-hook", "-syntax-table", "-abbrev-table"]

/-- What the tables learn from a globalized mode. -/
def learnGlobalizedMode : Register := learnMode true ["-hook"]

/-- Rewrites a definition of a minor mode. -/
def convertMinorMode (walk : Walk) (head : Text) (tail : List Tree) : Rewrite Tree := do
  match tail with
  | [] => return Tree.call head []
  | name :: args =>
      let name ← convertDefinedName learnMinorMode name
      return Tree.call head (name :: (← convertByGrammar walk head minorModeGrammar args))

/-- Rewrites a definition of a mode that is derived from another one. -/
def convertDerivedMode (walk : Walk) (head : Text) (tail : List Tree) : Rewrite Tree := do
  match tail with
  | [] => return Tree.call head []
  | name :: rest =>
      let name ← convertDefinedName learnDerivedMode name
      match rest with
      | [] => return Tree.call head [name]
      | parent :: args =>
          let parent ← convertFunctionName parent
          let args ← convertByGrammar walk head derivedModeGrammar args
          return Tree.call head (name :: parent :: args)

/-- Rewrites a definition of a mode that switches another one everywhere. -/
def convertGlobalizedMode (walk : Walk) (head : Text) (tail : List Tree) : Rewrite Tree := do
  match tail with
  | [] => return Tree.call head []
  | name :: rest =>
      let name ← convertDefinedName learnGlobalizedMode name
      let functions ← (rest.take 2).mapM convertFunctionName
      let args ← convertByGrammar walk head globalizedModeGrammar (rest.drop 2)
      return Tree.call head (name :: (functions ++ args))

end LispNamespace.Forms
