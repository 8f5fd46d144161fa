import LispNamespace.Options.Written

/-!
# The context of a rewrite

A namespace puts its qualifier before the names it owns. The context of a rewrite is the qualifier
with the options; it decides how a single name is qualified or freed of the protection marker.
-/

namespace LispNamespace

open Text

/-- The qualifier and the options of one rewrite. -/
structure Context where
  /-- The text put before the namespace's own names. -/
  qualifier : Text
  /-- The qualifier as it was given: a plain string, or a literal as it was read. -/
  written : Tree
  /-- The options. -/
  options : Options
  deriving Inhabited

namespace Context

/-- The context for an identifier, a symbol or a string, with the options that are given. The
identifier is checked first. -/
def create (ambient : Ambient) (identifier : Tree) (options : WrittenOptions) :
    Except OptionError Context :=
  let given := fun (qualifier : Text) (written : Tree) =>
    if !written.isGiven then .error .emptyIdentifier
    else (options.read ambient).map fun options => ⟨qualifier, written, options⟩
  match identifier with
  | .sym name => given name (.str name)
  | other =>
      match other.text? with
      | some text => given text other
      | none => .error (.badIdentifier other)

/-- Whether a name begins with the protection marker. -/
def isEscaped (c : Context) (name : Text) : Bool := beginsWith name c.options.protection

/-- A name without as many characters as the protection marker has. -/
def stripProtection (c : Context) (name : Text) : Text :=
  dropFirst name c.options.protection.length

/-- The namespace's own form of a name; one that begins with the protection marker only loses the
marker. -/
def qualified (c : Context) (name : Text) : Text :=
  if c.isEscaped name then c.stripProtection name else c.qualifier ++ name

/-! ## The customization group -/

/-- The qualifier without the separators at its end, unless it consists of separators. -/
def groupName (c : Context) : Text :=
  let name := dropLastWhile c.qualifier ("-:/." : Text).contains
  if name.isEmpty then c.qualifier else name

/-- The group name as it is written into a form: the qualifier itself, as it was given, when it
consists of separators. -/
def groupText (c : Context) : Tree :=
  let name := dropLastWhile c.qualifier ("-:/." : Text).contains
  if name.isEmpty then c.written else .str name

/-- The symbol named by a plain string; a literal as it was read names none. -/
def symbolNamed (text : Tree) : Except OptionError Tree :=
  match text with
  | .str name => .ok (.sym name)
  | other => .error (.notAName other)

/-- The form that declares the customization group of the namespace, if a group is asked for. -/
def groupForms (c : Context) : Except OptionError (List Tree) := do
  let options := c.options
  if !options.group.isGiven then return []
  let name ← symbolNamed c.groupText
  let outer ← symbolNamed options.group
  let versionPart ←
    if options.package.isGiven && options.version.isGiven then do
      let package ← symbolNamed options.package
      pure [.sym ":package-version", Tree.quote (.dot [package] options.version)]
    else pure []
  return [Tree.call "defgroup"
    ([name, .nil, .str ("Customization group for " ++ c.groupName ++ "."),
      .sym ":prefix", c.written, .sym ":group", Tree.quote outer] ++ versionPart)]

end Context

end LispNamespace
