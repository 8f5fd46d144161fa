import LispNamespace.Options.Error
import LispNamespace.Text.Blank

/-!
# The protection marker

A symbol that begins with the protection marker is left alone, and the marker is dropped. The
marker is the name of a symbol or a string; it must be printable and must not hold a character that
would end a symbol or need a backslash. Without a choice it is two colons, unless the surroundings
name another one.
-/

namespace LispNamespace

open Text

/-- What the surroundings of the program say about options that are not given. -/
structure Ambient where
  /-- The protection marker to use. -/
  protection : Option Text := none
  /-- Whether to report progress. -/
  verbose : Option Text := none
  deriving Repr, Inhabited

namespace Ambient

/-- The marker used when none is given; an empty one counts as none. -/
def marker (ambient : Ambient) : Text :=
  match ambient.protection with
  | some marker => if marker.isEmpty then "::" else marker
  | none => "::"

/-- Whether progress is reported when the options do not say so. -/
def isVerbose (ambient : Ambient) : Bool :=
  let words : List Text := ["1", "true", "yes", "on"]
  match ambient.verbose with
  | some text => words.contains (lowercase (trim text))
  | none => false

end Ambient

namespace Protection

/-- Whether a code point may not be part of a marker although it is printable. -/
def isDelimiter (point : Nat) : Bool :=
  isBlank point || ("()[]\x27\",;\x60\\" : Text).contains point

/-- The marker that a value stands for: a symbol stands for its name. -/
def validate (value : Tree) : Except OptionError Text :=
  let value : Tree :=
    match value with
    | .sym name => .str name
    | other => other
  match value.text? with
  | some text =>
      if text.isEmpty then .error (.protectionNotAName value)
      else if !text.all isPrintable || text.any isDelimiter then
        .error (.protectionNotPrintable value)
      else .ok text
  | none => .error (.protectionNotAName value)

end Protection

end LispNamespace
