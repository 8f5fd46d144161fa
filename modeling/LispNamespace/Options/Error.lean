import LispNamespace.Tree.Display

/-!
# What can be wrong with the options of a namespace

The causes for which options are refused, with their wording. A cause names the option as it was
written.
-/

namespace LispNamespace

open Text

/-- Why the options or the identifier of a namespace are refused. -/
inductive OptionError where
  /-- There is no such option. -/
  | unknown (option : Text)
  /-- The option stands last and lacks its value. -/
  | missingValue (option : Text)
  /-- The option takes a string. -/
  | needsString (option : Text) (value : Tree)
  /-- The option takes a symbol. -/
  | needsSymbol (option : Text) (value : Tree)
  /-- The option takes a list of symbols, and one element is something else. -/
  | needsSymbols (option : Text) (item : Tree)
  /-- The option takes a list of symbols, and the value has no elements at all. -/
  | notASequence (option : Text) (value : Tree)
  /-- An element of the option list is no option. -/
  | unexpectedElement (item : Tree)
  /-- The protection marker is no name, or the empty one. -/
  | protectionNotAName (value : Tree)
  /-- The protection marker could not be printed as part of a symbol. -/
  | protectionNotPrintable (value : Tree)
  /-- The identifier of the namespace is neither a symbol nor a string. -/
  | badIdentifier (value : Tree)
  /-- The identifier of the namespace is empty. -/
  | emptyIdentifier
  /-- The namespace has no identifier. -/
  | missingIdentifier
  /-- There is no such field to replace. -/
  | unknownField (field : Text)
  /-- A literal as it was read, or anything else but a plain string, names nothing. -/
  | notAName (value : Tree)
  deriving Repr, Inhabited

namespace OptionError

/-- The wording of a cause. -/
def message : OptionError → Text
  | .unknown option => "Unknown namespace option " ++ option
  | .missingValue option => option ++ " requires a value"
  | .needsString option value => option ++ " expects a string, got " ++ value.display
  | .needsSymbol option value => option ++ " expects a symbol, got " ++ value.display
  | .needsSymbols option item => option ++ " expects a list of symbols, got " ++ item.display
  | .notASequence option value => option ++ " has no elements: " ++ value.display
  | .unexpectedElement item => "Unexpected element in option list: " ++ item.display
  | .protectionNotAName value =>
      "Protection marker must be a non-empty name, got " ++ value.display
  | .protectionNotPrintable value =>
      "Protection marker " ++ value.display ++ " is not a printable symbol name"
  | .badIdentifier value =>
      "Namespace identifier must be a symbol or string, got " ++ value.display
  | .emptyIdentifier => "Namespace identifier cannot be empty"
  | .missingIdentifier => "define-namespace requires a name"
  | .unknownField field => "Unknown field " ++ quoted field
  | .notAName value => "Not a name: " ++ value.display

end OptionError

end LispNamespace
