import LispNamespace.Options.Protection

/-!
# The options of a namespace

Ten options say how a namespace is rewritten. Each has a keyword, under which it stands in source
text, and a field name, under which a program gives it; its kind says what values it takes and what
they mean. Options that are not given have default values.
-/

namespace LispNamespace

open Text

/-! ## Names and kinds -/

/-- The options of a namespace. -/
inductive OptionKey where
  /-- Bindings may bind the qualified variable. -/
  | letVars
  /-- Names that the host knows under the qualifier count as the namespace's own. -/
  | globalLookup
  /-- Progress is reported. -/
  | verbose
  /-- A quoted symbol is a reference to a variable. -/
  | assumeVarQuote
  /-- A function-quoted symbol is no reference. -/
  | dontAssumeFunctionQuote
  /-- The protection marker. -/
  | protection
  /-- Macros whose arguments are all code. -/
  | functionlikeMacros
  /-- The customization group in which the namespace's own group is placed. -/
  | group
  /-- The version of the package. -/
  | version
  /-- The package of the namespace. -/
  | package
  deriving DecidableEq, Repr, Inhabited

/-- The kinds of options. -/
inductive OptionKind where
  /-- Given or not. -/
  | flag
  /-- A symbol, or a string in its place. -/
  | name
  /-- Several symbols. -/
  | names
  /-- A string. -/
  | text
  deriving DecidableEq, Repr

namespace OptionKey

/-- What values an option takes. -/
def kind : OptionKey → OptionKind
  | .letVars | .globalLookup | .verbose | .assumeVarQuote | .dontAssumeFunctionQuote => .flag
  | .protection | .group | .package => .name
  | .functionlikeMacros => .names
  | .version => .text

/-- The keywords of the options. -/
def keywords : List (Text × OptionKey) :=
  [(":let-vars", .letVars), (":global", .globalLookup), (":verbose", .verbose),
   (":assume-var-quote", .assumeVarQuote),
   (":dont-assume-function-quote", .dontAssumeFunctionQuote), (":protection", .protection),
   (":functionlike-macros", .functionlikeMacros), (":group", .group), (":version", .version),
   (":package", .package)]

/-- The field names of the options. -/
def fields : List (Text × OptionKey) :=
  [("let_vars", .letVars), ("global_lookup", .globalLookup), ("verbose", .verbose),
   ("assume_var_quote", .assumeVarQuote),
   ("dont_assume_function_quote", .dontAssumeFunctionQuote), ("protection", .protection),
   ("functionlike_macros", .functionlikeMacros), ("group", .group), ("version", .version),
   ("package", .package)]

/-- The option of a keyword. -/
def ofKeyword? (keyword : Text) : Option OptionKey := keywords.lookup keyword

/-- The option of a field name. -/
def ofField? (field : Text) : Option OptionKey := fields.lookup field

/-- The option of a name in a mapping: a keyword, or a field name in which hyphens may stand for
underscores and `global` is short for its full name. -/
def ofName? (name : Text) : Option OptionKey :=
  if Tree.isKeywordName name then ofKeyword? name
  else
    let field : Text := name.map fun c => if c == hyphen then underscore else c
    ofField? (if field == "global" then "global_lookup" else field)

end OptionKey

/-! ## Values -/

/-- The value of an option. -/
inductive OptionValue where
  /-- Whether a flag is set. -/
  | flag (value : Bool)
  /-- A name or a text: a plain string, or a literal as it was read. -/
  | text (value : Tree)
  /-- Several names. -/
  | names (values : List Text)
  deriving Inhabited

namespace OptionValue

/-- A list that is written with a quote stands for what it quotes. -/
def unquoted (value : Tree) : Tree := value.quoted?.getD value

/-- The elements of a list of names, where a single name may stand for the list of it. -/
def nameItems? (value : Tree) : Option (List Tree) :=
  match value with
  | .nil | .absent => some []
  | .sym _ | .str _ | .lit _ _ => some [value]
  | .list items | .vec items => some items
  | .dot items tail => some [.list items, tail]
  | _ => none

/-- The name that an element of a list of names stands for. -/
def nameItem (option : Text) (item : Tree) : Except OptionError Text :=
  match item with
  | .sym name => .ok name
  | item =>
      match item.text? with
      | some name => .ok name
      | none => .error (.needsSymbols option item)

/-- The value that a tree gives to an option of the given kind, which was written as `option`. -/
def ofTree (option : Text) (kind : OptionKind) (value : Tree) :
    Except OptionError OptionValue :=
  match kind with
  | .flag =>
      match value with
      | .bool given => .ok (.flag given)
      | value => .ok (.flag !value.isNil)
  | .text => if value.isText then .ok (.text value) else .error (.needsString option value)
  | .name =>
      match value with
      | .sym name => .ok (.text (.str name))
      | value => if value.isText then .ok (.text value) else .error (.needsSymbol option value)
  | .names =>
      let value := unquoted value
      match nameItems? value with
      | none => .error (.notASequence option value)
      | some items => (items.mapM (nameItem option)).map fun names => .names names.eraseDups

end OptionValue

/-! ## Options -/

/-- The options of a namespace. -/
structure Options where
  /-- Bindings may bind the qualified variable. -/
  letVars : Bool
  /-- Names that the host knows under the qualifier count as the namespace's own. -/
  globalLookup : Bool
  /-- Progress is reported. -/
  verbose : Bool
  /-- A quoted symbol is a reference to a variable. -/
  assumeVarQuote : Bool
  /-- A function-quoted symbol is no reference. -/
  dontAssumeFunctionQuote : Bool
  /-- The protection marker. -/
  protection : Text
  /-- Macros whose arguments are all code. -/
  functionlikeMacros : List Text
  /-- The group around the namespace's own group, or absent. -/
  group : Tree
  /-- The version of the package, or absent. -/
  version : Tree
  /-- The package of the namespace, or absent. -/
  package : Tree
  deriving Inhabited

/-- Options with the values given to them, the latest first. -/
abbrev OptionSettings := List (OptionKey × OptionValue)

namespace OptionSettings

/-- The latest value of a flag. -/
def flag (settings : OptionSettings) (key : OptionKey) (default : Bool) : Bool :=
  match settings.lookup key with
  | some (.flag value) => value
  | _ => default

/-- The latest text of an option, or absent. -/
def text (settings : OptionSettings) (key : OptionKey) : Tree :=
  match settings.lookup key with
  | some (.text value) => value
  | _ => .absent

/-- The latest names of an option. -/
def names (settings : OptionSettings) (key : OptionKey) : List Text :=
  match settings.lookup key with
  | some (.names values) => values
  | _ => []

end OptionSettings

namespace Options

/-- The options with the given settings. The protection marker is checked here, also when it
comes from the surroundings. -/
def ofSettings (ambient : Ambient) (settings : OptionSettings) : Except OptionError Options :=
  let marker :=
    match settings.lookup .protection with
    | some (.text value) => value
    | _ => .str ambient.marker
  (Protection.validate marker).map fun protection =>
    { letVars := settings.flag .letVars false
      globalLookup := settings.flag .globalLookup false
      verbose := settings.flag .verbose ambient.isVerbose
      assumeVarQuote := settings.flag .assumeVarQuote false
      dontAssumeFunctionQuote := settings.flag .dontAssumeFunctionQuote false
      protection := protection
      functionlikeMacros := settings.names .functionlikeMacros
      group := settings.text .group
      version := settings.text .version
      package := settings.text .package }

/-- The options with one field replaced by a value as it is. The protection marker is not yet
checked. -/
def setField (options : Options) (key : OptionKey) (value : Tree) : Options :=
  match key with
  | .letVars => { options with letVars := value.isGiven }
  | .globalLookup => { options with globalLookup := value.isGiven }
  | .verbose => { options with verbose := value.isGiven }
  | .assumeVarQuote => { options with assumeVarQuote := value.isGiven }
  | .dontAssumeFunctionQuote => { options with dontAssumeFunctionQuote := value.isGiven }
  | .protection => options
  | .functionlikeMacros =>
      let items := (value.elements?).getD []
      { options with functionlikeMacros := items.filterMap Tree.text? }
  | .group => { options with group := value }
  | .version => { options with version := value }
  | .package => { options with package := value }

/-- The options with fields replaced by values as they are. Every field must exist, and the
resulting protection marker is checked. -/
def withFields (options : Options) (changes : List (Text × Tree)) :
    Except OptionError Options := do
  let changes ← changes.mapM fun (field, value) =>
    match OptionKey.ofField? field with
    | some key => .ok (key, value)
    | none => .error (.unknownField field)
  let marker := (changes.reverse.lookup .protection).getD (.str options.protection)
  let protection ← Protection.validate marker
  let changed := changes.foldl (fun options (key, value) => options.setField key value) options
  return { changed with protection := protection }

end Options

end LispNamespace
