import LispNamespace.Options.Basic

/-!
# Options as they are given

Options are given as keywords at the head of a namespace body, a flag alone and any other option
with its value after it, or as a mapping from names to values. Either way the values are taken in
order, the first fault is reported, and of several values for one option the last one holds.
-/

namespace LispNamespace

/-- The keyword that marks the next form of a body for deferred registration. It belongs to the
body and ends the options. -/
def autoloadMarker : Text := ":autoload"

namespace Options

/-! ## Keywords before a body -/

/-- Splits the options off the front of a namespace body: the settings, the latest first, and the
body. -/
def splitKeywords (settings : OptionSettings) :
    List Tree → Except OptionError (OptionSettings × List Tree)
  | [] => .ok (settings, [])
  | item :: rest =>
      match item with
      | .sym name =>
          if !Tree.isKeywordName name || name == autoloadMarker then .ok (settings, item :: rest)
          else
            match OptionKey.ofKeyword? name with
            | none => .error (.unknown name)
            | some key =>
                if key.kind == .flag then splitKeywords ((key, .flag true) :: settings) rest
                else
                  match rest with
                  | [] => .error (.missingValue name)
                  | value :: rest =>
                      match OptionValue.ofTree name key.kind value with
                      | .error e => .error e
                      | .ok given => splitKeywords ((key, given) :: settings) rest
      | _ => .ok (settings, item :: rest)

/-- The options at the front of a namespace body, and the body. -/
def ofKeywords (ambient : Ambient) (items : List Tree) :
    Except OptionError (Options × List Tree) := do
  let (settings, body) ← splitKeywords [] items
  let options ← ofSettings ambient settings
  return (options, body)

/-! ## Mappings -/

/-- The settings of a mapping in its order, before the given ones. -/
def settingsOfMapping (settings : OptionSettings) :
    List (Text × Tree) → Except OptionError OptionSettings
  | [] => .ok settings
  | (name, value) :: rest =>
      match OptionKey.ofName? name with
      | none => .error (.unknown name)
      | some key =>
          match OptionValue.ofTree name key.kind value with
          | .error e => .error e
          | .ok given => settingsOfMapping ((key, given) :: settings) rest

/-- The options of a mapping. -/
def ofMapping (ambient : Ambient) (mapping : List (Text × Tree)) :
    Except OptionError Options := do
  let settings ← settingsOfMapping [] mapping
  ofSettings ambient settings

end Options

/-! ## Either way -/

/-- Options as they are given. -/
inductive WrittenOptions where
  /-- No options. -/
  | none
  /-- A mapping from names to values. -/
  | mapping (entries : List (Text × Tree))
  /-- A list of keywords and values. -/
  | keywords (items : List Tree)
  /-- Options that have been read before. -/
  | ready (options : Options)
  deriving Inhabited

namespace WrittenOptions

/-- The options that are given. A keyword list must hold nothing else. -/
def read (ambient : Ambient) : WrittenOptions → Except OptionError Options
  | .none => Options.ofSettings ambient []
  | .mapping entries => Options.ofMapping ambient entries
  | .keywords items =>
      match Options.ofKeywords ambient items with
      | .error e => .error e
      | .ok (options, []) => .ok options
      | .ok (_, item :: _) => .error (.unexpectedElement item)
  | .ready options => .ok options

end WrittenOptions

end LispNamespace
