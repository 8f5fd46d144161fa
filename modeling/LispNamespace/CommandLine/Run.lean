import LispNamespace.CommandLine.Arguments
import LispNamespace.Expander

/-!
# A run of the program

A run expands one text and writes the result, or reports why there is none. Reports go to a stream
of their own, one line each with its level and the part of the program it comes from. Notes of
progress appear when they are asked for.
-/

namespace LispNamespace.CommandLine

/-- What a run leaves behind. -/
structure Outcome where
  /-- The exit status. -/
  status : Nat
  /-- What is written. -/
  output : Text
  /-- What is reported. -/
  reports : Text
  /-- The warnings. -/
  warnings : List Warning
  /-- The fault that the program does not handle, if one occurred. -/
  unhandled : Option Fault
  deriving Inhabited

/-- The line of a report. -/
def reportLine (level channel message : Text) : Text :=
  level ++ " " ++ channel ++ ": " ++ message ++ "\n"

/-- The reports of a journal that appear at the given verbosity. -/
def progress (verbose : Bool) (journal : Journal) : Text :=
  let lines := journal.notes.filterMap fun (level, note) =>
    if verbose && level == .info then some (reportLine "INFO" note.channel note.message) else none
  lines.flatten

/-- Whether a fault is one that the program reports; any other one ends it abnormally. -/
def isReported : Fault → Bool
  | .reading .codeBeyondRange | .reading .codeOverflow | .reading (.notOneCharacter _) => false
  | .reading (.unknownShorthand _) => false
  | .options (.notASequence _ _) | .options (.unknownField _) => false
  | .options (.notAName _) => false
  | .headless _ | .endlessGrammar _ | .widthMissing => false
  | _ => true

/-- The setting of a flag; without its name there is none. -/
def flagSetting (flag : Option Text) : Except Fault (Text × Tree) :=
  match flag with
  | some name => .ok (name, .bool true)
  | none => .error (.options (.notAName (valueTree none)))

/-- The options of the namespace that the arguments describe. -/
def namespaceOptions (request : Request) : Except Fault WrittenOptions :=
  match request.qualifier with
  | none => .ok .none
  | some _ =>
      let protection : List (Text × Tree) :=
        request.protection.toList.map fun marker => ("protection", marker)
      let verbose : List (Text × Tree) := if request.verbose then [("verbose", .bool true)] else []
      (request.flags.mapM flagSetting).map fun flags => .mapping (flags ++ protection ++ verbose)

/-- Whether options are given that only apply to the body of one namespace. -/
def hasIdleOptions (request : Request) : Bool :=
  request.qualifier.isNone &&
    (!request.flags.isEmpty || request.protection.any Tree.isGiven)

/-- Expands a text as the arguments ask for. -/
def run [CharNames] (ambient : Ambient) (request : Request) (source : Text) : Outcome :=
  let advice :=
    if hasIdleOptions request then
      reportLine "WARNING" "elnames" "--option and --protection only apply together with --prefix"
    else ""
  let expander : Expander := ⟨ambient, request.autoload⟩
  let work : Work Text :=
    match namespaceOptions request with
    | .error fault => throw fault
    | .ok options =>
        expander.rewriteSource source request.qualifier options request.width request.colour
  let (result, workshop) := work.runFrom { host := Host.standard }
  let reports := advice ++ progress request.verbose workshop.journal
  let warnings := workshop.journal.warnings
  match result with
  | .ok text => ⟨0, text, reports, warnings, none⟩
  | .error fault =>
      if isReported fault then
        ⟨1, "", reports ++ reportLine "ERROR" "elnames" fault.message, warnings, none⟩
      else ⟨1, "", reports, warnings, some fault⟩

/-! ## Names of characters -/

/-- The names of characters that a run knows unless it is given others. -/
instance : CharNames := .few

end LispNamespace.CommandLine
