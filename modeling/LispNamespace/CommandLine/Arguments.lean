import LispNamespace.Text.Integer
import LispNamespace.Tree.Basic

/-!
# Command-line arguments

The program takes one file and a few options. An option may be shortened as long as it stays
unambiguous, and its value may follow an equals sign. Arguments are read in two steps: first each is
found to be an option or a value, and an ambiguous one ends the program; then they are used from
left to right, and the first that does not fit, or asks for help, ends it.

Two hyphens alone are a separator: everything after them is a value. The separator must stand next
to the file. As the value of an option, after an equals sign, two hyphens are dropped and leave the
option with an empty list for its value.
-/

namespace LispNamespace.CommandLine

open Text

/-! ## The options of the program -/

/-- The options of the program. -/
inductive Switch where
  | help
  | qualifier
  | flag
  | protection
  | autoload
  | width
  | colour
  | verbose
  deriving DecidableEq, Repr, Inhabited

/-- The spellings of the options. -/
def switches : List (Text × Switch) :=
  [("-h", .help), ("--help", .help), ("--prefix", .qualifier), ("--option", .flag),
   ("--protection", .protection), ("--autoload", .autoload), ("--width", .width),
   ("--color", .colour), ("--verbose", .verbose), ("-v", .verbose)]

/-- Whether an option takes a value. -/
def Switch.takesValue : Switch → Bool
  | .qualifier | .flag | .protection | .width => true
  | .help | .autoload | .colour | .verbose => false

/-- The flags that may be set for a namespace from the command line. -/
def flagNames : List Text :=
  ["assume-var-quote", "dont-assume-function-quote", "global", "let-vars", "verbose"]

/-- What the arguments ask for. -/
structure Request where
  /-- The file to be read. -/
  file : Text := ""
  /-- The qualifier, when the file is the body of one namespace. -/
  qualifier : Option Tree := none
  /-- The flags for that namespace; none for one whose name was dropped. -/
  flags : List (Option Text) := []
  /-- The protection marker for that namespace. -/
  protection : Option Tree := none
  /-- Whether only marked forms are written out. -/
  autoload : Bool := false
  /-- The width of the output; none if it was dropped. -/
  width : Option Int := some 80
  /-- Whether symbols are coloured. -/
  colour : Bool := false
  /-- Whether progress is reported. -/
  verbose : Bool := false
  deriving Inhabited, Repr

/-- Why the program ends without doing its work. -/
inductive Refusal where
  /-- Help was asked for. -/
  | help
  /-- The arguments cannot be used. -/
  | usage
  deriving DecidableEq, Repr

/-! ## Options and values -/

/-- What an argument is found to be. -/
inductive Word where
  /-- A value, or a file. -/
  | value (text : Text)
  /-- The mark after which everything is a value. -/
  | separator
  /-- An option as it is spelled in full, with the value it carries. -/
  | switch (spelling : Text) (switch : Switch) (carried : Option Text)
  /-- An option that the program does not have. -/
  | unknown
  deriving Repr

/-- A text split at its first equals sign. -/
def splitEquals? (text : Text) : Option (Text × Text) :=
  if text.contains equalsSign then
    some (text.takeWhile (· != equalsSign), (text.dropWhile (· != equalsSign)).drop 1)
  else none

/-- The option of a spelling. -/
def switch? (spelling : Text) : Option Switch := switches.lookup spelling

/-- The options that a shortened argument may mean. A single letter may be followed by a value or
by further letters. -/
def expansions (text : Text) : List (Text × Switch × Option Text) :=
  if beginsWith text "--" then
    let (stem, carried) :=
      match splitEquals? text with
      | some (stem, value) => (stem, some value)
      | none => (text, none)
    switches.filterMap fun (spelling, switch) =>
      if beginsWith spelling stem then some (spelling, switch, carried) else none
  else
    switches.filterMap fun (spelling, switch) =>
      if spelling == text.take 2 then some (spelling, switch, some (text.drop 2))
      else if beginsWith spelling text then some (spelling, switch, none)
      else none

/-- Whether the text is a negative number: a minus, digits, and perhaps a point with digits. One
line end may follow. -/
def isNegativeNumber (text : Text) : Bool :=
  match if text.getLast? == some newline then text.dropLast else text with
  | hyphen :: cs =>
      let whole := cs.takeWhile isDigit
      match cs.dropWhile isDigit with
      | [] => !whole.isEmpty
      | fullStop :: fraction => !fraction.isEmpty && fraction.all isDigit
      | _ => false
  | _ => false

/-- What an argument before any separator is found to be. -/
def classifyWord (text : Text) : Except Refusal Word :=
  match text with
  | hyphen :: _ :: _ =>
      match switch? text with
      | some switch => .ok (.switch text switch none)
      | none =>
          let carried? : Option (Text × Switch × Text) :=
            (splitEquals? text).bind fun (stem, value) =>
              (switch? stem).map fun switch => (stem, switch, value)
          match carried? with
          | some (stem, switch, value) => .ok (.switch stem switch (some value))
          | none =>
              match expansions text with
              | [(spelling, switch, carried)] => .ok (.switch spelling switch carried)
              | _ :: _ :: _ => .error .usage
              | [] =>
                  if isNegativeNumber text || text.contains 0x20 then .ok (.value text)
                  else .ok .unknown
  | _ => .ok (.value text)

/-- What the arguments are found to be. -/
def classifyWords : List Text → Except Refusal (List Word)
  | [] => .ok []
  | arg :: rest =>
      if arg == "--" then .ok (.separator :: rest.map .value)
      else do
        let word ← classifyWord arg
        let words ← classifyWords rest
        return word :: words

/-! ## Use of the arguments -/

/-- The request with an option that takes no value. -/
def setSwitch (request : Request) (switch : Switch) : Except Refusal Request :=
  match switch with
  | .help => .error .help
  | .autoload => .ok { request with autoload := true }
  | .colour => .ok { request with colour := true }
  | .verbose => .ok { request with verbose := true }
  | _ => .error .usage

/-- The value of an option as a tree: an empty list if it was dropped. -/
def valueTree (value : Option Text) : Tree :=
  match value with
  | some text => .str text
  | none => .list []

/-- The request with the value of an option, if the value was not dropped. -/
def setValue (request : Request) (switch : Switch) (value : Option Text) :
    Except Refusal Request :=
  match switch with
  | .qualifier => .ok { request with qualifier := some (valueTree value) }
  | .protection => .ok { request with protection := some (valueTree value) }
  | .flag =>
      if value.all flagNames.contains then .ok { request with flags := request.flags ++ [value] }
      else .error .usage
  | .width =>
      match value with
      | none => .ok { request with width := none }
      | some text =>
          match integer? 10 text with
          | some width => .ok { request with width := some width }
          | none => .error .usage
  | _ => .error .usage

/-- The options of single letters that an argument joins, after the first one. They are used only
if all of them exist. -/
def joinedSwitches (first : Switch) : Text → Except Refusal (List Switch)
  | [] => .ok [first]
  | letter :: more =>
      match switch? [hyphen, letter] with
      | none => .error .usage
      | some next => (joinedSwitches next more).map (first :: ·)

/-- Uses an option, with the words after it. Gives the words that are left. -/
def useSwitch (request : Request) (spelling : Text) (switch : Switch)
    (carried : Option Text) (rest : List Word) : Except Refusal (Request × List Word) :=
  match carried with
  | some value =>
      if switch.takesValue then
        (setValue request switch (if value == "--" then none else some value)).map (·, rest)
      else if spelling.length == 2 && !value.isEmpty then do
        let switches ← joinedSwitches switch value
        return (← switches.foldlM setSwitch request, rest)
      else .error .usage
  | none =>
      if switch.takesValue then
        match rest with
        | .value value :: rest => (setValue request switch (some value)).map (·, rest)
        | _ => .error .usage
      else (setSwitch request switch).map (·, rest)

theorem useSwitch_length {request result : Request} {spelling : Text} {switch : Switch}
    {carried : Option Text} {words rest : List Word}
    (h : useSwitch request spelling switch carried words = .ok (result, rest)) :
    rest.length ≤ words.length := by
  have keep : ∀ {e : Except Refusal Request} {tail : List Word},
      e.map (·, tail) = .ok (result, rest) → rest = tail := by
    intro e tail he
    cases e with
    | error _ => simp [Except.map] at he
    | ok _ => simp only [Except.map, Except.ok.injEq, Prod.mk.injEq] at he; exact he.2.symm
  unfold useSwitch at h
  split at h
  · split at h
    · exact Nat.le_of_eq (congrArg List.length (keep h))
    · split at h
      · simp only [bind, Except.bind, pure, Except.pure] at h
        split at h
        · simp at h
        · split at h
          · simp at h
          · simp only [Except.ok.injEq, Prod.mk.injEq] at h
            exact Nat.le_of_eq (congrArg List.length h.2.symm)
      · simp at h
  · split at h
    · split at h
      · rw [keep h]; simp
      · simp at h
    · exact Nat.le_of_eq (congrArg List.length (keep h))

/-- The words after a separator that stands at the front. -/
def dropSeparator : List Word → List Word
  | .separator :: rest => rest
  | words => words

theorem dropSeparator_length (words : List Word) : (dropSeparator words).length ≤ words.length := by
  unfold dropSeparator
  split <;> simp

/-- Uses the words from left to right. The file is the first value that no option takes; it must be
readable. A separator may stand on either side of the file; anywhere else it is surplus. -/
def useWords (isReadable : Text → Bool) (hasFile : Bool) (surplus : Bool) (request : Request)
    (words : List Word) : Except Refusal Request :=
  match words with
  | [] => if hasFile && !surplus then .ok request else .error .usage
  | .value file :: rest =>
      if hasFile then useWords isReadable true true request rest
      else if isReadable file then
        useWords isReadable true surplus { request with file := file } (dropSeparator rest)
      else .error .usage
  | .separator :: rest => useWords isReadable hasFile (surplus || hasFile) request rest
  | .unknown :: rest => useWords isReadable hasFile true request rest
  | .switch spelling switch carried :: rest =>
      match _h : useSwitch request spelling switch carried rest with
      | .error refusal => .error refusal
      | .ok (request, rest) => useWords isReadable hasFile surplus request rest
termination_by words.length
decreasing_by
  · simp
  · exact Nat.lt_succ_of_le (dropSeparator_length _)
  · simp
  · simp
  · exact Nat.lt_succ_of_le (useSwitch_length _h)

/-- What the arguments ask for. -/
def request (isReadable : Text → Bool) (args : List Text) : Except Refusal Request := do
  let words ← classifyWords args
  useWords isReadable false false {} words

end LispNamespace.CommandLine
