import LispNamespace.Tree.Basic

/-!
# The host

A rewrite consults its host about names that exist outside the namespace and never evaluates
anything in it. The host knows variables, functions and macros, the argument grammars of macros, and
which macros are expanded as definitions. Names are kept as the host sees them, with their
qualifier.
-/

namespace LispNamespace

/-- What is known about the names outside a namespace. -/
structure Host where
  /-- The names of variables, without repetition. -/
  variableNames : List Text
  /-- The names of functions, without repetition. -/
  functionNames : List Text
  /-- The names of macros, without repetition; true for those that expand as definitions. -/
  macros : List (Text × Bool)
  /-- Argument grammars by name, without repetition. -/
  grammars : List (Text × Tree)
  deriving Inhabited, Repr

/-- A list of names with one more name, unless it is there. -/
def addName (names : List Text) (name : Text) : List Text :=
  if names.contains name then names else names ++ [name]

/-- A table with an entry set: in its place if the name has one, else at the end. -/
def setEntry {α : Type} (table : List (Text × α)) (name : Text) (value : α) :
    List (Text × α) :=
  match table with
  | [] => [(name, value)]
  | entry :: rest =>
      if entry.1 == name then (name, value) :: rest else entry :: setEntry rest name value

/-- Adding a name adds that name and drops none. -/
theorem mem_addName {names : List Text} {name other : Text} :
    other ∈ addName names name ↔ other ∈ names ∨ other = name := by
  unfold addName
  split
  · next h =>
    simp only [List.contains_eq_mem, decide_eq_true_eq] at h
    exact ⟨.inl, fun | .inl h => h | .inr e => e ▸ h⟩
  · simp

@[simp] theorem lookup_setEntry_self {α : Type} (table : List (Text × α)) (name : Text)
    (value : α) : (setEntry table name value).lookup name = some value := by
  induction table with
  | nil => simp [setEntry]
  | cons entry rest ih =>
      simp only [setEntry]
      split
      · simp
      · next h =>
        obtain ⟨key, old⟩ := entry
        have : (name == key) = false := beq_eq_false_iff_ne.2 fun e => h (by simp [e])
        simp [List.lookup_cons, this, ih]

/-- Setting an entry leaves the entries of all other names. -/
theorem lookup_setEntry_ne {α : Type} (table : List (Text × α)) {name other : Text}
    (value : α) (h : other ≠ name) :
    (setEntry table name value).lookup other = table.lookup other := by
  have hb : (other == name) = false := by simpa using h
  induction table with
  | nil => simp [setEntry, List.lookup_cons, hb]
  | cons entry rest ih =>
      simp only [setEntry]
      split
      · next he =>
        obtain ⟨key, old⟩ := entry
        obtain rfl : key = name := by simpa using he
        simp [List.lookup_cons, hb]
      · obtain ⟨key, old⟩ := entry
        simp [List.lookup_cons, ih]

namespace Host

/-- The host that knows no names. -/
def empty : Host := ⟨[], [], [], []⟩

/-! ## Recording -/

/-- The host with one more variable. -/
def addVariable (host : Host) (name : Text) : Host :=
  { host with variableNames := addName host.variableNames name }

/-- The host with one more function. -/
def addFunction (host : Host) (name : Text) : Host :=
  { host with functionNames := addName host.functionNames name }

/-- The host with the grammar of a name set. -/
def setGrammar (host : Host) (name : Text) (spec : Tree) : Host :=
  { host with grammars := setEntry host.grammars name spec }

/-- The host with a macro set: whether it expands as a definition, and its grammar if there is
one. A grammar set before is kept if there is none, or an absent one. -/
def addMacro (host : Host) (name : Text) (expands : Bool) (spec : Option Tree) : Host :=
  let host := { host with macros := setEntry host.macros name expands }
  match spec with
  | none | some .absent => host
  | some spec => host.setGrammar name spec

/-! ## Queries -/

/-- Whether a name is a variable. -/
def isBound (host : Host) (name : Text) : Bool := host.variableNames.contains name

/-- Whether a name is a macro. -/
def isMacroName (host : Host) (name : Text) : Bool := host.macros.any (·.1 == name)

/-- Whether a name is a function or a macro. -/
def isFunctionBound (host : Host) (name : Text) : Bool :=
  host.functionNames.contains name || host.isMacroName name

/-- Whether the macro of the given name expands as a definition. -/
def expandsDefinition (host : Host) (name : Text) : Bool :=
  (host.macros.lookup name).getD false

/-- The number of names of each sort, as shown in a summary. -/
def summary (host : Host) : Text :=
  "\x7bvars: " ++ toString host.variableNames.length ++ ", functions: " ++
    toString host.functionNames.length ++ ", macros: " ++ toString host.macros.length ++ "\x7d"

end Host

end LispNamespace
