import LispNamespace.Convert
import LispNamespace.Proofs.Parts

/-!
# The names that forms define

A definition makes the tables take in names: the name in its defining place, and for some modes the
names of the variables that come with it. Which names these are is read off the rule and the form.
-/

namespace LispNamespace

/-! ## What is taken in -/

/-- A name that the tables take in. -/
inductive Addition where
  | variable_ (name : Text)
  | function (name : Text)

namespace Addition

/-- The name that is taken in. -/
def name : Addition → Text
  | .variable_ name | .function name => name

/-- The name with a qualifier in front. -/
def qualify (qualifier : Text) : Addition → Addition
  | .variable_ name => .variable_ (qualifier ++ name)
  | .function name => .function (qualifier ++ name)

/-- The tables with the name taken in. -/
def apply (tables : Tables) : Addition → Tables
  | .variable_ name => tables.addVariable name
  | .function name => tables.addFunction name

theorem mem_variableNames_apply (tables : Tables) (addition : Addition) (name : Text) :
    name ∈ (addition.apply tables).variableNames ↔
      name ∈ tables.variableNames ∨ addition = .variable_ name := by
  cases addition with
  | variable_ other =>
      simp only [apply, Tables.addVariable, mem_addName, Addition.variable_.injEq, eq_comm]
  | function other => simp [apply, Tables.addFunction]

theorem mem_functionNames_apply (tables : Tables) (addition : Addition) (name : Text) :
    name ∈ (addition.apply tables).functionNames ↔
      name ∈ tables.functionNames ∨ addition = .function name := by
  cases addition with
  | variable_ other => simp [apply, Tables.addVariable]
  | function other =>
      simp only [apply, Tables.addFunction, mem_addName, Addition.function.injEq, eq_comm]

@[simp] theorem macros_apply (tables : Tables) (addition : Addition) :
    (addition.apply tables).macros = tables.macros := by
  cases addition <;> rfl

@[simp] theorem grammars_apply (tables : Tables) (addition : Addition) :
    (addition.apply tables).grammars = tables.grammars := by
  cases addition <;> rfl

end Addition

/-- Whether the tables hold an addition already. -/
def Tables.Holds (t : Tables) : Addition → Prop
  | .variable_ name => name ∈ t.variableNames
  | .function name => name ∈ t.functionNames

/-- What the tables hold once a name has been taken in. -/
theorem Tables.holds_apply (tables : Tables) (addition other : Addition) :
    (addition.apply tables).Holds other ↔ tables.Holds other ∨ other = addition := by
  cases other with
  | variable_ name => exact (addition.mem_variableNames_apply tables name).trans (or_congr_right eq_comm)
  | function name => exact (addition.mem_functionNames_apply tables name).trans (or_congr_right eq_comm)

theorem Tables.holds_foldl_apply (additions : List Addition) (tables : Tables) (other : Addition) :
    (additions.foldl Addition.apply tables).Holds other ↔ tables.Holds other ∨ other ∈ additions := by
  induction additions generalizing tables with
  | nil => simp
  | cons addition rest ih =>
      rw [List.foldl_cons, ih, Tables.holds_apply, List.mem_cons, or_assoc]

/-- The session with a name taken into its tables. -/
def Session.learn (s : Session) (addition : Addition) : Session :=
  { s with tables := addition.apply s.tables }

/-- What a definition registers: it takes in names that begin with the defined one, and that one
itself. -/
class Forms.Registers (learn : Register) : Prop where
  additions : ∃ additions : Text → List Addition,
    (∀ name tables, learn name tables = (additions name).foldl Addition.apply tables) ∧
      (∀ name, name ∈ (additions name).map Addition.name) ∧
      ∀ qualifier name, additions (qualifier ++ name) =
        (additions name).map (Addition.qualify qualifier)

namespace Forms

/-- What is registered changes a session like taking in name after name. -/
theorem Registers.tables_eq (learn : Register) [h : Registers learn] (name : Text) :
    ∃ additions : List Addition, name ∈ additions.map Addition.name ∧
      ∀ s : Session, { s with tables := learn name s.tables } = additions.foldl Session.learn s := by
  rcases h.additions with ⟨additions, hlearn, hname, -⟩
  refine ⟨additions name, hname name, fun s => ?_⟩
  -- taking in names one after the other changes nothing but the tables
  have hfold : ∀ (rest : List Addition) (t : Session),
      rest.foldl Session.learn t = { t with tables := rest.foldl Addition.apply t.tables } := by
    intro rest
    induction rest with
    | nil => intro t; rfl
    | cons addition rest ih => intro t; exact ih (t.learn addition)
  rw [hfold, hlearn]

/-- Whatever the tables hold already, the same names are taken in. -/
theorem Registers.holds_iff (learn : Register) [h : Registers learn] (name : Text) (tables : Tables)
    (addition : Addition) :
    (learn name tables).Holds addition ↔ tables.Holds addition ∨ (learn name {}).Holds addition := by
  rcases h.additions with ⟨additions, hlearn, -, -⟩
  have hempty : ¬({} : Tables).Holds addition := by cases addition <;> exact List.not_mem_nil
  rw [hlearn, hlearn, Tables.holds_foldl_apply, Tables.holds_foldl_apply]
  exact or_congr_right ⟨.inr, fun h => h.resolve_left hempty⟩

/-- What single names leave alone is left alone by all that is registered. -/
theorem Registers.unchanged (learn : Register) [h : Registers learn] {α : Type} {part : Tables → α}
    (hpart : ∀ tables (addition : Addition), part (addition.apply tables) = part tables) (name : Text)
    (tables : Tables) : part (learn name tables) = part tables := by
  rcases h.additions with ⟨additions, hlearn, -, -⟩
  rw [hlearn]
  generalize additions name = rest
  induction rest generalizing tables with
  | nil => rfl
  | cons addition rest ih => rw [List.foldl_cons, ih, hpart]

/-- A definition that is no macro definition declares no grammar. -/
theorem Registers.grammars_eq (learn : Register) [Registers learn] (name : Text) (tables : Tables) :
    (learn name tables).grammars = tables.grammars :=
  unchanged learn Addition.grammars_apply name tables

/-- What a qualified name would register is what the name registers, qualified. -/
theorem Registers.holds_qualify (learn : Register) [h : Registers learn] {name : Text}
    {addition : Addition} (qualifier : Text) (hholds : (learn name {}).Holds addition) :
    (learn (qualifier ++ name) {}).Holds (addition.qualify qualifier) := by
  rcases h.additions with ⟨additions, hlearn, -, hqualify⟩
  rw [hlearn, Tables.holds_foldl_apply] at hholds
  rw [hlearn, hqualify, Tables.holds_foldl_apply]
  refine .inr (List.mem_map_of_mem (hholds.resolve_left ?_))
  cases addition <;> exact List.not_mem_nil

instance : Registers fun name tables => tables.addVariable name :=
  ⟨fun name => [.variable_ name], fun _ _ => rfl, by simp [Addition.name], fun _ _ => rfl⟩

instance : Registers fun name tables => tables.addFunction name :=
  ⟨fun name => [.function name], fun _ _ => rfl, by simp [Addition.name], fun _ _ => rfl⟩

instance (isVariable : Bool) (companions : List Text) :
    Registers (learnMode isVariable companions) where
  additions := by
    refine ⟨fun name => .function name :: (if isVariable then [.variable_ name] else []) ++
      companions.map fun ending => .variable_ (name ++ ending), ?_, by simp [Addition.name], ?_⟩
    · intro name tables
      rw [List.foldl_append, List.foldl_map]
      cases isVariable <;> rfl
    · intro qualifier name
      have hcompanions : companions.map (fun ending => Addition.variable_ (qualifier ++ name ++ ending)) =
          (companions.map fun ending => Addition.variable_ (name ++ ending)).map
            (Addition.qualify qualifier) := by
        rw [List.map_map]
        refine List.map_congr_left fun ending _ => ?_
        exact congrArg Addition.variable_ (List.append_assoc qualifier name ending)
      dsimp only
      rw [hcompanions, List.map_append]
      cases isVariable <;> rfl

instance : Registers learnMinorMode := inferInstanceAs (Registers (learnMode _ _))

instance : Registers learnDerivedMode := inferInstanceAs (Registers (learnMode _ _))

instance : Registers learnGlobalizedMode := inferInstanceAs (Registers (learnMode _ _))

end Forms

/-! ## Where the defined name stands -/

namespace FormRule

/-- What the tables learn from the name that a form of the rule defines. -/
def learned? : FormRule → Option Forms.Register
  | .variable_ | .variableAlias => some fun name tables => tables.addVariable name
  | .function | .alias => some fun name tables => tables.addFunction name
  | .minorMode => some Forms.learnMinorMode
  | .derivedMode => some Forms.learnDerivedMode
  | .globalizedMode => some Forms.learnGlobalizedMode
  | _ => none

/-- The symbol in the defining place of a form of the rule, given what follows its head: it stands
there by itself, or quoted in the definition of an alias. -/
def definedName? (rule : FormRule) (tail : List Tree) : Option Text :=
  match rule with
  | .alias | .variableAlias => (tail.head?.bind Tree.quoted?).bind Tree.symbol?
  | _ => tail.head?.bind Tree.symbol?

/-- What the tables learn from a definition is a series of names. -/
theorem registers_of_learned? {rule : FormRule} {learn : Forms.Register}
    (h : rule.learned? = some learn) : Forms.Registers learn := by
  cases rule <;> cases h <;> infer_instance

end FormRule

/-- The form is a definition from which tables take in the name. -/
def Tree.Defines (t : Tree) (addition : Addition) : Prop :=
  ∃ head tail rule learn name, t = Tree.call head tail ∧ FormRule.ofHead? head = some rule ∧
    rule.learned? = some learn ∧ rule.definedName? tail = some name ∧ (learn name {}).Holds addition

instance (tables : Tables) (addition : Addition) : Decidable (tables.Holds addition) :=
  match addition with
  | .variable_ name => inferInstanceAs (Decidable (name ∈ tables.variableNames))
  | .function name => inferInstanceAs (Decidable (name ∈ tables.functionNames))

/-- Whether the form is a definition from which tables take in the name. -/
def Tree.defines (addition : Addition) (t : Tree) : Bool :=
  match t with
  | .list (.sym head :: tail) =>
      match FormRule.ofHead? head with
      | some rule =>
          match rule.learned?, rule.definedName? tail with
          | some learn, some name => decide ((learn name {}).Holds addition)
          | _, _ => false
      | none => false
  | _ => false

theorem Tree.Defines.defines {t : Tree} {addition : Addition} (h : t.Defines addition) :
    t.defines addition = true := by
  rcases h with ⟨head, tail, rule, learn, name, rfl, hrule, hlearn, hname, hholds⟩
  unfold Tree.defines Tree.call
  simp only [hrule, hlearn, hname]
  exact decide_eq_true hholds

/-- The form is a definition of the name, or of a macro that has the name. -/
def Tree.Introduces (t : Tree) (addition : Addition) : Prop :=
  t.Defines addition ∨ ∃ head name params definition,
    t = Tree.call head (.sym name :: params :: definition) ∧
      FormRule.ofHead? head = some .macroDefinition ∧ addition = .function name

/-! ## Heads of definitions -/

namespace FormRule

/-- Whether the rule is one of a definition. -/
def isDefinition : FormRule → Bool
  | .variable_ | .function | .alias | .variableAlias | .minorMode | .derivedMode | .globalizedMode
  | .macroDefinition => true
  | _ => false

/-- The heads of macro definitions. -/
def macroNames : List Text := ["defmacro", "cl-defmacro", "defmacro*"]

/-- The heads of all definitions. -/
def definitionNames : List Text := definitionHeads.map (·.1)

theorem mem_heads_of_ofHead? {name : Text} {rule : FormRule} (h : ofHead? name = some rule) :
    (name, rule) ∈ heads := by
  rcases List.lookup_eq_some_iff.1 h with ⟨front, back, heq, -⟩
  rw [heq]
  exact List.mem_append_right _ (List.mem_cons_self ..)

/-- Only the heads of macro definitions have the rule for macro definitions. -/
theorem mem_macroNames {name : Text} (h : ofHead? name = some .macroDefinition) :
    name ∈ macroNames := by
  have hall : ∀ entry ∈ heads, entry.2 = .macroDefinition → entry.1 ∈ macroNames := by decide
  exact hall (name, .macroDefinition) (mem_heads_of_ofHead? h) rfl

/-- Only the heads of definitions have rules for definitions. -/
theorem mem_definitionNames {name : Text} {rule : FormRule} (h : ofHead? name = some rule)
    (hrule : rule.isDefinition = true) : name ∈ definitionNames := by
  have hall : ∀ entry ∈ heads, entry.2.isDefinition = true → entry.1 ∈ definitionNames := by decide
  exact hall (name, rule) (mem_heads_of_ofHead? h) hrule

end FormRule

namespace Tree

/-- Whether the root of the tree defines no macro. -/
def definesNoMacro (t : Tree) : Bool := !t.isListHeadedBy FormRule.macroNames

theorem ofHead?_ne_macroDefinition {head : Text} {tail : List Tree}
    (h : (Tree.call head tail).definesNoMacro = true) :
    FormRule.ofHead? head ≠ some .macroDefinition := by
  intro hrule
  have hnone : (!FormRule.macroNames.contains head) = true := h
  rw [List.contains_iff_mem.2 (FormRule.mem_macroNames hrule)] at hnone
  cases hnone

theorem isDefinition_eq_false {head : Text} {tail : List Tree} {rule : FormRule}
    (h : (Tree.call head tail).isListHeadedBy FormRule.definitionNames = false)
    (hrule : FormRule.ofHead? head = some rule) : rule.isDefinition = false := by
  refine Bool.eq_false_iff.2 fun hdefinition => ?_
  have hnone : FormRule.definitionNames.contains head = false := h
  rw [List.contains_iff_mem.2 (FormRule.mem_definitionNames hrule hdefinition)] at hnone
  cases hnone

end Tree

end LispNamespace
