import LispNamespace.Proofs.Comparison.Convert
import LispNamespace.Proofs.MacroNormalForm
import LispNamespace.Proofs.Passes

/-!
# Final names are spent at once

A macro definition is converted by converting the form that binds the name of the macro. The name in
that form is final already, and the session says so until a definition comes that is converted. This
is the form in question, as long as its head, `defalias`, is the head of a definition: while it is
neither protected nor a function of the namespace. Then what the session says about the next
definition is never left over from a macro, and every definition that is met as code is registered
and gets its qualified name. Otherwise it is left over, and the next definition, whatever it defines,
is taken for one whose name is final.

To say what is met as code, the conversion is watched: a second conversion does the same and looks at
the session before and after every form that is walked.

What is said about definitions is about those that have a name in the defining place. A macro
definition without parameters is left as it is, and defines nothing.
-/

namespace LispNamespace

open Rewrite

/-! ## Definitions as they are written -/

/-- Whether the names in the tables are names in the other ones, too. -/
def Tables.isWithin (tables others : Tables) : Bool :=
  tables.variableNames.all others.variableNames.contains &&
    tables.functionNames.all others.functionNames.contains &&
      tables.macros.all others.macros.contains

namespace FormRule

/-- The name that a form of the rule defines, and the tables that hold what it registers, given what
follows the head of the form. -/
def registered? (rule : FormRule) (tail : List Tree) : Option (Text × Tables) :=
  match rule, tail with
  | .macroDefinition, .sym name :: _ :: _ => some (name, Tables.addMacro {} name)
  | .macroDefinition, _ => none
  | rule, tail => do
      let learn ← rule.learned?
      let name ← rule.definedName? tail
      return (name, learn name {})

/-- The name in the defining place of a form of the rule and the head once it has been written out. A
macro definition becomes a definition of an alias, perhaps with other forms behind it. -/
def writtenName? (rule : FormRule) (head : Text) (written : Tree) : Option Text :=
  match rule with
  | .macroDefinition =>
      let binding := ((written.tailOf? "prog1").bind List.head?).getD written
      (binding.tailOf? "defalias").bind FormRule.alias.definedName?
  | rule => (written.tailOf? head).bind rule.definedName?

end FormRule

namespace Session

/-- Whether the form is the definition of a macro in the session. -/
def definesMacro (s : Session) (form : Tree) : Bool :=
  match form with
  | .list (.sym head :: _) =>
      match s.approach head with
      | .rule .macroDefinition => true
      | _ => false
  | _ => false

/-- Whether the form, met in the session and written out in the other one, is registered there and
has its qualified name, in case it is a definition whose name is not protected. -/
def hasWritten (s : Session) (form written : Tree) (t : Session) : Bool :=
  match form with
  | .list (.sym head :: tail) =>
      match s.approach head with
      | .rule rule =>
          match rule.registered? tail with
          | some (name, tables) =>
              s.isEscaped name ||
                (tables.isWithin t.tables &&
                  rule.writtenName? head written == some (s.context.qualifier ++ name))
          | none => true
      | .call _ => true
  | _ => true

end Session

/-! ## Conversions that are watched -/

/-- Converts a form with at most the given nesting of steps. The report is given if no step is left,
if the session does not say of the form, before it is converted, whether its name is final, if the
session says of any definition afterwards that its name is final, or if the form is a definition that
is not written as it should be. Only the form that binds a macro has a final name. -/
def watchWithin (report : Fault) : Nat → Bool → Walk
  | 0, _, _ => throw report
  | steps + 1, isFinal, form => do
      let s ← get
      demand report (s.nameIsFinal == isFinal)
      let written ← convertNode (watchWithin report steps (s.definesMacro form)) form
      let t ← get
      demand report (!t.nameIsFinal && (isFinal || s.hasWritten form written t))
      return written

/-- Converts a form that defines no final name, and gives the report if final names are not spent on
the forms that they were meant for. -/
def watch (report : Fault) (form : Tree) : Rewrite Tree :=
  watchWithin report (weight form) false form

section Watching

variable {report : Fault}

instance (condition : Bool) (scope : Scope) : Keeps growth scope (demand report condition) := by
  unfold demand
  split
  · infer_instance
  · exact ⟨fun _ => .throw trivial⟩

instance (steps : Nat) (isFinal : Bool) : GrowingWalk (watchWithin report steps isFinal) := by
  induction steps generalizing isFinal with
  | zero => exact fun _ _ => ⟨fun _ => .throw trivial⟩
  | succ steps ih =>
      intro scope form
      unfold watchWithin
      infer_instance

/-- A form passes if the session says what it should, before and after it is converted. -/
theorem runFrom_watchWithin {steps : Nat} {isFinal : Bool} {form written : Tree} {s t : Session}
    (hs : s.nameIsFinal = isFinal)
    (hrun : (convertNode (watchWithin report steps (s.definesMacro form)) form).runFrom s =
      (.ok written, t))
    (ht : t.nameIsFinal = false) (hwritten : isFinal = true ∨ s.hasWritten form written t = true) :
    (watchWithin report (steps + 1) isFinal form).runFrom s = (.ok written, t) := by
  have hbefore : (s.nameIsFinal == isFinal) = true := beq_iff_eq.2 hs
  have hafter : (!t.nameIsFinal && (isFinal || s.hasWritten form written t)) = true := by
    rw [ht, Bool.not_false, Bool.true_and, Bool.or_eq_true]
    exact hwritten
  unfold watchWithin demand
  rw [runFrom_bind, runFrom_get]
  dsimp only
  rw [if_pos hbefore, pure_bind, runFrom_bind, hrun]
  dsimp only
  rw [runFrom_bind, runFrom_get]
  dsimp only
  rw [if_pos hafter, pure_bind]
  rfl

end Watching

/-! ## Definitions are registered -/

namespace Forms

/-- A name that is neither final nor protected is registered and qualified. -/
theorem runFrom_convertDefinedName (learn : Register) {name : Text} {s : Session}
    (hfinal : s.nameIsFinal = false) (hescaped : s.isEscaped name = false) :
    (convertDefinedName learn (.sym name)).runFrom s =
      (.ok (.sym (s.context.qualifier ++ name)), { s with tables := learn name s.tables }) := by
  have hcleared : ({ s with nameIsFinal := false } : Session) = s := by rw [← hfinal]
  have htake : takeNameIsFinal.runFrom s = (.ok false, s) := by
    have hrun : takeNameIsFinal.runFrom s = (.ok s.nameIsFinal, { s with nameIsFinal := false }) := rfl
    rw [hrun, hcleared, hfinal]
  unfold convertDefinedName
  rw [runFrom_bind, htake]
  dsimp only
  rw [if_neg Bool.false_ne_true, runFrom_bind, runFrom_get]
  dsimp only
  rw [hescaped, if_neg Bool.false_ne_true]
  rw [Session.qualified_of_not_isEscaped hescaped]
  rfl

end Forms

namespace FormRule

/-- A form in which a rule finds a defined name is converted by converting the name first. The name is
put back into its place, and the rest of the form follows. -/
theorem convert_defined (walk : Walk) [GrowingWalk walk] {rule : FormRule} {learn : Forms.Register}
    {tail : List Tree} {name : Text} (hlearn : rule.learned? = some learn)
    (hname : rule.definedName? tail = some name) (head : Text) :
    ∃ (place : Tree → Tree) (next : Rewrite (List Tree)), Growing next ∧
      (∀ other rest, rule.definedName? (place (.sym other) :: rest) = some other) ∧
      rule.convert walk head tail =
        Forms.convertDefinedName learn (.sym name) >>= fun defined => next >>= fun rest =>
          return Tree.call head (place defined :: rest) := by
  -- in most definitions the name stands by itself, in those of aliases it stands quoted
  have hplain : tail.head?.bind Tree.symbol? = some name → ∃ rest, tail = .sym name :: rest := by
    intro h
    match tail, h with
    | .sym _ :: rest, rfl => exact ⟨rest, rfl⟩
  have hquoted : (tail.head?.bind Tree.quoted?).bind Tree.symbol? = some name →
      ∃ written rest, tail = written :: rest ∧ written.quoted? = some (.sym name) := by
    intro h
    rcases tail with _ | ⟨written, rest⟩
    · cases h
    · refine ⟨written, rest, rfl, ?_⟩
      rw [List.head?_cons, Option.bind_some] at h
      rcases Option.bind_eq_some_iff.1 h with ⟨datum, hdatum, hsymbol⟩
      rw [hdatum]
      cases datum <;> cases hsymbol
      rfl
  cases rule with
  | variable_ =>
      cases hlearn
      rcases hplain hname with ⟨rest, rfl⟩
      exact ⟨id, rest.mapM walk, inferInstance, fun _ _ => rfl, rfl⟩
  | function =>
      cases hlearn
      rcases hplain hname with ⟨rest, rfl⟩
      cases rest with
      | nil => exact ⟨id, pure [], inferInstance, fun _ _ => rfl, rfl⟩
      | cons params body =>
          exact ⟨id, Forms.convertLambdaTail walk params body, inferInstance, fun _ _ => rfl, rfl⟩
  | «alias» | variableAlias =>
      cases hlearn
      rcases hquoted hname with ⟨written, rest, rfl, hwritten⟩
      refine ⟨Tree.quote, rest.mapM walk, inferInstance, fun _ _ => rfl, ?_⟩
      dsimp only [FormRule.convert]
      simp only [Forms.convertAlias, Forms.convertVariableAlias, Forms.convertAliasWith,
        Forms.convertQuotedName, hwritten, bind_assoc, pure_bind]
  | minorMode =>
      cases hlearn
      rcases hplain hname with ⟨rest, rfl⟩
      exact ⟨id, Forms.convertByGrammar walk head Forms.minorModeGrammar rest, inferInstance,
        fun _ _ => rfl, rfl⟩
  | derivedMode =>
      cases hlearn
      rcases hplain hname with ⟨rest, rfl⟩
      cases rest with
      | nil => exact ⟨id, pure [], inferInstance, fun _ _ => rfl, rfl⟩
      | cons parent args =>
          refine ⟨id, do
            let parent ← Forms.convertFunctionName parent
            let args ← Forms.convertByGrammar walk head Forms.derivedModeGrammar args
            return parent :: args, inferInstance, fun _ _ => rfl, ?_⟩
          simp only [bind_assoc, pure_bind]
          rfl
  | globalizedMode =>
      cases hlearn
      rcases hplain hname with ⟨rest, rfl⟩
      refine ⟨id, do
        let functions ← (rest.take 2).mapM Forms.convertFunctionName
        let args ← Forms.convertByGrammar walk head Forms.globalizedModeGrammar (rest.drop 2)
        return functions ++ args, inferInstance, fun _ _ => rfl, ?_⟩
      simp only [bind_assoc, pure_bind]
      rfl
  | _ => cases hlearn

/-- What a rule for other definitions than those of macros registers is what is learned from the name
that it finds. -/
theorem of_registered? {rule : FormRule} (hrule : rule ≠ .macroDefinition) {tail : List Tree}
    {name : Text} {tables : Tables} (h : rule.registered? tail = some (name, tables)) :
    ∃ learn, rule.learned? = some learn ∧ rule.definedName? tail = some name ∧
      tables = learn name {} := by
  unfold registered? at h
  split at h
  · exact absurd rfl hrule
  · exact absurd rfl hrule
  · rcases Option.bind_eq_some_iff.1 h with ⟨learn, hlearn, hrest⟩
    rcases Option.bind_eq_some_iff.1 hrest with ⟨found, hname, hpair⟩
    cases hpair
    exact ⟨learn, hlearn, hname, rfl⟩

/-- In a call of the head, the name of a definition stands where the rule finds it. -/
theorem writtenName?_call {rule : FormRule} (hrule : rule ≠ .macroDefinition) (head : Text)
    (args : List Tree) : rule.writtenName? head (Tree.call head args) = rule.definedName? args := by
  have htail : (Tree.call head args).tailOf? head = some args := if_pos (beq_self_eq_true head)
  unfold writtenName?
  split
  · exact absurd rfl hrule
  · rw [htail]
    rfl

end FormRule

theorem Tables.isWithin_iff {tables others : Tables} : tables.isWithin others = true ↔
    (∀ name ∈ tables.variableNames, name ∈ others.variableNames) ∧
      (∀ name ∈ tables.functionNames, name ∈ others.functionNames) ∧
        ∀ name ∈ tables.macros, name ∈ others.macros := by
  simp only [isWithin, Bool.and_eq_true, List.all_eq_true, List.contains_eq_mem, decide_eq_true_eq,
    and_assoc]

/-- What has been registered stays so while the session grows. -/
theorem Forms.Registers.isWithin (learn : Register) [Registers learn] {name : Text} {s t : Session}
    (hgrows : ({ s with tables := learn name s.tables } : Session).GrowsTo t) :
    (learn name {}).isWithin t.tables = true := by
  have hholds : ∀ addition, (learn name {}).Holds addition → (learn name s.tables).Holds addition :=
    fun addition h => (holds_iff learn name s.tables addition).2 (.inr h)
  have hmacros : (learn name {}).macros = [] := unchanged learn Addition.macros_apply name {}
  refine Tables.isWithin_iff.2 ⟨fun other h => ?_, fun other h => ?_, fun other h => ?_⟩
  · exact hgrows.variableNames other (hholds (.variable_ other) h)
  · exact hgrows.functionNames other (hholds (.function other) h)
  · rw [hmacros] at h
    cases h

/-- A rule that finds a name in its defining place registers and qualifies the name, if it is neither
final nor protected. -/
theorem FormRule.registers_of_run {rule : FormRule} {walk : Walk} [GrowingWalk walk]
    {learn : Forms.Register} {head name : Text} {tail : List Tree} {written : Tree} {s t : Session}
    (hlearn : rule.learned? = some learn) (hname : rule.definedName? tail = some name)
    (hfinal : s.nameIsFinal = false) (hescaped : s.isEscaped name = false)
    (hrun : (rule.convert walk head tail).runFrom s = (.ok written, t)) :
    (learn name {}).isWithin t.tables = true ∧
      rule.writtenName? head written = some (s.context.qualifier ++ name) := by
  have hrule : rule ≠ .macroDefinition := by
    rintro rfl
    cases hlearn
  rcases convert_defined walk hlearn hname head with ⟨place, next, hgrowing, hplace, hconvert⟩
  rw [hconvert, runFrom_bind, Forms.runFrom_convertDefinedName learn hfinal hescaped] at hrun
  -- the rest of the form is converted after the name has been registered
  rcases runFrom_bind_ok.1 hrun with ⟨rest, u, hnext, hpure⟩
  rcases runFrom_pure_ok.1 hpure with ⟨rfl, rfl⟩
  have hregisters := registers_of_learned? hlearn
  refine ⟨Forms.Registers.isWithin learn (Growing.of_run hnext), ?_⟩
  rw [writtenName?_call hrule, hplace]

namespace Session

theorem definesMacro_call {s : Session} {head : Text} {tail : List Tree} :
    s.definesMacro (Tree.call head tail) = true ↔ s.approach head = .rule .macroDefinition := by
  show (match s.approach head with | .rule .macroDefinition => true | _ => false) = true ↔ _
  cases s.approach head with
  | rule rule => cases rule <;> simp
  | call treatment => simp

/-- A form defines a macro if its head is approached by the rule for macro definitions in the
session that meets it. -/
theorem exists_of_definesMacro {s : Session} {form : Tree} (h : s.definesMacro form = true) :
    ∃ head tail, form = Tree.call head tail ∧ s.approach head = .rule .macroDefinition := by
  match form, h with
  | .list (.sym head :: tail), h => exact ⟨head, tail, rfl, definesMacro_call.1 h⟩

/-- A definition of anything but a macro is registered and gets its qualified name, if the session does
not say of it that its name is final. -/
theorem hasWritten_of_run {walk : Walk} [GrowingWalk walk] {form written : Tree} {s t : Session}
    (hfinal : s.nameIsFinal = false) (hdefines : s.definesMacro form = false)
    (hrun : (convertNode walk form).runFrom s = (.ok written, t)) :
    s.hasWritten form written t = true := by
  unfold hasWritten
  -- there is something to look for only in a call of a rule that takes in the name of its form
  split
  · next head tail =>
    split
    · next rule happroach =>
      have hrule : rule ≠ .macroDefinition := by
        rintro rfl
        exact Bool.eq_false_iff.1 hdefines (definesMacro_call.2 happroach)
      split
      · next name tables hregistered =>
        rcases FormRule.of_registered? hrule hregistered with ⟨learn, hlearn, hname, rfl⟩
        by_cases hescaped : s.isEscaped name = true
        · rw [hescaped, Bool.true_or]
        · have hconvert : (rule.convert walk head tail).runFrom
              (s.trace (.specialForm s.context.qualifier head)) = (.ok written, t) :=
            (runFrom_convert_rule happroach).symm.trans hrun
          rcases FormRule.registers_of_run (s := s.trace _) hlearn hname hfinal
            (Bool.eq_false_iff.2 hescaped) hconvert with ⟨hwithin, hshown⟩
          have hcontext : (s.trace (.specialForm s.context.qualifier head)).context = s.context := rfl
          rw [hwithin, hshown, hcontext, beq_self_eq_true, Bool.and_true, Bool.or_true]
      · rfl
    · rfl
  · rfl

end Session

/-! ## Where final names are spent -/

namespace Session

/-- The session belongs to a run that ends in the last one, and says of no definition that its name is
final. What is local in the end is local in it. -/
structure Precedes (s last : Session) : Prop where
  nameIsFinal : s.nameIsFinal = false
  context : s.context = last.context
  shadowed : ∀ name, last.isShadowed name = true → s.isShadowed name = true

/-- The session knows of no other functions than the last one. -/
structure FunctionsWithin (s last : Session) : Prop where
  functionNames : ∀ name ∈ s.tables.functionNames, name ∈ last.tables.functionNames
  hostFunctions : ∀ name, s.host.isFunctionBound name = true → last.host.isFunctionBound name = true

/-- In the session, the form that binds the name of a macro is a definition, if the form defines
macros. -/
def BindsMacrosOf (last : Session) (form : Tree) : Prop :=
  last.approach "defalias" = .rule .alias ∨ form.everywhere Tree.definesNoMacro = true

variable {s t last : Session}

theorem FunctionsWithin.of_growsTo (h : t.FunctionsWithin last) (hgrows : s.GrowsTo t) :
    s.FunctionsWithin last where
  functionNames name hname := h.functionNames name (hgrows.functionNames name hname)
  hostFunctions name hname := by
    refine h.hostFunctions name ?_
    unfold Host.isFunctionBound at hname ⊢
    rw [Bool.or_eq_true] at hname ⊢
    rw [hgrows.hostFunctions]
    exact hname.imp_right hgrows.isMacroName

namespace Precedes

theorem of_growsTo (h : s.Precedes last) (hgrows : s.GrowsTo t) (hfinal : t.nameIsFinal = false) :
    t.Precedes last where
  nameIsFinal := hfinal
  context := hgrows.context.trans h.context
  shadowed name hname := hgrows.shadowed name (h.shadowed name hname)

/-- A head that has its rule in the end has had it all along. -/
theorem approach (h : s.Precedes last) (hfunctions : s.FunctionsWithin last) {name : Text}
    {rule : FormRule} (hlast : last.approach name = .rule rule) : s.approach name = .rule rule := by
  rcases approach_eq_rule_iff.1 hlast with ⟨hescaped, hfunction, hrule⟩
  refine approach_eq_rule_iff.2 ⟨?_, Bool.eq_false_iff.2 fun hown => ?_, hrule⟩
  · unfold isEscaped at hescaped ⊢
    rwa [h.context]
  -- a function of the namespace stays one
  · refine Bool.eq_false_iff.1 hfunction ?_
    unfold isFunction isFree asksHost qualified at hown ⊢
    rw [h.context] at hown
    simp only [Bool.and_eq_true, Bool.or_eq_true, Bool.not_eq_true', List.contains_iff_mem] at hown ⊢
    rcases hown with ⟨⟨hkeyword, hfree⟩, howns⟩
    refine ⟨⟨hkeyword, Bool.eq_false_iff.2 fun hlocal => ?_⟩, ?_⟩
    · exact Bool.eq_false_iff.1 hfree (h.shadowed name hlocal)
    · exact howns.imp (hfunctions.functionNames name) fun hhost =>
        ⟨hhost.1, hfunctions.hostFunctions _ hhost.2⟩

end Precedes

end Session

namespace Comparison

/-- A run that ends in the last session is compared with one that is watched. Forms of at most the
given weight are compared, and whatever they become, they become it in both runs. -/
def watching (last : Session) (limit : Nat) : Comparison where
  Related s t := (∃ journal, t = { s with journal := journal }) ∧ s.Precedes last
  Counts s := s.FunctionsWithin last
  Form form := weight form ≤ limit ∧ last.BindsMacrosOf form
  Result _ a b := b = a
  Names ns ms := ms = ns

section Watching

variable {last : Session} {limit : Nat}

/-- The watch is kept through all steps that rules take, for none of them looks at it. -/
theorem lawful_watching : (watching last limit).Lawful where
  context := by
    rintro s _ ⟨⟨_, rfl⟩, -⟩
    rfl
  journal := by
    rintro s _ j k ⟨⟨_, rfl⟩, hs⟩
    exact ⟨⟨k, rfl⟩, { hs with }⟩
  pushFrame := by
    rintro s _ ns _ ⟨⟨k, rfl⟩, hs⟩ rfl
    refine ⟨⟨k, rfl⟩, { hs with shadowed := fun name hname => ?_ }⟩
    rw [Session.isShadowed_pushFrame, hs.shadowed name hname, Bool.or_true]
  -- what comes out of a frame has grown from what went in
  popFrame := by
    rintro s _ s' _ ns ms ⟨-, hs⟩ hgrows - ⟨⟨k, rfl⟩, hs'⟩
    exact ⟨⟨k, rfl⟩, hs.of_growsTo hgrows.popFrame hs'.nameIsFinal⟩
  growFrame := by
    rintro s _ _ ns ⟨⟨k, rfl⟩, hs⟩ rfl
    have hfinal : (s.growFrame ns).nameIsFinal = s.nameIsFinal := by
      unfold Session.growFrame
      split <;> rfl
    refine ⟨⟨k, ?_⟩, hs.of_growsTo (s.growsTo_growFrame ns) (hfinal.trans hs.nameIsFinal)⟩
    unfold Session.growFrame
    cases hframes : s.frames <;> simp only [hframes]
  counts hgrows hcounts := hcounts.of_growsTo hgrows
  counts_frames _ hcounts := { hcounts with }
  names_same _ := rfl
  names_append := by
    rintro ns _ ns' _ rfl rfl
    rfl
  names_result := by
    rintro t a _ rfl
    rfl
  form_children h hchild :=
    ⟨Nat.le_trans (Nat.le_of_lt (weight_lt_of_mem_children hchild)) h.1,
      h.2.imp_right fun hform => Tree.everywhere_children hform hchild⟩
  approach := by
    rintro s _ name _ - ⟨⟨_, rfl⟩, -⟩ -
    rfl
  macroTreatment := by
    rintro s _ name ⟨⟨_, rfl⟩, -⟩
    rfl
  classify := by
    rintro s _ spec args ⟨⟨_, rfl⟩, -⟩ -
    rfl
  result_same _ := rfl
  result_list h := congrArg Tree.list h.eq
  result_ofList _ _ h := congrArg Tree.ofList h.eq
  result_call _ _ _ h := congrArg (Tree.call _) h.eq
  result_dot h := congrArg (Tree.dot · _) h.eq
  result_dotAbsent _ h := congrArg Tree.list h.eq
  result_variable := by
    rintro s _ name ⟨⟨_, rfl⟩, -⟩ -
    rfl
  result_function := by
    rintro s _ name ⟨⟨_, rfl⟩, -⟩ -
    rfl

/-- A definition that is no macro leaves the flag for a final name as it has to be: taken down. -/
theorem defining_watching : (watching last limit).Defining where
  nameIsFinal := by
    rintro s _ ⟨⟨_, rfl⟩, -⟩
    rfl
  clear := by
    rintro s _ ⟨⟨k, rfl⟩, hs⟩
    exact ⟨⟨k, rfl⟩, hs.of_growsTo (s.growsTo_nameIsFinal false) rfl⟩
  learn := by
    rintro s _ addition ⟨⟨k, rfl⟩, hs⟩ -
    exact ⟨⟨k, rfl⟩, hs.of_growsTo (s.growsTo_learn addition) hs.nameIsFinal⟩
  result_defined := by
    rintro s _ name ⟨⟨_, rfl⟩, -⟩ - - -
    rfl
  result_quote _ _ h := congrArg Tree.quote h

end Watching

end Comparison

/-! ## Macro definitions -/

section Macros

variable {report : Fault} {last s t : Session} {head name : Text} {params : Tree}
  {definition : List Tree}

/-- What a macro definition becomes is a definition of its final name, as which it has been
registered. -/
theorem Session.hasWritten_macro (happroach : s.approach head = .rule .macroDefinition)
    (hfinal : s.nameIsFinal = false) (hgrows : (s.recordMacro name definition).GrowsTo t)
    (params bound : Tree) :
    s.hasWritten (Tree.call head (.sym name :: params :: definition))
      (Definition.withDeclared (.sym (s.macroName name)) definition
        (Tree.call "defalias" [Tree.quote (.sym (s.macroName name)), bound])) t = true := by
  have hname : s.macroName name = s.qualified name := by
    unfold macroName
    rw [hfinal]
    rfl
  have hshown : FormRule.macroDefinition.writtenName? head
      (Definition.withDeclared (.sym (s.macroName name)) definition
        (Tree.call "defalias" [Tree.quote (.sym (s.macroName name)), bound])) =
          some (s.macroName name) := by
    unfold Definition.withDeclared
    dsimp only
    split <;> rfl
  have hregistered : FormRule.macroDefinition.registered? (.sym name :: params :: definition) =
      some (name, Tables.addMacro {} name) := rfl
  unfold hasWritten Tree.call
  dsimp only
  rw [happroach]
  dsimp only
  rw [hregistered]
  dsimp only
  -- a protected name is not qualified, and nothing is asked of it
  by_cases hescaped : s.isEscaped name = true
  · rw [hescaped, Bool.true_or]
  · have hescaped' := Bool.eq_false_iff.2 hescaped
    have hwithin : (Tables.addMacro {} name).isWithin t.tables = true := by
      rcases s.mem_recordMacro hfinal hescaped' definition with ⟨hfunction, hmacro⟩
      refine Tables.isWithin_iff.2 ⟨fun _ h => absurd h List.not_mem_nil, ?_, ?_⟩
      · exact List.forall_mem_singleton.2 (hgrows.functionNames name hfunction)
      · exact List.forall_mem_singleton.2 (hgrows.macros name hmacro)
    have hcall : ∀ items, Tree.list (.sym "defalias" :: items) = Tree.call "defalias" items :=
      fun _ => rfl
    rw [hcall, hshown, hname, qualified_of_not_isEscaped hescaped', hwithin, beq_self_eq_true,
      Bool.and_true, Bool.or_true]

/-- A macro definition is recorded, and then the form that binds its name is walked. -/
theorem runFrom_convertNode_macro (walk : Walk) (name : Text) (params : Tree)
    (definition : List Tree) (happroach : s.approach head = .rule .macroDefinition) :
    ∃ journal, (convertNode walk (Tree.call head (.sym name :: params :: definition))).runFrom s =
      if s.host.expandsDefinition head then
        (walk (Definition.boundForm (.sym (s.macroName name)) params definition) >>= fun bound =>
          return Definition.withDeclared (.sym (s.macroName name)) definition bound).runFrom
            { s.recordMacro name definition with nameIsFinal := true, journal := journal }
      else
        (.error (.notExpandable (Tree.sym head).display),
          { s.recordMacro name definition with journal := journal }) := by
  rcases Forms.runFrom_convertMacro walk head name params definition
    (s.trace (.specialForm s.context.qualifier head)) with ⟨journal, hmacro⟩
  have htrace : s.trace (.specialForm s.context.qualifier head) =
      { s with journal := (s.trace (.specialForm s.context.qualifier head)).journal } := rfl
  rw [htrace, Session.recordMacro_journal] at hmacro
  exact ⟨journal, (runFrom_convert_rule happroach).trans hmacro⟩

end Macros

/-! ## Runs that pass -/

namespace Comparison

variable {report : Fault} {last s t : Session} {limit : Nat} {head : Text} {tail : List Tree}

/-- The form that binds the name of a macro spends the final name, and the runs agree on it if they
stay together on the expander of the macro. -/
theorem agree_watchWithin_boundForm {steps : Nat} (final : Text) {params : Tree}
    {definition : List Tree} (hlast : last.approach "defalias" = .rule .alias)
    (hfinal : s.nameIsFinal = true) (hs : ({ s with nameIsFinal := false } : Session).Precedes last)
    (hexpander : (watching last limit).Follows (convert (Definition.expander params definition))
      (watchWithin report steps false (Definition.expander params definition)) fun a b => b = a)
    (journal : Journal) :
    (watching last limit).Agree s { s with journal := journal }
      (convert (Definition.boundForm (.sym final) params definition))
      (watchWithin report (steps + 1) true (Definition.boundForm (.sym final) params definition))
      fun a b => b = a ∧ ∃ bound, a = Tree.call "defalias" [Tree.quote (.sym final), bound] := by
  intro a s' hrun hs'
  have hfunctions : ({ s with nameIsFinal := false } : Session).FunctionsWithin last :=
    { hs'.of_growsTo (Growing.of_run hrun) with }
  have halias : s.approach "defalias" = .rule .alias := hs.approach hfunctions hlast
  have hdefines : ({ s with journal := journal } : Session).definesMacro
      (Definition.boundForm (.sym final) params definition) = false := by
    rw [Definition.boundForm_eq, Bool.eq_false_iff, ne_eq, Session.definesMacro_call]
    intro hother
    cases halias.symm.trans hother
  -- in both runs, the expander is walked with the final name spent
  rcases Forms.runFrom_convertNode_boundForm convert final params definition halias hfinal with
    ⟨j, hbound⟩
  rcases Forms.runFrom_convertNode_boundForm (watchWithin report steps false) final params definition
    (s := { s with journal := journal }) halias hfinal with ⟨j', hbound'⟩
  rw [convert_eq, hbound] at hrun
  rcases runFrom_bind_ok.1 hrun with ⟨bound, u, hinner, hpure⟩
  rcases runFrom_pure_ok.1 hpure with ⟨rfl, rfl⟩
  have hrelated : (watching last limit).Related { s with nameIsFinal := false, journal := j }
      { s with nameIsFinal := false, journal := j' } := ⟨⟨j', rfl⟩, { hs with }⟩
  rcases hexpander _ _ hrelated { hfunctions with } bound s' hinner hs' with
    ⟨_, _, hinner', rfl, ⟨k, rfl⟩, hprecedes⟩
  refine ⟨_, { s' with journal := k }, ?_, ⟨rfl, _, rfl⟩, ⟨k, rfl⟩, hprecedes⟩
  refine runFrom_watchWithin hfinal ?_ hprecedes.nameIsFinal (.inl rfl)
  rw [hdefines, hbound', runFrom_bind, hinner']
  rfl

/-- The runs agree on the definition of a macro if they stay together on lighter forms. -/
theorem agree_watchWithin_macro {name : Text} {params : Tree} {definition : List Tree}
    (hwalk : ∀ n ≤ limit, ∀ form, (watching last n).Form form →
      (watching last limit).Follows (convert form) (watchWithin report n false form) fun a b => b = a)
    (hform : (watching last (limit + 1)).Form (Tree.call head (.sym name :: params :: definition)))
    (hs : s.Precedes last) (happroach : s.approach head = .rule .macroDefinition)
    (journal : Journal) :
    (watching last limit).Agree s { s with journal := journal }
      (convert (Tree.call head (.sym name :: params :: definition)))
      (watchWithin report (limit + 1) false (Tree.call head (.sym name :: params :: definition)))
      fun a b => b = a := by
  intro a s' hrun hs'
  have hhead := Session.ofHead?_of_approach happroach
  have hdefines : ({ s with journal := journal } : Session).definesMacro
      (Tree.call head (.sym name :: params :: definition)) = true :=
    Session.definesMacro_call.2 happroach
  have hlast : last.approach "defalias" = .rule .alias := by
    refine hform.2.resolve_right fun hnone => ?_
    exact absurd hhead (Tree.ofHead?_ne_macroDefinition (Tree.test_of_everywhere hnone))
  -- there are steps left for the form that binds the name and for the expander in it
  have hroom : weight (Definition.expander params definition) + 6 ≤ limit + 1 :=
    Nat.le_trans (weight_expander hhead) hform.1
  obtain ⟨steps, rfl⟩ : ∃ steps, limit = steps + 1 := ⟨limit - 1, by omega⟩
  have hexpander := hwalk steps (Nat.le_succ steps) (Definition.expander params definition)
    ⟨by omega, .inl hlast⟩
  rcases runFrom_convertNode_macro convert name params definition happroach with ⟨j, hconvert⟩
  rcases runFrom_convertNode_macro (watchWithin report (steps + 1) true) name params definition
    (s := { s with journal := journal }) happroach with ⟨j', hconvert'⟩
  rw [Session.recordMacro_journal] at hconvert'
  rw [convert_eq, hconvert] at hrun
  by_cases hexpands : s.host.expandsDefinition head = true
  · rw [if_pos hexpands] at hrun
    rw [if_pos hexpands] at hconvert'
    rcases runFrom_bind_ok.1 hrun with ⟨bound, u, hbound, hpure⟩
    rcases runFrom_pure_ok.1 hpure with ⟨rfl, rfl⟩
    have hrecorded : (s.recordMacro name definition).Precedes last :=
      hs.of_growsTo (s.growsTo_recordMacro name definition) (s.frames_recordMacro name definition).2
    have hagree := agree_watchWithin_boundForm (s.macroName name)
      (s := { s.recordMacro name definition with nameIsFinal := true, journal := j }) hlast rfl
      { hrecorded with nameIsFinal := rfl } hexpander j'
    rcases hagree bound s' hbound hs' with ⟨_, _, hbound', ⟨rfl, inner, rfl⟩, ⟨k, rfl⟩, hprecedes⟩
    refine ⟨_, { s' with journal := k }, ?_, rfl, ⟨k, rfl⟩, hprecedes⟩
    have hgrows : (({ s with journal := journal } : Session).recordMacro name definition).GrowsTo
        { s' with journal := k } := by
      rw [Session.recordMacro_journal]
      exact { Growing.of_run hbound' with }
    have hnode : (convertNode (watchWithin report (steps + 1) true)
        (Tree.call head (.sym name :: params :: definition))).runFrom { s with journal := journal } =
          (.ok (Definition.withDeclared (.sym (s.macroName name)) definition
            (Tree.call "defalias" [Tree.quote (.sym (s.macroName name)), inner])),
              { s' with journal := k }) :=
      hconvert'.trans (runFrom_bind_ok.2 ⟨_, _, hbound', rfl⟩)
    rw [← hdefines] at hnode
    have hwritten := Session.hasWritten_macro (s := { s with journal := journal }) happroach
      hs.nameIsFinal hgrows params inner
    exact runFrom_watchWithin hs.nameIsFinal hnode hprecedes.nameIsFinal (.inr hwritten)
  · rw [if_neg hexpands] at hrun
    cases hrun

/-- So they do on one that has no name or no parameters, which is left as it is. -/
theorem agree_watchWithin_shapeless (limit : Nat)
    (hshape : ¬∃ name params definition, tail = .sym name :: params :: definition)
    (hs : s.Precedes last) (happroach : s.approach head = .rule .macroDefinition)
    (journal : Journal) :
    (watching last limit).Agree s { s with journal := journal } (convert (Tree.call head tail))
      (watchWithin report (limit + 1) false (Tree.call head tail)) fun a b => b = a := by
  have hsame : ∀ walk (r : Session), r.approach head = .rule .macroDefinition →
      (convertNode walk (Tree.call head tail)).runFrom r =
        (.ok (Tree.call head tail), r.trace (.specialForm r.context.qualifier head)) := by
    intro walk r hr
    rw [runFrom_convert_rule hr]
    exact congrArg (runFrom · _) (Forms.convertMacro_shapeless walk head hshape)
  -- there is no name to take in, so the watch has nothing to find missing
  have hnone : FormRule.macroDefinition.registered? tail = none := by
    unfold FormRule.registered?
    split
    · exact absurd ⟨_, _, _, rfl⟩ hshape
    · rfl
    · next hother _ => exact absurd rfl hother
  intro a s' hrun _
  rw [convert_eq, hsame convert s happroach] at hrun
  cases hrun
  have hwritten : ∀ t : Session, ({ s with journal := journal } : Session).hasWritten
      (Tree.call head tail) (Tree.call head tail) t = true := by
    intro t
    have happroach' : ({ s with journal := journal } : Session).approach head =
        .rule .macroDefinition := happroach
    unfold Session.hasWritten Tree.call
    dsimp only
    rw [happroach']
    dsimp only
    rw [hnone]
  refine ⟨_, _, runFrom_watchWithin hs.nameIsFinal (hsame _ { s with journal := journal } happroach)
    hs.nameIsFinal (.inr (hwritten _)), rfl, ⟨_, rfl⟩, { hs with }⟩

/-- They agree on any other form if they stay together on its parts. -/
theorem agree_watchWithin_parts {form : Tree}
    (hwalk : (watching last limit).FollowsWalk convert (watchWithin report limit false))
    (hparts : (watching last limit).FormAll form.children) (hs : s.Precedes last)
    (hfunctions : s.FunctionsWithin last) (hdefines : s.definesMacro form = false)
    (journal : Journal) :
    (watching last limit).Agree s { s with journal := journal } (convert form)
      (watchWithin report (limit + 1) false form) fun a b => b = a := by
  have hrelated : (watching last limit).Related s { s with journal := journal } :=
    ⟨⟨journal, rfl⟩, hs⟩
  have happroach : ∀ name, s.approach name = ({ s with journal := journal } : Session).approach name :=
    fun _ => rfl
  have hdefines' : ({ s with journal := journal } : Session).definesMacro form = false := hdefines
  -- the watch looks at the form after its parts, so the run of the parts is compared first
  have hagree : (watching last limit).Agree s { s with journal := journal } (convertNode convert form)
      (convertNode (watchWithin report limit false) form) fun a b => b = a := by
    refine agree_convertNode lawful_watching hwalk hparts hrelated hfunctions
      (fun name _ _ => happroach name) ?_
    rintro name tail rule rfl hcase
    have hrule : rule ≠ .macroDefinition := by
      rintro rfl
      exact Bool.eq_false_iff.1 hdefines (Session.definesMacro_call.2 hcase)
    exact (follows_convertRule lawful_watching hwalk hrule (fun _ => defining_watching) name
      hparts.tail).mono fun _ _ h => h.result lawful_watching
  intro a s' hrun hs'
  rw [convert_eq] at hrun
  rcases hagree a s' hrun hs' with ⟨_, _, hrun', rfl, ⟨k, rfl⟩, hprecedes⟩
  have hwritten := Session.hasWritten_of_run (s := { s with journal := journal }) hs.nameIsFinal
    hdefines' hrun'
  rw [← hdefines'] at hrun'
  refine ⟨_, _, ?_, rfl, ⟨k, rfl⟩, hprecedes⟩
  exact runFrom_watchWithin hs.nameIsFinal hrun' hprecedes.nameIsFinal (.inr hwritten)

/-- Whatever the weight of the form, the watched run stays with the other one. -/
theorem follows_watchWithin (report : Fault) (last : Session) (limit : Nat) {form : Tree}
    (hform : (watching last limit).Form form) :
    (watching last limit).Follows (convert form) (watchWithin report limit false form)
      fun a b => b = a := by
  induction limit using Nat.strongRecOn generalizing form with
  | _ limit ih =>
  cases limit with
  | zero => exact absurd (weight_pos form) (Nat.not_lt.2 hform.1)
  | succ limit =>
      have hwalk : ∀ n ≤ limit, ∀ form, (watching last n).Form form →
          (watching last limit).Follows (convert form) (watchWithin report n false form)
            fun a b => b = a :=
        fun n hn form hform => ih n (Nat.lt_succ_of_le hn) hform
      rintro s _ ⟨⟨journal, rfl⟩, hs⟩ hfunctions
      by_cases hdefines : s.definesMacro form = true
      · rcases Session.exists_of_definesMacro hdefines with ⟨head, tail, rfl, happroach⟩
        by_cases hshape : ∃ name params definition, tail = .sym name :: params :: definition
        · rcases hshape with ⟨name, params, definition, rfl⟩
          exact agree_watchWithin_macro hwalk hform hs happroach journal
        · exact agree_watchWithin_shapeless limit hshape hs happroach journal
      · have hparts : (watching last limit).FormAll form.children := fun child hchild =>
          ⟨Nat.le_of_lt_succ (Nat.lt_of_lt_of_le (weight_lt_of_mem_children hchild) hform.1),
            hform.2.imp_right fun h => Tree.everywhere_children h hchild⟩
        exact agree_watchWithin_parts (hwalk limit (Nat.le_refl limit)) hparts hs hfunctions
          (Bool.eq_false_iff.2 hdefines) journal

end Comparison

/-! ## Final names are spent -/

/-- The forms of a body pass one after the other, if the session in which they begin precedes the last
one and the session in which they end knows no more. -/
theorem watch_of_mapM (report : Fault) {last s t : Session} {body results : List Tree}
    (hs : s.Precedes last) (ht : t.FunctionsWithin last)
    (hbody : ∀ form ∈ body, last.BindsMacrosOf form)
    (hrun : (body.mapM convert).runFrom s = (.ok results, t)) :
    t.Precedes last ∧ ∃ journal,
      (body.mapM (watch report)).runFrom s = (.ok results, { t with journal := journal }) := by
  have hfollows : (Comparison.watching last 0).Follows (body.mapM convert) (body.mapM (watch report))
      (Pointwise (fun _ a b => b = a) body) :=
    .mapM Comparison.lawful_watching _ fun form hform =>
      Comparison.follows_watchWithin report last (weight form) ⟨Nat.le_refl _, hbody form hform⟩
  have hrelated : (Comparison.watching last 0).Related s s := ⟨⟨s.journal, rfl⟩, hs⟩
  rcases hfollows s s hrelated (ht.of_growsTo (Growing.of_run hrun)) results t hrun ht with
    ⟨results', _, hrun', hall, ⟨journal, rfl⟩, hprecedes⟩
  rw [hall.eq] at hrun'
  exact ⟨hprecedes, journal, hrun'⟩

/-- Where a run begins, the names are local that are local where it ends. -/
theorem Session.precedes_of_run {s t : Session} {body results : List Tree}
    (hfinal : s.nameIsFinal = false) (hrun : (body.mapM convert).runFrom s = (.ok results, t)) :
    s.Precedes t := by
  have hgrowth : growth.Steps .form s t := Keeps.steps_of_run inferInstance hrun
  refine ⟨hfinal, hgrowth.1.context.symm, fun name hname => ?_⟩
  rwa [← isShadowed_congr hgrowth.2]

theorem Session.functionsWithin_self (s : Session) : s.FunctionsWithin s :=
  ⟨fun _ h => h, fun _ h => h⟩

/-- Both passes over a body pass, the first one as well as the second. -/
theorem Namespace.watch_of_passes (report : Fault) {s t : Session} {forms output results : List Tree}
    (hfinal : s.nameIsFinal = false) (hforms : ∀ form ∈ forms, t.BindsMacrosOf form)
    (houtput : ∀ form ∈ output, t.BindsMacrosOf form)
    (hrun : (passes forms output).runFrom s = (.ok results, t)) :
    t.nameIsFinal = false ∧ ∃ j found u k journal,
      (forms.mapM (watch report)).runFrom { s with pass := .discovery, journal := j } =
        (.ok found, u) ∧
      (output.mapM (watch report)).runFrom { u with pass := .rewriting, journal := k } =
        (.ok results, { t with journal := journal }) := by
  rcases runFrom_passes.1 hrun with ⟨_, hsurvey, hrewrite⟩
  rcases of_runFrom_survey hsurvey with ⟨j, found, u, k, hdiscover, rfl⟩
  have hgrowth : growth.Steps .form { u with pass := .rewriting, journal := k } t :=
    Keeps.steps_of_run inferInstance hrewrite
  -- the first pass knows no more than the second one, and begins in the same frames
  have hu : u.FunctionsWithin t := { t.functionsWithin_self.of_growsTo hgrowth.1 with }
  have hbegin := Session.precedes_of_run (s := { s with pass := .discovery, journal := j }) hfinal
    hdiscover
  have hs : ({ s with pass := .discovery, journal := j } : Session).Precedes t := by
    refine ⟨hfinal, hbegin.context.trans hgrowth.1.context.symm, fun name hname => ?_⟩
    refine hbegin.shadowed name ?_
    rwa [← Session.isShadowed_congr (t := t) (s := u) hgrowth.2]
  rcases watch_of_mapM report hs hu hforms hdiscover with ⟨hprecedes, i, hfound⟩
  have hnext : ({ u with pass := .rewriting, journal := k } : Session).Precedes t :=
    { hprecedes with }
  rcases watch_of_mapM report hnext t.functionsWithin_self houtput hrewrite with
    ⟨hend, journal, hresults⟩
  exact ⟨hend.nameIsFinal, j, found, { u with journal := i }, k, journal, hfound, hresults⟩

/-- Final names are spent on the forms that they were meant for. From a session that says of no
definition that its name is final, whatever the tables, the scope, the options and the host, the
conversion of a form ends in such a session, and so do the conversion of a body and the two passes
over bodies. The watched conversion yields the same: every definition that is met as code and whose
name is not protected is registered and has its qualified name. Only if a macro is defined, this
depends on `defalias`, which has to be the head of a definition in the end. -/
theorem convert_spends_final_names (report : Fault) {s t : Session} (hfinal : s.nameIsFinal = false) :
    (∀ (form result : Tree), t.BindsMacrosOf form → (convert form).runFrom s = (.ok result, t) →
      t.nameIsFinal = false ∧ ∃ journal,
        (watch report form).runFrom s = (.ok result, { t with journal := journal })) ∧
    (∀ (body results : List Tree), (∀ form ∈ body, t.BindsMacrosOf form) →
      (body.mapM convert).runFrom s = (.ok results, t) →
      t.nameIsFinal = false ∧ ∃ journal,
        (body.mapM (watch report)).runFrom s = (.ok results, { t with journal := journal })) ∧
    (∀ (forms output results : List Tree), (∀ form ∈ forms ++ output, t.BindsMacrosOf form) →
      (Namespace.passes forms output).runFrom s = (.ok results, t) →
      t.nameIsFinal = false ∧ ∃ j found u k journal,
        (forms.mapM (watch report)).runFrom { s with pass := .discovery, journal := j } =
          (.ok found, u) ∧
        (output.mapM (watch report)).runFrom { u with pass := .rewriting, journal := k } =
          (.ok results, { t with journal := journal })) := by
  have hbodies : ∀ body results : List Tree, (∀ form ∈ body, t.BindsMacrosOf form) →
      (body.mapM convert).runFrom s = (.ok results, t) →
      t.nameIsFinal = false ∧ ∃ journal,
        (body.mapM (watch report)).runFrom s = (.ok results, { t with journal := journal }) := by
    intro body results hbody hrun
    rcases watch_of_mapM report (Session.precedes_of_run hfinal hrun) t.functionsWithin_self hbody hrun with
      ⟨hprecedes, hwatch⟩
    exact ⟨hprecedes.nameIsFinal, hwatch⟩
  refine ⟨fun form result hform hrun => ?_, hbodies, fun forms output results hbinds hrun => ?_⟩
  -- a form is a body of one form
  · have hone : ([form].mapM convert).runFrom s = (.ok [result], t) :=
      runFrom_mapM_cons.2 ⟨result, t, [], hrun, rfl, rfl⟩
    rcases hbodies [form] [result] (List.forall_mem_singleton.2 hform) hone with ⟨ht, journal, hwatch⟩
    rcases runFrom_mapM_cons.1 hwatch with ⟨written, u, rest, hfirst, hrest, hresults⟩
    cases hresults
    cases hrest
    exact ⟨ht, journal, hfirst⟩
  · rcases List.forall_mem_append.1 hbinds with ⟨hforms, houtput⟩
    exact Namespace.watch_of_passes report hfinal hforms houtput hrun

/-- The forms of a body that defines a macro and then a variable. -/
def Namespace.macroAndVariable : List Tree :=
  [identityMacro "m" [], .call "defvar" [.sym "y", .int 1], .sym "y"]

/-- In a namespace that defines a macro and then a variable, both passes spend the name of the
macro. -/
theorem convert_spends_final_names_variable :
    ∃ (results : List Tree) (t : Session),
      (Namespace.passes Namespace.macroAndVariable Namespace.macroAndVariable).runFrom
        (.fresh (.unset "p-") .definers) = (.ok results, t) ∧
      t.nameIsFinal = false ∧ ∃ j found u k journal,
        (Namespace.macroAndVariable.mapM (watch (.notExpandable "m"))).runFrom
          { Session.fresh (.unset "p-") .definers with pass := .discovery, journal := j } =
            (.ok found, u) ∧
        (Namespace.macroAndVariable.mapM (watch (.notExpandable "m"))).runFrom
          { u with pass := .rewriting, journal := k } =
            (.ok results, { t with journal := journal }) := by
  have hyields : yields (fun _ t => !t.isEscaped "defalias" && !t.isFunction "defalias")
      ((Namespace.passes Namespace.macroAndVariable Namespace.macroAndVariable).runFrom
        (.fresh (.unset "p-") .definers)) = true := by decide +kernel
  rcases exists_of_yields hyields with ⟨results, t, hrun, hlast⟩
  rw [Bool.and_eq_true, Bool.not_eq_true', Bool.not_eq_true'] at hlast
  have halias : t.approach "defalias" = .rule .alias :=
    Session.approach_eq_rule_iff.2 ⟨hlast.1, hlast.2, by decide⟩
  exact ⟨results, t, hrun, (convert_spends_final_names _ rfl).2.2 _ _ _ (fun _ _ => .inl halias) hrun⟩

/-- The forms of a body that defines a function `defalias` before the macro and the variable. -/
def Namespace.aliasFirst : List Tree :=
  .call "defun" [.sym "defalias", .list [.sym "a", .sym "b"], .sym "a"] :: macroAndVariable

/-- In a namespace that owns `defalias`, what is said about the next definition is left over from a
macro, and a variable that is defined after the macro is neither registered nor qualified. -/
theorem convert_leaves_final_name :
    (∃ (s t : Session) (form result : Tree), s.nameIsFinal = false ∧
      (convert form).runFrom s = (.ok result, t) ∧ t.nameIsFinal = true) ∧
    ∃ (results : List Tree) (t : Session),
      (Namespace.passes Namespace.aliasFirst Namespace.aliasFirst).runFrom
        (.fresh (.unset "p-") .definers) = (.ok results, t) ∧
      ((Tree.list results).at? [2, 1]).bind Tree.symbol? = some "y" ∧
      ("y" : Text) ∉ t.tables.variableNames := by
  -- the flag survives in a session that owns `defalias`, and a body can bring this about by itself
  constructor
  · have hyields : yields (fun _ t => t.nameIsFinal)
        ((convert (Namespace.identityMacro "m" [])).runFrom (Session.owningName "defalias")) = true := by
      decide +kernel
    rcases exists_of_yields hyields with ⟨result, t, hrun, hfinal⟩
    exact ⟨_, t, _, result, rfl, hrun, hfinal⟩
  · have hyields : yields (fun results t => decide
        (((Tree.list results).at? [2, 1]).bind Tree.symbol? = some "y" ∧
          ("y" : Text) ∉ t.tables.variableNames))
        ((Namespace.passes Namespace.aliasFirst Namespace.aliasFirst).runFrom
          (.fresh (.unset "p-") .definers)) = true := by decide +kernel
    rcases exists_of_yields hyields with ⟨results, t, hrun, hleft⟩
    exact ⟨results, t, hrun, of_decide_eq_true hleft⟩

end LispNamespace
