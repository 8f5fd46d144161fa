import LispNamespace.Host.Standard
import LispNamespace.Proofs.MacroRecords
import LispNamespace.Proofs.Nesting
import LispNamespace.Proofs.Runs

/-!
# The normal form of a macro definition

A macro definition expands into a form that binds its final name to a lambda expression, and this
form is converted like any other: its heads are looked up in the tables, they may begin with the
protection marker, and one of them may be a macro of the host. Where none of this is the case they
come out as they are. The definition is then written as a binding of the final name to the lambda
expression that its parameters and its body become, followed by the forms of its declarations.
-/

namespace LispNamespace

open Rewrite

/-- What the lambda expression of a macro has after its parameters: the documentation and the body,
without the declarations. -/
def Definition.kept (definition : List Tree) : List Tree :=
  (splitDeclarations definition).1.filter Tree.isText ++ (splitDeclarations definition).2

theorem Definition.expander_eq (params : Tree) (definition : List Tree) :
    expander params definition =
      Tree.call "cons"
        [Tree.quote (.sym "macro"),
         Tree.call "function" [Tree.call "lambda" (params :: kept definition)]] := rfl

/-! ## Conversion by approach -/

/-- A form that is approached by a rule is converted by the rule. -/
theorem runFrom_convert_rule {walk : Walk} {name : Text} {tail : List Tree} {s : Session}
    {rule : FormRule} (h : s.approach name = .rule rule) :
    (convertNode walk (Tree.call name tail)).runFrom s =
      (rule.convert walk name tail).runFrom (s.trace (.specialForm s.context.qualifier name)) := by
  have hnode : convertNode walk (Tree.call name tail) = convertHeaded walk (.sym name) tail := rfl
  rw [hnode, runFrom_convertHeaded, h]
  rfl

/-- A call whose arguments are forms is converted by converting the arguments. -/
theorem runFrom_convert_call {walk : Walk} {name : Text} {tail : List Tree} {s : Session}
    (h : s.approach name = .call .forms) :
    (convertNode walk (Tree.call name tail)).runFrom s =
      (tail.mapM walk >>= fun args =>
        return Tree.call (Forms.functionReference s name) args).runFrom s := by
  have hnode : convertNode walk (Tree.call name tail) = convertHeaded walk (.sym name) tail := rfl
  rw [hnode, runFrom_convertHeaded, h]
  rfl

/-! ## The form that binds the name -/

/-- The form that binds the name of a macro keeps the name, which is final, and its expander is
walked with what the definition has in it. -/
theorem Forms.runFrom_convertNode_boundForm (walk : Walk) (final : Text) (params : Tree)
    (definition : List Tree) {s : Session} (happroach : s.approach "defalias" = .rule .alias)
    (hfinal : s.nameIsFinal = true) :
    ∃ journal,
      (convertNode walk (Definition.boundForm (.sym final) params definition)).runFrom s =
        (walk (Definition.expander params definition) >>= fun bound =>
          return Tree.call "defalias" [Tree.quote (.sym final), bound]).runFrom
            { s with nameIsFinal := false, journal := journal } := by
  -- the name is final, so it stays as it is, and the flag is taken down by this definition
  have hname : ∀ {learn : Register} {t : Session}, t.nameIsFinal = true →
      (convertQuotedName walk learn (Tree.quote (.sym final))).runFrom t =
        (.ok (Tree.quote (.sym final)), { t with nameIsFinal := false }) := by
    intro learn t ht
    have htake : takeNameIsFinal.runFrom t = (.ok true, { t with nameIsFinal := false }) := by
      rw [← ht]
      rfl
    have hquoted : (Tree.quote (.sym final)).quoted? = some (.sym final) := rfl
    unfold convertQuotedName convertDefinedName
    simp only [hquoted]
    rw [runFrom_bind, runFrom_bind, htake]
    rfl
  refine ⟨(s.trace (.specialForm s.context.qualifier "defalias")).journal, ?_⟩
  rw [Definition.boundForm_eq, runFrom_convert_rule happroach]
  unfold FormRule.convert convertAlias convertAliasWith
  dsimp only
  rw [runFrom_bind, hname (t := s.trace _) hfinal]
  simp only [List.mapM_cons, List.mapM_nil, bind_assoc, pure_bind]
  rfl

/-! ## Sessions that leave expansions as they are -/

/-- What the expansion of a macro definition is made of, apart from the name, the parameters and the
body, means in the session what it means outside: its heads neither begin with the protection marker
nor are functions of the namespace, the host has no macro `cons`, and the symbol `macro`, if quoted
symbols are taken for variables, is not one of the namespace. -/
structure Session.SparesExpansion (s : Session) : Prop where
  isEscaped : ∀ head ∈ Definition.boundHeads, s.isEscaped head = false
  isFunction : ∀ head ∈ Definition.boundHeads, s.isFunction head = false
  isMacroName : s.host.isMacroName "cons" = false
  reference : s.context.options.assumeVarQuote = true →
    s.isEscaped "macro" = false ∧ s.isVariable "macro" = false

namespace Session.SparesExpansion

variable {s : Session}

/-- A head that has a rule is approached by it. -/
theorem approach (h : s.SparesExpansion) {head : Text} (hhead : head ∈ Definition.boundHeads)
    {rule : FormRule} (hrule : FormRule.ofHead? head = some rule) : s.approach head = .rule rule :=
  Session.approach_eq_rule_iff.2 ⟨h.isEscaped head hhead, h.isFunction head hhead, hrule⟩

/-- The one head without a rule is that of a function call. -/
theorem approach_cons (h : s.SparesExpansion) : s.approach "cons" = .call .forms := by
  have hrule : FormRule.ofHead? "cons" = none := by decide
  unfold Session.approach callTreatment
  rw [h.isEscaped "cons" (by decide), h.isFunction "cons" (by decide), hrule]
  simp only [Bool.false_eq_true, if_false, h.isMacroName]

/-- What has been reported plays no part. -/
theorem journal (h : s.SparesExpansion) (journal : Journal) :
    ({ s with journal := journal } : Session).SparesExpansion := { h with }

theorem trace (h : s.SparesExpansion) (note : Note) : (s.trace note).SparesExpansion := h.journal _

/-- The symbol that marks an expander stays, also where it is taken for a variable. -/
theorem runFrom_quote (h : s.SparesExpansion) :
    (Forms.convertQuote convert "quote" [.sym "macro"]).runFrom s =
      (.ok (Tree.quote (.sym "macro")), s) := by
  have hlambda : Forms.isLambda (.sym "macro") = false := rfl
  have hsymbol : (Tree.sym "macro").isSymbol = true := rfl
  unfold Forms.convertQuote
  rw [runFrom_bind, runFrom_get]
  dsimp only
  rw [hlambda, hsymbol, Bool.false_or, Bool.true_and]
  by_cases hassume : s.context.options.assumeVarQuote = true
  · rcases h.reference hassume with ⟨hescaped, hvariable⟩
    have hwalk : (convert (.sym "macro")).runFrom s =
        (.ok (.sym (Forms.variableReference s "macro")), s) := rfl
    have hreference : Forms.variableReference s "macro" = "macro" := by
      unfold Forms.variableReference
      rw [if_neg (Bool.eq_false_iff.1 hescaped), if_neg (Bool.eq_false_iff.1 hvariable)]
    rw [if_pos hassume, runFrom_bind, hwalk, hreference]
    rfl
  · rw [if_neg hassume]
    rfl

/-- The function of an expander is converted as a lambda expression. -/
theorem runFrom_function (h : s.SparesExpansion) (parts : List Tree) :
    ∃ journal, (convert (Tree.call "function" [Tree.call "lambda" parts])).runFrom s =
      (Forms.convertLambda convert "lambda" parts >>= fun lambda =>
        return Tree.call "function" [lambda]).runFrom { s with journal := journal } := by
  have hfunction : s.approach "function" = .rule .functionQuote := h.approach (by decide) (by decide)
  have hlambda : (s.trace (.specialForm s.context.qualifier "function")).approach "lambda" =
      .rule .lambda :=
    (h.trace _).approach (by decide) (by decide)
  have hhead : Forms.isLambda (Tree.call "lambda" parts) = true := rfl
  refine ⟨((s.trace (.specialForm s.context.qualifier "function")).trace
    (.specialForm s.context.qualifier "lambda")).journal, ?_⟩
  rw [convert_eq, runFrom_convert_rule hfunction]
  unfold FormRule.convert Forms.convertFunctionQuote
  dsimp only
  rw [if_pos hhead, runFrom_bind, convert_eq (Tree.call "lambda" parts), runFrom_convert_rule hlambda,
    runFrom_bind]
  rfl

/-- An expander is converted by converting the lambda expression in it. -/
theorem runFrom_expander (h : s.SparesExpansion) (params : Tree) (definition : List Tree) :
    ∃ journal, (convert (Definition.expander params definition)).runFrom s =
      (Forms.convertLambda convert "lambda" (params :: Definition.kept definition) >>= fun lambda =>
        return Tree.call "cons" [Tree.quote (.sym "macro"), Tree.call "function" [lambda]]).runFrom
          { s with journal := journal } := by
  -- no name in the expander belongs to the namespace, so `cons` stays and `quote` and `function`
  -- mean their rules
  have hhead : Forms.functionReference s "cons" = "cons" := by
    unfold Forms.functionReference
    rw [h.isEscaped "cons" (by decide), h.isFunction "cons" (by decide)]
    rfl
  have hquote : (convert (Tree.quote (.sym "macro"))).runFrom s =
      (.ok (Tree.quote (.sym "macro")), s.trace (.specialForm s.context.qualifier "quote")) := by
    have hcall : Tree.quote (.sym "macro") = Tree.call "quote" [.sym "macro"] := rfl
    have happroach : s.approach "quote" = .rule .quote := h.approach (by decide) (by decide)
    rw [hcall, convert_eq, runFrom_convert_rule happroach]
    exact (h.trace _).runFrom_quote
  rcases (h.trace (.specialForm s.context.qualifier "quote")).runFrom_function
    (params :: Definition.kept definition) with ⟨journal, hfunction⟩
  have hsession : ({ s.trace (.specialForm s.context.qualifier "quote") with journal := journal } :
    Session) = { s with journal := journal } := rfl
  refine ⟨journal, ?_⟩
  rw [Definition.expander_eq, convert_eq, runFrom_convert_call h.approach_cons, hhead]
  simp only [List.mapM_cons, List.mapM_nil, bind_assoc, pure_bind]
  rw [runFrom_bind, hquote]
  dsimp only
  rw [runFrom_bind, hfunction, hsession, runFrom_bind, runFrom_bind]
  rcases (Forms.convertLambda convert "lambda" (params :: Definition.kept definition)).runFrom
    { s with journal := journal } with ⟨fault | lambda, t⟩
  · rfl
  · rfl

end Session.SparesExpansion

/-! ## The normal form -/

/-- The form that binds a name to the macro whose expander is the given lambda expression. -/
def Definition.normalForm (name : Text) (lambda : Tree) : Tree :=
  Tree.call "defalias"
    [Tree.quote (.sym name),
     Tree.call "cons" [Tree.quote (.sym "macro"), Tree.call "function" [lambda]]]

/-- The definition of a macro is recorded, the lambda expression of the macro is converted, and what
it becomes is bound to the final name, with the forms of the declarations behind it. -/
def Session.WritesNormally (s : Session) (head name : Text) (params : Tree)
    (definition : List Tree) : Prop :=
  let final := if s.isEscaped name then s.stripProtection name else s.context.qualifier ++ name
  ∃ journal,
    (Forms.convertMacro convert head (.sym name :: params :: definition)).runFrom s =
      (Forms.convertLambda convert "lambda" (params :: Definition.kept definition) >>= fun lambda =>
        return Definition.withDeclared (.sym final) definition
          (Definition.normalForm final lambda)).runFrom
            { s.recordMacro name definition with journal := journal }

/-- After a macro was recorded, its name is known, unless it is protected. -/
theorem Session.mem_recordMacro {s : Session} {name : Text} (hfinal : s.nameIsFinal = false)
    (hname : s.isEscaped name = false) (definition : List Tree) :
    name ∈ (s.recordMacro name definition).tables.functionNames ∧
      name ∈ (s.recordMacro name definition).tables.macros := by
  have htake : (s.takeMacroName name).tables = s.tables.addMacro name := by
    unfold takeMacroName
    rw [hfinal, hname]
    rfl
  have hdeclare : ∀ (t : Session) final spec,
      (t.declareIfGiven final spec).tables.functionNames = t.tables.functionNames ∧
        (t.declareIfGiven final spec).tables.macros = t.tables.macros := by
    intro t final spec
    unfold declareIfGiven
    split <;> exact ⟨rfl, rfl⟩
  rw [tables_recordMacro, (hdeclare _ _ _).1, (hdeclare _ _ _).2, htake]
  exact ⟨mem_addName.2 (.inr rfl), mem_addName.2 (.inr rfl)⟩

/-- The definition of a macro is written in normal form, its name known to the namespace while the
body is converted, in every session over a host that expands it, unless its name is final already or
something that the expansion is made of has another meaning there. -/
theorem convertMacro_normal {s : Session} {head name : Text} {params : Tree} {definition : List Tree}
    (hexpands : s.host.expandsDefinition head = true) (hfinal : s.nameIsFinal = false)
    (hspares : (s.recordMacro name definition).SparesExpansion) :
    s.WritesNormally head name params definition ∧
      (s.isEscaped name = false →
        name ∈ (s.recordMacro name definition).tables.functionNames ∧
          name ∈ (s.recordMacro name definition).tables.macros) := by
  refine ⟨?_, fun hname => s.mem_recordMacro hfinal hname definition⟩
  have hname : s.macroName name =
      if s.isEscaped name then s.stripProtection name else s.context.qualifier ++ name := by
    unfold Session.macroName
    rw [hfinal]
    rfl
  -- the records are made, and the form that binds the name is converted after them
  rcases Forms.runFrom_convertMacro convert head name params definition s with ⟨j, hconvert⟩
  rw [if_pos hexpands] at hconvert
  have happroach : (s.recordMacro name definition).approach "defalias" = .rule .alias :=
    hspares.approach (by decide) (by decide)
  rcases Forms.runFrom_convertNode_boundForm convert (s.macroName name) params definition
    (s := { s.recordMacro name definition with nameIsFinal := true, journal := j }) happroach rfl with
    ⟨j', hbound⟩
  have hcleared : ({ s.recordMacro name definition with nameIsFinal := false, journal := j' } :
      Session) = { s.recordMacro name definition with journal := j' } := by
    rw [← (s.frames_recordMacro name definition).2]
  dsimp only at hbound
  rw [hcleared] at hbound
  rcases (hspares.journal j').runFrom_expander params definition with ⟨journal, hexpander⟩
  refine ⟨journal, ?_⟩
  rw [hconvert, ← hname, runFrom_bind, convert_eq, hbound, runFrom_bind, hexpander, runFrom_bind,
    runFrom_bind]
  rcases (Forms.convertLambda convert "lambda" (params :: Definition.kept definition)).runFrom
    { s.recordMacro name definition with journal := journal } with ⟨fault | lambda, t⟩
  · rfl
  · rfl

/-- A macro with documentation and a declaration, defined before anything else over the standard
host. -/
theorem convertMacro_normal_indented :
    (Session.fresh (.unset "p-") .standard).WritesNormally "defmacro" "m" (.list [.sym "x"])
      [.str "Text.", Tree.call "declare" [Tree.call "indent" [.int 1]], .sym "x"] := by
  have hspares : ((Session.fresh (.unset "p-") .standard).recordMacro "m"
      [.str "Text.", Tree.call "declare" [Tree.call "indent" [.int 1]], .sym "x"]).SparesExpansion :=
    ⟨by decide, by decide, by decide +kernel, by decide⟩
  exact (convertMacro_normal (by decide +kernel) rfl hspares).1

/-! ## Definitions that are not in normal form -/

namespace Definition

/-- The places of the heads and of the symbol `macro` in a definition of normal form. -/
def outline : List (List Nat × Text) :=
  [([0], "defalias"), ([1, 0], "quote"), ([2, 0], "cons"), ([2, 1, 0], "quote"), ([2, 1, 1], "macro"),
   ([2, 2, 0], "function"), ([2, 2, 1, 0], "lambda")]

/-- Whether the form has all these symbols in their places. -/
def isOutlined (form : Tree) : Bool :=
  outline.all fun (place, name) => ((form.at? place).map (·.isSym name)).getD false

end Definition

/-- Whether the session writes the definition of a macro that gives its argument back with all these
symbols in their places. -/
def Session.outlinesMacro (s : Session) : Bool :=
  match (Forms.convertMacro convert "defmacro" [.sym "m", .list [.sym "x"], .sym "x"]).runFrom s with
  | (.ok form, _) => Definition.isOutlined form
  | _ => true

/-- What the normal form says about one macro can be tested by running it. -/
theorem Session.WritesNormally.outlinesMacro {s : Session}
    (h : s.WritesNormally "defmacro" "m" (.list [.sym "x"]) [.sym "x"]) : s.outlinesMacro = true := by
  rcases h with ⟨journal, hrun⟩
  unfold Session.outlinesMacro
  rw [hrun]
  unfold Forms.convertLambda
  simp only [bind_assoc, pure_bind]
  rw [runFrom_bind]
  -- whatever the lambda expression becomes, its head stays
  rcases (Forms.convertLambdaTail convert (.list [.sym "x"]) (Definition.kept [.sym "x"])).runFrom
    { s.recordMacro "m" [.sym "x"] with journal := journal } with ⟨fault | parts, t⟩
  · rfl
  · rfl

/-- A host that knows nothing but the definers of macros. -/
def Host.definers : Host := { Host.empty with macros := FormRule.macroNames.map (·, true) }

/-- The session in which the namespace owns a function and a variable of the given name. -/
def Session.owningName (name : Text) : Session :=
  { Session.fresh (.unset "p-") .definers with
    tables := { functionNames := [name], variableNames := [name] } }

/-- The session in which names that begin with `con` are protected. -/
def Session.protectingCon : Session :=
  .fresh { Context.unset "p-" with options := { Options.unset with protection := "con" } } .definers

/-- The session in which quoted symbols are taken for variables, and the namespace owns `macro`. -/
def Session.quotingMacro : Session :=
  { Session.owningName "macro" with
    context := { Context.unset "p-" with options := { Options.unset with assumeVarQuote := true } } }

/-- The session in which the host has a macro `cons`, and the namespace owns `y`. -/
def Session.expandingCons : Session :=
  { Session.owningName "y" with host := Host.definers.addMacro "cons" false none }

/-- The symbol in a place of what a run results in. -/
def Rewrite.symbolAt? (place : List Nat) (run : Except Fault Tree × Session) : Option Text :=
  (run.1.toOption.bind (·.at? place)).bind Tree.symbol?

/-- A head of the expansion that is a function of the namespace is qualified, one that begins with the
protection marker loses the marker, a macro `cons` of the host leaves its arguments alone, and the
quoted `macro` becomes a variable of the namespace. -/
theorem convertMacro_departs :
    (∀ head ∈ Definition.boundHeads,
      ¬(Session.owningName head).WritesNormally "defmacro" "m" (.list [.sym "x"]) [.sym "x"]) ∧
    ¬Session.protectingCon.WritesNormally "defmacro" "m" (.list [.sym "x"]) [.sym "x"] ∧
    ¬Session.quotingMacro.WritesNormally "defmacro" "m" (.list [.sym "x"]) [.sym "x"] ∧
    ¬Session.expandingCons.WritesNormally "defmacro" "m" (.list [.sym "x"]) [.sym "y"] := by
  have hdeparts : ∀ {s : Session}, s.outlinesMacro = false →
      ¬s.WritesNormally "defmacro" "m" (.list [.sym "x"]) [.sym "x"] := by
    intro s hs h
    rw [h.outlinesMacro] at hs
    cases hs
  have howned : ∀ head ∈ Definition.boundHeads, (Session.owningName head).outlinesMacro = false := by
    decide +kernel
  refine ⟨fun head hhead => hdeparts (howned head hhead), hdeparts (by decide +kernel),
    hdeparts (by decide +kernel), ?_⟩
  rintro ⟨journal, hrun⟩
  have hbody : (some "y" : Option Text) = some "p-y" := congrArg (symbolAt? [2, 2, 1, 2]) hrun
  exact absurd hbody (by decide)

end LispNamespace
