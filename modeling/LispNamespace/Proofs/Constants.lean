import LispNamespace.Proofs.Frame
import LispNamespace.Proofs.Nesting
import LispNamespace.Proofs.Passes

/-!
# References to constants

A keyword evaluates to itself, and so does `t`; neither is a name of a namespace, and a reference to
one comes out as it is. For keywords this holds whatever the tables and the host say. For `t` it
holds as long as the namespace has no variable or function of that name: nothing but the tables and
the host keeps `t` apart from other names, and a definition of it brings it into the tables.

References are resolved where the conversion meets them as code, so the statement is about the
conversion that looks at every form it meets, compares the references in it with what they become,
and reports any constant that has changed. It never has anything to report: it is the conversion.
-/

namespace LispNamespace

open Rewrite

/-! ## References -/

/-- A reference to a variable or to a function. -/
inductive Reference where
  | variable_ (name : Text)
  | function (name : Text)
  deriving DecidableEq

/-- The name that is referred to. -/
def Reference.name : Reference → Text
  | .variable_ name | .function name => name

/-- The references to functions among some elements of a form, with their positions. The first
element stands at the given one. -/
def Reference.functionsAt (first : Nat) (items : List Tree) : List (List Nat × Reference) :=
  (items.zipIdx first).filterMap fun (item, i) =>
    item.symbol?.map fun name => ([i], .function name)

namespace Session

/-- Whether the namespace has the name in the role of the reference: it is in the tables, or the
host is asked and knows its qualified form. -/
def has (s : Session) : Reference → Bool
  | .variable_ name =>
      s.tables.variableNames.contains name || (s.asksHost && s.host.isBound (s.qualified name))
  | .function name =>
      s.tables.functionNames.contains name ||
        (s.asksHost && s.host.isFunctionBound (s.qualified name))

/-- The name that a reference becomes. -/
def resolve (s : Session) : Reference → Text
  | .variable_ name => Forms.variableReference s name
  | .function name => Forms.functionReference s name

/-- Whether a reference that is met in the session, and resolved before the other one is reached, is
one to a constant: to a keyword, or to `t` where it is bound or the namespace has no `t` in its
role. A protected name is no constant. -/
def isConstant (s last : Session) (reference : Reference) : Bool :=
  !s.isEscaped reference.name &&
    (Tree.isKeywordName reference.name ||
      (reference.name == "t" && (s.isShadowed reference.name || !last.has reference)))

/-- The references of a form itself that are resolved in the session in which the form is met, with
their positions: a symbol, the head of a call, and what is quoted as a function. The forms inside it
have their own. -/
def references (s : Session) (form : Tree) : List (List Nat × Reference) :=
  match form with
  | .sym name => [([], .variable_ name)]
  | .list (.sym head :: tail) =>
      match s.approach head with
      | .call _ => [([0], .function head)]
      | .rule .functionQuote => if tail.length = 1 then Reference.functionsAt 1 tail else []
      | .rule _ => []
  | _ => []

/-- The references of the definition of a mode, which are resolved when its name has been taken in:
the parent of a derived mode, and the two functions of a globalized one. -/
def modeReferences (s : Session) (form : Tree) : List (List Nat × Reference) :=
  match form with
  | .list (.sym head :: _ :: rest) =>
      match s.approach head with
      | .rule .derivedMode => Reference.functionsAt 2 (rest.take 1)
      | .rule .globalizedMode => Reference.functionsAt 2 (rest.take 2)
      | _ => []
  | _ => []

/-- Whether every reference to a constant in a form that is met in the session, and converted when
the last one is reached, stands unchanged at its position in the result. -/
def keepsConstants (s : Session) (form result : Tree) (last : Session) : Bool :=
  let keeps (resolved : Session) (entry : List Nat × Reference) : Bool :=
    !s.isConstant resolved entry.2 || (result.at? entry.1).any (·.isSym entry.2.name)
  (s.references form).all (keeps s) && (s.modeReferences form).all (keeps last)

end Session

/-! ## Conversions that are checked -/

/-- Converts a form with at most the given nesting of steps, and gives the report if a constant has
changed in it or if no step is left. -/
def checkedWithin (report : Fault) : Nat → Walk
  | 0, _ => throw report
  | steps + 1, form => do
      let s ← get
      let result ← convertNode (checkedWithin report steps) form
      let last ← get
      demand report (s.keepsConstants form result last)
      return result

/-- Converts a form, and gives the report if a constant has changed in it or in a form inside it
that is converted. -/
def checked (report : Fault) (form : Tree) : Rewrite Tree :=
  checkedWithin report (weight form) form

/-! ## What constants become -/

namespace Session

variable {s t u : Session} {reference : Reference}

/-- Variables and functions are resolved in one way: the marker is taken off a protected name, a
free name that the namespace has is qualified, and any other name stays. -/
theorem resolve_eq (s : Session) (reference : Reference) :
    s.resolve reference =
      if s.isEscaped reference.name then s.stripProtection reference.name
      else if s.isFree reference.name && s.has reference then s.qualified reference.name
      else reference.name := by
  cases reference <;> rfl

/-- A namespace loses no names. -/
theorem has_of_growsTo (h : s.GrowsTo t) (hs : s.has reference = true) :
    t.has reference = true := by
  have hqualified : ∀ name, t.qualified name = s.qualified name := by
    intro name
    rw [qualified, qualified, h.context]
  have hasks : t.asksHost = s.asksHost := by rw [asksHost, asksHost, h.context]
  cases reference with
  | variable_ name =>
      simp only [has, hqualified, hasks, Host.isBound, h.hostVariables, Bool.or_eq_true,
        List.contains_iff_mem] at hs ⊢
      exact hs.imp_left (h.variableNames name)
  | function name =>
      simp only [has, hqualified, hasks, Host.isFunctionBound, h.hostFunctions, Bool.or_eq_true,
        Bool.and_eq_true, List.contains_iff_mem] at hs ⊢
      refine hs.imp (h.functionNames name) fun hhost => ⟨hhost.1, ?_⟩
      exact hhost.2.imp_right h.isMacroName

/-- A reference to a constant comes out as it is, in every session on the way. -/
theorem resolve_of_isConstant (h : s.isConstant u reference = true) (hst : s.GrowsTo t)
    (htu : t.GrowsTo u) : t.resolve reference = reference.name := by
  unfold isConstant at h
  simp only [Bool.and_eq_true, Bool.not_eq_true', Bool.or_eq_true] at h
  rcases h with ⟨hescaped, hconstant⟩
  have hescaped' : t.isEscaped reference.name = false := by
    unfold isEscaped at hescaped ⊢
    rwa [hst.context]
  -- a keyword is never free, a bound name stays bound, and a name that is not owned later is not
  -- owned now
  have hfree : (t.isFree reference.name && t.has reference) = false := by
    refine Bool.eq_false_iff.2 fun howns => ?_
    unfold isFree at howns
    simp only [Bool.and_eq_true, Bool.not_eq_true'] at howns
    rcases howns with ⟨⟨hkeyword, hshadowed⟩, hhas⟩
    rcases hconstant with hkeyword' | ⟨-, hshadowed' | hhas'⟩
    · rw [hkeyword] at hkeyword'
      cases hkeyword'
    · rw [hst.shadowed _ hshadowed'] at hshadowed
      cases hshadowed
    · rw [has_of_growsTo htu hhas] at hhas'
      cases hhas'
  rw [resolve_eq, hescaped', hfree]
  rfl

end Session

/-! ## Names of functions -/

namespace Forms

/-- What is written where a function is referred to. -/
def functionName (s : Session) (t : Tree) : Tree :=
  match t with
  | .sym name => .sym (functionReference s name)
  | t => t

theorem runFrom_convertFunctionName (t : Tree) (s : Session) :
    (convertFunctionName t).runFrom s = (.ok (functionName s t), s) := by
  cases t <;> rfl

/-- References to functions are converted in place, and the session is left as it is. -/
theorem runFrom_mapM_convertFunctionName (items : List Tree) (s : Session) :
    (items.mapM convertFunctionName).runFrom s = (.ok (items.map (functionName s)), s) := by
  induction items with
  | nil => rfl
  | cons item items ih =>
      exact runFrom_mapM_cons.2 ⟨_, s, _, runFrom_convertFunctionName item s, ih, rfl⟩

end Forms

theorem Reference.mem_functionsAt {first : Nat} {items : List Tree} {position : List Nat}
    {reference : Reference} (h : (position, reference) ∈ functionsAt first items) :
    ∃ i name, position = [first + i] ∧ reference = .function name ∧
      items[i]? = some (.sym name) := by
  rcases List.mem_filterMap.1 h with ⟨⟨item, i⟩, hmem, hitem⟩
  rcases List.mk_mem_zipIdx_iff_le_and_getElem?_sub.1 hmem with ⟨hle, hget⟩
  rcases Option.map_eq_some_iff.1 hitem with ⟨name, hsymbol, heq⟩
  cases heq
  have hsym : item = .sym name := by
    cases item with
    | sym other => exact congrArg Tree.sym (Option.some.inj hsymbol)
    | _ => cases hsymbol
  refine ⟨i - first, name, ?_, rfl, hsym ▸ hget⟩
  rw [Nat.add_sub_cancel' hle]

namespace Session

variable {s t u : Session} {form result : Tree}

/-- The constants among the references stand at their positions in the result. -/
def Kept (s resolved : Session) (result : Tree) (entries : List (List Nat × Reference)) : Prop :=
  ∀ position reference, (position, reference) ∈ entries →
    s.isConstant resolved reference = true → result.at? position = some (.sym reference.name)

/-- A form keeps its constants if the references that it resolves on entry and those that its mode
resolves later do. -/
theorem keepsConstants_of_kept (h : s.Kept s result (s.references form))
    (hmode : s.Kept u result (s.modeReferences form)) : s.keepsConstants form result u = true := by
  unfold keepsConstants
  simp only [Bool.and_eq_true, List.all_eq_true, Bool.or_eq_true, Bool.not_eq_true']
  constructor
  · rintro ⟨position, reference⟩ hmem
    refine (Bool.eq_false_or_eq_true _).symm.imp_right fun hconstant => ?_
    rw [h position reference hmem hconstant]
    exact beq_self_eq_true _
  · rintro ⟨position, reference⟩ hmem
    refine (Bool.eq_false_or_eq_true _).symm.imp_right fun hconstant => ?_
    rw [hmode position reference hmem hconstant]
    exact beq_self_eq_true _

theorem kept_nil (resolved : Session) : s.Kept resolved result [] := fun _ _ hmem => nomatch hmem

/-- Elements that are written as names of functions keep the constants among them. -/
theorem kept_functionsAt (front items : List Tree) {rest : List Tree} {first : Nat}
    (hst : s.GrowsTo t) (htu : t.GrowsTo u) (hfirst : front.length = first) :
    s.Kept u (.list (front ++ (items.map (Forms.functionName t) ++ rest)))
      (Reference.functionsAt first items) := by
  intro position reference hmem hconstant
  rcases Reference.mem_functionsAt hmem with ⟨i, name, rfl, rfl, hitem⟩
  have hresolve := resolve_of_isConstant hconstant hst htu
  have hwritten : (items.map (Forms.functionName t))[i]? = some (.sym name) := by
    rw [List.getElem?_map, hitem]
    exact congrArg (some ∘ Tree.sym) hresolve
  have hlt := (List.getElem?_eq_some_iff.1 hwritten).1
  refine Tree.at?_of_child ?_ rfl
  show (front ++ (items.map (Forms.functionName t) ++ rest))[first + i]? = some (.sym name)
  rw [← hfirst, List.getElem?_append_right (Nat.le_add_right ..), Nat.add_sub_cancel_left,
    List.getElem?_append_left hlt, hwritten]

end Session

/-! ## One form -/

section Nodes

variable {walk : Walk} [GrowingWalk walk] {s t u : Session} {head : Text} {tail : List Tree}
  {result : Tree}

omit [GrowingWalk walk] in
/-- A reference to a function that is quoted as one, also where no such reference is assumed. -/
theorem kept_convertFunctionQuote (hst : s.GrowsTo t) (hts : t.GrowsTo s)
    (hlength : tail.length = 1)
    (hrun : (Forms.convertFunctionQuote walk head tail).runFrom t = (.ok result, u)) :
    s.Kept s result (Reference.functionsAt 1 tail) := by
  rcases List.length_eq_one_iff.1 hlength with ⟨payload, rfl⟩
  intro position reference hmem hconstant
  rcases Reference.mem_functionsAt hmem with ⟨i, name, rfl, rfl, hitem⟩
  -- the quoted symbol is the only one
  obtain ⟨rfl, rfl⟩ : i = 0 ∧ payload = .sym name := by
    cases i with
    | zero => exact ⟨rfl, Option.some.inj hitem⟩
    | succ i => cases hitem
  have hresolve : Forms.functionReference t name = name :=
    Session.resolve_of_isConstant hconstant hst hts
  have hescaped : t.isEscaped name = false := by
    unfold Session.isConstant at hconstant
    simp only [Bool.and_eq_true, Bool.not_eq_true'] at hconstant
    have hsame : t.isEscaped name = s.isEscaped name := by
      rw [Session.isEscaped, Session.isEscaped, hst.context]
    exact hsame.trans hconstant.1
  have hquote : (Forms.convertFunctionQuote walk head [.sym name]).runFrom t =
      (.ok (Tree.call head [.sym name]), t) := by
    have hopen : (Forms.convertFunctionQuote walk head [.sym name]).runFrom t =
        (if t.context.options.dontAssumeFunctionQuote then
          return Tree.call head [.sym (if t.isEscaped name then t.stripProtection name else name)]
        else do
          let written ← Forms.convertFunctionName (.sym name)
          return Tree.call head [written] : Rewrite Tree).runFrom t := rfl
    rw [hopen]
    -- by the options the symbol is a function of the namespace or a mere name; a constant is
    -- neither
    split
    · rw [hescaped]
      rfl
    · rw [runFrom_bind, Forms.runFrom_convertFunctionName, Forms.functionName, hresolve]
      rfl
  rw [hquote] at hrun
  cases hrun
  rfl

/-- The parent of a derived mode. -/
theorem kept_convertDerivedMode {name : Tree} {rest : List Tree} (hst : s.GrowsTo t)
    (hrun : (Forms.convertDerivedMode walk head (name :: rest)).runFrom t = (.ok result, u)) :
    s.Kept u result (Reference.functionsAt 2 (rest.take 1)) := by
  rcases runFrom_bind_ok.1 hrun with ⟨written, t₁, hname, hrun⟩
  have hgrows : s.GrowsTo t₁ := hst.trans (Growing.of_run hname)
  cases rest with
  | nil => exact Session.kept_nil u
  | cons parent args =>
      rcases runFrom_bind_ok.1 hrun with ⟨parent', t₂, hparent, hrun⟩
      rw [Forms.runFrom_convertFunctionName] at hparent
      cases hparent
      rcases runFrom_bind_ok.1 hrun with ⟨args', t₃, hargs, hpure⟩
      rcases runFrom_pure_ok.1 hpure with ⟨rfl, rfl⟩
      exact Session.kept_functionsAt [.sym head, written] [parent] hgrows (Growing.of_run hargs) rfl

/-- The two functions of a globalized mode. -/
theorem kept_convertGlobalizedMode {name : Tree} {rest : List Tree} (hst : s.GrowsTo t)
    (hrun : (Forms.convertGlobalizedMode walk head (name :: rest)).runFrom t = (.ok result, u)) :
    s.Kept u result (Reference.functionsAt 2 (rest.take 2)) := by
  rcases runFrom_bind_ok.1 hrun with ⟨written, t₁, hname, hrun⟩
  have hgrows : s.GrowsTo t₁ := hst.trans (Growing.of_run hname)
  rcases runFrom_bind_ok.1 hrun with ⟨functions, t₂, hfunctions, hrun⟩
  rw [Forms.runFrom_mapM_convertFunctionName] at hfunctions
  cases hfunctions
  rcases runFrom_bind_ok.1 hrun with ⟨args', t₃, hargs, hpure⟩
  rcases runFrom_pure_ok.1 hpure with ⟨rfl, rfl⟩
  exact Session.kept_functionsAt [.sym head, written] (rest.take 2) hgrows (Growing.of_run hargs) rfl

/-- A form with a rule keeps the constants among its references. -/
theorem kept_convertRule {rule : FormRule} (happroach : s.approach head = .rule rule)
    (hst : s.GrowsTo t) (hts : t.GrowsTo s)
    (hrun : (rule.convert walk head tail).runFrom t = (.ok result, u)) :
    s.keepsConstants (.list (.sym head :: tail)) result u = true := by
  refine Session.keepsConstants_of_kept ?_ ?_
  · -- only the function quote refers to what is met before anything is taken in
    unfold Session.references
    dsimp only
    rw [happroach]
    cases rule with
    | functionQuote =>
        dsimp only
        split
        · next hlength => exact kept_convertFunctionQuote hst hts hlength hrun
        · exact Session.kept_nil s
    | _ => exact Session.kept_nil s
  · cases tail with
    | nil => exact Session.kept_nil u
    | cons name rest =>
        unfold Session.modeReferences
        dsimp only
        rw [happroach]
        cases rule with
        | derivedMode => exact kept_convertDerivedMode hst hrun
        | globalizedMode => exact kept_convertGlobalizedMode hst hrun
        | _ => exact Session.kept_nil u

omit [GrowingWalk walk] in
/-- A call keeps its head where that is a constant. -/
theorem kept_convertCallAs {treatment : Treatment}
    (happroach : s.approach head = .call treatment)
    (hrun : (Forms.convertCallAs walk (Forms.functionReference s head) treatment tail).runFrom s =
      (.ok result, u)) :
    s.keepsConstants (.list (.sym head :: tail)) result u = true := by
  rcases runFrom_bind_ok.1 hrun with ⟨args, t, -, hpure⟩
  rcases runFrom_pure_ok.1 hpure with ⟨rfl, rfl⟩
  refine Session.keepsConstants_of_kept ?_ ?_
  · unfold Session.references
    dsimp only
    rw [happroach]
    intro position reference hmem hconstant
    rcases List.mem_singleton.1 hmem with ⟨rfl, rfl⟩
    have hresolve := Session.resolve_of_isConstant hconstant (.refl s) (.refl s)
    exact congrArg (some ∘ Tree.sym) hresolve
  · cases tail with
    | nil => exact Session.kept_nil u
    | cons name rest =>
        unfold Session.modeReferences
        dsimp only
        rw [happroach]
        exact Session.kept_nil u

/-- Every form keeps the constants among its references, whatever walk converts the forms inside
it. -/
theorem keepsConstants_of_convertNode {form : Tree}
    (hrun : (convertNode walk form).runFrom s = (.ok result, u)) :
    s.keepsConstants form result u = true := by
  unfold convertNode at hrun
  split at hrun
  -- a symbol is a reference itself, the only one of its form
  · next name =>
    rcases runFrom_pure_ok.1 hrun with ⟨rfl, rfl⟩
    refine Session.keepsConstants_of_kept ?_ (Session.kept_nil u)
    intro position reference hmem hconstant
    rcases List.mem_singleton.1 hmem with ⟨rfl, rfl⟩
    exact congrArg (some ∘ Tree.sym) (Session.resolve_of_isConstant hconstant (.refl u) (.refl u))
  · next head tail =>
    by_cases hhead : ∃ name, head = .sym name
    · rcases hhead with ⟨name, rfl⟩
      rw [runFrom_convertHeaded] at hrun
      cases happroach : s.approach name with
      | call treatment =>
          rw [happroach] at hrun
          exact kept_convertCallAs happroach hrun
      | rule rule =>
          rw [happroach] at hrun
          rcases runFrom_bind_ok.1 hrun with ⟨⟨⟩, t, htrace, hrule⟩
          cases htrace
          -- the note about the rule leaves what is known as it was, in both directions
          have hst := s.growsTo_journal (s.trace (.specialForm s.context.qualifier name)).journal
          have hts : (s.trace (.specialForm s.context.qualifier name)).GrowsTo s :=
            Session.growsTo_journal _ s.journal
          exact kept_convertRule happroach hst hts hrule
    -- without a symbol in front, the form has no references of its own
    · refine Session.keepsConstants_of_kept ?_ ?_
      all_goals cases head with
        | sym name => exact absurd ⟨name, rfl⟩ hhead
        | _ => exact Session.kept_nil _
  · next hsym hlist =>
    refine Session.keepsConstants_of_kept ?_ ?_
    all_goals cases form with
      | sym name => exact absurd rfl (hsym name)
      | list items =>
          cases items with
          | nil => exact Session.kept_nil _
          | cons head tail => exact absurd rfl (hlist head tail)
      | _ => exact Session.kept_nil _

end Nodes

/-! ## Whole conversions -/

/-- With enough steps the check has nothing to report. -/
theorem checkedWithin_eq {report : Fault} {steps : Nat} {form : Tree} (h : weight form ≤ steps) :
    checkedWithin report steps form = convert form := by
  induction steps generalizing form with
  | zero => exact absurd (weight_pos form) (Nat.not_lt.2 h)
  | succ steps ih =>
      have hnode : convertNode (checkedWithin report steps) form = convertNode convert form :=
        convertNode_congr fun inner hinner => ih (Nat.le_of_lt_succ (Nat.lt_of_lt_of_le hinner h))
      rw [convert_eq form]
      refine Rewrite.ext fun s => ?_
      unfold checkedWithin
      rw [hnode, runFrom_bind, runFrom_get]
      dsimp only
      rw [runFrom_bind]
      rcases hrun : (convertNode convert form).runFrom s with ⟨fault | result, u⟩
      · rfl
      · dsimp only
        rw [runFrom_bind, runFrom_get]
        dsimp only
        unfold demand
        rw [keepsConstants_of_convertNode hrun]
        rfl

/-- References to constants are never rewritten: not in a form that is converted, and not in one
inside it. -/
theorem convert_keeps_constants (form : Tree) :
    (∀ {s u : Session} {result : Tree}, (convert form).runFrom s = (.ok result, u) →
      s.keepsConstants form result u = true) ∧
    ∀ report : Fault, checked report form = convert form := by
  constructor
  · intro s u result hrun
    rw [convert_eq] at hrun
    exact keepsConstants_of_convertNode hrun
  · intro report
    exact checkedWithin_eq (Nat.le_refl _)

/-- A session inside a form that binds `t`, of a namespace that has two variables, `t` being one of
them, and a function whose name is a keyword. -/
def Session.shadowingT : Session :=
  { Session.fresh (.unset "p-") .empty with
    tables := { variableNames := ["t", "x"], functionNames := [":k"] }
    frames := [["t"]] }

/-- Next to a variable that is qualified, the keyword in front and the variable that is bound again
stay as they are. -/
theorem convert_keeps_constants_of_call :
    (convert (.call ":k" [.sym "t", .sym "x"])).runFrom .shadowingT =
        (.ok (.call ":k" [.sym "t", .sym "p-x"]), .shadowingT) ∧
      Session.shadowingT.keepsConstants (.call ":k" [.sym "t", .sym "x"])
        (.call ":k" [.sym "t", .sym "p-x"]) .shadowingT = true := by
  have hrun : (convert (.call ":k" [.sym "t", .sym "x"])).runFrom .shadowingT =
      (.ok (.call ":k" [.sym "t", .sym "p-x"]), .shadowingT) := by rfl
  exact ⟨hrun, (convert_keeps_constants _).1 hrun⟩

/-- Nothing keeps `t` apart from the other names that a definition brings into the tables: a
reference to it is qualified from then on. -/
theorem Namespace.passes_renames_t :
    let forms := [Tree.call "defvar" [.sym "t", .int 1], .sym "t"]
    ∃ written s, (Namespace.passes forms forms).runFrom (.fresh (.unset "p-") .empty) =
      (.ok written, s) ∧ written[1]? = some (.sym "p-t") := by
  exact ⟨_, _, rfl, rfl⟩

end LispNamespace
