import LispNamespace.Proofs.Binding.Functions
import LispNamespace.Proofs.Binding.Sequences

/-!
# Binders and references agree

A form that binds a name is written out with a symbol in the place of the name and with symbols in the
places of the references to it in its body. These are the same symbol, whatever the session and the
options are.

Where a parameter or a local function carries the protection marker, and where a local function has a
name that defines macros, nothing is said. Where bound names are qualified, one binding of a form may
be written as the name of another one; then a reference to that one is taken for local.
-/

namespace LispNamespace

open Rewrite Forms

/-! ## Places of names -/

/-- Where a name is bound by a form: in its body, or in a local function that it defines. -/
inductive Region where
  /-- The body of the form. -/
  | body
  /-- The local function of the given number. -/
  | localFunction (index : Nat)

/-- Whether a conditional form has a single binding without its own parentheses. -/
def hasSingleBinding (head : Text) (bindings : List Tree) : Bool :=
  (head == "if-let" || head == "when-let") && isSingleBinding bindings

/-- The form of the given head and tail binds the name at the position, for the region. -/
inductive Binder : FormRule → Text → List Tree → Region → Text → List Nat → Prop
  | lambda {head : Text} {params : Tree} {body : List Tree} {name : Text} {i : Nat}
      (hparameter : IsParameter params name i) :
      Binder .lambda head (params :: body) .body name [1, i]
  | function {head : Text} {defined params : Tree} {body : List Tree} {name : Text} {i : Nat}
      (hparameter : IsParameter params name i) :
      Binder .function head (defined :: params :: body) .body name [2, i]
  | bindAll {head : Text} {spec binding : Tree} {bindings body : List Tree} {name : Text} {i : Nat}
      {position : List Nat} (hspec : spec.properList? = some bindings)
      (hbinding : bindings[i]? = some binding) (hplace : BindingPlace binding name position) :
      Binder .bindAll head (spec :: body) .body name (1 :: i :: position)
  | bindInOrder {head : Text} {spec binding : Tree} {bindings body : List Tree} {name : Text} {i : Nat}
      {position : List Nat} (hspec : spec.properList? = some bindings)
      (hbinding : bindings[i]? = some binding) (hplace : BindingPlace binding name position) :
      Binder .bindInOrder head (spec :: body) .body name (1 :: i :: position)
  | loop {head : Text} {spec range : Tree} {result body : List Tree} {name : Text}
      (hparts : loopParts? spec = some (name, range, result)) :
      Binder .loop head (spec :: body) .body name [1, 0]
  | test {head : Text} {spec binding : Tree} {bindings body : List Tree} {name : Text} {i : Nat}
      {position : List Nat} (hspec : spec.properList? = some bindings)
      (hmany : hasSingleBinding head bindings = false)
      (hbinding : bindings[i]? = some binding) (hplace : TestPlace binding name position) :
      Binder .conditional head (spec :: body) .body name (1 :: i :: position)
  | singleTest {head : Text} {spec value : Tree} {body : List Tree} {name : Text}
      (hspec : spec.properList? = some [.sym name, value])
      (hsingle : hasSingleBinding head [.sym name, value] = true) :
      Binder .conditional head (spec :: body) .body name [1, 0]
  | errorVariable {head : Text} {name : Text} {form : Tree} {handlers : List Tree} :
      Binder .conditionCase head (.sym name :: form :: handlers) .body name [1]
  | localFunction {head : Text} {spec binding : Tree} {bindings body rest : List Tree} {name : Text}
      {i : Nat} (hspec : spec.properList? = some bindings) (hbinding : bindings[i]? = some binding)
      (hname : binding.uncons? = some (.sym name, rest)) :
      Binder .localFunctions head (spec :: body) .body name [1, i, 0]
  | parameter {head : Text} {spec params : Tree} {bindings body definition : List Tree}
      {defined name : Text} {i j : Nat} (hspec : spec.properList? = some bindings)
      (hbinding : bindings[i]? = some (.list (.sym defined :: params :: definition)))
      (hparameter : IsParameter params name j) :
      Binder .localFunctions head (spec :: body) (.localFunction i) name [1, i, 1, j]

/-- The form of the given head and tail refers to the name at the position, in the region: to a variable
that is a form of a body, or to a local function that is called there. -/
inductive Use : FormRule → Text → List Tree → Region → Text → List Nat → Prop
  | body {rule : FormRule} {head : Text} {first : Tree} {body : List Tree} {name : Text} {j : Nat}
      (hrule : rule ∈ [.lambda, .bindAll, .bindInOrder, .loop, .conditional])
      (hform : body[j]? = some (.sym name)) : Use rule head (first :: body) .body name [j + 2]
  | function {head : Text} {defined params : Tree} {body : List Tree} {name : Text} {j : Nat}
      (hform : body[j]? = some (.sym name)) :
      Use .function head (defined :: params :: body) .body name [j + 3]
  | loopResult {head : Text} {spec range : Tree} {result body : List Tree} {variable_ name : Text}
      {j : Nat} (hparts : loopParts? spec = some (variable_, range, result))
      (hform : result[j]? = some (.sym name)) : Use .loop head (spec :: body) .body name [1, j + 2]
  | handler {head : Text} {variable_ form conditions : Tree} {handlers body : List Tree} {name : Text}
      {i j : Nat} (hhandler : handlers[i]? = some (.list (conditions :: body)))
      (hform : body[j]? = some (.sym name)) :
      Use .conditionCase head (variable_ :: form :: handlers) .body name [i + 3, j + 1]
  | call {head : Text} {spec : Tree} {body args : List Tree} {name : Text} {j : Nat}
      (hform : body[j]? = some (Tree.call name args)) :
      Use .localFunctions head (spec :: body) .body name [j + 2, 0]
  | recursiveCall {spec params : Tree} {bindings body definition args : List Tree}
      {defined name : Text} {i j : Nat} (hspec : spec.properList? = some bindings)
      (hbinding : bindings[i]? = some (.list (.sym defined :: params :: definition)))
      (hform : definition[j]? = some (Tree.call name args)) :
      Use .localFunctions "cl-labels" (spec :: body) .body name [1, i, j + 2, 0]
  | parameter {head : Text} {spec params : Tree} {bindings body definition : List Tree}
      {defined name : Text} {i j : Nat} (hspec : spec.properList? = some bindings)
      (hbinding : bindings[i]? = some (.list (.sym defined :: params :: definition)))
      (hform : definition[j]? = some (.sym name)) :
      Use .localFunctions head (spec :: body) (.localFunction i) name [1, i, j + 2]

/-- The tree has the same symbol at both positions. -/
def Tree.SameSymbolAt (t : Tree) (position other : List Nat) : Prop :=
  ∃ name, t.at? position = some (.sym name) ∧ t.at? other = some (.sym name)

/-! ## Functions -/

/-- The parameters and the body of a function agree wherever they stand in a form. -/
theorem sameSymbolAt_of_convertLambdaTail {params : Tree} {body parts : List Tree} {s s' : Session}
    (hrun : (convertLambdaTail convert params body).runFrom s = (.ok parts, s')) {name : Text} {i j : Nat}
    (hparameter : IsParameter params name i) (hescaped : s.isEscaped name = false)
    (hform : body[j]? = some (.sym name)) :
    (Tree.list parts).SameSymbolAt [0, i] [j + 1] := by
  rcases reference_of_convertLambdaTail hrun hparameter hescaped with ⟨params', body', rfl, hplace, hbody⟩
  have hparams : params'.at? [i] = some (.sym name) := Tree.at?_of_child hplace rfl
  exact ⟨name, Tree.at?_of_child rfl hparams, Tree.at?_of_child (hbody j hform) rfl⟩

section Rules

variable {s s' : Session} {result : Tree} {head name : Text}

/-- A parameter of a lambda expression and a reference to it in the body come out as the same
symbol. -/
theorem agrees_convertLambda {params : Tree} {body : List Tree} {i j : Nat}
    (hrun : (convertLambda convert head (params :: body)).runFrom s = (.ok result, s'))
    (hparameter : IsParameter params name i) (hescaped : s.isEscaped name = false)
    (hform : body[j]? = some (.sym name)) : result.SameSymbolAt [1, i] [j + 2] := by
  rcases runFrom_bind_ok.1 hrun with ⟨parts, t, hparts, hpure⟩
  rcases runFrom_pure_ok.1 hpure with ⟨rfl, rfl⟩
  exact sameSymbolAt_of_convertLambdaTail hparts hparameter hescaped hform

/-- So do a parameter of a function and a reference to it. -/
theorem agrees_convertFunction {defined params : Tree} {body : List Tree} {i j : Nat}
    (hrun : (convertFunction convert head (defined :: params :: body)).runFrom s = (.ok result, s'))
    (hparameter : IsParameter params name i) (hescaped : s.isEscaped name = false)
    (hform : body[j]? = some (.sym name)) : result.SameSymbolAt [2, i] [j + 3] := by
  rcases runFrom_bind_ok.1 hrun with ⟨defined', t, hdefined, hrun⟩
  rcases runFrom_bind_ok.1 hrun with ⟨parts, u, hparts, hpure⟩
  rcases runFrom_pure_ok.1 hpure with ⟨rfl, rfl⟩
  have hdefines : Growing (convertDefinedName (fun n t => t.addFunction n) defined) :=
    keeps_convertDefinedName fun text _ =>
      keeps_register learns_growth (fun n t => t.addFunction n) .frame text
  have hgrows : s.GrowsTo t := hdefines.of_run hdefined
  exact sameSymbolAt_of_convertLambdaTail hparts hparameter (hgrows.recalls.isEscaped.trans hescaped) hform

/-! ## Bindings of variables -/

/-- The form's bindings are written without a clash for the name: unless its own binding is written as
the name, no other binding of the form is. This is a matter only where bound names are qualified. -/
def Unclashed (rule : FormRule) (s : Session) (head : Text) (tail : List Tree) (region : Region)
    (name : Text) (binder : List Nat) (result : Tree) : Prop :=
  s.context.options.letVars = true → ∀ other position, Binder rule head tail region other position →
    result.at? position = some (.sym name) → result.at? binder = some (.sym name)

/-- A form that has introduced the names of its bindings and then rewritten its body agrees with
itself. -/
theorem Introduces.sameSymbolAt {Place : Tree → Text → List Nat → Prop} {bindings results body body' :
    List Tree} {t t' : Session} (h : Introduces Place bindings results t)
    (hbody : (body.mapM convert).runFrom t = (.ok body', t')) {i j : Nat} {binding : Tree}
    {position : List Nat} (hbinding : bindings[i]? = some binding) (hplace : Place binding name position)
    (hform : body[j]? = some (.sym name))
    (hclash : t.context.options.letVars = true → ∀ k other binding' position',
      bindings[k]? = some binding' → Place binding' other position' →
      (Tree.call head (Tree.ofList results :: body')).at? (1 :: k :: position') = some (.sym name) →
      (Tree.call head (Tree.ofList results :: body')).at? (1 :: i :: position) = some (.sym name)) :
    (Tree.call head (Tree.ofList results :: body')).SameSymbolAt (1 :: i :: position) [j + 2] := by
  -- the places of the bindings are seen from the whole form
  have hat : ∀ k path, (Tree.call head (Tree.ofList results :: body')).at? (1 :: k :: path) =
      results[k]?.bind (·.at? path) := fun k path => Tree.at?_ofList results k path
  have hresolves := h.resolves hbinding hplace ?_
  · rcases hresolves with ⟨written, hwritten, hresolves⟩
    have hreference := reference_of_mapM hresolves hbody hform
    exact ⟨written, (hat i position).trans hwritten, Tree.at?_of_child hreference rfl⟩
  · rintro hletVars ⟨k, binding', result, other, position', hbinding', hresult, hplace', hgiven⟩
    rw [← hat]
    refine hclash hletVars k other binding' position' hbinding' hplace' ?_
    rw [hat, hresult]
    exact hgiven

/-- So does one that has bound its names in order. -/
theorem BindsInOrder.sameSymbolAt {Place : Tree → Text → List Nat → Prop} {step : Tree → Rewrite Tree}
    (hstep : BindsInOrder Place step) {bindings results body body' : List Tree} {t t' : Session}
    (hresults : (bindings.mapM step).runFrom (s.pushFrame []) = (.ok results, t))
    (hbody : (body.mapM convert).runFrom t = (.ok body', t')) {i j : Nat} {binding : Tree}
    {position : List Nat} (hbinding : bindings[i]? = some binding) (hplace : Place binding name position)
    (hform : body[j]? = some (.sym name))
    (hclash : s.context.options.letVars = true → ∀ k other binding' position',
      bindings[k]? = some binding' → Place binding' other position' →
      (Tree.call head (Tree.ofList results :: body')).at? (1 :: k :: position') = some (.sym name) →
      (Tree.call head (Tree.ofList results :: body')).at? (1 :: i :: position) = some (.sym name)) :
    (Tree.call head (Tree.ofList results :: body')).SameSymbolAt (1 :: i :: position) [j + 2] := by
  rcases introduces_of_mapM hstep (List.cons_ne_nil _ _) hresults with ⟨hgrows, hintroduces, -⟩
  have hcontext : t.context = s.context := hgrows.context
  refine hintroduces.sameSymbolAt hbody hbinding hplace hform ?_
  rw [hcontext]
  exact hclash

/-- A variable that is bound beside others and a reference to it in the body come out as the same
symbol, unless another binding is written as its name. -/
theorem agrees_convertLet {spec binding : Tree} {bindings body : List Tree} {i j : Nat}
    {position : List Nat} (hrun : (convertLet convert head (spec :: body)).runFrom s = (.ok result, s'))
    (hspec : spec.properList? = some bindings) (hbinding : bindings[i]? = some binding)
    (hplace : BindingPlace binding name position) (hform : body[j]? = some (.sym name))
    (hclash : Unclashed .bindAll s head (spec :: body) .body name (1 :: i :: position) result) :
    result.SameSymbolAt (1 :: i :: position) [j + 2] := by
  unfold convertLet at hrun
  simp only [hspec] at hrun
  rcases runFrom_bind_ok.1 hrun with ⟨results, t, hresults, hrun⟩
  rcases runFrom_bind_ok.1 hrun with ⟨body', u, hbody, hpure⟩
  rcases runFrom_pure_ok.1 hpure with ⟨rfl, rfl⟩
  rcases runFrom_withFrame_ok.1 hbody with ⟨v, hbody, -⟩
  have hgrows : s.GrowsTo t := Growing.of_run hresults
  refine (introduces_pushFrame hresults).sameSymbolAt hbody hbinding hplace hform ?_
  intro hletVars k other binding' position' hbinding' hplace'
  refine hclash ?_ other _ (.bindAll hspec hbinding' hplace')
  rw [← hgrows.context]
  exact hletVars

/-- So they do where the variables are bound one after the other: a later binding adds to the frame
and takes nothing out of it. -/
theorem agrees_convertLetStar {spec binding : Tree} {bindings body : List Tree} {i j : Nat}
    {position : List Nat} (hrun : (convertLetStar convert head (spec :: body)).runFrom s = (.ok result, s'))
    (hspec : spec.properList? = some bindings) (hbinding : bindings[i]? = some binding)
    (hplace : BindingPlace binding name position) (hform : body[j]? = some (.sym name))
    (hclash : Unclashed .bindInOrder s head (spec :: body) .body name (1 :: i :: position) result) :
    result.SameSymbolAt (1 :: i :: position) [j + 2] := by
  unfold convertLetStar at hrun
  simp only [hspec] at hrun
  rcases runFrom_withFrame_ok.1 hrun with ⟨u, hrun, -⟩
  rcases runFrom_bind_ok.1 hrun with ⟨results, t, hresults, hrun⟩
  rcases runFrom_bind_ok.1 hrun with ⟨body', v, hbody, hpure⟩
  rcases runFrom_pure_ok.1 hpure with ⟨rfl, rfl⟩
  refine bindsInOrder_convertBinding.sameSymbolAt hresults hbody hbinding hplace hform ?_
  intro hletVars k other binding' position' hbinding' hplace'
  exact hclash hletVars other _ (.bindInOrder hspec hbinding' hplace')

/-- Of the tests of a conditional, those that bind a name agree with their references. -/
theorem agrees_convertTests {spec binding : Tree} {bindings body : List Tree} {i j : Nat}
    {position : List Nat}
    (hrun : (convertConditional convert head (spec :: body)).runFrom s = (.ok result, s'))
    (hspec : spec.properList? = some bindings) (hmany : hasSingleBinding head bindings = false)
    (hbinding : bindings[i]? = some binding) (hplace : TestPlace binding name position)
    (hform : body[j]? = some (.sym name))
    (hclash : Unclashed .conditional s head (spec :: body) .body name (1 :: i :: position) result) :
    result.SameSymbolAt (1 :: i :: position) [j + 2] := by
  unfold convertConditional at hrun
  unfold hasSingleBinding at hmany
  simp only [hspec, hmany] at hrun
  rcases runFrom_withFrame_ok.1 hrun with ⟨u, hrun, -⟩
  rcases runFrom_bind_ok.1 hrun with ⟨results, t, hresults, hrun⟩
  rcases runFrom_bind_ok.1 hrun with ⟨body', v, hbody, hpure⟩
  rcases runFrom_pure_ok.1 hpure with ⟨rfl, rfl⟩
  refine bindsInOrder_convertTest.sameSymbolAt hresults hbody hbinding hplace hform ?_
  intro hletVars k other binding' position' hbinding' hplace'
  exact hclash hletVars other _ (.test hspec hmany hbinding' hplace')

/-- A single binding cannot clash with another one. -/
theorem agrees_convertSingleTest {spec value : Tree} {body : List Tree} {j : Nat}
    (hrun : (convertConditional convert head (spec :: body)).runFrom s = (.ok result, s'))
    (hspec : spec.properList? = some [.sym name, value])
    (hsingle : hasSingleBinding head [.sym name, value] = true) (hform : body[j]? = some (.sym name)) :
    result.SameSymbolAt [1, 0] [j + 2] := by
  unfold convertConditional at hrun
  unfold hasSingleBinding at hsingle
  simp only [hspec, hsingle] at hrun
  rcases runFrom_withFrame_ok.1 hrun with ⟨u, hrun, -⟩
  rcases runFrom_bind_ok.1 hrun with ⟨binding, t, hbinding, hrun⟩
  rcases runFrom_bind_ok.1 hrun with ⟨body', v, hbody, hpure⟩
  rcases runFrom_pure_ok.1 hpure with ⟨rfl, rfl⟩
  have hresults : ([.list [.sym name, value]].mapM (convertTest convert)).runFrom (s.pushFrame []) =
      (.ok [binding], t) := runFrom_mapM_cons.2 ⟨binding, t, [], hbinding, rfl, rfl⟩
  rcases introduces_of_mapM bindsInOrder_convertTest (List.cons_ne_nil _ _) hresults with
    ⟨-, hintroduces, -⟩
  have hplace := TestPlace.valued name value
  have hresolves := hintroduces.resolves (i := 0) rfl hplace ?_
  · rcases hresolves with ⟨written, hwritten, hresolves⟩
    have hreference := reference_of_mapM hresolves hbody hform
    exact ⟨written, hwritten, Tree.at?_of_child hreference rfl⟩
  · rintro - ⟨k, binding', result, other, position, hbinding', hresult, hplace', hgiven⟩
    cases k with
    | zero =>
        cases hbinding'
        cases hresult
        cases hplace'
        exact hgiven
    | succ k => cases hbinding'

/-! ## Loops -/

/-- The variable of a loop is bound for the body and for the result, but not for the range. -/
theorem agrees_convertLoop {spec range : Tree} {rest body : List Tree} {use : List Nat}
    (hrun : (convertLoop convert head (spec :: body)).runFrom s = (.ok result, s'))
    (hparts : loopParts? spec = some (name, range, rest))
    (huse : (∃ j, use = [j + 2] ∧ body[j]? = some (.sym name)) ∨
      ∃ j, use = [1, j + 2] ∧ rest[j]? = some (.sym name)) :
    result.SameSymbolAt [1, 0] use := by
  unfold convertLoop at hrun
  simp only [hparts] at hrun
  rw [runFrom_bind, runFrom_convertBoundName] at hrun
  dsimp only at hrun
  rcases runFrom_bind_ok.1 hrun with ⟨range', t, hrange, hrun⟩
  rcases runFrom_withFrame_ok.1 hrun with ⟨u, hrun, -⟩
  rcases runFrom_bind_ok.1 hrun with ⟨rest', v, hrest, hrun⟩
  rcases runFrom_bind_ok.1 hrun with ⟨body', w, hbody, hpure⟩
  rcases runFrom_pure_ok.1 hpure with ⟨rfl, rfl⟩
  have hgrowth : growth.Steps .form s t := Keeps.steps_of_run inferInstance hrange
  have hgrowth' : growth.Steps .form (t.pushFrame [boundName s name]) v :=
    Keeps.steps_of_run inferInstance hrest
  -- the range cannot change how the name is resolved, and the frame binds it as it was written
  have hresolves : (t.pushFrame [boundName s name]).Resolves name (boundName s name) := by
    refine (hgrowth.1.recalls.pushFrame _).resolves_boundName ?_ fun _ hlocal => ?_
    · exact Session.isShadowed_pushFrame_of_mem (List.mem_singleton_self _)
    · rw [Session.isShadowed_pushFrame, Bool.or_eq_true] at hlocal
      rcases hlocal with hmem | hbefore
      · exact .inr (List.mem_singleton.1 (List.contains_iff_mem.1 hmem)).symm
      · exact .inl ((Session.isShadowed_congr hgrowth.2).symm.trans hbefore)
  refine ⟨boundName s name, rfl, ?_⟩
  -- the body is converted after the result, from a session that has grown
  rcases huse with ⟨j, rfl, hform⟩ | ⟨j, rfl, hform⟩
  · have hreference := reference_of_mapM (hresolves.of_growth hgrowth') hbody hform
    exact Tree.at?_of_child hreference rfl
  · have hreference := reference_of_mapM hresolves hrest hform
    exact Tree.at?_of_child rfl (Tree.at?_of_child hreference rfl)

/-! ## Error handlers -/

/-- The variable of a condition is bound in the bodies of all handlers, whose conditions are data.
-/
theorem agrees_convertConditionCase {form conditions : Tree} {handlers body : List Tree} {i j : Nat}
    (hrun : (convertConditionCase convert head (.sym name :: form :: handlers)).runFrom s =
      (.ok result, s'))
    (hhandler : handlers[i]? = some (.list (conditions :: body))) (hform : body[j]? = some (.sym name)) :
    result.SameSymbolAt [1] [i + 3, j + 1] := by
  -- the error variable loses its marker, whatever the options are
  obtain ⟨written, hwritten, hresolves⟩ : ∃ written, (if s.isEscaped name then
      Tree.sym (s.stripProtection name) else .sym name) = .sym written ∧
      ∀ t, growth.Steps .form s t → (t.pushFrame [written]).Resolves name written := by
    by_cases hescaped : s.isEscaped name = true
    · refine ⟨s.stripProtection name, if_pos hescaped, fun t ht => ?_⟩
      have hrecalls := ht.1.recalls.pushFrame [s.stripProtection name]
      rw [← hrecalls.stripProtection]
      exact Session.resolves_of_isEscaped (hrecalls.isEscaped.trans hescaped)
    · refine ⟨name, if_neg hescaped, fun t ht => ?_⟩
      have hrecalls := ht.1.recalls.pushFrame [name]
      exact Session.resolves_of_isShadowed (hrecalls.isEscaped.trans (Bool.eq_false_iff.2 hescaped))
        (Session.isShadowed_pushFrame_of_mem (List.mem_singleton_self name))
  unfold convertConditionCase at hrun
  rw [runFrom_bind, runFrom_get] at hrun
  dsimp only at hrun
  rw [hwritten] at hrun
  rcases runFrom_bind_ok.1 hrun with ⟨form', t, hform', hrun⟩
  rcases runFrom_bind_ok.1 hrun with ⟨handlers', u, hhandlers, hpure⟩
  rcases runFrom_pure_ok.1 hpure with ⟨rfl, rfl⟩
  have hgrowth : growth.Steps .form s t := Keeps.steps_of_run inferInstance hform'
  rcases exists_growth_of_mapM .form hhandlers hhandler with ⟨v, handler', v', hv, hstep, -, hresult⟩
  rcases runFrom_bind_ok.1 hstep with ⟨body', w, hbody, hpure⟩
  rcases runFrom_pure_ok.1 hpure with ⟨rfl, rfl⟩
  rcases runFrom_withFrame_ok.1 hbody with ⟨x, hbody, -⟩
  have hreference := reference_of_mapM (hresolves v (Discipline.Lawful.trans hgrowth hv)) hbody hform
  exact ⟨written, rfl, Tree.at?_of_child hresult (Tree.at?_of_child hreference rfl)⟩

/-! ## Local functions -/

/-- The name of a local function stays. -/
theorem head_of_convertLocalFunction {isExpander isSequential : Bool} {binding : Tree} {rest : List Tree}
    (hrun : (convertLocalFunction convert isExpander isSequential binding).runFrom s = (.ok result, s'))
    (hname : binding.uncons? = some (.sym name, rest)) : result.at? [0] = some (.sym name) := by
  unfold convertLocalFunction at hrun
  split at hrun
  · next defined params definition =>
    cases hname
    have hgives : ∀ rest, GivesCall name (do
        if isSequential then bindNames [name]
        return .list (.sym name :: rest)) := by
      intro rest
      cases isSequential with
      | false => exact .pure rest
      | true => exact .bind _ fun _ => .pure rest
    have hcall : ∃ args, result = Tree.call name args := by
      dsimp only at hrun
      split at hrun
      · exact (GivesCall.bind _ fun _ => .bind _ hgives).call_of_run hrun
      · exact (GivesCall.bind _ hgives).call_of_run hrun
    rcases hcall with ⟨args, rfl⟩
    rfl
  · rcases runFrom_pure_ok.1 hrun with ⟨rfl, rfl⟩
    unfold Tree.uncons? at hname
    split at hname
    · cases hname
      rfl
    · cases hname
      rfl
    · cases hname

/-- Parameters and body of a local function are rewritten like those of any function. -/
theorem parts_of_convertLocalFunction {isExpander isSequential : Bool} {defined : Text} {params : Tree}
    {definition : List Tree} (hdefinition : definition ≠ [])
    (hrun : (convertLocalFunction convert isExpander isSequential
      (.list (.sym defined :: params :: definition))).runFrom s = (.ok result, s')) :
    ∃ parts t, (convertLambdaTail convert params definition).runFrom s = (.ok parts, t) ∧
      result = .list (.sym defined :: parts) := by
  unfold convertLocalFunction at hrun
  dsimp only at hrun
  split at hrun
  · next hshort => exact absurd (List.isEmpty_iff.1 (Bool.and_eq_true_iff.1 hshort).1) hdefinition
  · rcases runFrom_bind_ok.1 hrun with ⟨parts, t, hparts, hrun⟩
    refine ⟨parts, t, hparts, ?_⟩
    cases isSequential with
    | false => exact (runFrom_pure_ok.1 hrun).1
    | true =>
        rcases runFrom_bind_ok.1 hrun with ⟨_, _, -, hpure⟩
        exact (runFrom_pure_ok.1 hpure).1

/-- A form with local functions rewrites its functions and then its body, with their names local. -/
theorem runFrom_convertLocalFunctions {spec : Tree} {bindings body : List Tree}
    (hrun : (convertLocalFunctions convert head (spec :: body)).runFrom s = (.ok result, s'))
    (hspec : spec.properList? = some bindings) :
    ∃ results body' t u, result = Tree.call head (Tree.ofList results :: body') ∧
      (bindings.mapM (convertLocalFunction convert (head == "cl-macrolet") (head == "cl-flet*"))).runFrom
        (s.pushFrame (if head == "cl-labels" then localFunctionNames bindings else [])) =
          (.ok results, t) ∧
      (body.mapM convert).runFrom (t.popFrame.pushFrame (localFunctionNames bindings)) = (.ok body', u) := by
  unfold convertLocalFunctions at hrun
  simp only [hspec] at hrun
  rcases runFrom_bind_ok.1 hrun with ⟨results, t, hresults, hrun⟩
  rcases runFrom_bind_ok.1 hrun with ⟨body', u, hbody, hpure⟩
  rcases runFrom_pure_ok.1 hpure with ⟨rfl, rfl⟩
  rcases runFrom_withFrame_ok.1 hresults with ⟨v, hfunctions, rfl⟩
  rcases runFrom_withFrame_ok.1 hbody with ⟨w, hforms, -⟩
  exact ⟨results, body', v, w, rfl, hfunctions, hforms⟩

/-- A local function and a call of it come out alike: in the body of the form, and in the
definitions of its siblings where these see each other. -/
theorem agrees_convertLocalFunctions {spec binding : Tree} {bindings body rest : List Tree} {i : Nat}
    {use : List Nat}
    (hrun : (convertLocalFunctions convert head (spec :: body)).runFrom s = (.ok result, s'))
    (hspec : spec.properList? = some bindings) (hbinding : bindings[i]? = some binding)
    (hname : binding.uncons? = some (.sym name, rest)) (hescaped : s.isEscaped name = false)
    (hkind : name ∉ FormRule.macroNames)
    (huse : (∃ (j : Nat) (args : List Tree), use = [j + 2, 0] ∧ body[j]? = some (Tree.call name args)) ∨
      head = "cl-labels" ∧ ∃ (k j : Nat) (defined : Text) (params : Tree) (definition args : List Tree),
        use = [1, k, j + 2, 0] ∧ bindings[k]? = some (.list (.sym defined :: params :: definition)) ∧
          definition[j]? = some (Tree.call name args)) :
    result.SameSymbolAt [1, i, 0] use := by
  rcases runFrom_convertLocalFunctions hrun hspec with ⟨results, body', t, u, rfl, hresults, hbody⟩
  have hat : ∀ k path, (Tree.call head (Tree.ofList results :: body')).at? (1 :: k :: path) =
      results[k]?.bind (·.at? path) := fun k path => Tree.at?_ofList results k path
  have hmem : name ∈ localFunctionNames bindings := by
    refine List.mem_filterMap.2 ⟨binding, List.mem_of_getElem? hbinding, ?_⟩
    rw [hname]
  have hgrows : (s.pushFrame _).GrowsTo t := Growing.of_run hresults
  refine ⟨name, ?_, ?_⟩
  · rcases exists_growth_of_mapM .frame hresults hbinding with ⟨_, result, _, -, hstep, -, hresult⟩
    rw [hat, hresult]
    exact head_of_convertLocalFunction hstep hname
  · rcases huse with ⟨j, args, rfl, hcall⟩ | ⟨hlabels, k, j, defined, params, definition, args, rfl,
      hdefined, hcall⟩
    · have hrecalls : (t.popFrame.pushFrame (localFunctionNames bindings)).Recalls s :=
        hgrows.popFrame.recalls.pushFrame _
      have hescaped' := hrecalls.isEscaped.trans hescaped
      have hlocal : (t.popFrame.pushFrame (localFunctionNames bindings)).isShadowed name = true :=
        Session.isShadowed_pushFrame_of_mem hmem
      rcases call_of_mapM hescaped' hlocal hkind hbody hcall with ⟨args', hcall'⟩
      exact Tree.at?_of_child hcall' rfl
    -- the functions see each other
    · rcases exists_growth_of_mapM .frame hresults hdefined with ⟨v, result, _, hv, hstep, -, hresult⟩
      have hnonempty : definition ≠ [] := by
        rintro rfl
        cases hcall
      rcases parts_of_convertLocalFunction hnonempty hstep with ⟨parts, w, hparts, rfl⟩
      have hrecalls : v.Recalls s := hv.1.recalls.of_pushFrame
      have hlocal : v.isShadowed name = true := by
        refine hv.1.shadowed name (Session.isShadowed_pushFrame_of_mem ?_)
        rw [hlabels]
        exact hmem
      rcases call_of_convertLambdaTail hparts (hrecalls.isEscaped.trans hescaped) hlocal hkind hcall with
        ⟨args', hcall'⟩
      rw [hat, hresult]
      exact Tree.at?_of_child hcall' rfl

/-- The parameters of a local function are bound in its own definition. -/
theorem agrees_convertLocalParameter {spec params : Tree} {bindings body definition : List Tree}
    {defined : Text} {i j k : Nat}
    (hrun : (convertLocalFunctions convert head (spec :: body)).runFrom s = (.ok result, s'))
    (hspec : spec.properList? = some bindings)
    (hbinding : bindings[i]? = some (.list (.sym defined :: params :: definition)))
    (hparameter : IsParameter params name j) (hescaped : s.isEscaped name = false)
    (hform : definition[k]? = some (.sym name)) : result.SameSymbolAt [1, i, 1, j] [1, i, k + 2] := by
  rcases runFrom_convertLocalFunctions hrun hspec with ⟨results, body', t, u, rfl, hresults, hbody⟩
  rcases exists_growth_of_mapM .frame hresults hbinding with ⟨v, result, _, hv, hstep, -, hresult⟩
  have hnonempty : definition ≠ [] := by
    rintro rfl
    cases hform
  rcases parts_of_convertLocalFunction hnonempty hstep with ⟨parts, w, hparts, rfl⟩
  have hrecalls : v.Recalls s := hv.1.recalls.of_pushFrame
  have hat : ∀ path, (Tree.call head (Tree.ofList results :: body')).at? (1 :: i :: path) =
      (Tree.list (.sym defined :: parts)).at? path := by
    intro path
    refine (Tree.at?_ofList results i path).trans ?_
    rw [hresult]
    rfl
  unfold Tree.SameSymbolAt
  rw [hat, hat]
  exact sameSymbolAt_of_convertLambdaTail hparts hparameter (hrecalls.isEscaped.trans hescaped) hform

end Rules

/-- In every form that binds a name, the symbol that is written in the place of the name and the one
that is written in the place of a reference to it in the body are the same symbol: for parameters, for
the bindings of variables in all their forms, for the variables of loops and of error handlers, and for
local functions where they are called. Whatever the session, and with every setting of the options,
when the conversion by the rule yields a result, the result has the same symbol at both positions.

Parameters and local functions are meant as far as they have no protection marker and, if they are
called, do not have a name that defines macros. Where bound names are qualified, a binding that is not
written as its name must not meet another one of the form that is. -/
theorem convertRule_agrees {rule : FormRule} {head name : Text} {tail : List Tree} {region : Region}
    {binder use : List Nat} {s s' : Session} {result : Tree}
    (hrun : (rule.convert convert head tail).runFrom s = (.ok result, s'))
    (hbinder : Binder rule head tail region name binder) (huse : Use rule head tail region name use)
    (hescaped : rule ∈ [.lambda, .function, .localFunctions] → s.isEscaped name = false)
    (hkind : rule = .localFunctions → region = .body → name ∉ FormRule.macroNames)
    (hclash : rule ∈ [.bindAll, .bindInOrder, .conditional] →
      Unclashed rule s head tail region name binder result) :
    result.SameSymbolAt binder use := by
  -- each way to bind a name goes with the references in its own region only
  cases hbinder with
  | lambda hparameter =>
      cases huse with
      | body _ hform => exact agrees_convertLambda hrun hparameter (hescaped (by decide)) hform
  | function hparameter =>
      cases huse with
      | body hrule => exact absurd hrule (by decide)
      | function hform => exact agrees_convertFunction hrun hparameter (hescaped (by decide)) hform
  | bindAll hspec hbinding hplace =>
      cases huse with
      | body _ hform => exact agrees_convertLet hrun hspec hbinding hplace hform (hclash (by decide))
  | bindInOrder hspec hbinding hplace =>
      cases huse with
      | body _ hform => exact agrees_convertLetStar hrun hspec hbinding hplace hform (hclash (by decide))
  | loop hparts =>
      cases huse with
      | body _ hform => exact agrees_convertLoop hrun hparts (.inl ⟨_, rfl, hform⟩)
      | loopResult hparts' hform =>
          rw [hparts] at hparts'
          cases hparts'
          exact agrees_convertLoop hrun hparts (.inr ⟨_, rfl, hform⟩)
  | test hspec hmany hbinding hplace =>
      cases huse with
      | body _ hform => exact agrees_convertTests hrun hspec hmany hbinding hplace hform (hclash (by decide))
  | singleTest hspec hsingle =>
      cases huse with
      | body _ hform => exact agrees_convertSingleTest hrun hspec hsingle hform
  | errorVariable =>
      cases huse with
      | body hrule => exact absurd hrule (by decide)
      | handler hhandler hform => exact agrees_convertConditionCase hrun hhandler hform
  | localFunction hspec hbinding hname =>
      have hescaped' := hescaped (by decide)
      have hkind' := hkind rfl rfl
      cases huse with
      | body hrule => exact absurd hrule (by decide)
      | call hform =>
          exact agrees_convertLocalFunctions hrun hspec hbinding hname hescaped' hkind'
            (.inl ⟨_, _, rfl, hform⟩)
      | recursiveCall hspec' hdefined hform =>
          rw [hspec] at hspec'
          cases hspec'
          exact agrees_convertLocalFunctions hrun hspec hbinding hname hescaped' hkind'
            (.inr ⟨rfl, _, _, _, _, _, _, rfl, hdefined, hform⟩)
  | parameter hspec hbinding hparameter =>
      cases huse with
      | parameter hspec' hbinding' hform =>
          rw [hspec] at hspec'
          cases hspec'
          rw [hbinding] at hbinding'
          cases hbinding'
          exact agrees_convertLocalParameter hrun hspec hbinding hparameter (hescaped (by decide)) hform

/-- A session of a namespace that owns the variable `x` and qualifies bound names. -/
def Session.qualifying : Session :=
  { Session.unset "p-" with
    context := { Context.unset "p-" with options := { Options.unset with letVars := true } }
    tables := { variableNames := ["x"] } }

/-- A binding of `x`, and a reference to it. -/
def Tree.bound : List Tree := [.list [.list [.sym "x", .int 1]], .sym "x"]

/-- The variable is qualified where it is bound, and so is the reference to it. -/
theorem convertRule_agrees_qualified :
    ∃ result s', (FormRule.bindAll.convert convert "let" Tree.bound).runFrom .qualifying =
        (.ok result, s') ∧
      result.at? [1, 0, 0] = some (.sym "p-x") ∧ result.SameSymbolAt [1, 0, 0] [2] := by
  have hrun : (FormRule.bindAll.convert convert "let" Tree.bound).runFrom .qualifying =
      (.ok (Tree.call "let" [.list [.list [.sym "p-x", .int 1]], .sym "p-x"]), .qualifying) := by
    rfl
  have hspec : (Tree.list [.list [.sym "x", .int 1]]).properList? = some [.list [.sym "x", .int 1]] := rfl
  have hplace : BindingPlace (.list [.sym "x", .int 1]) "x" [0] := .valued "x" [.int 1]
  have huse : Use .bindAll "let" Tree.bound .body "x" [2] := .body (by decide) rfl
  have hescaped : FormRule.bindAll ∉ [FormRule.lambda, .function, .localFunctions] := by decide
  refine ⟨_, _, hrun, rfl, convertRule_agrees hrun (.bindAll hspec rfl hplace) huse
    (fun h => absurd h hescaped) (fun h => absurd h (by decide)) ?_⟩
  -- there is no other binding
  rintro - - other position hother hgiven
  cases hother with
  | @bindAll _ _ _ _ _ _ i _ hspec' hbinding hplace' =>
      cases hspec'
      cases i with
      | zero =>
          cases hbinding
          cases hplace'
          exact hgiven
      | succ i => cases hbinding

/-! ## Binders and references that disagree -/

/-- In the conversion by the rule, a name that the form binds is not written as a reference to it. -/
def Disagrees (rule : FormRule) (head : Text) (tail : List Tree) (s : Session) (name : Text)
    (binder use : List Nat) : Prop :=
  Binder rule head tail .body name binder ∧ Use rule head tail .body name use ∧
    ∃ result s', (rule.convert convert head tail).runFrom s = (.ok result, s') ∧
      ¬result.SameSymbolAt binder use

/-- Whether a run yields a tree with different symbols at the positions. -/
def writesApart (run : Except Fault Tree × Session) (position other : List Nat) : Bool :=
  match run.1 with
  | .ok t =>
      match t.at? position, t.at? other with
      | some (.sym name), some (.sym name') => name != name'
      | _, _ => false
  | .error _ => false

/-- What a run writes at two places is compared by running it. -/
theorem disagrees_of_writesApart {rule : FormRule} {head : Text} {tail : List Tree} {s : Session}
    {name : Text} {binder use : List Nat} (hbinder : Binder rule head tail .body name binder)
    (huse : Use rule head tail .body name use)
    (h : writesApart ((rule.convert convert head tail).runFrom s) binder use = true) :
    Disagrees rule head tail s name binder use := by
  refine ⟨hbinder, huse, ?_⟩
  rcases hrun : (rule.convert convert head tail).runFrom s with ⟨fault | result, s'⟩
  · rw [hrun] at h
    cases h
  · rw [hrun] at h
    refine ⟨result, s', rfl, ?_⟩
    rintro ⟨same, hname, hother⟩
    unfold writesApart at h
    simp only [hname, hother] at h
    exact bne_iff_ne.1 h rfl

/-- Bindings of `x` and of a name that becomes `x`, and a reference to `x`. -/
def Tree.boundTwice : List Tree :=
  [.list [.list [.sym "x", .int 1], .list [.sym "::x", .int 2]], .sym "x"]

/-- The parameters and the body of a function whose parameter is protected. -/
def Tree.protectedParameter : List Tree := [.list [.sym "::x"], .sym "::x"]

/-- A local function of one parameter, and a call of it. -/
def Tree.localCall (name : Text) : List Tree :=
  [.list [.list [.sym name, .list [.sym "a"], .sym "a"]], Tree.call name [.sym "b", .sym "c"]]

/-- A host that knows a single definer of macros. -/
def Host.defining : Host := { Host.empty with macros := [("defmacro", true)] }

/-- The name of a binding is qualified, and another binding makes the reference to it local. A call of
a local function that is named like a definer of macros is taken for a definition. And a protected name
keeps its marker as a parameter and as the name of a local function, but not where it is referred to. -/
theorem convertRule_disagrees :
    Disagrees .bindAll "let" Tree.boundTwice .qualifying "x" [1, 0, 0] [2] ∧
    Disagrees .localFunctions "cl-flet" (Tree.localCall "defmacro")
      { Session.unset "p-" with host := .defining } "defmacro" [1, 0, 0] [2, 0] ∧
    Disagrees .lambda "lambda" Tree.protectedParameter (.unset "p-") "::x" [1, 0] [2] ∧
    Disagrees .localFunctions "cl-flet" (Tree.localCall "::f") (.unset "p-") "::f" [1, 0, 0] [2, 0] := by
  have hlocal : ∀ name, Binder .localFunctions "cl-flet" (Tree.localCall name) .body name [1, 0, 0] := by
    intro name
    have hspec : (Tree.list [.list [.sym name, .list [.sym "a"], .sym "a"]]).properList? =
        some [.list [.sym name, .list [.sym "a"], .sym "a"]] := rfl
    exact .localFunction hspec rfl rfl
  refine ⟨?_, ?_, ?_, ?_⟩
  · have hspec : (Tree.list [.list [.sym "x", .int 1], .list [.sym "::x", .int 2]]).properList? =
        some [.list [.sym "x", .int 1], .list [.sym "::x", .int 2]] := rfl
    have hplace : BindingPlace (.list [.sym "x", .int 1]) "x" [0] := .valued "x" [.int 1]
    exact disagrees_of_writesApart (.bindAll hspec rfl hplace) (.body (by decide) rfl) (by decide +kernel)
  · exact disagrees_of_writesApart (hlocal _) (.call rfl) (by decide +kernel)
  · exact disagrees_of_writesApart (.lambda ⟨rfl, by decide⟩) (.body (by decide) rfl) (by decide +kernel)
  · exact disagrees_of_writesApart (hlocal _) (.call rfl) (by decide +kernel)

end LispNamespace
