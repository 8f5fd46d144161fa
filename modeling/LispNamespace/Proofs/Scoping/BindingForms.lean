import LispNamespace.Proofs.Scoping.Sequences

/-!
# Sequential bindings are nested bindings

A form that binds variables, patterns or functions in order comes out as forms with a single binding
each do that are put inside one another: with the same bindings and the same body, the same tables, or
the same fault. Of the bindings of functions only those are meant that have a name and parameters or
an expression: the others bind no name in order, although the body sees their names as local.
-/

namespace LispNamespace

open Rewrite Forms

/-! ## Forms that bind in order -/

/-- The heads of forms that bind in order, each with the head of a form that binds at once. -/
def sequentialHeads : List (Text × Text) :=
  [("let*", "let"), ("lexical-let*", "let"), ("pcase-let*", "pcase-let"), ("cl-flet*", "cl-flet")]

/-- Whether a binding of a local function has a name, and parameters or an expression. -/
def Tree.isFunctionBinding : Tree → Bool
  | .list (.sym _ :: _ :: _) => true
  | _ => false

/-- Forms that bind in order are treated like forms inside one another: what is done with each binding
is the same. -/
structure SequentialForm (rule : FormRule) (head nested : Text) (bindings : List Tree)
    (one : Tree → Rewrite (Tree × List Text)) : Prop where
  growing : ∀ binding, Growing (one binding)
  nests : ∀ binding ∈ bindings, NestsBy one nested binding
  corresponds : ∀ (body : List Tree) (s : Session),
    Corresponds (fun r : List Tree × List Tree => Tree.call head (Tree.ofList r.1 :: r.2))
      ((convertInOrder one bindings body).runFrom (s.pushFrame []))
      ((rule.convert convert head (.list bindings :: body)).runFrom s)

/-- What is known by its head as a form of the rule does what the rule does. -/
theorem nestsBy_of_matches {one : Tree → Rewrite (Tree × List Text)} {nested : Text}
    (rule : FormRule) {binding : Tree} (hrule : FormRule.ofHead? nested = some rule)
    (h : ∀ inner : List Tree, Matches .form
      (bindAround one binding (inner.mapM convert) >>= fun r =>
        pure (Tree.call nested (.list [r.1] :: r.2)))
      (rule.convert convert nested (.list [binding] :: inner))) : NestsBy one nested binding := by
  intro inner s t hst hescaped hfunction
  have happroach : t.approach nested = .rule rule :=
    Session.approach_eq_rule_iff.2 ⟨hescaped, hfunction, hrule⟩
  have htrace : s.SameScope .form (t.trace (.specialForm t.context.qualifier nested)) :=
    hst.update { hst.toSameKnowledge with } rfl rfl
  have hsame := (h inner).corresponds htrace
  rw [runFrom_bind_pure] at hsame
  have hrule := Corresponds.map_left_iff.1 hsame
  rwa [convert_eq, runFrom_convert_rule happroach]

/-! ## Variables -/

/-- What is done with a binding of a variable. -/
def convertVariableBinding (binding : Tree) : Rewrite (Tree × List Text) := do
  let result ← convertBinding convert binding
  return (result.1, result.2.toList)

instance {D : Discipline} [D.Lawful] [KeepsWalk D convert] (scope : Scope) (binding : Tree) :
    Keeps D scope (convertVariableBinding binding) := by
  unfold convertVariableBinding
  infer_instance

instance (scope : Scope) (binding : Tree) : Indifferent scope (convertVariableBinding binding) := by
  unfold convertVariableBinding
  infer_instance

/-- A `let` with one binding treats it, and then its body in a frame with the name. -/
theorem convertLet_single (binding : Tree) (inner : List Tree) :
    convertLet convert "let" (.list [binding] :: inner) =
      bindAround convertVariableBinding binding (inner.mapM convert) >>= fun r =>
        pure (Tree.call "let" (.list [r.1] :: r.2)) := by
  simp only [convertLet, bindAround, convertVariableBinding, Tree.properList?, List.mapM_cons,
    List.mapM_nil, bind_assoc, pure_bind]
  refine bind_congr fun result => ?_
  -- the binding has introduced a name or none
  rcases result with ⟨binding, _ | name⟩ <;> rfl

/-- A `let*` binds in order, in one frame. -/
theorem convertLetStar_eq (head : Text) (bindings body : List Tree) :
    convertLetStar convert head (.list bindings :: body) =
      withFrame [] (convertInOrder convertVariableBinding bindings body >>= fun r =>
        pure (Tree.call head (Tree.ofList r.1 :: r.2))) := by
  have hbindings := bindInOrder_bind_pure convertVariableBinding bindings
  simp only [convertVariableBinding, bind_assoc, pure_bind] at hbindings
  simp only [convertLetStar, convertInOrder, Tree.properList?, ← hbindings, bind_assoc, pure_bind]

/-- So `let*` and its like are `let` forms inside one another. -/
theorem sequentialForm_variables (head : Text) (bindings : List Tree) :
    SequentialForm .bindInOrder head "let" bindings convertVariableBinding where
  growing := inferInstance
  nests binding _ := by
    refine nestsBy_of_matches .bindAll rfl fun inner => ?_
    simp only [FormRule.convert]
    rw [convertLet_single]
    exact (inferInstance : Indifferent .form _).matches_self
  corresponds body s := by
    simp only [FormRule.convert]
    rw [convertLetStar_eq, runFrom_withFrame, runFrom_bind_pure]
    exact ⟨rfl, { Session.SameKnowledge.refl _ with }⟩

/-! ## Patterns -/

instance (scope : Scope) {D : Discipline} [D.Lawful] [KeepsWalk D convert] (binding : Tree) :
    Keeps D scope (convertPatternBinding convert false binding) := by
  unfold convertPatternBinding
  simp only [Bool.false_eq_true, if_false]
  split <;> infer_instance

/-- A pattern in order is treated like one among others, and then its names are bound. -/
theorem convertPatternBinding_true (binding : Tree) :
    convertPatternBinding convert true binding =
      convertPatternBinding convert false binding >>= fun bound =>
        bindNames bound.2 >>= fun _ => pure bound := by
  unfold convertPatternBinding
  simp only [Bool.false_eq_true, if_false, if_true]
  split
  · simp only [bind_assoc, pure_bind]
  -- what is no binding of a pattern binds nothing
  · refine Rewrite.ext fun s => ?_
    rw [pure_bind, runFrom_bindNames, Session.growFrame_nil]

/-- A `pcase-let` with one binding treats it, and then its body in a frame with the names of the
pattern. -/
theorem convertPatternLet_single (binding : Tree) (inner : List Tree) :
    convertPatternLet convert "pcase-let" (.list [binding] :: inner) =
      withFrame [] (bindAround (convertPatternBinding convert false) binding (inner.mapM convert)
        >>= fun r => pure (Tree.call "pcase-let" (.list [r.1] :: r.2))) := by
  have hhead : (("pcase-let" : Text) == "pcase-let*") = false := by decide
  simp only [convertPatternLet, bindAround, Tree.properList?, hhead, List.mapM_cons, List.mapM_nil,
    bind_assoc, pure_bind, List.flatMap_cons, List.flatMap_nil, List.append_nil]
  rfl

/-- A `pcase-let*` binds in order, and has the names of all patterns in a frame for the body. -/
theorem convertPatternLet_sequential (bindings body : List Tree) :
    convertPatternLet convert "pcase-let*" (.list bindings :: body) =
      withFrame [] ((bindInOrder (convertPatternBinding convert false) bindings >>= fun bound =>
        withFrame (bound.flatMap (·.2)) (body.mapM convert) >>= fun body =>
          pure (bound.map (·.1), body)) >>= fun r =>
        pure (Tree.call "pcase-let*" (Tree.ofList r.1 :: r.2))) := by
  have hhead : (("pcase-let*" : Text) == "pcase-let*") = true := by decide
  simp only [convertPatternLet, bindInOrder, Tree.properList?, hhead, ← convertPatternBinding_true,
    bind_assoc, pure_bind]

/-- So `pcase-let*` is `pcase-let` forms inside one another, although its names are bound twice. -/
theorem sequentialForm_patterns (bindings : List Tree) :
    SequentialForm .patternLet "pcase-let*" "pcase-let" bindings
      (convertPatternBinding convert false) where
  growing := inferInstance
  nests binding _ := by
    refine nestsBy_of_matches .patternLet rfl fun inner => ?_
    simp only [FormRule.convert]
    rw [convertPatternLet_single]
    unfold bindAround
    exact matches_withFrame_nil _
  corresponds body s := by
    have hbody : Corresponds id
        ((convertInOrder (convertPatternBinding convert false) bindings body).runFrom (s.pushFrame []))
        _ := corresponds_bodyAgain bindings body (List.cons_ne_nil _ _)
    simp only [FormRule.convert]
    rw [convertPatternLet_sequential, runFrom_withFrame, runFrom_bind_pure]
    exact (hbody.map fun r => Tree.call "pcase-let*" (Tree.ofList r.1 :: r.2)).popFrame

/-! ## Functions -/

/-- Functions that are defined at once bind no names in the frame around them. -/
instance {D : Discipline} [D.Lawful] [KeepsWalk D convert] (scope : Scope) (binding : Tree) :
    Keeps D scope (convertLocalFunction convert false false binding) := by
  unfold convertLocalFunction
  simp only [Bool.false_eq_true, if_false]
  split <;> infer_instance

/-- What is done with the definition of a function. -/
def convertFunctionBinding (binding : Tree) : Rewrite (Tree × List Text) := do
  let result ← convertLocalFunction convert false false binding
  return (result, localFunctionNames [binding])

instance {D : Discipline} [D.Lawful] [KeepsWalk D convert] (scope : Scope) (binding : Tree) :
    Keeps D scope (convertFunctionBinding binding) := by
  unfold convertFunctionBinding
  infer_instance

instance (scope : Scope) (binding : Tree) : Indifferent scope (convertFunctionBinding binding) := by
  unfold convertFunctionBinding
  infer_instance

/-- A function in order is treated like one among others, and then its name is bound. -/
theorem convertLocalFunction_true {binding : Tree} (h : binding.isFunctionBinding = true) :
    convertLocalFunction convert false true binding =
      convertFunctionBinding binding >>= fun bound =>
        bindNames bound.2 >>= fun _ => pure bound.1 := by
  obtain ⟨name, params, body, rfl⟩ :
      ∃ name params body, binding = .list (.sym name :: params :: body) := by
    unfold Tree.isFunctionBinding at h
    split at h
    · exact ⟨_, _, _, rfl⟩
    · cases h
  have hnames : localFunctionNames [.list (.sym name :: params :: body)] = [name] := rfl
  simp only [convertFunctionBinding, convertLocalFunction, hnames, Bool.false_eq_true, if_false,
    if_true, bind_assoc, pure_bind]
  -- an expression, or parameters and a body
  cases (body.isEmpty && !false) <;>
    simp only [Bool.false_eq_true, if_false, if_true, bind_assoc, pure_bind]

/-- Each binding shows the name of its function. -/
theorem localFunctionNames_eq_flatMap (bindings : List Tree) :
    bindings.flatMap (fun binding => localFunctionNames [binding]) = localFunctionNames bindings := by
  induction bindings with
  | nil => rfl
  | cons binding bindings ih =>
      have happend : localFunctionNames ([binding] ++ bindings) =
          localFunctionNames [binding] ++ localFunctionNames bindings := List.filterMap_append
      rw [List.flatMap_cons, ih, ← happend]
      rfl

/-- A `cl-flet` with one binding treats the function, and then its body in a frame with the name. -/
theorem convertLocalFunctions_single (binding : Tree) (inner : List Tree) :
    convertLocalFunctions convert "cl-flet" (.list [binding] :: inner) =
      withFrame [] (convertLocalFunction convert false false binding >>= fun b => pure [b]) >>=
        fun results => withFrame (localFunctionNames [binding]) (inner.mapM convert) >>= fun body =>
          pure (Tree.call "cl-flet" (Tree.ofList results :: body)) := by
  have hlabels : (("cl-flet" : Text) == "cl-labels") = false := by decide
  have hmacrolet : (("cl-flet" : Text) == "cl-macrolet") = false := by decide
  have hstar : (("cl-flet" : Text) == "cl-flet*") = false := by decide
  simp only [convertLocalFunctions, Tree.properList?, hlabels, hmacrolet, hstar, List.mapM_cons,
    List.mapM_nil, pure_bind]
  rfl

/-- This is a binding around a body like that of a variable. -/
theorem bindAround_functions (binding : Tree) (inner : List Tree) :
    (bindAround convertFunctionBinding binding (inner.mapM convert) >>= fun r =>
        pure (Tree.call "cl-flet" (.list [r.1] :: r.2))) =
      (convertLocalFunction convert false false binding >>= fun b => pure [b]) >>=
        fun results => withFrame (localFunctionNames [binding]) (inner.mapM convert) >>= fun body =>
          pure (Tree.call "cl-flet" (Tree.ofList results :: body)) := by
  simp only [bindAround, convertFunctionBinding, bind_assoc, pure_bind]
  rfl

/-- A `cl-flet*` binds in order, and has the names of all functions in a frame for the body. -/
theorem convertLocalFunctions_sequential {bindings : List Tree}
    (hshape : ∀ binding ∈ bindings, binding.isFunctionBinding = true) (body : List Tree) :
    convertLocalFunctions convert "cl-flet*" (.list bindings :: body) =
      (withFrame [] (bindInOrder convertFunctionBinding bindings >>= fun bound =>
          pure (bound.map (·.1))) >>= fun results =>
        withFrame (localFunctionNames bindings) (body.mapM convert) >>= fun body =>
          pure (results, body)) >>= fun r =>
        pure (Tree.call "cl-flet*" (Tree.ofList r.1 :: r.2)) := by
  have hlabels : (("cl-flet*" : Text) == "cl-labels") = false := by decide
  have hmacrolet : (("cl-flet*" : Text) == "cl-macrolet") = false := by decide
  have hstar : (("cl-flet*" : Text) == "cl-flet*") = true := by decide
  have hbindings : bindings.mapM (convertLocalFunction convert false true) = _ :=
    mapM_congr fun binding hbinding => convertLocalFunction_true (hshape binding hbinding)
  rw [bindInOrder_bind_pure, ← hbindings]
  simp only [convertLocalFunctions, Tree.properList?, hlabels, hmacrolet, hstar, bind_assoc, pure_bind]
  rfl

/-- A function has the name that its binding shows. -/
theorem names_bindInOrder_functions (bindings : List Tree) {s t : Session}
    {bound : List (Tree × List Text)}
    (hrun : (bindInOrder convertFunctionBinding bindings).runFrom s = (.ok bound, t)) :
    bound.flatMap (·.2) = localFunctionNames bindings := by
  rw [← localFunctionNames_eq_flatMap]
  refine names_bindInOrder (fun binding s t result hresult => ?_) hrun
  rcases runFrom_bind_ok.1 hresult with ⟨_, _, -, hpure⟩
  rcases runFrom_pure_ok.1 hpure with ⟨rfl, -⟩
  rfl

/-- So `cl-flet*` is `cl-flet` forms inside one another, as long as all bindings have a name to
bind. -/
theorem sequentialForm_functions {bindings : List Tree}
    (hshape : ∀ binding ∈ bindings, binding.isFunctionBinding = true) :
    SequentialForm .localFunctions "cl-flet*" "cl-flet" bindings convertFunctionBinding where
  growing := inferInstance
  nests binding _ := by
    refine nestsBy_of_matches .localFunctions rfl fun inner => ?_
    simp only [FormRule.convert]
    -- the one difference is the frame in which the function is treated
    rw [convertLocalFunctions_single, bindAround_functions]
    exact (matches_withFrame_nil _).bind fun _ => (inferInstance : Indifferent .form _).matches_self
  corresponds body s := by
    have hbody := corresponds_bodyApart (names_bindInOrder_functions bindings) body s
    simp only [FormRule.convert]
    rw [convertLocalFunctions_sequential hshape, runFrom_bind_pure]
    exact hbody.map fun r => Tree.call "cl-flet*" (Tree.ofList r.1 :: r.2)

/-! ## Sequential and nested forms -/

/-- What a form of the first head with the given number of bindings more than one has come to in the
first run is collected from what forms of the second head inside one another have come to in the
second run: the same bindings and the same body, or the same fault. In the end only the reports
differ. -/
structure CollectsFrom (head nested : Text) (more : Nat) (x y : Except Fault Tree × Session) : Prop where
  result : (∃ fault, x.1 = .error fault ∧ y.1 = .error fault) ∨
    ∃ (binding : Tree) (rest body : List Tree), rest.length = more ∧
      x.1 = .ok (.call head (.list (binding :: rest) :: body)) ∧
      y.1 = .ok (.call nested (.list [binding] :: Tree.nest nested rest body))
  session : y.2 = { x.2 with journal := y.2.journal }

/-- Two runs that correspond to one in which bindings are treated in order. -/
theorem CollectsFrom.of_corresponds {head nested : Text} {more : Nat}
    {z : Except Fault (List Tree × List Tree) × Session} {x y : Except Fault Tree × Session}
    (hx : Corresponds (fun r => Tree.call head (Tree.ofList r.1 :: r.2)) z x)
    (hy : Corresponds (fun r => Tree.nest nested r.1 r.2) z (y.1.map fun form => [form], y.2))
    (hlength : ∀ r t, z = (.ok r, t) → r.1.length = more + 1) (hframes : y.2.frames = x.2.frames) :
    CollectsFrom head nested more x y where
  result := by
    have hresult := hy.result
    rcases z with ⟨fault | ⟨results, body⟩, t⟩
    -- the same fault ends both runs
    · rcases y with ⟨fault' | form, u⟩
      · cases hresult
        exact .inl ⟨fault, hx.result, rfl⟩
      · cases hresult
    -- there is a binding for every result
    · rcases results with _ | ⟨binding, rest⟩
      · cases hlength _ t rfl
      · rcases y with ⟨fault' | form, u⟩
        · cases hresult
        · cases hresult
          exact .inr ⟨binding, rest, body, Nat.succ.inj (hlength _ t rfl), hx.result, rfl⟩
  session := (hx.session.symm.trans hy.session).eq_of_frames hframes

/-- A function is one later on, too, wherever its name is not local. -/
theorem Session.isFunction_of_growsTo {s t last : Session} {name : Text} (hgrows : s.GrowsTo t)
    (hlast : t.SameKnowledge last) (hs : s.isFunction name = true)
    (hlocal : last.isShadowed name = false) : last.isFunction name = true := by
  have hmacros : ∀ other, s.host.isMacroName other = true → t.host.isMacroName other = true :=
    fun _ => hgrows.isMacroName
  unfold Session.isFunction Session.isFree Session.asksHost Session.qualified at hs ⊢
  unfold Host.isFunctionBound at hs ⊢
  rw [hlocal, hlast.tables, hlast.context, hlast.host, hgrows.context, hgrows.hostFunctions]
  simp only [Bool.and_eq_true, Bool.or_eq_true, List.contains_iff_mem, Bool.not_false,
    Bool.and_true] at hs ⊢
  rcases hs with ⟨⟨hkeyword, -⟩, hknown⟩
  refine ⟨hkeyword, hknown.imp (hgrows.functionNames name) fun hhost => ?_⟩
  exact ⟨hhost.1, hhost.2.imp_right (hmacros _)⟩

variable {rule : FormRule} {head nested : Text}

/-- A form that binds in order comes out as the forms inside one another whose bindings are treated
alike, if their head is not taken by a function in the end. -/
theorem SequentialForm.collects {binding : Tree} {rest : List Tree}
    {one : Tree → Rewrite (Tree × List Text)}
    (h : SequentialForm rule head nested (binding :: rest) one) (body : List Tree) {s : Session}
    (hescaped : s.isEscaped nested = false)
    (hfunction : ((rule.convert convert head (.list (binding :: rest) :: body)).runFrom s).2.isFunction
      nested = false) :
    CollectsFrom head nested rest.length
      ((rule.convert convert head (.list (binding :: rest) :: body)).runFrom s)
      ((convert (.call nested (.list [binding] :: Tree.nest nested rest body))).runFrom s) := by
  have hgrowing := h.growing
  have hstar := h.corresponds body s
  -- whole forms leave the frames as they are
  have hframes : ∀ (step : Rewrite Tree) [Keeps growth .form step],
      (step.runFrom s).2.frames = s.frames := fun step _ => (steps_runFrom growth .form step s).2
  have hlast := hframes (rule.convert convert head (.list (binding :: rest) :: body))
  have hnever : ∀ u : Session, (s.pushFrame []).GrowsTo u →
      u.GrowsTo ((convertInOrder one (binding :: rest) body).runFrom (s.pushFrame [])).2 →
      u.isFunction nested = false := by
    intro u hbefore hafter
    refine Bool.eq_false_iff.2 fun hu => Bool.eq_false_iff.1 hfunction ?_
    refine Session.isFunction_of_growsTo hafter hstar.session hu ?_
    rw [Session.isShadowed_congr hlast]
    -- what is local around the form has been local all along
    refine Bool.eq_false_iff.2 fun hlocal => ?_
    have hshadowed := hbefore.shadowed nested hlocal
    unfold Session.isFunction Session.isFree at hu
    rw [hshadowed, Bool.not_true, Bool.and_false, Bool.false_and] at hu
    cases hu
  have hscope : (s.pushFrame []).SameScope .form s :=
    ((Session.SameScope.refl s).pushFrame_right [] nofun).symm
  have hnest := corresponds_nest body h.nests hscope (List.cons_ne_nil _ _) hescaped hnever
  rw [mapM_convert_nest, runFrom_bind_pure] at hnest
  refine .of_corresponds hstar hnest (fun r t hrun => length_of_convertInOrder hrun) ?_
  exact (hframes _).trans hlast.symm

/-- A form that binds variables, patterns or functions in order comes to what can be collected from forms
inside one another with a single binding each, whatever the session, the bindings and the body. The
rewritten bindings, the rewritten body and the tables in the end are the same, and so is the fault where
there is one. The head of the inner forms must not carry the protection marker, and not be a function
of the namespace: as no name is ever taken out of the tables, one that is no function in the end has
been none at any point. Local functions have a name, and parameters or an expression. -/
theorem convertRule_nests (hhead : (head, nested) ∈ sequentialHeads)
    (hrule : FormRule.ofHead? head = some rule) (s : Session) (binding : Tree) (rest body : List Tree)
    (hshape : nested = "cl-flet" → ∀ b ∈ binding :: rest, b.isFunctionBinding = true)
    (hescaped : s.isEscaped nested = false)
    (hfunction : ((rule.convert convert head (.list (binding :: rest) :: body)).runFrom s).2.isFunction
      nested = false) :
    CollectsFrom head nested rest.length
      ((rule.convert convert head (.list (binding :: rest) :: body)).runFrom s)
      ((convert (.call nested (.list [binding] :: Tree.nest nested rest body))).runFrom s) := by
  have hrules : ∀ other, FormRule.ofHead? head = some other → rule = other :=
    fun other hother => Option.some.inj (hrule.symm.trans hother)
  simp only [sequentialHeads, List.mem_cons, List.not_mem_nil, or_false, Prod.mk.injEq] at hhead
  rcases hhead with ⟨rfl, rfl⟩ | ⟨rfl, rfl⟩ | ⟨rfl, rfl⟩ | ⟨rfl, rfl⟩
  · cases hrules .bindInOrder rfl
    exact (sequentialForm_variables "let*" (binding :: rest)).collects body hescaped hfunction
  · cases hrules .bindInOrder rfl
    exact (sequentialForm_variables "lexical-let*" (binding :: rest)).collects body hescaped hfunction
  · cases hrules .patternLet rfl
    exact (sequentialForm_patterns (binding :: rest)).collects body hescaped hfunction
  · cases hrules .localFunctions rfl
    exact (sequentialForm_functions (hshape rfl)).collects body hescaped hfunction

/-- A binding of a variable whose value defines a variable of the same name. -/
def Tree.definingBinding (name : Text) : Tree := .list [.sym name, .call "defvar" [.sym name]]

/-- The first binding defines a variable of the namespace, but its name is local to the second one and to
the body. -/
theorem convertRule_nests_variables :
    ∃ x y, (FormRule.bindInOrder.convert convert "let*"
        [.list [.definingBinding "x", .list [.sym "y", .sym "x"]], .sym "x"]).runFrom (.unset "p-") = x ∧
      (convert (.call "let" [.list [.definingBinding "x"],
        .call "let" [.list [.list [.sym "y", .sym "x"]], .sym "x"]])).runFrom (.unset "p-") = y ∧
      x.2.isFunction "let" = false ∧
      x.1 = .ok (.call "let*" [.list [.list [.sym "x", .call "defvar" [.sym "p-x"]],
        .list [.sym "y", .sym "x"]], .sym "x"]) ∧
      CollectsFrom "let*" "let" 1 x y := by
  have hhead : (("let*", "let") : Text × Text) ∈ sequentialHeads := List.mem_cons_self ..
  have hfunction : Session.isFunction ((FormRule.bindInOrder.convert convert "let*"
      [.list [.definingBinding "x", .list [.sym "y", .sym "x"]], .sym "x"]).runFrom (.unset "p-")).2
      "let" = false := by decide +kernel
  exact ⟨_, _, rfl, rfl, hfunction, rfl, convertRule_nests hhead rfl (.unset "p-")
    (.definingBinding "x") [.list [.sym "y", .sym "x"]] [.sym "x"] nofun (by decide) hfunction⟩

end LispNamespace
