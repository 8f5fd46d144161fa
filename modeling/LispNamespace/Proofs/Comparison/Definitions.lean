import LispNamespace.Proofs.Comparison.Calls

/-!
# Comparing functions and definitions

Lambda expressions keep two runs together, and so do definitions when the comparison obeys the laws
about defined names.
-/

namespace LispNamespace

/-- A name that has been taken in is a name of the namespace from then on. -/
theorem Session.mem_of_foldl_learn {additions : List Addition} {name : Text}
    (h : name ∈ additions.map Addition.name) (s : Session) :
    name ∈ (additions.foldl Session.learn s).tables.variableNames ∨
      name ∈ (additions.foldl Session.learn s).tables.functionNames := by
  induction additions generalizing s with
  | nil => cases h
  | cons addition rest ih =>
      rw [List.map_cons, List.mem_cons] at h
      rcases h with hfirst | hrest
      -- the names that are taken in afterwards take nothing away
      · have hgrows := Session.growsTo_foldl_learn rest (s.learn addition)
        subst hfirst
        cases addition with
        | variable_ name =>
            have hmem : name ∈ (s.learn (.variable_ name)).tables.variableNames :=
              (Addition.mem_variableNames_apply _ _ _).2 (.inr rfl)
            exact .inl (hgrows.variableNames name hmem)
        | function name =>
            have hmem : name ∈ (s.learn (.function name)).tables.functionNames :=
              (Addition.mem_functionNames_apply _ _ _).2 (.inr rfl)
            exact .inr (hgrows.functionNames name hmem)
      · exact ih hrest (s.learn addition)

namespace Comparison

open Rewrite Forms

variable {C : Comparison} {walk other : Walk} [GrowingWalk walk] [GrowingWalk other]

/-! ## Lambda lists -/

section LambdaLists

variable (hC : C.Lawful) (hwalk : C.FollowsWalk walk other)

include hC hwalk

omit [GrowingWalk walk] [GrowingWalk other] in
/-- Only the default form of a specification is converted, and not what stands after it. -/
theorem follows_convertDefault {items : List Tree} (hitems : C.FormAll items) :
    C.Follows (convertDefault walk items) (convertDefault other items) fun ys zs =>
      Pointwise C.Result items ys zs ∧ suppliedName? zs = suppliedName? ys := by
  cases items with
  | nil => exact .pure ⟨.nil, rfl⟩
  | cons default more =>
      refine (hwalk default hitems.head).bind hC fun y z hdefault => ?_
      refine .pure ⟨.cons hdefault (same hC more), ?_⟩
      cases more with
      | nil => rfl
      | cons other rest => cases other <;> rfl

omit [GrowingWalk other] in
/-- Sections of a lambda list are told apart by their keywords, which no run converts. -/
theorem follows_convertParamItems (section_ : Text) {items : List Tree} (hitems : C.FormAll items) :
    C.Follows (convertParamItems walk section_ items) (convertParamItems other section_ items)
      (Pointwise C.Result items) := by
  fun_induction convertParamItems walk section_ items with
  | case1 => exact .pure .nil
  -- a marker opens the next section and binds nothing
  | case2 section_ name rest hmarker ih =>
      rw [convertParamItems.eq_2, if_pos hmarker]
      refine (ih hitems.tail).bind hC fun ys zs hrest => ?_
      exact .pure (.cons (hC.result_same _) hrest)
  | case3 section_ name rest hmarker ih =>
      rw [convertParamItems.eq_2, if_neg hmarker]
      refine (Follows.bindNames hC (hC.names_same _)).bind hC fun _ _ _ => ?_
      refine (ih hitems.tail).bind hC fun ys zs hrest => ?_
      exact .pure (.cons (hC.result_same _) hrest)
  -- the default is converted before the names of the specification are bound
  | case4 section_ variable_ more rest hsection ih =>
      rw [convertParamItems.eq_3, if_pos hsection]
      have hmore : C.FormAll more := (formAll_list hC hitems.head).tail
      refine (follows_convertDefault hC hwalk hmore).bind hC fun more₁ more₂ h => ?_
      rcases h with ⟨hspecification, hsupplied⟩
      refine (Follows.bindNames hC (hC.names_same _)).bind hC fun _ _ _ => ?_
      rw [hsupplied]
      refine (Follows.bindNames hC (hC.names_same _)).bind hC fun _ _ _ => ?_
      refine (ih hitems.tail).bind hC fun ys zs hrest => ?_
      exact .pure (.cons (hC.result_list (.cons (hC.result_same _) hspecification)) hrest)
  -- in the other sections, a list is a lambda list by itself
  | case5 section_ variable_ more rest hsection ih =>
      rw [convertParamItems.eq_3, if_neg hsection]
      refine (Follows.bindNames hC (hC.names_same _)).bind hC fun _ _ _ => ?_
      refine (ih hitems.tail).bind hC fun ys zs hrest => ?_
      exact .pure (.cons (hC.result_same _) hrest)
  | case6 section_ param rest hsym hlist ih =>
      rw [convertParamItems.eq_4 _ _ _ _ hsym hlist]
      refine (Follows.bindNames hC (hC.names_same _)).bind hC fun _ _ _ => ?_
      refine (ih hitems.tail).bind hC fun ys zs hrest => ?_
      exact .pure (.cons (hC.result_same _) hrest)

omit [GrowingWalk other] in
/-- The names of a lambda list are bound before its defaults are converted. -/
theorem follows_convertParams {params : Tree} (hparams : C.Form params) :
    C.Follows (convertParams walk params) (convertParams other params) (C.Result params) := by
  unfold convertParams
  split
  · have hitems := follows_convertParamItems hC hwalk "" (formAll_list hC hparams)
    exact hitems.bind hC fun ys zs h => .pure (hC.result_list h)
  · have hitems := follows_convertParamItems hC hwalk "" (formAll_dot hC hparams)
    exact hitems.bind hC fun ys zs h => .pure (hC.result_dotAbsent hparams h)
  · exact .pure (hC.result_dotAbsent hparams .nil)
  · have hitems := follows_convertParamItems hC hwalk "" (formAll_dot hC hparams)
    refine hitems.bind hC fun ys zs h => ?_
    refine (Follows.bindNames hC (hC.names_same _)).bind hC fun _ _ _ => ?_
    exact .pure (hC.result_dot h)
  · refine (Follows.bindNames hC (hC.names_same _)).bind hC fun _ _ _ => ?_
    exact .pure (hC.result_same params)

/-! ## Lambda expressions -/

omit [GrowingWalk walk] [GrowingWalk other] in
theorem follows_convertInteractive (head : Text) {tail : List Tree} (htail : C.FormAll tail) :
    C.Follows (convertInteractive walk head tail) (convertInteractive other head tail)
      (C.Calls head tail) := by
  unfold convertInteractive
  split
  · exact .pure (calls_same hC head [])
  · next spec modes =>
    split
    · exact .pure (calls_same hC head (spec :: modes))
    · refine (hwalk spec htail.head).bind hC fun y z h => ?_
      exact .pure ⟨_, _, rfl, rfl, .cons h (same hC modes)⟩

omit [GrowingWalk walk] [GrowingWalk other] in
/-- The interactive specification is the front of the body that is rewritten before the rest. -/
theorem follows_splitInteractive {body : List Tree} (hbody : C.FormAll body) :
    C.Follows (splitInteractive walk body) (splitInteractive other body) fun a b =>
      ∃ front, body = front ++ a.2 ∧ b.2 = a.2 ∧ Pointwise C.Result front a.1 b.1 := by
  unfold splitInteractive
  split
  · exact .pure ⟨[], rfl, rfl, .nil⟩
  · next form rest =>
    split
    · next tail htail =>
      have hform : C.FormAll tail := formAll_tailOf? hC hbody.head htail
      refine (follows_convertInteractive hC hwalk "interactive" hform).bind hC fun y z h => ?_
      rcases h with ⟨ys, zs, rfl, rfl, hall⟩
      exact .pure ⟨[form], rfl, rfl, .one (hC.result_call hbody.head (.inr rfl) htail hall)⟩
    · exact .pure ⟨[], rfl, rfl, .nil⟩

/-- Parameters and body come out in the order in which they are written, though they are not
rewritten in it. -/
theorem follows_convertLambdaTail {params : Tree} {body : List Tree}
    (hform : C.FormAll (params :: body)) :
    C.Follows (convertLambdaTail walk params body) (convertLambdaTail other params body)
      (Pointwise C.Result (params :: body)) := by
  unfold convertLambdaTail
  have hsplit := Definition.splitDeclarations_append body
  rcases heq : Definition.splitDeclarations body with ⟨kept, rest⟩
  rw [heq] at hsplit
  dsimp only at hsplit ⊢
  subst hsplit
  refine (follows_splitInteractive hC hwalk hform.tail.of_append_right).bind hC fun a b h => ?_
  rcases h with ⟨front, rfl, hrest, hfront⟩
  rw [hrest]
  -- the interactive specification has been converted outside of the frame
  refine .withFrame hC (hC.names_same []) ?_
  refine (follows_convertParams hC hwalk hform.head).bind hC fun y z hparams => ?_
  have hbody : C.FormAll a.2 := hform.tail.of_append_right.of_append_right
  refine (follows_mapM hC hwalk hbody).bind hC fun ys zs hall => ?_
  -- declarations, specification and code make up the body again
  rw [← List.append_assoc]
  exact .pure (.cons hparams (((same hC kept).append hfront).append hall))

/-- The frame of a lambda expression is opened empty, and its lambda list fills it. -/
theorem follows_convertLambda (head : Text) {tail : List Tree} (htail : C.FormAll tail) :
    C.Follows (convertLambda walk head tail) (convertLambda other head tail) (C.Calls head tail) := by
  unfold convertLambda
  split
  · exact .pure (calls_same hC head [])
  · exact .call hC (follows_convertLambdaTail hC hwalk htail)

end LambdaLists

/-! ## Defined names -/

section DefinedNames

variable (hC : C.Lawful) (hD : C.Defining)

include hC hD

/-- Sessions that learn the same names one after the other stay related. -/
theorem related_foldl_learn (additions : List Addition) {s t : Session} (h : C.Related s t)
    (hcounts : C.Counts (additions.foldl Session.learn s)) :
    C.Related (additions.foldl Session.learn s) (additions.foldl Session.learn t) := by
  induction additions generalizing s t with
  | nil => exact h
  | cons addition rest ih =>
      have hfirst : C.Counts (s.learn addition) :=
        hC.counts (Session.growsTo_foldl_learn rest _) hcounts
      exact ih (hD.learn addition h hfirst) hcounts

omit hC in
/-- Both runs find the flag for a final name set, or none of them does. -/
theorem follows_takeNameIsFinal :
    C.Follows takeNameIsFinal takeNameIsFinal fun a b => b = a := by
  intro s t hst _ a s' hrun _
  cases hrun
  exact ⟨t.nameIsFinal, _, rfl, hD.nameIsFinal hst, hD.clear hst⟩

/-- The name counts as taken in only once it has been registered, so the result is looked at in the
session after that. -/
theorem agree_register (learn : Register) [Registers learn] {name : Text} {s t : Session}
    (hst : C.Related s t) (hescaped : s.isEscaped name = false) :
    C.Agree s t (register (learn name) >>= fun _ => pure (Tree.sym (s.qualified name)))
      (register (learn name) >>= fun _ => pure (Tree.sym (t.qualified name)))
      (C.Result (.sym name)) := by
  rcases Registers.tables_eq learn name with ⟨additions, hname, hlearn⟩
  intro a s' hrun hs'
  have hs : s' = additions.foldl Session.learn s := by
    rw [← hlearn]
    cases hrun
    rfl
  have ha : a = .sym (s'.qualified name) := by
    cases hrun
    rfl
  -- a name is qualified by the context, which registering leaves as it is
  have ht : ({ t with tables := learn name t.tables } : Session).qualified name =
      t.qualified name := rfl
  rw [hlearn] at ht
  have hrelated : C.Related s' (additions.foldl Session.learn t) := by
    rw [hs] at hs' ⊢
    exact related_foldl_learn hC hD additions hst hs'
  have hescaped' : s'.isEscaped name = false := by
    cases hrun
    exact hescaped
  have hmem : name ∈ s'.tables.variableNames ∨ name ∈ s'.tables.functionNames :=
    hs ▸ Session.mem_of_foldl_learn hname s
  refine ⟨.sym (t.qualified name), additions.foldl Session.learn t, ?_, ?_, hrelated⟩
  · rw [← hlearn t]
    rfl
  · rw [ha, ← ht]
    exact hD.result_defined hrelated hs' hescaped' hmem

/-- The name of a definition is qualified alike, and both sessions learn it. -/
theorem follows_convertDefinedName (learn : Register) [Registers learn] (name : Tree) :
    C.Follows (convertDefinedName learn name) (convertDefinedName learn name) (C.Result name) := by
  unfold convertDefinedName
  cases name with
  | sym name =>
      refine (follows_takeNameIsFinal hD).bind hC fun a b hab => ?_
      rw [hab]
      -- the name that an expansion defines has its final form already
      split
      · exact .pure (hC.result_same _)
      · refine .get fun s t hst hs => ?_
        rw [isEscaped_eq hC hst]
        split
        · next hescaped =>
          exact Follows.pure (result_stripped hC hst hs hescaped) s t hst hs
        · next hescaped => exact agree_register hC hD learn hst (Bool.eq_false_iff.2 hescaped)
  | _ =>
      refine (follows_takeNameIsFinal hD).bind hC fun a b hab => ?_
      rw [hab]
      split <;> exact .pure (hC.result_same _)

end DefinedNames

/-! ## Definitions -/

section Definitions

variable (hC : C.Lawful) (hD : C.Defining) (hwalk : C.FollowsWalk walk other)

include hC hD hwalk

omit [GrowingWalk other] in
/-- So is a quoted name; any other datum in its place is walked. -/
theorem follows_convertQuotedName (learn : Register) [Registers learn] {name : Tree}
    (hname : C.Form name) :
    C.Follows (convertQuotedName walk learn name) (convertQuotedName other learn name)
      (C.Result name) := by
  unfold convertQuotedName
  split
  · next quoted hquoted =>
    refine (follows_convertDefinedName hC hD learn (.sym quoted)).bind hC fun y z h => ?_
    exact .pure (hD.result_quote hname hquoted h)
  · exact (follows_takeNameIsFinal hD).bind hC fun _ _ _ => hwalk name hname

omit [GrowingWalk other] in
theorem follows_convertVariable (head : Text) {tail : List Tree} (htail : C.FormAll tail) :
    C.Follows (convertVariable walk head tail) (convertVariable other head tail)
      (C.Calls head tail) := by
  unfold convertVariable
  split
  · exact .pure (calls_same hC head [])
  · next name rest =>
    refine (follows_convertDefinedName hC hD _ name).bind hC fun y z hname => ?_
    refine (follows_mapM hC hwalk htail.tail).bind hC fun ys zs hrest => ?_
    exact .pure ⟨_, _, rfl, rfl, .cons hname hrest⟩

theorem follows_convertFunction (head : Text) {tail : List Tree} (htail : C.FormAll tail) :
    C.Follows (convertFunction walk head tail) (convertFunction other head tail)
      (C.Calls head tail) := by
  unfold convertFunction
  match tail with
  | [] => exact .pure (calls_same hC head [])
  | [name] =>
      refine (follows_convertDefinedName hC hD _ name).bind hC fun y z hname => ?_
      exact .pure ⟨_, _, rfl, rfl, .one hname⟩
  | name :: params :: body =>
      refine (follows_convertDefinedName hC hD _ name).bind hC fun y z hname => ?_
      refine (follows_convertLambdaTail hC hwalk htail.tail).bind hC fun ys zs hrest => ?_
      exact .pure ⟨_, _, rfl, rfl, .cons hname hrest⟩

omit [GrowingWalk other] in
/-- An alias defines a name that is written as a quoted symbol, if it is written so. -/
theorem follows_convertAliasWith (learn : Register) [Registers learn] (head : Text)
    {tail : List Tree} (htail : C.FormAll tail) :
    C.Follows (convertAliasWith learn walk head tail) (convertAliasWith learn other head tail)
      (C.Calls head tail) := by
  unfold convertAliasWith
  split
  · exact .pure (calls_same hC head [])
  · next name rest =>
    refine (follows_convertQuotedName hC hD hwalk learn htail.head).bind hC fun y z hname => ?_
    refine (follows_mapM hC hwalk htail.tail).bind hC fun ys zs hrest => ?_
    exact .pure ⟨_, _, rfl, rfl, .cons hname hrest⟩

theorem follows_convertMinorMode (head : Text) {tail : List Tree} (htail : C.FormAll tail) :
    C.Follows (convertMinorMode walk head tail) (convertMinorMode other head tail)
      (C.Calls head tail) := by
  unfold convertMinorMode
  split
  · exact .pure (calls_same hC head [])
  · next name args =>
    refine (follows_convertDefinedName hC hD _ name).bind hC fun y z hname => ?_
    have hargs := follows_convertByGrammar hC hwalk head head minorModeGrammar htail.tail
    refine hargs.bind hC fun ys zs hrest => ?_
    exact .pure ⟨_, _, rfl, rfl, .cons hname hrest⟩

/-- The mode, its companion names and its parent are references of their own, and the rest goes by
the grammar of modes. -/
theorem follows_convertDerivedMode (head : Text) {tail : List Tree} (htail : C.FormAll tail) :
    C.Follows (convertDerivedMode walk head tail) (convertDerivedMode other head tail)
      (C.Calls head tail) := by
  unfold convertDerivedMode
  match tail with
  | [] => exact .pure (calls_same hC head [])
  | [name] =>
      refine (follows_convertDefinedName hC hD _ name).bind hC fun y z hname => ?_
      exact .pure ⟨_, _, rfl, rfl, .one hname⟩
  | name :: parent :: args =>
      refine (follows_convertDefinedName hC hD _ name).bind hC fun y z hname => ?_
      refine (follows_convertFunctionName hC parent).bind hC fun y' z' hparent => ?_
      have hargs := follows_convertByGrammar hC hwalk head head derivedModeGrammar htail.tail.tail
      refine hargs.bind hC fun ys zs hrest => ?_
      exact .pure ⟨_, _, rfl, rfl, .cons hname (.cons hparent hrest)⟩

theorem follows_convertGlobalizedMode (head : Text) {tail : List Tree} (htail : C.FormAll tail) :
    C.Follows (convertGlobalizedMode walk head tail) (convertGlobalizedMode other head tail)
      (C.Calls head tail) := by
  unfold convertGlobalizedMode
  split
  · exact .pure (calls_same hC head [])
  · next name rest =>
    refine (follows_convertDefinedName hC hD _ name).bind hC fun y z hname => ?_
    -- the two modes after the name are functions; the grammar is for what follows them
    have hfunctions : C.Follows ((rest.take 2).mapM convertFunctionName)
        ((rest.take 2).mapM convertFunctionName) (Pointwise C.Result (rest.take 2)) :=
      .mapM hC _ fun function _ => follows_convertFunctionName hC function
    refine hfunctions.bind hC fun ys zs hfront => ?_
    have hdrop : C.FormAll (rest.drop 2) := fun item hitem => htail.tail item (List.mem_of_mem_drop hitem)
    refine (follows_convertByGrammar hC hwalk head head globalizedModeGrammar hdrop).bind hC
      fun ys' zs' hargs => ?_
    refine .pure ⟨_, _, rfl, rfl, .cons hname ?_⟩
    rw [← List.take_append_drop 2 rest]
    exact hfront.append hargs

end Definitions

end Comparison

end LispNamespace
