import LispNamespace.Proofs.Binding.Heads
import LispNamespace.Proofs.LambdaLists

/-!
# Parameters and bodies of functions

A parameter that is a plain symbol stays where it is in its lambda list and is local in the body. The
forms of the body stay in their order, behind the documentation and the declarations.
-/

namespace LispNamespace

open Rewrite Forms

/-! ## Places in lists -/

/-- What stands in a list of two parts stands in the one or in the other. -/
theorem getElem?_append_cases {α : Type} {front rest : List α} {j : Nat} {a : α}
    (h : (front ++ rest)[j]? = some a) :
    front[j]? = some a ∨ ∃ k, j = front.length + k ∧ rest[k]? = some a := by
  rcases Nat.lt_or_ge j front.length with hlt | hge
  · rw [List.getElem?_append_left hlt] at h
    exact .inl h
  · rw [List.getElem?_append_right hge] at h
    exact .inr ⟨j - front.length, by omega, h⟩

/-- What stands in the first part of a list stands there also when another part follows. -/
theorem getElem?_append_of_front {α : Type} {front : List α} {j : Nat} {a : α} (h : front[j]? = some a)
    (rest : List α) : (front ++ rest)[j]? = some a :=
  (List.getElem?_append_left (List.getElem?_eq_some_iff.1 h).1).trans h

theorem getElem?_append_add {α : Type} (front rest : List α) (k : Nat) :
    (front ++ rest)[front.length + k]? = rest[k]? := by
  rw [List.getElem?_append_right (Nat.le_add_right ..), Nat.add_sub_cancel_left]

/-! ## Plain parameters -/

/-- A lambda list has a symbol that marks no section as its element of the given number. -/
structure IsParameter (params : Tree) (name : Text) (i : Nat) : Prop where
  element : params.children[i]? = some (.sym name)
  notMarker : isSectionMarker name = false

/-- A name that the innermost frame binds is no name of the namespace. -/
theorem Session.Binds.isShadowed {s : Session} {names : List Text} {outer : List (List Text)}
    (h : s.Binds names outer) {name : Text} (hname : name ∈ names) : s.isShadowed name = true := by
  rcases h with ⟨frame, hframes, hframe⟩
  unfold Session.isShadowed
  rw [hframes, List.any_cons, List.contains_iff_mem.2 ((hframe name).2 hname), Bool.true_or]

theorem Session.Binds.of_frames {s : Session} {frame : List Text} {outer : List (List Text)}
    (h : s.frames = frame :: outer) : s.Binds frame outer := ⟨frame, h, fun _ => Iff.rfl⟩

/-- A parameter among the elements of a lambda list stays and is bound. -/
theorem parameter_of_convertParamItems {section_ : Text} {items results : List Tree} {s s' : Session}
    {bound : List Text} {outer : List (List Text)} (hs : s.Binds bound outer)
    (hrun : (convertParamItems convert section_ items).runFrom s = (.ok results, s')) {i : Nat}
    {name : Text} (hi : items[i]? = some (.sym name)) (hmarker : isSectionMarker name = false) :
    results[i]? = some (.sym name) ∧ s'.isShadowed name = true := by
  induction items generalizing section_ bound s results i with
  | nil => cases hi
  | cons param items ih =>
      rcases LambdaList.runFrom_convertParamItems_cons hs hrun with
        ⟨param', t, rest, rfl, -, ht, hrest, hsym, -⟩
      cases i with
      | zero =>
          cases hi
          have hnames : LambdaList.boundNames section_ (.sym name) = [name] :=
            if_neg (Bool.eq_false_iff.1 hmarker)
          rw [hnames] at ht
          have hgrows : t.GrowsTo s' := Growing.of_run hrest
          rw [hsym name rfl]
          exact ⟨rfl, hgrows.shadowed name (ht.isShadowed (List.mem_cons_self ..))⟩
      | succ i => exact ih ht hrest hi

theorem length_of_convertParamItems {section_ : Text} {items results : List Tree} {s s' : Session}
    {bound : List Text} {outer : List (List Text)} (hs : s.Binds bound outer)
    (hrun : (convertParamItems convert section_ items).runFrom s = (.ok results, s')) :
    results.length = items.length := by
  induction items generalizing section_ bound s results with
  | nil =>
      cases hrun
      rfl
  | cons param items ih =>
      rcases LambdaList.runFrom_convertParamItems_cons hs hrun with ⟨_, t, rest, rfl, -, ht, hrest, -⟩
      exact congrArg (· + 1) (ih ht hrest)

namespace IsParameter

variable {params params' : Tree} {s s' : Session} {name : Text} {i : Nat}

theorem paramName? (h : IsParameter params name i) : Forms.paramName? (.sym name) = some name :=
  if_neg (Bool.eq_false_iff.1 h.notMarker)

/-- In a dotted list, a parameter is an element or stands after the dot. -/
theorem cases_dot {items : List Tree} {tail : Tree} (h : IsParameter (.dot items tail) name i) :
    items[i]? = some (.sym name) ∨ i = items.length ∧ tail = .sym name := by
  rcases getElem?_append_cases h.element with hi | ⟨k, rfl, hk⟩
  · exact .inl hi
  · cases k with
    | zero =>
        cases hk
        exact .inr ⟨rfl, rfl⟩
    | succ k => cases hk

theorem mem_lambdaParams (h : IsParameter params name i) : name ∈ lambdaParams params := by
  have hmem : ∀ items : List Tree, items[i]? = some (.sym name) → name ∈ items.filterMap Forms.paramName? :=
    fun items hi => List.mem_filterMap.2 ⟨.sym name, List.mem_of_getElem? hi, h.paramName?⟩
  cases params with
  | list items => exact hmem items h.element
  | vec items => exact hmem items h.element
  | dot items tail =>
      rcases h.cases_dot with hi | ⟨-, rfl⟩
      · exact List.mem_append_left _ (hmem items hi)
      · exact List.mem_append_right _ (List.mem_singleton_self name)
  | _ => cases h.element

/-- A parameter of a lambda list stays and is bound. -/
theorem of_convertParams (h : IsParameter params name i) (hs : s.frames ≠ [])
    (hrun : (convertParams convert params).runFrom s = (.ok params', s')) :
    params'.children[i]? = some (.sym name) ∧ s'.isShadowed name = true := by
  rcases List.exists_cons_of_ne_nil hs with ⟨frame, outer, hframes⟩
  have hbinds : s.Binds frame outer := .of_frames hframes
  unfold convertParams at hrun
  split at hrun
  · rcases runFrom_bind_ok.1 hrun with ⟨items, t, hitems, hpure⟩
    rcases runFrom_pure_ok.1 hpure with ⟨rfl, rfl⟩
    exact parameter_of_convertParamItems hbinds hitems h.element h.notMarker
  · rcases runFrom_bind_ok.1 hrun with ⟨items, t, hitems, hpure⟩
    rcases runFrom_pure_ok.1 hpure with ⟨rfl, rfl⟩
    rcases h.cases_dot with hi | ⟨-, htail⟩
    · exact parameter_of_convertParamItems hbinds hitems hi h.notMarker
    · cases htail
  · rcases h.cases_dot with hi | ⟨-, htail⟩
    · cases hi
    · cases htail
  · next first rest tail _ =>
    rcases runFrom_bind_ok.1 hrun with ⟨items, t, hitems, hrun⟩
    rw [runFrom_bindNames] at hrun
    rcases runFrom_pure_ok.1 hrun with ⟨rfl, rfl⟩
    have hgrows : s.GrowsTo t := Growing.of_run hitems
    rcases h.cases_dot with hi | ⟨hlast, rfl⟩
    · rcases parameter_of_convertParamItems hbinds hitems hi h.notMarker with ⟨hresult, hlocal⟩
      exact ⟨getElem?_append_of_front hresult _, (t.growsTo_growFrame _).shadowed name hlocal⟩
    -- the name after the dot is bound last
    · have ht : t.frames ≠ [] := hgrows.frames_ne_nil hs
      refine ⟨?_, ?_⟩
      · rw [hlast, ← length_of_convertParamItems hbinds hitems]
        exact getElem?_append_add items [.sym name] 0
      · rw [Session.isShadowed_growFrame ht]
        exact Bool.or_eq_true_iff.2 (.inl (List.contains_iff_mem.2 (List.mem_singleton_self name)))
  · rw [runFrom_bindNames] at hrun
    rcases runFrom_pure_ok.1 hrun with ⟨rfl, rfl⟩
    refine ⟨h.element, ?_⟩
    rw [Session.isShadowed_growFrame hs, List.contains_iff_mem.2 h.mem_lambdaParams, Bool.true_or]

end IsParameter

/-! ## Bodies -/

/-- The form is no symbol, and if it is a call, it has become a call of the same name. -/
structure KeepsHead (form result : Tree) : Prop where
  notSymbol : ∀ name, form ≠ .sym name
  call : ∀ name args, form = Tree.call name args → ∃ args', result = Tree.call name args'

theorem isText_of_mem_documentation {body : List Tree} {form : Tree}
    (h : form ∈ (Definition.splitDocumentation body).1) : form.isText = true := by
  unfold Definition.splitDocumentation at h
  split at h
  · split at h
    · next htext => rwa [List.mem_singleton.1 h]
    · cases h
  · cases h

/-- Documentation and declarations are no symbols. -/
theorem keepsHead_of_mem_declarations {body : List Tree} {form : Tree}
    (h : form ∈ (Definition.splitDeclarations body).1) : KeepsHead form form := by
  refine ⟨?_, fun name args heq => ⟨args, heq⟩⟩
  rintro name rfl
  rcases List.mem_append.1 h with hdocumentation | hdeclaration
  · cases isText_of_mem_documentation hdocumentation
  · cases List.all_eq_true.1 List.all_takeWhile _ hdeclaration

/-- The interactive specification at the front of a body keeps its place and its head. -/
theorem front_of_splitInteractive {body front' rest : List Tree} {s s' : Session}
    (hrun : (splitInteractive convert body).runFrom s = (.ok (front', rest), s')) :
    ∃ front, body = front ++ rest ∧ front'.length = front.length ∧
      ∀ (j : Nat) (form : Tree), front[j]? = some form →
        ∃ form', front'[j]? = some form' ∧ KeepsHead form form' := by
  unfold splitInteractive at hrun
  split at hrun
  · cases hrun
    refine ⟨[], rfl, rfl, fun j form hform => ?_⟩
    cases hform
  · next form rest' =>
    split at hrun
    · next tail htail =>
      rcases runFrom_bind_ok.1 hrun with ⟨form', t, hform, hpure⟩
      rcases runFrom_pure_ok.1 hpure with ⟨hresult, rfl⟩
      cases hresult
      refine ⟨[form], rfl, rfl, fun j other hother => ?_⟩
      -- the form in front is a call of `interactive` and stays one; a vector may become one
      cases j with
      | zero =>
          cases hother
          refine ⟨form', rfl, ?_, ?_⟩
          · rintro name rfl
            cases htail
          · rintro name args rfl
            rcases Tree.eq_of_tailOf? htail with heq | heq
            · cases heq
              exact (GivesCall.convertRule convert (by decide) tail :
                GivesCall "interactive" (FormRule.interactive.convert convert _ tail)).call_of_run hform
            · cases heq
      | succ j => cases hother
    · cases hrun
      refine ⟨[], rfl, rfl, fun j form hform => ?_⟩
      cases hform

/-- When the parameters and the body of a function have been rewritten, the parameters have been so
between the frame and the body, and a form of the body has either kept its head or been rewritten as
code where it stands. -/
theorem parts_of_convertLambdaTail {params : Tree} {body parts : List Tree} {s s' : Session}
    (hrun : (convertLambdaTail convert params body).runFrom s = (.ok parts, s')) :
    ∃ u t t' params' body' results, ∃ code : List Tree, parts = params' :: body' ∧
      growth.Steps .form s u ∧
      (convertParams convert params).runFrom (u.pushFrame []) = (.ok params', t) ∧
      (code.mapM convert).runFrom t = (.ok results, t') ∧
      ∀ (j : Nat) (form : Tree), body[j]? = some form →
        (∃ form', body'[j]? = some form' ∧ KeepsHead form form') ∨
          ∃ k : Nat, code[k]? = some form ∧ body'[j]? = results[k]? := by
  unfold convertLambdaTail at hrun
  have hsplit := Definition.splitDeclarations_append body
  have hkept := fun form => @keepsHead_of_mem_declarations body form
  rcases heq : Definition.splitDeclarations body with ⟨kept, rest⟩
  rw [heq] at hsplit hrun hkept
  dsimp only at hsplit hrun hkept
  rcases runFrom_bind_ok.1 hrun with ⟨⟨front', code⟩, u, hfront, hrun⟩
  rcases runFrom_withFrame_ok.1 hrun with ⟨t', hrun, -⟩
  rcases runFrom_bind_ok.1 hrun with ⟨params', t, hparams, hrun⟩
  rcases runFrom_bind_ok.1 hrun with ⟨results, _, hresults, hpure⟩
  rcases runFrom_pure_ok.1 hpure with ⟨rfl, rfl⟩
  have hgrowth : growth.Steps .form s u := Keeps.steps_of_run inferInstance hfront
  refine ⟨u, t, _, params', _, results, code, rfl, hgrowth, hparams, hresults, ?_⟩
  rcases front_of_splitInteractive hfront with ⟨front, rfl, hlength, hheads⟩
  intro j form hj
  -- the three parts of a body: declarations, interactive specification, code
  rw [← hsplit] at hj
  rw [List.append_assoc]
  rcases getElem?_append_cases hj with hdeclared | ⟨m, rfl, hm⟩
  · have hmem := List.mem_of_getElem? hdeclared
    exact .inl ⟨form, getElem?_append_of_front hdeclared _, hkept form hmem⟩
  · rw [getElem?_append_add]
    rcases getElem?_append_cases hm with hinteractive | ⟨k, rfl, hk⟩
    · rcases hheads m form hinteractive with ⟨form', hform', hkeeps⟩
      exact .inl ⟨form', getElem?_append_of_front hform' _, hkeeps⟩
    · rw [← hlength, getElem?_append_add]
      exact .inr ⟨k, hk, rfl⟩

/-- A parameter that has no protection marker is the same in the lambda list and as a variable of the
body. -/
theorem reference_of_convertLambdaTail {params : Tree} {body parts : List Tree} {s s' : Session}
    (hrun : (convertLambdaTail convert params body).runFrom s = (.ok parts, s')) {name : Text} {i : Nat}
    (hparameter : IsParameter params name i) (hescaped : s.isEscaped name = false) :
    ∃ params' body', parts = params' :: body' ∧ params'.children[i]? = some (.sym name) ∧
      ∀ j : Nat, body[j]? = some (.sym name) → body'[j]? = some (.sym name) := by
  rcases parts_of_convertLambdaTail hrun with
    ⟨u, t, t', params', body', results, code, rfl, hu, hparams, hcode, hforms⟩
  rcases hparameter.of_convertParams (List.cons_ne_nil _ _) hparams with ⟨hplace, hlocal⟩
  have hgrows : (u.pushFrame []).GrowsTo t := Growing.of_run hparams
  have hrecalls : t.Recalls s := (hu.1.recalls.pushFrame []).trans hgrows.recalls
  have hresolves := Session.resolves_of_isShadowed (hrecalls.isEscaped.trans hescaped) hlocal
  refine ⟨params', body', rfl, hplace, fun j hj => ?_⟩
  rcases hforms j _ hj with ⟨_, -, hkeeps⟩ | ⟨k, hk, hresult⟩
  · exact absurd rfl (hkeeps.notSymbol name)
  · exact hresult.trans (reference_of_mapM hresolves hcode hk)

/-- A call of a function that is local around a function stays a call of it in the body. -/
theorem call_of_convertLambdaTail {params : Tree} {body parts : List Tree} {s s' : Session}
    (hrun : (convertLambdaTail convert params body).runFrom s = (.ok parts, s')) {name : Text}
    (hescaped : s.isEscaped name = false) (hshadowed : s.isShadowed name = true)
    (hkind : name ∉ FormRule.macroNames) {j : Nat} {args : List Tree}
    (hj : body[j]? = some (Tree.call name args)) :
    ∃ args', parts[j + 1]? = some (Tree.call name args') := by
  rcases parts_of_convertLambdaTail hrun with
    ⟨u, t, t', params', body', results, code, rfl, hu, hparams, hcode, hforms⟩
  have hgrows : (u.pushFrame []).GrowsTo t := Growing.of_run hparams
  have hrecalls : t.Recalls s := (hu.1.recalls.pushFrame []).trans hgrows.recalls
  have hlocal : (u.pushFrame []).isShadowed name = true := hu.1.shadowed name hshadowed
  rcases hforms j _ hj with ⟨form', hform', hkeeps⟩ | ⟨k, hk, hresult⟩
  · rcases hkeeps.call name args rfl with ⟨args', rfl⟩
    exact ⟨args', hform'⟩
  · have hescaped' : t.isEscaped name = false := hrecalls.isEscaped.trans hescaped
    rcases call_of_mapM hescaped' (hgrows.shadowed name hlocal) hkind hcode hk with ⟨args', hk'⟩
    exact ⟨args', hresult.trans hk'⟩

end LispNamespace
