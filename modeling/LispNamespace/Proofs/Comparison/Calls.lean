import LispNamespace.Proofs.Comparison.Basic
import LispNamespace.Proofs.PlanFits

/-!
# Comparing calls

Calls, references and quotations keep two runs together, provided that the walk over the forms
inside them does.
-/

namespace LispNamespace.Comparison

open Rewrite Forms

/-- All of the trees are forms that are compared. -/
def FormAll (C : Comparison) (items : List Tree) : Prop := ∀ item ∈ items, C.Form item

/-- Both runs give a call of the same head, with arguments that are related one by one. -/
def Calls (C : Comparison) (head : Text) (tail : List Tree) (a b : Tree) : Prop :=
  ∃ ys zs, a = Tree.call head ys ∧ b = Tree.call head zs ∧ Pointwise C.Result tail ys zs

/-- The walks of the two runs keep them together on every form. -/
def FollowsWalk (C : Comparison) (walk other : Walk) : Prop :=
  ∀ form, C.Form form → C.Follows (walk form) (other form) (C.Result form)

variable {C : Comparison}

theorem FormAll.head {item : Tree} {items : List Tree} (h : C.FormAll (item :: items)) :
    C.Form item := h item (List.mem_cons_self ..)

theorem FormAll.tail {item : Tree} {items : List Tree} (h : C.FormAll (item :: items)) :
    C.FormAll items := fun other hother => h other (List.mem_cons_of_mem _ hother)

theorem FormAll.of_append_right {items others : List Tree} (h : C.FormAll (items ++ others)) :
    C.FormAll others := fun other hother => h other (List.mem_append_right _ hother)

section Laws

variable (hC : C.Lawful)

include hC

theorem same (items : List Tree) : Pointwise C.Result items items items :=
  .same hC.result_same items

theorem formAll_list {items : List Tree} (h : C.Form (.list items)) : C.FormAll items :=
  fun _ hitem => hC.form_children h hitem

theorem formAll_dot {items : List Tree} {tail : Tree} (h : C.Form (.dot items tail)) :
    C.FormAll items := fun _ hitem => hC.form_children h (List.mem_append_left _ hitem)

theorem formAll_properList? {t : Tree} {items : List Tree} (h : C.Form t)
    (hitems : t.properList? = some items) : C.FormAll items :=
  fun item hitem => hC.form_children h (Tree.children_of_properList? hitems item hitem)

theorem formAll_tailOf? {t : Tree} {name : Text} {parts : List Tree} (h : C.Form t)
    (hparts : t.tailOf? name = some parts) : C.FormAll parts :=
  fun part hpart => hC.form_children h (Tree.children_of_tailOf? hparts part hpart)

/-- A call that comes out with related arguments is a related result of the whole form. -/
theorem Calls.result {head : Text} {tail : List Tree} {a b : Tree} (h : C.Calls head tail a b) :
    C.Result (Tree.call head tail) a b := by
  rcases h with ⟨ys, zs, rfl, rfl, hall⟩
  exact hC.result_list (.cons (hC.result_same _) hall)

theorem calls_same (head : Text) (tail : List Tree) :
    C.Calls head tail (Tree.call head tail) (Tree.call head tail) :=
  ⟨tail, tail, rfl, rfl, same hC tail⟩

/-- Arguments that are related make calls that are. -/
theorem Follows.call {head : Text} {tail : List Tree} {x y : Rewrite (List Tree)}
    (h : C.Follows x y (Pointwise C.Result tail)) :
    C.Follows (x >>= fun ys => Pure.pure (Tree.call head ys))
      (y >>= fun zs => Pure.pure (Tree.call head zs)) (C.Calls head tail) :=
  h.bind hC fun ys zs hall => .pure ⟨ys, zs, rfl, rfl, hall⟩

/-- The two contexts free names of the protection marker alike. -/
theorem isEscaped_eq {s t : Session} (h : C.Related s t) (name : Text) :
    t.isEscaped name = s.isEscaped name := by
  unfold Session.isEscaped
  rw [hC.context h]
  rfl

theorem stripProtection_eq {s t : Session} (h : C.Related s t) (name : Text) :
    t.stripProtection name = s.stripProtection name := by
  unfold Session.stripProtection
  rw [hC.context h]
  rfl

/-- A name that only loses the protection marker is one of the references to a function. -/
theorem result_stripped {s t : Session} {name : Text} (h : C.Related s t) (hs : C.Counts s)
    (hname : s.isEscaped name = true) :
    C.Result (.sym name) (.sym (s.stripProtection name)) (.sym (t.stripProtection name)) := by
  have hresult := hC.result_function name h hs
  unfold functionReference at hresult
  rwa [isEscaped_eq hC h, if_pos hname, if_pos hname] at hresult

end Laws

/-! ## Arguments -/

mutual

/-- What a plan calls code is walked in both runs, and what it calls data is left alone in both. -/
theorem follows_apply {walk other : Walk} [GrowingWalk walk] [GrowingWalk other] (hC : C.Lawful)
    (hwalk : C.FollowsWalk walk other) {plan : Plan} {arg : Tree} (hfits : plan.Fits arg)
    (harg : C.Form arg) :
    C.Follows (plan.apply walk pure arg) (plan.apply other pure arg) (C.Result arg) := by
  cases hfits with
  | code =>
      unfold Plan.apply
      exact hwalk arg harg
  | data =>
      unfold Plan.apply
      exact .pure (hC.result_same arg)
  | nested hitems hplans =>
      unfold Plan.apply
      -- only a list that has elements is looked into
      split
      · next first rest =>
        cases hitems
        have hall := follows_applyAll hC hwalk hplans (formAll_list hC harg)
        exact hall.bind hC fun ys zs h => .pure (hC.result_list h)
      · exact .pure (hC.result_same arg)

/-- A plan that fits takes both runs through the same arguments. -/
theorem follows_applyAll {walk other : Walk} [GrowingWalk walk] [GrowingWalk other] (hC : C.Lawful)
    (hwalk : C.FollowsWalk walk other) {plans : List Plan} {args : List Tree}
    (hfits : Plan.FitsAll plans args) (hargs : C.FormAll args) :
    C.Follows (Plan.applyAll walk pure plans args) (Plan.applyAll other pure plans args)
      (Pointwise C.Result args) := by
  cases hfits with
  | nil =>
      unfold Plan.applyAll
      exact .pure .nil
  | @cons plan arg plans args hplan hplans =>
      have : Growing (Plan.apply walk pure plan arg) := Plan.keeps_apply walk pure plan arg
      unfold Plan.applyAll
      refine (follows_apply hC hwalk hplan hargs.head).bind hC fun y z hfirst => ?_
      refine (follows_applyAll hC hwalk hplans hargs.tail).bind hC fun ys zs hrest => ?_
      exact .pure (.cons hfirst hrest)

end

section Arguments

variable {walk other : Walk} [GrowingWalk walk] [GrowingWalk other] (hC : C.Lawful)
  (hwalk : C.FollowsWalk walk other)

include hC hwalk

omit [GrowingWalk other] in
/-- The forms of a body are walked together. -/
theorem follows_mapM {items : List Tree} (h : C.FormAll items) :
    C.Follows (items.mapM walk) (items.mapM other) (Pointwise C.Result items) :=
  .mapM hC _ fun item hitem => hwalk item (h item hitem)

/-- Related sessions know the same grammars, so the arguments are classified alike; if they do not
fit, both runs leave them and report. -/
theorem follows_convertByGrammar (head head' : Text) (spec : Tree) {args : List Tree}
    (hargs : C.FormAll args) :
    C.Follows (convertByGrammar walk head spec args) (convertByGrammar other head' spec args)
      (Pointwise C.Result args) := by
  unfold convertByGrammar
  refine .read fun s t hst _ => ?_
  cases hplans : Grammar.classify s.grammars spec args with
  | ok plans =>
      rw [hC.classify spec args hst (by rw [hplans]; rintro _ ⟨⟩), hplans]
      exact follows_applyAll hC hwalk (Grammar.fitsAll_of_classifyBy hplans) hargs
  | error fault =>
      split
      · next heq => cases heq
      · next why heq =>
        cases heq
        rw [hC.classify spec args hst (by rw [hplans]; rintro _ ⟨⟩), hplans]
        exact (Follows.warn hC _ _).bind hC fun _ _ _ => .pure (same hC args)
      · exact .throw _

/-- Arguments that are treated alike are converted alike. -/
theorem follows_convertTreated (head head' : Text) (treatment : Treatment) {args : List Tree}
    (hargs : C.FormAll args) :
    C.Follows (convertTreated walk head treatment args) (convertTreated other head' treatment args)
      (Pointwise C.Result args) := by
  cases treatment with
  | forms => exact follows_mapM hC hwalk hargs
  | data => exact .pure (same hC args)
  | unknown =>
      refine .read fun s t _ _ => ?_
      exact (Follows.trace hC _ _).bind hC fun _ _ _ => .pure (same hC args)
  | byGrammar spec => exact follows_convertByGrammar hC hwalk head head' spec hargs

/-- A form without the shape that its rule needs is converted like the call of a macro. -/
theorem follows_convertShapeless (head : Text) {tail : List Tree} (htail : C.FormAll tail) :
    C.Follows (convertShapeless walk head tail) (convertShapeless other head tail)
      (C.Calls head tail) := by
  refine Follows.call hC fun s t hst hs ys s' hrun hs' => ?_
  rw [runFrom_convertMacroArguments] at hrun
  rw [runFrom_convertMacroArguments, ← hC.macroTreatment head hst]
  exact follows_convertTreated hC hwalk head head _ htail s t hst hs ys s' hrun hs'

end Arguments

/-! ## References and quotations -/

section Quotations

variable (hC : C.Lawful)

include hC

theorem follows_convertFunctionName (name : Tree) :
    C.Follows (convertFunctionName name) (convertFunctionName name) (C.Result name) := by
  unfold convertFunctionName
  split
  · next name => exact .read fun s t hst hs => .pure (hC.result_function name hst hs)
  · exact .pure (hC.result_same _)

variable {walk other : Walk} (hwalk : C.FollowsWalk walk other)

include hwalk

/-- A quoted datum is left alone unless it is a lambda expression or, by an option, a symbol. -/
theorem follows_convertQuote (head : Text) {tail : List Tree} (htail : C.FormAll tail) :
    C.Follows (convertQuote walk head tail) (convertQuote other head tail) (C.Calls head tail) := by
  unfold convertQuote
  split
  · next payload =>
    refine .read fun s t hst _ => ?_
    have hoption : t.context.options.assumeVarQuote = s.context.options.assumeVarQuote := by
      rw [hC.context hst]
    rw [hoption]
    split
    · refine (hwalk payload htail.head).bind hC fun y z hpayload => ?_
      exact .pure ⟨[y], [z], rfl, rfl, .one hpayload⟩
    · exact .pure (calls_same hC head [payload])
  · exact .pure (calls_same hC head _)

theorem follows_convertFunctionQuote (head : Text) {tail : List Tree} (htail : C.FormAll tail) :
    C.Follows (convertFunctionQuote walk head tail) (convertFunctionQuote other head tail)
      (C.Calls head tail) := by
  have one : ∀ {payload y z : Tree}, C.Result payload y z →
      C.Calls head [payload] (Tree.call head [y]) (Tree.call head [z]) :=
    fun h => ⟨_, _, rfl, rfl, .one h⟩
  unfold convertFunctionQuote
  split
  · next payload =>
    -- a lambda expression is walked, a symbol is a reference, and any other datum stays
    split
    · exact (hwalk payload htail.head).bind hC fun y z hpayload => .pure (one hpayload)
    · split
      · refine .read fun s t hst hs => ?_
        have hoption : t.context.options.dontAssumeFunctionQuote =
            s.context.options.dontAssumeFunctionQuote := by
          rw [hC.context hst]
        rw [hoption]
        split
        · -- the name is not looked up, but it still loses the protection marker
          rw [isEscaped_eq hC hst]
          refine .pure (one ?_)
          split
          · next hescaped => exact result_stripped hC hst hs hescaped
          · exact hC.result_same _
        · refine (follows_convertFunctionName hC _).bind hC fun y z hname => ?_
          exact .pure (one hname)
      · exact .pure (calls_same hC head _)
  · exact .pure (calls_same hC head _)

omit hwalk in
theorem follows_convertBackquote (walk other : Walk) (head : Text) (tail : List Tree) :
    C.Follows (convertBackquote walk head tail) (convertBackquote other head tail)
      (C.Calls head tail) :=
  .pure (calls_same hC head tail)

end Quotations

end LispNamespace.Comparison
