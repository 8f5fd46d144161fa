import LispNamespace.Proofs.Binding.Sequences
import LispNamespace.Proofs.MacroNormalForm
import LispNamespace.Proofs.Scoping.Rules

/-!
# One frame that grows, and frames inside one another

A form that binds in order has one frame, which gains the names of each binding before the next one is
treated. Forms with a single binding each, put inside one another, open a frame for every binding.
Wherever a form is converted, the same names are local in both cases.
-/

namespace LispNamespace

open Rewrite

/-! ## Runs that correspond -/

/-- The second run ends as the first one does: with the same fault, or with what the function makes of
its result. In the end the sessions know the same. -/
structure Rewrite.Corresponds {α β : Type} (f : α → β) (x : Except Fault α × Session)
    (y : Except Fault β × Session) : Prop where
  result : y.1 = x.1.map f
  session : x.2.SameKnowledge y.2

namespace Rewrite

variable {α β γ : Type} {s t : Session}

namespace Corresponds

variable {f : α → β} {x : Except Fault α × Session} {y : Except Fault β × Session}

theorem trans {g : β → γ} {z : Except Fault γ × Session} (h : Corresponds f x y)
    (h' : Corresponds g y z) : Corresponds (fun a => g (f a)) x z where
  result := by
    rw [h'.result, h.result]
    cases x.1 <;> rfl
  session := h.session.trans h'.session

/-- Something may be made of the result of the second run. -/
theorem map (h : Corresponds f x y) (g : β → γ) :
    Corresponds (fun a => g (f a)) x (y.1.map g, y.2) := h.trans ⟨rfl, .refl y.2⟩

/-- What is made of the result of the first run may as well be left to the function. -/
theorem map_left_iff {g : γ → α} {w : Except Fault γ × Session} :
    Corresponds f (w.1.map g, w.2) y ↔ Corresponds (fun a => f (g a)) w y := by
  have hmap : (w.1.map g).map f = w.1.map fun a => f (g a) := by cases w.1 <;> rfl
  constructor
  · rintro ⟨hresult, hsession⟩
    exact ⟨hresult.trans hmap, hsession⟩
  · rintro ⟨hresult, hsession⟩
    exact ⟨hresult.trans hmap.symm, hsession⟩

/-- What is known does not depend on the frames, so a frame may be closed in the end. -/
theorem popFrame (h : Corresponds f x y) : Corresponds f x (y.1, y.2.popFrame) :=
  ⟨h.result, { h.session with }⟩

/-- A frame that the first run closes may as well have stayed open. -/
theorem of_popFrame (h : Corresponds f (x.1, x.2.popFrame) y) : Corresponds f x y :=
  ⟨h.result, { h.session with }⟩

end Corresponds

/-- What is done with the result leaves a fault and the session as they are. -/
theorem runFrom_bind_pure (step : Rewrite α) (f : α → β) (s : Session) :
    (step >>= fun a => pure (f a)).runFrom s = ((step.runFrom s).1.map f, (step.runFrom s).2) := by
  rw [runFrom_bind]
  rcases step.runFrom s with ⟨fault | a, s'⟩ <;> rfl

/-- What is made of each result can be made of all of them in the end. -/
theorem mapM_bind_pure (f : α → Rewrite β) (g : β → γ) (items : List α) :
    (items.mapM fun a => f a >>= fun b => pure (g b)) =
      items.mapM f >>= fun bs => pure (bs.map g) := by
  induction items with
  | nil => rfl
  | cons a items ih => simp only [List.mapM_cons, ih, bind_assoc, pure_bind, List.map_cons]

/-- Steps that match correspond when they are run where the same names are local. -/
theorem Matches.corresponds {step other : Rewrite α} (h : Matches .form step other)
    (hst : s.SameScope .form t) : Corresponds id (step.runFrom s) (other.runFrom t) where
  result := by
    rw [h.result hst]
    cases (step.runFrom s).1 <;> rfl
  session := (h.session hst).toSameKnowledge

/-- A frame without names around the treatment of a whole form makes no difference. -/
theorem matches_withFrame_nil (step : Rewrite α) [h : Indifferent .form step]
    [hkeeps : Keeps growth .form step] : Matches .form step (withFrame [] step) where
  result hst := h.matches_self.result (hst.pushFrame_right [] nofun)
  session {s t} hst := by
    have hknow := (h.matches_self.session (hst.pushFrame_right [] nofun)).toSameKnowledge
    have hs : (step.runFrom s).2.frames = s.frames := (hkeeps.keepsFrom s).steps.2
    have ht : (step.runFrom (t.pushFrame [])).2.frames = (t.pushFrame []).frames :=
      (hkeeps.keepsFrom (t.pushFrame [])).steps.2
    rw [runFrom_withFrame]
    exact hst.update { hknow with } hs (congrArg List.tail ht)

end Rewrite

/-! ## Forms inside one another -/

/-- Forms of one head inside one another, each with one of the bindings, and the body in the innermost
one. -/
def Tree.nest (head : Text) (bindings body : List Tree) : List Tree :=
  bindings.foldr (fun binding inner => [.call head (.list [binding] :: inner)]) body

@[simp] theorem Tree.nest_cons (head : Text) (binding : Tree) (bindings body : List Tree) :
    Tree.nest head (binding :: bindings) body =
      [.call head (.list [binding] :: Tree.nest head bindings body)] := rfl

/-- The forms inside are converted with the outermost one. -/
theorem mapM_convert_nest (head : Text) (binding : Tree) (bindings body : List Tree) :
    (Tree.nest head (binding :: bindings) body).mapM convert =
      convert (.call head (.list [binding] :: Tree.nest head bindings body)) >>= fun form =>
        pure [form] := by
  rw [Tree.nest_cons, List.mapM_cons, List.mapM_nil]
  simp only [pure_bind]

/-! ## Bindings in order -/

section Bindings

-- what is done with a binding gives the binding as it is rewritten, and the names that it binds
variable (one : Tree → Rewrite (Tree × List Text))

/-- Treats bindings one after the other. The names of each are bound in the innermost frame before the
next one is treated. -/
def bindInOrder (bindings : List Tree) : Rewrite (List (Tree × List Text)) :=
  bindings.mapM fun binding => do
    let bound ← one binding
    bindNames bound.2
    return bound

/-- Treats bindings one after the other, and then converts a body in the frame with all the names. -/
def convertInOrder (bindings body : List Tree) : Rewrite (List Tree × List Tree) := do
  let bound ← bindInOrder one bindings
  let body ← body.mapM convert
  return (bound.map (·.1), body)

/-- Treats one binding, and what is inside with its names in a frame of their own. -/
def bindAround {α : Type} (binding : Tree) (inner : Rewrite α) : Rewrite (Tree × α) := do
  let bound ← one binding
  let result ← withFrame bound.2 inner
  return (bound.1, result)

/-- A form of the given head with a single binding treats the binding, and what is inside with its names
in a frame of their own, wherever the form is known by its head. -/
def NestsBy (head : Text) (binding : Tree) : Prop :=
  ∀ (inner : List Tree) {s t : Session}, s.SameScope .form t → t.isEscaped head = false →
    t.isFunction head = false →
    Corresponds (fun r : Tree × List Tree => Tree.call head (.list [r.1] :: r.2))
      ((bindAround one binding (inner.mapM convert)).runFrom s)
      ((convert (.call head (.list [binding] :: inner))).runFrom t)

instance [∀ binding, Growing (one binding)] (bindings : List Tree) :
    Growing (bindInOrder one bindings) := by
  unfold bindInOrder
  infer_instance

instance [∀ binding, Growing (one binding)] (bindings body : List Tree) :
    Growing (convertInOrder one bindings body) := by
  unfold convertInOrder
  infer_instance

instance [∀ binding, Indifferent .form (one binding)] (binding : Tree) (inner : List Tree) :
    Indifferent .form (bindAround one binding (inner.mapM convert)) := by
  unfold bindAround
  infer_instance

/-- The bindings can be kept without their names once the names are bound. -/
theorem bindInOrder_bind_pure (bindings : List Tree) :
    (bindInOrder one bindings >>= fun bound => pure (bound.map (·.1))) =
      bindings.mapM fun binding => one binding >>= fun bound =>
        bindNames bound.2 >>= fun _ => pure bound.1 := by
  unfold bindInOrder
  rw [← mapM_bind_pure]
  simp only [bind_assoc, pure_bind]

/-- The first binding is treated, and then the others in the frame with its names. -/
theorem convertInOrder_cons (binding : Tree) (rest body : List Tree) :
    convertInOrder one (binding :: rest) body =
      one binding >>= fun bound => bindNames bound.2 >>= fun _ =>
        convertInOrder one rest body >>= fun r => pure (bound.1 :: r.1, r.2) := by
  unfold convertInOrder bindInOrder
  rw [List.mapM_cons]
  simp only [bind_assoc, pure_bind, List.map_cons]

variable {one} {s t s₁ : Session} {binding : Tree} {bound : Tree × List Text}

/-- Once the first binding is treated, the others are treated in the frame with its names. -/
theorem runFrom_convertInOrder_cons (hrun : (one binding).runFrom s = (.ok bound, s₁))
    (rest body : List Tree) :
    (convertInOrder one (binding :: rest) body).runFrom s =
      (((convertInOrder one rest body).runFrom (s₁.growFrame bound.2)).1.map
          fun r => (bound.1 :: r.1, r.2),
        ((convertInOrder one rest body).runFrom (s₁.growFrame bound.2)).2) := by
  rw [convertInOrder_cons, runFrom_bind, hrun]
  dsimp only
  rw [runFrom_bindNames, runFrom_bind_pure]

/-- Once the binding is treated, what is inside is done in a frame with its names. -/
theorem runFrom_bindAround {α : Type} (hrun : (one binding).runFrom s = (.ok bound, s₁))
    (inner : Rewrite α) :
    (bindAround one binding inner).runFrom s =
      ((inner.runFrom (s₁.pushFrame bound.2)).1.map fun r => (bound.1, r),
        (inner.runFrom (s₁.pushFrame bound.2)).2.popFrame) := by
  unfold bindAround
  rw [runFrom_bind, hrun]
  dsimp only
  rw [runFrom_bind_pure, runFrom_withFrame]

/-- If the outermost form treats its binding as in order, and the forms inside correspond to the other
bindings once it is treated, then all the forms correspond to all the bindings. -/
theorem corresponds_cons {head : Text} {rest body : List Tree} {y : Except Fault Tree × Session}
    (houter : Corresponds (fun r : Tree × List Tree => Tree.call head (.list [r.1] :: r.2))
      ((bindAround one binding ((Tree.nest head rest body).mapM convert)).runFrom s) y)
    (hinner : ∀ bound s₁, (one binding).runFrom s = (.ok bound, s₁) →
      Corresponds (fun r : List Tree × List Tree => Tree.nest head r.1 r.2)
        ((convertInOrder one rest body).runFrom (s₁.growFrame bound.2))
        (((Tree.nest head rest body).mapM convert).runFrom (s₁.pushFrame bound.2))) :
    Corresponds (fun r : List Tree × List Tree => Tree.nest head r.1 r.2)
      ((convertInOrder one (binding :: rest) body).runFrom s)
      (y.1.map fun form => [form], y.2) := by
  rcases hrun : (one binding).runFrom s with ⟨fault | bound, s₁⟩
  -- a fault of the binding ends both runs
  · have hseq : (convertInOrder one (binding :: rest) body).runFrom s = (.error fault, s₁) := by
      rw [convertInOrder_cons, runFrom_bind, hrun]
    have haround : (bindAround one binding ((Tree.nest head rest body).mapM convert)).runFrom s =
        (.error fault, s₁) := by
      unfold bindAround
      rw [runFrom_bind, hrun]
    rw [haround] at houter
    rw [hseq]
    constructor
    · rw [houter.result]
      rfl
    · exact houter.session
  · have hrest := hinner bound s₁ hrun
    rw [runFrom_bindAround hrun] at houter
    rw [runFrom_convertInOrder_cons hrun]
    have hclosed := Corresponds.of_popFrame (Corresponds.map_left_iff.1 houter)
    exact Corresponds.map_left_iff.2 ((hrest.trans hclosed).map fun form => [form])

/-- Bindings that are treated in order, with one frame that gains their names, come out as they do
from forms inside one another, if the head of these forms is known at every point of the run. -/
theorem corresponds_nest {head : Text} [hgrowing : ∀ binding, Growing (one binding)]
    {bindings : List Tree} (body : List Tree) (hnests : ∀ b ∈ bindings, NestsBy one head b)
    (hst : s.SameScope .form t) (hframes : s.frames ≠ []) (hescaped : s.isEscaped head = false)
    (hnever : ∀ u : Session, s.GrowsTo u → u.GrowsTo ((convertInOrder one bindings body).runFrom s).2 →
      u.isFunction head = false) :
    Corresponds (fun r : List Tree × List Tree => Tree.nest head r.1 r.2)
      ((convertInOrder one bindings body).runFrom s)
      (((Tree.nest head bindings body).mapM convert).runFrom t) := by
  induction bindings generalizing s t with
  | nil =>
      have hbody : Indifferent .form (body.mapM convert) := inferInstance
      have hsame := hbody.matches_self.corresponds hst
      have hrun : (convertInOrder one [] body).runFrom s =
          (((body.mapM convert).runFrom s).1.map fun body => ([], body),
            ((body.mapM convert).runFrom s).2) := runFrom_bind_pure _ _ s
      rw [hrun]
      exact Corresponds.map_left_iff.2 hsame
  | cons binding rest ih =>
      -- the head is looked up before anything is done
      have hhead : s.isFunction head = false := hnever s (.refl s) (growsTo_runFrom _ s)
      have hescaped' : t.isEscaped head = false := by
        unfold Session.isEscaped at hescaped ⊢
        rwa [hst.context]
      have houter := hnests binding (List.mem_cons_self ..) (Tree.nest head rest body) hst hescaped'
        ((hst.isFunction head).trans hhead)
      rw [mapM_convert_nest, runFrom_bind_pure]
      refine corresponds_cons houter fun bound s₁ hrun => ?_
      -- the others see the names of the binding, in its own frame or in the one that has grown
      have hgrows₁ : s.GrowsTo s₁ := (hgrowing binding).of_run hrun
      have hgrows : s.GrowsTo (s₁.growFrame bound.2) := hgrows₁.trans (s₁.growsTo_growFrame bound.2)
      have hscope : (s₁.growFrame bound.2).SameScope .form (s₁.pushFrame bound.2) :=
        (Session.SameScope.refl s₁).growFrame_pushFrame (hgrows₁.frames_ne_nil hframes) bound.2
      refine ih (fun b hb => hnests b (List.mem_cons_of_mem _ hb)) hscope
        (hgrows.frames_ne_nil hframes) ?_ fun u hu hlast => hnever u (hgrows.trans hu) ?_
      · unfold Session.isEscaped at hescaped ⊢
        rwa [hgrows.context]
      · rw [runFrom_convertInOrder_cons hrun]
        exact hlast

/-- As many bindings come out as there are. -/
theorem length_of_convertInOrder {bindings body : List Tree} {result : List Tree × List Tree}
    (hrun : (convertInOrder one bindings body).runFrom s = (.ok result, t)) :
    result.1.length = bindings.length := by
  rcases runFrom_bind_ok.1 hrun with ⟨bound, s', hbound, hrest⟩
  rcases runFrom_bind_ok.1 hrest with ⟨_, _, -, hpure⟩
  rcases runFrom_pure_ok.1 hpure with ⟨rfl, -⟩
  rw [List.length_map]
  exact length_of_mapM hbound

/-! ## The names that have become local -/

/-- After the bindings, the names of all of them are local, and what has been so before. -/
theorem isShadowed_bindInOrder [hkeeps : ∀ binding, Keeps growth .form (one binding)]
    {bindings : List Tree} {results : List (Tree × List Text)} (hframes : s.frames ≠ [])
    (hrun : (bindInOrder one bindings).runFrom s = (.ok results, t)) (name : Text) :
    t.isShadowed name = ((results.flatMap (·.2)).contains name || s.isShadowed name) := by
  unfold bindInOrder at hrun
  -- the frame keeps the names of the bindings so far, so the induction is on what is still to bind
  induction bindings generalizing s results with
  | nil =>
      cases hrun
      rfl
  | cons binding bindings ih =>
      rcases runFrom_mapM_cons.1 hrun with ⟨first, s', rest, hfirst, hrest, rfl⟩
      rcases runFrom_bind_ok.1 hfirst with ⟨bound, s₁, hbound, hbind⟩
      rw [runFrom_bindNames] at hbind
      rcases runFrom_pure_ok.1 hbind with ⟨rfl, rfl⟩
      have hs₁ : s₁.frames = s.frames := ((hkeeps binding).steps_of_run hbound).2
      have hframes₁ : s₁.frames ≠ [] := hs₁ ▸ hframes
      have hgrown : (s₁.growFrame first.2).frames ≠ [] :=
        (s₁.growsTo_growFrame first.2).frames_ne_nil hframes₁
      rw [ih hgrown hrest, Session.isShadowed_growFrame hframes₁, Session.isShadowed_congr hs₁]
      simp only [List.flatMap_cons, List.contains_eq_mem, List.mem_append, Bool.decide_or]
      rw [← Bool.or_assoc, Bool.or_comm (decide (name ∈ List.flatMap _ rest))]

/-- The body may be put into a frame with all the names once more. -/
theorem corresponds_bodyAgain [hkeeps : ∀ binding, Keeps growth .form (one binding)]
    (bindings body : List Tree) (hframes : s.frames ≠ []) :
    Corresponds id ((convertInOrder one bindings body).runFrom s)
      ((bindInOrder one bindings >>= fun bound =>
        withFrame (bound.flatMap (·.2)) (body.mapM convert) >>= fun body =>
          pure (bound.map (·.1), body)).runFrom s) := by
  have hbody : Indifferent .form (body.mapM convert) := inferInstance
  unfold convertInOrder
  rw [runFrom_bind, runFrom_bind]
  rcases hrun : (bindInOrder one bindings).runFrom s with ⟨fault | bound, s₁⟩
  · exact ⟨rfl, .refl s₁⟩
  · dsimp only
    have hlocal : ∀ name ∈ bound.flatMap (·.2), s₁.isShadowed name = true := by
      intro name hname
      rw [isShadowed_bindInOrder hframes hrun, List.contains_iff_mem.2 hname, Bool.true_or]
    have hsame := hbody.matches_self.corresponds ((Session.SameScope.refl s₁).pushFrame_right _ hlocal)
    rw [runFrom_bind_pure, runFrom_bind_pure, runFrom_withFrame]
    exact Corresponds.map_left_iff.2 (hsame.popFrame.map _)

/-- Or the frame of the bindings may be closed, and one with their names be opened for the body. -/
theorem corresponds_bodyApart [hkeeps : ∀ binding, Keeps growth .form (one binding)]
    [hgrowing : ∀ binding, Growing (one binding)] {bindings : List Tree} {names : List Text}
    (hnames : ∀ {s t bound}, (bindInOrder one bindings).runFrom s = (.ok bound, t) →
      bound.flatMap (·.2) = names) (body : List Tree) (s : Session) :
    Corresponds id ((convertInOrder one bindings body).runFrom (s.pushFrame []))
      ((withFrame [] (bindInOrder one bindings >>= fun bound => pure (bound.map (·.1))) >>=
        fun bindings => withFrame names (body.mapM convert) >>= fun body =>
          pure (bindings, body)).runFrom s) := by
  have hbody : Indifferent .form (body.mapM convert) := inferInstance
  unfold convertInOrder
  rw [runFrom_bind, runFrom_bind, runFrom_withFrame, runFrom_bind_pure]
  rcases hrun : (bindInOrder one bindings).runFrom (s.pushFrame []) with ⟨fault | bound, s₁⟩
  · exact ⟨rfl, { Session.SameKnowledge.refl s₁ with }⟩
  · dsimp only [Except.map]
    have hgrows : (s.pushFrame []).GrowsTo s₁ := Growing.of_run hrun
    have hclosed : s₁.popFrame.frames = s.frames := hgrows.outerFrames
    -- the same names are local in the frame that has grown and in the one for the body
    have hscope : s₁.SameScope .form (s₁.popFrame.pushFrame names) :=
      { toSameKnowledge := { Session.SameKnowledge.refl s₁ with }
        shadowed := fun name => by
          rw [isShadowed_bindInOrder (List.cons_ne_nil _ _) hrun, hnames hrun,
            Session.isShadowed_pushFrame, Session.isShadowed_congr hclosed,
            Session.isShadowed_pushFrame, List.contains_nil, Bool.false_or]
        framed := nofun }
    have hsame := hbody.matches_self.corresponds hscope
    rw [runFrom_bind_pure, runFrom_bind_pure, runFrom_withFrame]
    exact Corresponds.map_left_iff.2 (hsame.popFrame.map _)

/-- The names that are bound are those of the bindings, if each binding shows its own. -/
theorem names_bindInOrder {namesOf : Tree → List Text} {bindings : List Tree}
    (hnames : ∀ binding {s t bound}, (one binding).runFrom s = (.ok bound, t) →
      bound.2 = namesOf binding) {results : List (Tree × List Text)}
    (hrun : (bindInOrder one bindings).runFrom s = (.ok results, t)) :
    results.flatMap (·.2) = bindings.flatMap namesOf := by
  unfold bindInOrder at hrun
  induction bindings generalizing s results with
  | nil =>
      cases hrun
      rfl
  | cons binding bindings ih =>
      rcases runFrom_mapM_cons.1 hrun with ⟨first, s', rest, hfirst, hrest, rfl⟩
      rcases runFrom_bind_ok.1 hfirst with ⟨bound, s₁, hbound, hbind⟩
      rw [runFrom_bindNames] at hbind
      rcases runFrom_pure_ok.1 hbind with ⟨rfl, -⟩
      rw [List.flatMap_cons, List.flatMap_cons, hnames binding hbound, ih hrest]

end Bindings

end LispNamespace
