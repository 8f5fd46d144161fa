import LispNamespace.Proofs.Written.Sessions

/-!
# Names that are carried to the output

Two runs of the same steps are compared, an earlier and a later one of a run that ends in a given
session. The steps carry a name when the second run writes a definition of it out if the first one
takes it in. Each way to put steps together has a rule for this.
-/

namespace LispNamespace

open Rewrite

/-! ## Definitions that are written out -/

/-- Some part of the tree is a definition of the name. -/
def Tree.Shows (addition : Addition) (t : Tree) : Prop := ∃ part, t.HasPart part ∧ part.Defines addition

/-- One of the trees has a part that is a definition of the name. -/
def Tree.ShowsAny (addition : Addition) (items : List Tree) : Prop := ∃ item ∈ items, item.Shows addition

namespace Tree

variable {addition : Addition}

theorem Shows.of_child {t child : Tree} (h : child.Shows addition) (hchild : child ∈ t.children) :
    t.Shows addition := by
  rcases h with ⟨part, hpart, hdefines⟩
  exact ⟨part, .of_child hchild hpart, hdefines⟩

@[simp] theorem showsAny_nil : ¬ShowsAny addition [] := by
  rintro ⟨item, hitem, -⟩
  cases hitem

@[simp] theorem showsAny_cons {item : Tree} {items : List Tree} :
    ShowsAny addition (item :: items) ↔ item.Shows addition ∨ ShowsAny addition items := by
  unfold ShowsAny
  constructor
  · rintro ⟨other, hother, hshows⟩
    rcases List.mem_cons.1 hother with rfl | hother
    · exact .inl hshows
    · exact .inr ⟨other, hother, hshows⟩
  · rintro (hshows | ⟨other, hother, hshows⟩)
    · exact ⟨item, List.mem_cons_self .., hshows⟩
    · exact ⟨other, List.mem_cons_of_mem _ hother, hshows⟩

@[simp] theorem showsAny_append {items others : List Tree} :
    ShowsAny addition (items ++ others) ↔ ShowsAny addition items ∨ ShowsAny addition others := by
  unfold ShowsAny
  constructor
  · rintro ⟨item, hitem, hshows⟩
    exact (List.mem_append.1 hitem).imp (fun h => ⟨item, h, hshows⟩) fun h => ⟨item, h, hshows⟩
  · rintro (⟨item, hitem, hshows⟩ | ⟨item, hitem, hshows⟩)
    · exact ⟨item, List.mem_append_left _ hitem, hshows⟩
    · exact ⟨item, List.mem_append_right _ hitem, hshows⟩

@[simp] theorem showsAny_map {α : Type} {f : α → Tree} {items : List α} :
    ShowsAny addition (items.map f) ↔ ∃ item ∈ items, (f item).Shows addition := by
  unfold ShowsAny
  constructor
  · rintro ⟨_, hmem, hshows⟩
    rcases List.mem_map.1 hmem with ⟨item, hitem, rfl⟩
    exact ⟨item, hitem, hshows⟩
  · rintro ⟨item, hitem, hshows⟩
    exact ⟨f item, List.mem_map_of_mem hitem, hshows⟩

theorem shows_list {items : List Tree} (h : ShowsAny addition items) :
    (Tree.list items).Shows addition := by
  rcases h with ⟨item, hitem, hshows⟩
  exact hshows.of_child hitem

theorem shows_call {head : Text} {items : List Tree} (h : ShowsAny addition items) :
    (Tree.call head items).Shows addition :=
  shows_list (showsAny_cons.2 (.inr h))

theorem shows_call_cons {head : Text} {first : Tree} {items : List Tree}
    (h : first.Shows addition ∨ ShowsAny addition items) :
    (Tree.call head (first :: items)).Shows addition :=
  shows_call (showsAny_cons.2 h)

/-- There is no name to show in an empty list, which is `nil`. -/
theorem shows_ofList {items : List Tree} (h : ShowsAny addition items) :
    (Tree.ofList items).Shows addition := by
  cases items with
  | nil => exact absurd h showsAny_nil
  | cons item items => exact shows_list h

theorem shows_dot {items : List Tree} {tail : Tree} (h : ShowsAny addition items) :
    (Tree.dot items tail).Shows addition := by
  rcases h with ⟨item, hitem, hshows⟩
  exact hshows.of_child (List.mem_append_left _ hitem)

end Tree

/-! ## Steps that carry a name -/

/-- Steps that lead from sessions of a run to sessions of the run. -/
abbrev Roots (host : Host) (last : Session) {α : Type} (step : Rewrite α) : Prop :=
  Keeps (rooting host last fun _ => False) .frame step

/-- Steps that do not take in the name. -/
abbrev Silent (host : Host) (last : Session) (addition : Addition) {α : Type} (step : Rewrite α) : Prop :=
  Keeps (rooting host last fun other => other = addition) .frame step

section Carries

variable (host : Host) (last : Session) (addition : Addition)

/-- In sessions of runs over the host that end in the last session: if the first step takes in the
name, or if it has been shown before, then the result of the second step shows it. -/
def Carries {α : Type} (before : Prop) (step other : Rewrite α) (shows : α → Prop) : Prop :=
  ∀ ⦃s t s' t' : Session⦄ ⦃a b : α⦄, step.runFrom s = (.ok a, s') → other.runFrom t = (.ok b, t') →
    s.Within host last → t.Within host last → last.Bounded s' → last.Bounded t' →
    before ∨ s'.tables.Holds addition ∧ ¬s.tables.Holds addition → shows b

/-- If the step takes in the name, the form that it gives shows the name, qualified. -/
abbrev CarriesForm (step other : Rewrite Tree) : Prop :=
  Carries host last addition False step other (Tree.Shows (addition.qualify last.context.qualifier))

/-- If the step takes in the name, one of the forms that it gives shows the name, qualified. -/
abbrev CarriesForms (step other : Rewrite (List Tree)) : Prop :=
  Carries host last addition False step other (Tree.ShowsAny (addition.qualify last.context.qualifier))

/-- The walk shows the name wherever it takes it in. -/
abbrev CarriesWalk (walk : Walk) : Prop :=
  ∀ form, CarriesForm host last addition (walk form) (walk form)

end Carries

namespace Carries

variable {host : Host} {last : Session} {addition : Addition} {α β : Type} {before : Prop}
  {step other : Rewrite α} {shows : α → Prop}

/-- A step that only gives a result takes in nothing, so its result has to show what has been shown
before. -/
theorem pure {a b : α} (h : before → shows b) : Carries host last addition before (pure a) (pure b) shows := by
  intro s t s' t' a' b' hrun hrun' _ _ _ _ hshown
  rw [runFrom_pure] at hrun hrun'
  cases hrun
  cases hrun'
  rcases hshown with hbefore | ⟨hnew, hold⟩
  · exact h hbefore
  · exact absurd hnew hold

theorem mono {shows' : α → Prop} (h : Carries host last addition before step other shows)
    (hshows : ∀ b, shows b → shows' b) : Carries host last addition before step other shows' := by
  intro s t s' t' a b hrun hrun' hs ht hs' ht' hshown
  exact hshows b (h hrun hrun' hs ht hs' ht' hshown)

/-- Steps that do not take in the name have nothing to show. -/
theorem silent [h : Silent host last addition step] :
    Carries host last addition False step other shows := by
  intro s t s' t' a b hrun _ hs _ hs' _ hshown
  rcases hshown with hnone | ⟨hnew, hold⟩
  · exact hnone.elim
  · exact absurd (((h.steps_of_run hrun).2 hs' hs.rooted).2 addition rfl hnew) hold

/-- In a sequence, the name is taken in by the first step or by what follows. -/
theorem bind {f g : α → Rewrite β} {shows' : β → Prop} [Roots host last step] [Roots host last other]
    [∀ a, Roots host last (f a)] [∀ a, Roots host last (g a)]
    (hstep : Carries host last addition False step other shows)
    (hnext : ∀ a b, Carries host last addition (before ∨ shows b) (f a) (g b) shows') :
    Carries host last addition before (step >>= f) (other >>= g) shows' := by
  intro s t s'' t'' a' b' hrun hrun' hs ht hs'' ht'' hshown
  rw [runFrom_bind] at hrun hrun'
  rcases hfirst : step.runFrom s with ⟨_ | a, s'⟩
  · rw [hfirst] at hrun
    cases hrun
  rcases hfirst' : other.runFrom t with ⟨_ | b, t'⟩
  · rw [hfirst'] at hrun'
    cases hrun'
  rw [hfirst] at hrun
  rw [hfirst'] at hrun'
  dsimp only at hrun hrun'
  -- the sessions in between belong to the runs, too
  have hs' : last.Bounded s' := (Keeps.steps_of_run (inferInstance : Roots host last (f a)) hrun).1.bounded hs''
  have ht' : last.Bounded t' := (Keeps.steps_of_run (inferInstance : Roots host last (g b)) hrun').1.bounded ht''
  have hroot := ((Keeps.steps_of_run (inferInstance : Roots host last step) hfirst).2 hs' hs.rooted).1
  have hroot' := ((Keeps.steps_of_run (inferInstance : Roots host last other) hfirst').2 ht' ht.rooted).1
  refine hnext a b hrun hrun' ⟨hroot, hs'⟩ ⟨hroot', ht'⟩ hs'' ht'' ?_
  rcases hshown with hbefore | ⟨hnew, hold⟩
  · exact .inl (.inl hbefore)
  · by_cases hbetween : s'.tables.Holds addition
    · exact .inl (.inr (hstep hfirst hfirst' hs ht hs' ht' (.inr ⟨hbetween, hold⟩)))
    · exact .inr ⟨hnew, hbetween⟩

/-- A first step that does not take in the name may be left out of account. -/
theorem skip {γ : Type} {step other : Rewrite γ} {f g : γ → Rewrite β} {shows' : β → Prop}
    [Roots host last step] [Roots host last other] [∀ a, Roots host last (f a)]
    [∀ a, Roots host last (g a)] [Silent host last addition step]
    (hnext : ∀ a b, Carries host last addition before (f a) (g b) shows') :
    Carries host last addition before (step >>= f) (other >>= g) shows' := by
  have hnone : Carries host last addition False step other fun _ => False := silent
  refine bind hnone fun a b => ?_
  rw [or_false]
  exact hnext a b

/-- The sessions that are read belong to the run. -/
theorem read {f g : Session → Rewrite β} {shows' : β → Prop}
    (h : ∀ s t, s.Within host last → t.Within host last →
      Carries host last addition before (f s) (g t) shows') :
    Carries host last addition before (get >>= f) (get >>= g) shows' := by
  intro s t s' t' a b hrun hrun' hs ht hs' ht' hshown
  rw [runFrom_bind, runFrom_get] at hrun hrun'
  exact h s t hs ht hrun hrun' hs ht hs' ht' hshown

/-- In a list, the name is taken in by one of the items. -/
theorem mapM {ι : Type} {items : List ι} {f g : ι → Rewrite α} [∀ item, Roots host last (f item)]
    [∀ item, Roots host last (g item)]
    (h : ∀ item, Carries host last addition False (f item) (g item) shows) :
    Carries host last addition False (items.mapM f) (items.mapM g) fun bs => ∃ b ∈ bs, shows b := by
  induction items with
  | nil =>
      rw [List.mapM_nil, List.mapM_nil]
      exact pure False.elim
  | cons item items ih =>
      rw [List.mapM_cons, List.mapM_cons]
      refine bind (h item) fun a b => bind ih fun as bs => pure ?_
      rintro ((hnone | hfirst) | ⟨b', hb', hshows⟩)
      · exact hnone.elim
      · exact ⟨b, List.mem_cons_self .., hfirst⟩
      · exact ⟨b', List.mem_cons_of_mem _ hb', hshows⟩

/-- In a list of forms, one of them shows the name. -/
theorem forms {ι : Type} {items : List ι} {f g : ι → Rewrite Tree} [∀ item, Roots host last (f item)]
    [∀ item, Roots host last (g item)]
    (h : ∀ item, CarriesForm host last addition (f item) (g item)) :
    CarriesForms host last addition (items.mapM f) (items.mapM g) :=
  mapM h

/-- No name is final already when a definition is met. -/
theorem notFinal {f g : Bool → Rewrite β} {shows' : β → Prop}
    (h : Carries host last addition before (f false) (g false) shows') :
    Carries host last addition before (takeNameIsFinal >>= f) (takeNameIsFinal >>= g) shows' := by
  intro s t s' t' a b hrun hrun' hs ht hs' ht' hshown
  have htake : ∀ u : Session, u.Within host last → takeNameIsFinal.runFrom u = (.ok false, u) := by
    intro u hu
    have hfinal := hu.rooted.nameIsFinal
    have hsame : ({ u with nameIsFinal := false } : Session) = u := by rw [← hfinal]
    have hrun : takeNameIsFinal.runFrom u = (.ok u.nameIsFinal, { u with nameIsFinal := false }) := rfl
    rw [hrun, hfinal, hsame]
  rw [runFrom_bind, htake s hs] at hrun
  rw [runFrom_bind, htake t ht] at hrun'
  exact h hrun hrun' hs ht hs' ht' hshown

/-- What is registered is what the name gives by itself. -/
theorem register (learn : Forms.Register) [Forms.Registers learn] (text : Text) :
    Carries host last addition False (register (learn text)) (Rewrite.register (learn text))
      fun _ => (learn text {}).Holds addition := by
  intro s t s' t' a b hrun _ _ _ _ _ hshown
  rcases hshown with hnone | ⟨hnew, hold⟩
  · exact hnone.elim
  · cases hrun
    exact ((Forms.Registers.holds_iff learn text s.tables addition).1 hnew).resolve_left hold

/-- Frames play no part. -/
theorem withFrame {names others : List Text}
    (h : Carries host last addition before step other shows) :
    Carries host last addition before (withFrame names step) (withFrame others other) shows := by
  intro s t s' t' a b hrun hrun' hs ht hs' ht' hshown
  rw [runFrom_withFrame] at hrun hrun'
  rcases hinner : step.runFrom (s.pushFrame names) with ⟨outcome, u⟩
  rcases hinner' : other.runFrom (t.pushFrame others) with ⟨outcome', v⟩
  rw [hinner] at hrun
  rw [hinner'] at hrun'
  cases hrun
  cases hrun'
  exact h hinner hinner' ⟨{ hs.rooted with }, { hs.bounded with }⟩
    ⟨{ ht.rooted with }, { ht.bounded with }⟩ { hs' with } { ht' with } hshown

/-- A first run that ends with a fault takes nothing in that counts. -/
theorem throw (fault : Fault) :
    Carries host last addition before (throw fault : Rewrite α) other shows := by
  intro s t s' t' a b hrun
  rw [runFrom_throw] at hrun
  cases hrun

end Carries

end LispNamespace
