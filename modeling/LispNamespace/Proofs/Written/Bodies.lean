import LispNamespace.Proofs.Passes
import LispNamespace.Proofs.Written.Convert

/-!
# Names that are found are defined in the output

A name is found while the forms of a body are converted, in the first pass or in the second one. The
output of the second pass defines it, unless its definition stands in a form whose treatment changes
in between.
-/

namespace LispNamespace

open Rewrite

/-! ## Forms that find a name -/

/-- In some session of a run over the host that ends in the last one, the conversion of the form takes
in the name. -/
def Tree.Finds (host : Host) (last : Session) (addition : Addition) (form : Tree) : Prop :=
  ∃ s s' result, s.Within host last ∧ last.Bounded s' ∧
    (convert form).runFrom s = (.ok result, s') ∧ s'.tables.Holds addition ∧ ¬s.tables.Holds addition

section Forms

variable {host : Host} {last : Session} {addition : Addition} {body results : List Tree}
  {t t' : Session}

/-- The forms after the first one are converted in a session of the run, too. -/
theorem Session.Within.next {form result : Tree} {rest : List Tree} (ht : t.Within host last)
    (hform : Roots host last (convert form)) {u : Session}
    (hrun : (convert form).runFrom t = (.ok result, u))
    (hrest : (body.mapM convert).runFrom u = (.ok rest, t')) (ht' : last.Bounded t') :
    u.Within host last := by
  have hu : last.Bounded u := (Growing.of_run hrest).bounded ht'
  exact ⟨((hform.steps_of_run hrun).2 hu ht.rooted).1, hu⟩

/-- If several forms take in a name, one of them does. -/
theorem exists_finds (hroots : ∀ form ∈ body, Roots host last (convert form))
    (hrun : (body.mapM convert).runFrom t = (.ok results, t')) (ht : t.Within host last)
    (ht' : last.Bounded t') (hnew : t'.tables.Holds addition) (hold : ¬t.tables.Holds addition) :
    ∃ form ∈ body, form.Finds host last addition := by
  induction body generalizing t results with
  | nil =>
      cases hrun
      exact absurd hnew hold
  | cons form others ih =>
      rcases List.forall_mem_cons.1 hroots with ⟨hform, hothers⟩
      rcases runFrom_mapM_cons.1 hrun with ⟨result, u, rest, hfirst, hrest, rfl⟩
      have hu := ht.next hform hfirst hrest ht'
      by_cases hheld : u.tables.Holds addition
      · exact ⟨form, List.mem_cons_self .., t, u, result, ht, hu.bounded, hfirst, hheld, hold⟩
      · rcases ih hothers hrest hu hheld with ⟨other, hother, hfinds⟩
        exact ⟨other, List.mem_cons_of_mem _ hother, hfinds⟩

/-- A form that can take in a name and does not hide it is written out with a definition of the name,
wherever it stands among the forms that are converted. -/
theorem showsAny_of_finds
    (hhost : ∀ name spec, host.grammars.lookup name = some spec →
      Grammar.isSelfContained spec = true)
    (hglobal : last.context.options.globalLookup = false)
    (hroots : ∀ form ∈ body, Roots host last (convert form))
    (hrun : (body.mapM convert).runFrom t = (.ok results, t')) (ht : t.Within host last)
    (ht' : last.Bounded t') {form : Tree} (hform : form ∈ body)
    (hclear : form.Clear host last addition (weight form))
    (hfinds : form.Finds host last addition) :
    Tree.ShowsAny (addition.qualify last.context.qualifier) results := by
  induction body generalizing t results with
  | nil => cases hform
  | cons first others ih =>
      rcases List.forall_mem_cons.1 hroots with ⟨hfirst, hothers⟩
      rcases runFrom_mapM_cons.1 hrun with ⟨result, u, rest, hstep, hrest, rfl⟩
      have hu := ht.next hfirst hstep hrest ht'
      rcases List.mem_cons.1 hform with rfl | hform
      -- the session that takes in the name is compared with the one that the form is met in
      · rcases hfinds with ⟨s, s', found, hs, hs', hfound, hnew, hold⟩
        have hcarries : CarriesForm host last addition (convert form) (convert form) :=
          carries_convertWithin hhost hglobal (weight form) hclear
        have hshows := hcarries hfound hstep hs ht hs' hu.bounded (.inr ⟨hnew, hold⟩)
        exact Tree.showsAny_cons.2 (.inl hshows)
      · exact Tree.showsAny_cons.2 (.inr (ih hothers hrest hu hform))

end Forms

namespace Namespace

/-- The session in which the rewrite of a body ends. -/
def ending (context : Context) (w : Workshop) (body : List Tree) : Session :=
  ((passes (forms body) (forms body)).runFrom (begin context w body)).2

/-- A workshop with the standard host. -/
def standardWorkshop : Workshop := { host := .standard }

/-- A macro, and a function that is defined inside a form of the host. -/
def guardedDefinition : List Tree :=
  [identityMacro "m" [], .call "when" [.sym "t", constantFunction "f" (.int 1)]]

/-- The root of the tree is no form whose treatment may change. -/
def isSteady (host : Host) (last : Session) (t : Tree) : Bool :=
  match t with
  | .list (.sym head :: _) =>
      !last.shifts host head &&
        (!FormRule.macroNames.contains head || !Definition.expanderHeads.any (last.shifts host))
  | _ => true

/-- Forms with steady heads only obscure nothing. -/
theorem not_obscures_of_isSteady {host : Host} {last : Session} {addition : Addition} {t : Tree}
    (h : isSteady host last t = true) : ¬t.Obscures host last addition := by
  rintro ⟨head, tail, rfl, ⟨hshifts, -⟩ | ⟨hkind, ⟨inner, hinner, hshifts⟩, -⟩⟩
  · simp [isSteady, Tree.call, hshifts] at h
  · have hany : Definition.expanderHeads.any (last.shifts host) = true :=
      List.any_eq_true.2 ⟨inner, hinner, hshifts⟩
    simp [isSteady, Tree.call, hkind, hany] at h

/-- The rewrite finds a name that nothing in its output defines. -/
def Dangling (options : WrittenOptions) (body : List Tree) (addition : Addition) : Prop :=
  ∃ context full w', Context.create {} (.str "foo-") options = .ok context ∧
    context.options.globalLookup = false ∧
    (rewrite {} (.str "foo-") options body).runFrom standardWorkshop = (.ok full, w') ∧
    (ending context standardWorkshop body).tables.Holds addition ∧
    ¬full.Shows (addition.qualify context.qualifier)

/-- Whether there is a result in which nothing defines the name. -/
def lacks (addition : Addition) (result : Except Fault Tree) : Bool :=
  match result with
  | .ok full => full.everywhere fun part => !part.defines addition
  | .error _ => false

/-- One run shows both: what its first pass takes in, and that the output lacks it. -/
theorem dangling_of_lacks {options : WrittenOptions} {body : List Tree} {addition : Addition}
    {context : Context} (hcontext : Context.create {} (.str "foo-") options = .ok context)
    (hglobal : context.options.globalLookup = false)
    (hruns : (ending context standardWorkshop body).tables.Holds addition ∧
      lacks (addition.qualify context.qualifier)
        ((rewrite {} (.str "foo-") options body).runFrom standardWorkshop).1 = true) :
    Dangling options body addition := by
  rcases hruns with ⟨hfound, hlacks⟩
  rcases hrun : (rewrite {} (.str "foo-") options body).runFrom standardWorkshop with ⟨fault | full, w'⟩
  · rw [hrun] at hlacks
    cases hlacks
  rw [hrun] at hlacks
  refine ⟨context, full, w', hcontext, hglobal, hrun, hfound, ?_⟩
  -- the test has been made of every part
  rintro ⟨part, hpart, hdefines⟩
  have hnone : (!part.defines (addition.qualify context.qualifier)) = true :=
    Tree.allParts_of_everywhere hlacks part hpart
  rw [hdefines.defines] at hnone
  cases hnone

/-- The definition of a variable. -/
def oneVariable (name : Text) : Tree := .call "defvar" [.sym name, .int 1]

end Namespace

end LispNamespace
