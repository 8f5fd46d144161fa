import LispNamespace.Proofs.Order.Tables
import LispNamespace.Proofs.Passes

/-!
# The order of the forms of a body

The forms of a body without macro definitions can be put in any order. Discovery finds the same
names, the rewriting pass finds no more, and each form is rewritten as before.

Discovery meets the forms with tables that are not complete. What a form adds to the tables does not
depend on them, so the tables in the end hold what each form adds by itself. All forms are then
rewritten with tables that hold the same names.
-/

namespace LispNamespace

/-! ## Single forms -/

/-- A session between two forms of a body. -/
structure Session.AtTop (context : Context) (host : Host) (s : Session) : Prop where
  plain : s.Plain context host
  frames : s.frames = []
  calls : s.tables.CallFunctions host

/-- The names in the tables, as additions to empty ones. -/
def Tables.additions (t : Tables) : List Addition :=
  t.variableNames.map .variable_ ++ t.functionNames.map .function

/-- What is added to empty tables is what they hold afterwards. -/
theorem Tables.Gain.additions {t u v : Tables} {as : List Addition} (hu : Gain {} as u)
    (hv : t.Gain as v) : t.Gain u.additions v := by
  have hvariable : ∀ name, .variable_ name ∈ u.additions ↔ .variable_ name ∈ as := by
    intro name
    have hmem := hu.1 name
    simp only [List.not_mem_nil, false_or] at hmem
    rw [← hmem]
    simp [Tables.additions]
  have hfunction : ∀ name, .function name ∈ u.additions ↔ .function name ∈ as := by
    intro name
    have hmem := hu.2 name
    simp only [List.not_mem_nil, false_or] at hmem
    rw [← hmem]
    simp [Tables.additions]
  constructor <;> intro name
  · rw [hv.1, hvariable]
  · rw [hv.2, hfunction]

theorem Session.atTop_start (context : Context) (host : Host) (journal : Journal) :
    (Session.start context host journal).AtTop context host :=
  ⟨⟨rfl, rfl, rfl, rfl, rfl⟩, rfl, fun _ h => nomatch h⟩

/-- What the conversion of a form adds to the tables when nothing has been found yet. -/
def Tree.registers (context : Context) (host : Host) (form : Tree) : List Addition :=
  ((convert form).runFrom (.fresh context host)).2.tables.additions

/-- Wherever in a body the form stands, its conversion succeeds and adds the same names. -/
def Tree.Settled (context : Context) (host : Host) (form : Tree) : Prop :=
  ∀ s : Session, s.AtTop context host → ∃ result s',
    (convert form).runFrom s = (.ok result, s') ∧ s'.AtTop context host ∧
      s.tables.Gain (form.registers context host) s'.tables

section Forms

variable {context : Context} {host : Host} (hglobal : context.options.globalLookup = false)

include hglobal

/-- A form that has been converted once, ending with functions that are called as such, can be
converted in any other place, and adds the same names there. -/
theorem convert_elsewhere {form result : Tree} {s s' t : Session}
    (hform : form.everywhere Tree.definesNoMacro = true) (hs : s.AtTop context host)
    (hrun : (convert form).runFrom s = (.ok result, s')) (hcalls : s'.tables.CallFunctions host)
    (ht : t.AtTop context host) :
    s'.AtTop context host ∧ ∃ result' t', (convert form).runFrom t = (.ok result', t') ∧
      t'.AtTop context host ∧
        ∃ additions, s.tables.Gain additions s'.tables ∧ t.tables.Gain additions t'.tables := by
  have hD : (Comparison.sameGains context host s.tables t.tables).Defining :=
    Comparison.defining_sameGains s.tables t.tables
  have hfollows := Comparison.follows_convert (Comparison.lawful_sameGains hglobal s.tables t.tables)
    (Comparison.admitsForms_of_noMacros hD fun _ => Tree.test_of_everywhere) form hform
  obtain ⟨result', t', hrun', -, hs', ht', hcalls', hgain⟩ := hfollows s t
    ⟨hs.plain, ht.plain, ht.calls, [], .refl _, .refl _⟩ hs.calls result s' hrun hcalls
  have hframes := (Rewrite.Growing.of_run hrun).frames_eq_nil hs.frames
  have hframes' := (Rewrite.Growing.of_run hrun').frames_eq_nil ht.frames
  exact ⟨⟨hs', hframes, hcalls⟩, result', t', hrun', ⟨ht', hframes', hcalls'⟩, hgain⟩

/-- A form that has been converted once can be converted wherever it stands. -/
theorem settled_of_run {form result : Tree} {s s' : Session}
    (hform : form.everywhere Tree.definesNoMacro = true) (hs : s.AtTop context host)
    (hrun : (convert form).runFrom s = (.ok result, s')) (hcalls : s'.tables.CallFunctions host) :
    form.Settled context host := by
  -- what the form registers is read off a run from the fresh session, so it is run there first
  have hfresh := Session.atTop_start context host []
  rcases convert_elsewhere hglobal hform hs hrun hcalls hfresh with ⟨-, _, f', hrun', hf', -⟩
  intro t ht
  obtain ⟨-, result', t', ht'run, ht', additions, hgain, hgain'⟩ :=
    convert_elsewhere hglobal hform hfresh hrun' hf'.calls ht
  refine ⟨result', t', ht'run, ht', ?_⟩
  have hregisters : form.registers context host = f'.tables.additions := by
    unfold Tree.registers Session.fresh
    rw [hrun']
  rw [hregisters]
  exact hgain.additions hgain'

/-! ## Bodies -/

/-- The forms that a run over a body has converted are settled, because the tables at its end hold
those of each moment before. -/
theorem settled_of_mapM {body results : List Tree} {s s' : Session}
    (hbody : ∀ form ∈ body, form.everywhere Tree.definesNoMacro = true) (hs : s.AtTop context host)
    (hrun : (body.mapM convert).runFrom s = (.ok results, s'))
    (hcalls : s'.tables.CallFunctions host) : ∀ form ∈ body, form.Settled context host := by
  induction body generalizing s results with
  | nil => exact fun _ h => nomatch h
  | cons form rest ih =>
      rcases Rewrite.runFrom_mapM_cons.1 hrun with ⟨result, s₁, results', hfirst, hrest, -⟩
      -- the tables in between hold no function that is not there at the end
      have hcalls₁ : s₁.tables.CallFunctions host := fun name hname =>
        hcalls name ((Rewrite.Growing.of_run hrest).functionNames name hname)
      have hform := hbody form (List.mem_cons_self ..)
      have hs₁ := (convert_elsewhere hglobal hform hs hfirst hcalls₁ hs).1
      intro other hother
      rcases List.mem_cons.1 hother with rfl | hmem
      · exact settled_of_run hglobal hform hs hfirst hcalls₁
      · exact ih (fun form h => hbody form (List.mem_cons_of_mem _ h)) hs₁ hrest other hmem

omit hglobal in
/-- A body of settled forms adds what each of them adds. -/
theorem mapM_of_settled {body : List Tree} (hbody : ∀ form ∈ body, form.Settled context host)
    {s : Session} (hs : s.AtTop context host) :
    ∃ results s', (body.mapM convert).runFrom s = (.ok results, s') ∧ s'.AtTop context host ∧
      s.tables.Gain (body.flatMap (Tree.registers context host)) s'.tables := by
  induction body generalizing s with
  | nil => exact ⟨[], s, rfl, hs, .refl _⟩
  | cons form rest ih =>
      rcases hbody form (List.mem_cons_self ..) s hs with ⟨result, s₁, hfirst, hs₁, hgain⟩
      obtain ⟨results, s₂, hrest, hs₂, hgain'⟩ :=
        ih (fun form h => hbody form (List.mem_cons_of_mem _ h)) hs₁
      refine ⟨result :: results, s₂, ?_, hs₂, ?_⟩
      · exact Rewrite.runFrom_mapM_cons.2 ⟨result, s₁, results, hfirst, hrest, rfl⟩
      · rw [List.flatMap_cons]
        exact hgain.trans hgain'

end Forms

/-! ## Complete tables -/

/-- Tables that hold all additions gain nothing by them. -/
theorem Tables.Gain.same {t u : Tables} {additions : List Addition} (h : t.Gain additions u)
    (hholds : ∀ addition ∈ additions, t.Holds addition) (hmacros : u.macros = t.macros)
    (hgrammars : u.grammars = t.grammars) : t.Same u where
  variableNames name := by
    rw [h.1]
    exact ⟨fun hname => hname.elim id fun hnew => hholds _ hnew, .inl⟩
  functionNames name := by
    rw [h.2]
    exact ⟨fun hname => hname.elim id fun hnew => hholds _ hnew, .inl⟩
  macros name := by rw [hmacros]
  grammars := hgrammars

/-- Tables that gain the same names become the same. -/
theorem Tables.Gain.same_of_mem {t u v : Tables} {as bs : List Addition} (h : t.Gain as u)
    (h' : t.Gain bs v) (hmem : ∀ addition, addition ∈ bs ↔ addition ∈ as)
    (hmacros : v.macros = u.macros) (hgrammars : v.grammars = u.grammars) : u.Same v where
  variableNames name := by rw [h.1, h'.1, hmem]
  functionNames name := by rw [h.2, h'.2, hmem]
  macros name := by rw [hmacros]
  grammars := hgrammars

theorem Tables.Holds.of_same {t u : Tables} (h : t.Same u) {addition : Addition}
    (hholds : t.Holds addition) : u.Holds addition := by
  cases addition with
  | variable_ name => exact (h.variableNames name).2 hholds
  | function name => exact (h.functionNames name).2 hholds

/-- Tables that were empty hold what they have gained. -/
theorem Tables.Gain.holds {t u : Tables} {additions : List Addition} (h : t.Gain additions u) :
    ∀ addition ∈ additions, u.Holds addition := by
  intro addition hmem
  cases addition with
  | variable_ name => exact (h.1 name).2 (.inr hmem)
  | function name => exact (h.2 name).2 (.inr hmem)

/-- What a form is rewritten to from a session. -/
def Tree.rewrittenFrom (s : Session) (form : Tree) : Tree :=
  match ((convert form).runFrom s).1 with
  | .ok result => result
  | .error _ => form

section Rewriting

variable {context : Context} {host : Host} {reference s : Session}

/-- Two sessions with the same complete tables rewrite a form to the same result, and it adds
nothing to the tables. -/
theorem convert_of_complete {form : Tree} (hform : form.everywhere Tree.definesNoMacro = true)
    (hsettled : form.Settled context host) (hreference : reference.AtTop context host)
    (hholds : ∀ addition ∈ form.registers context host, reference.tables.Holds addition)
    (hs : s.AtTop context host) (hsame : reference.tables.Same s.tables) :
    ∃ s', (convert form).runFrom s = (.ok (form.rewrittenFrom reference), s') ∧
      s'.AtTop context host ∧ reference.tables.Same s'.tables := by
  rcases hsettled reference hreference with ⟨result, r', hrun, -, -⟩
  rcases hsettled s hs with ⟨result', s', hrun', hs', hgain⟩
  -- both sessions hold the same names, so the results are the same
  have hD : (Comparison.sameNames context host).Defining := Comparison.defining_sameNames
  have hfollows := Comparison.follows_convert Comparison.lawful_sameNames
    (Comparison.admitsForms_of_noMacros hD fun _ => Tree.test_of_everywhere) form hform
  have hframes : s.frames = reference.frames := hs.frames.trans hreference.frames.symm
  obtain ⟨b, t', hrun₂, hb, -⟩ := hfollows reference s
    ⟨hreference.plain, hs.plain, hframes, hsame⟩ trivial result r' hrun trivial
  rw [hrun'] at hrun₂
  cases hrun₂
  have hresult : form.rewrittenFrom reference = result := by
    unfold Tree.rewrittenFrom
    rw [hrun]
  refine ⟨s', ?_, hs', ?_⟩
  · rw [hrun', hresult, hb]
  -- the names that the form registers are in the tables already
  · have hmacros : s'.tables.macros = s.tables.macros :=
      hs'.plain.macros.trans hs.plain.macros.symm
    have hgrammars : s'.tables.grammars = s.tables.grammars :=
      hs'.plain.grammars.trans hs.plain.grammars.symm
    have hholds' := fun addition hmem => (hholds addition hmem).of_same hsame
    exact hsame.trans (hgain.same hholds' hmacros hgrammars)

/-- With tables that are complete, a body is rewritten form by form, each form as it is from the
reference session. The tables gain nothing, so they stay complete. -/
theorem mapM_of_complete {body : List Tree}
    (hbody : ∀ form ∈ body, form.everywhere Tree.definesNoMacro = true)
    (hsettled : ∀ form ∈ body, form.Settled context host)
    (hreference : reference.AtTop context host)
    (hholds : ∀ form ∈ body, ∀ addition ∈ form.registers context host,
      reference.tables.Holds addition)
    (hs : s.AtTop context host) (hsame : reference.tables.Same s.tables) :
    ∃ s', (body.mapM convert).runFrom s = (.ok (body.map (Tree.rewrittenFrom reference)), s') ∧
      reference.tables.Same s'.tables := by
  induction body generalizing s with
  | nil => exact ⟨s, rfl, hsame⟩
  | cons form rest ih =>
      have hmem : form ∈ form :: rest := List.mem_cons_self ..
      obtain ⟨s₁, hfirst, hs₁, hsame₁⟩ := convert_of_complete (hbody form hmem)
        (hsettled form hmem) hreference (hholds form hmem) hs hsame
      obtain ⟨s₂, hrest, hsame₂⟩ := ih (fun form h => hbody form (List.mem_cons_of_mem _ h))
        (fun form h => hsettled form (List.mem_cons_of_mem _ h))
        (fun form h => hholds form (List.mem_cons_of_mem _ h)) hs₁ hsame₁
      exact ⟨s₂, Rewrite.runFrom_mapM_cons.2 ⟨_, s₁, _, hfirst, hrest, rfl⟩, hsame₂⟩

end Rewriting

/-! ## Main result -/

namespace Namespace

/-- A pass begins where the one before it ended. -/
theorem atTop_withPass {context : Context} {host : Host} {s : Session}
    (hs : s.AtTop context host) (pass : Pass) :
    ({ s with pass := pass } : Session).AtTop context host :=
  ⟨{ hs.plain with }, hs.frames, hs.calls⟩

/-- Rewriting does not depend on the order of the forms. If discovery succeeds on a body without
macro definitions, and finds no function that has a rule or is a macro of the host, then the
rewriting pass succeeds and adds nothing to the tables, and every other order of the forms yields
the same names and the results in that order. -/
theorem passes_ignore_order {context : Context} {host : Host} {journal : Journal}
    {body : List Tree} {s₁ : Session} (hglobal : context.options.globalLookup = false)
    (hbody : ∀ form ∈ body, form.everywhere Tree.definesNoMacro = true)
    (hdiscover : (discover body).runFrom (.start context host journal) = (.ok (), s₁))
    (hcalls : ∀ name ∈ s₁.tables.functionNames,
      FormRule.ofHead? name = none ∧ host.isMacroName name = false) :
    ∃ (rewritten : Tree → Tree) (s₂ : Session),
      (transform body).runFrom s₁ = (.ok (body.map rewritten), s₂) ∧ s₁.tables.Same s₂.tables ∧
      ∀ body' : List Tree, body'.Perm body → ∃ s₁' s₂' : Session,
        (discover body').runFrom (.start context host journal) = (.ok (), s₁') ∧
        s₁.tables.Same s₁'.tables ∧
        (transform body').runFrom s₁' = (.ok (body'.map rewritten), s₂') ∧
        s₁'.tables.Same s₂'.tables := by
  have hstart := atTop_withPass (Session.atTop_start context host journal) .discovery
  rcases runFrom_discover.1 hdiscover with ⟨results, hrun⟩
  have hsettled := settled_of_mapM hglobal hbody hstart hrun hcalls
  -- discovery has met the settled forms, so it has found what each of them registers by itself
  rcases mapM_of_settled hsettled hstart with ⟨_, _, hrun', hs₁, hgain⟩
  rw [hrun] at hrun'
  cases hrun'
  have hholds : ∀ form ∈ body, ∀ addition ∈ form.registers context host,
      s₁.tables.Holds addition := by
    intro form hform addition haddition
    exact hgain.holds addition (List.mem_flatMap.2 ⟨form, hform, haddition⟩)
  obtain ⟨s₂, htransform, hsame⟩ := mapM_of_complete hbody hsettled hs₁ hholds
    (atTop_withPass hs₁ .rewriting) (.refl _)
  refine ⟨Tree.rewrittenFrom s₁, s₂, ?_, hsame, fun body' hperm => ?_⟩
  · rw [runFrom_transform]
    exact htransform
  -- in another order, the forms register the same names, and are rewritten with the same tables
  · have hsettled' : ∀ form ∈ body', form.Settled context host :=
      fun form h => hsettled form (hperm.mem_iff.1 h)
    rcases mapM_of_settled hsettled' hstart with ⟨_, s₁', hrun', hs₁', hgain'⟩
    have hmem := fun addition => (hperm.flatMap_right (Tree.registers context host)).mem_iff
      (a := addition)
    have hsame' : s₁.tables.Same s₁'.tables := hgain.same_of_mem hgain' hmem
      (hs₁'.plain.macros.trans hs₁.plain.macros.symm)
      (hs₁'.plain.grammars.trans hs₁.plain.grammars.symm)
    obtain ⟨s₂', htransform', hsame₂⟩ := mapM_of_complete
      (fun form h => hbody form (hperm.mem_iff.1 h)) hsettled' hs₁
      (fun form h => hholds form (hperm.mem_iff.1 h)) (atTop_withPass hs₁' .rewriting) hsame'
    refine ⟨s₁', s₂', runFrom_discover.2 ⟨_, hrun'⟩, hsame', ?_, hsame'.symm.trans hsame₂⟩
    rw [runFrom_transform]
    exact htransform'

/-- A function may be called before it is defined. -/
theorem passes_ignore_order_call :
    ∃ (s₁ s₂ : Session) (rewritten : Tree → Tree),
      (discover [.call "f" [.nil], .recursion "f"]).runFrom (.unset "p-") = (.ok (), s₁) ∧
      (transform [.call "f" [.nil], .recursion "f"]).runFrom s₁ =
        (.ok [rewritten (.call "f" [.nil]), rewritten (.recursion "f")], s₂) ∧
      ∃ s₁' s₂' : Session,
        (discover [.recursion "f", .call "f" [.nil]]).runFrom (.unset "p-") = (.ok (), s₁') ∧
        (transform [.recursion "f", .call "f" [.nil]]).runFrom s₁' =
          (.ok [rewritten (.recursion "f"), rewritten (.call "f" [.nil])], s₂') := by
  have hdiscover : (discover [.call "f" [.nil], .recursion "f"]).runFrom (.unset "p-") =
      (.ok (), ((discover [.call "f" [.nil], .recursion "f"]).runFrom (.unset "p-")).2) := rfl
  obtain ⟨rewritten, s₂, htransform, -, horders⟩ :=
    passes_ignore_order rfl (by decide) hdiscover (by decide)
  rcases horders _ (List.Perm.swap _ _ []) with ⟨s₁', s₂', hdiscover', -, htransform', -⟩
  exact ⟨_, s₂, rewritten, hdiscover, htransform, s₁', s₂', hdiscover', htransform'⟩

end Namespace

end LispNamespace
