import LispNamespace.Proofs.Autoload.Sessions
import LispNamespace.Proofs.Passes

/-!
# The marked forms of a body

If only the marked forms of a body are written out, they come out as in the rewrite of the whole body,
as long as the unmarked forms leave no traces that a marked form can see. In the rewriting pass, an
unmarked form leaves a trace where it changes the tables of the namespace or the grammars of the host,
where it leaves the next definition with a final name, and where it tells the host of a macro.
-/

namespace LispNamespace

open Rewrite

namespace Namespace

/-! ## Marks -/

/-- Which forms of a body are marked. -/
def marksFrom (pending : Bool) : List Tree → List Bool
  | [] => []
  | form :: rest =>
      if form.isSym autoloadMarker then marksFrom true rest else pending :: marksFrom false rest

/-- Which forms of a body are marked. -/
def marks (body : List Tree) : List Bool := marksFrom false body

/-- The items at the marked places. -/
def pick {α : Type} : List Bool → List α → List α
  | true :: marks, item :: items => item :: pick marks items
  | false :: marks, _ :: items => pick marks items
  | _, _ => []

/-- The marked forms of a body are those that its marks pick, also when a mark is already pending.
-/
theorem splitMarked_marks (pending : Bool) (body : List Tree) :
    (splitMarked pending body).2.1 = pick (marksFrom pending body) (splitMarked pending body).1 := by
  induction body generalizing pending with
  | nil => rfl
  | cons form rest ih =>
      unfold splitMarked marksFrom
      by_cases hmarker : form.isSym autoloadMarker = true
      · rw [if_pos hmarker, if_pos hmarker]
        exact ih true
      · rw [if_neg hmarker, if_neg hmarker]
        cases pending with
        | true => exact congrArg (form :: ·) (ih false)
        | false => exact ih false

/-- The forms that an autoload file rewrites are those forms of the body that carry a mark. -/
theorem marked_eq (body : List Tree) : marked body = pick (marks body) (forms body) :=
  splitMarked_marks false body

/-! ## Traces of unmarked forms -/

/-- The session after the conversion of a form. -/
def after (s : Session) (form : Tree) : Session := ((convert form).runFrom s).2

/-- While all forms are converted in order, those without a mark change nothing but what macros the
host knows. -/
def Undisturbed : List Bool → List Tree → Session → Prop
  | mark :: marks, form :: forms, s =>
      (mark = false → (after s form).tables = s.tables ∧
        (after s form).host.grammars = s.host.grammars ∧
        (after s form).nameIsFinal = s.nameIsFinal) ∧
      Undisturbed marks forms (after s form)
  | _, _, _ => True

/-- The macros that the host learns of from the forms without a mark. -/
def lateMacros : List Bool → List Tree → Session → List Text
  | mark :: marks, form :: forms, s =>
      (if mark then [] else s.host.learned (after s form).host) ++
        lateMacros marks forms (after s form)
  | _, _, _ => []

/-! ## The rewriting pass -/

/-- The session in which the rewriting pass begins. -/
def surveyed (context : Context) (w : Workshop) (body : List Tree) : Session :=
  ((survey (forms body)).runFrom (begin context w body)).2

/-- The conversion of a form that leaves no traces but late macros goes unnoticed. -/
theorem lags_of_run {context : Context} {late : List Text} {found : Tables} {s s' t : Session}
    {form result : Tree} (h : s.Lags context late found t)
    (hrun : (convert form).runFrom s = (.ok result, s')) (htables : s'.tables = s.tables)
    (hgrammars : s'.host.grammars = s.host.grammars) (hfinal : s'.nameIsFinal = s.nameIsFinal)
    (hlate : ∀ name ∈ s.host.learned s'.host, name ∈ late) : s'.Lags context late found t := by
  have hkeeps : Keeps growth .form (convert form) := inferInstance
  rcases hkeeps.steps_of_run hrun with ⟨hgrows, hframes⟩
  -- the host knows a macro that is not late now if it knew it before
  have hmacros : ∀ name, name ∉ late → s'.host.isMacroName name = s.host.isMacroName name := by
    intro name hname
    rw [Bool.eq_iff_iff]
    constructor
    · intro hknown
      cases hbefore : s.host.isMacroName name with
      | true => rfl
      | false => exact absurd (hlate name (Host.mem_learned.2 ⟨hknown, hbefore⟩)) hname
    · intro hbefore
      rw [Host.isMacroName_eq_isSome, Option.isSome_iff_exists] at hbefore ⊢
      rcases hbefore with ⟨expands, hlookup⟩
      exact ⟨expands, hgrows.hostMacros name expands hlookup⟩
  exact {
    context := hgrows.context.trans h.context
    sameContext := h.sameContext.trans hgrows.context.symm
    tables := h.tables.trans htables.symm
    frames := h.frames.trans hframes.symm
    pass := h.pass.trans hgrows.pass.symm
    nameIsFinal := h.nameIsFinal.trans hfinal.symm
    hostVariables := h.hostVariables.trans hgrows.hostVariables.symm
    hostFunctions := h.hostFunctions.trans hgrows.hostFunctions.symm
    hostGrammars := h.hostGrammars.trans hgrammars.symm
    expands := fun name => (h.expands name).trans (hgrows.hostExpands name).symm
    hostMacros := fun name hname => (h.hostMacros name hname).trans (hmacros name hname).symm
    macros := fun name hname => hgrows.macros name (h.macros name hname)
    functionNames := fun name hname => hgrows.functionNames name (h.functionNames name hname) }

/-- If the unmarked forms leave no traces but late macros, and no marked form calls one of these, the
marked forms alone are converted as among all forms. -/
theorem mapM_pick_of_lags {context : Context} {late : List Text} {found : Tables}
    (hcover : found.Cover context late) {marks : List Bool} {forms results : List Tree}
    {s s' t : Session} (hrun : (forms.mapM convert).runFrom s = (.ok results, s'))
    (h : s.Lags context late found t) (hundisturbed : Undisturbed marks forms s)
    (hlate : ∀ name ∈ lateMacros marks forms s, name ∈ late)
    (hcalls : ∀ form ∈ pick marks forms,
      form.AllParts fun part => part.callsOneOf context late = false) :
    ∃ t', ((pick marks forms).mapM convert).runFrom t = (.ok (pick marks results), t') := by
  induction forms generalizing marks results s t with
  | nil =>
      cases hrun
      cases marks with
      | nil => exact ⟨t, rfl⟩
      | cons mark _ => cases mark <;> exact ⟨t, rfl⟩
  | cons form forms ih =>
      rcases Rewrite.runFrom_mapM_cons.1 hrun with ⟨result, s₁, rest, hfirst, hrest, rfl⟩
      have hafter : after s form = s₁ := by
        unfold after
        rw [hfirst]
      cases marks with
      | nil => exact ⟨t, rfl⟩
      | cons mark marks =>
          unfold Undisturbed at hundisturbed
          unfold lateMacros at hlate
          rw [hafter] at hundisturbed hlate
          rcases hundisturbed with ⟨hhere, hthere⟩
          have hlate' : ∀ name ∈ lateMacros marks forms s₁, name ∈ late :=
            fun name hname => hlate name (List.mem_append_right _ hname)
          cases mark with
          -- an unmarked form is skipped by the second run
          | false =>
              rcases hhere rfl with ⟨htables, hgrammars, hfinal⟩
              have hlate₁ : ∀ name ∈ s.host.learned s₁.host, name ∈ late :=
                fun name hname => hlate name (List.mem_append_left _ hname)
              have hlags := lags_of_run h hfirst htables hgrammars hfinal hlate₁
              exact ih hrest hlags hthere hlate' hcalls
          -- a marked form is converted by both
          | true =>
              rcases List.forall_mem_cons.1 hcalls with ⟨hform, hcalls'⟩
              obtain ⟨result', t₁, hfirst', heq, hlags⟩ := Comparison.follows_convert
                (Comparison.lawful_lagging hcover) Comparison.admitsForms_lagging form hform s t h
                trivial result s₁ hfirst trivial
              rcases ih hrest hlags hthere hlate' hcalls' with ⟨t', hrest'⟩
              refine ⟨t', Rewrite.runFrom_mapM_cons.2 ⟨result', t₁, _, hfirst', hrest', ?_⟩⟩
              rw [show result' = result from heq]
              rfl

/-! ## Main result -/

/-- The macros that the host learns of from the unmarked forms of a body while all of it is
rewritten. -/
def lateMacrosOf (context : Context) (w : Workshop) (body : List Tree) : List Text :=
  lateMacros (marks body) (forms body) (surveyed context w body)

/-- The result for the marked forms alone holds, in order, what the result for the whole body holds in
the places of the marked forms, behind the customization group. -/
def PicksMarked (groups : List Tree) (body : List Tree) (full short : Tree) : Prop :=
  ∃ rewritten, rewritten.length = (forms body).length ∧
    full = Tree.call "progn" (groups ++ rewritten) ∧
    short = Tree.call "progn" (pick (marks body) rewritten)

/-- The marked forms of a body are written out alone as in the rewrite of the whole body. This asks
that the unmarked forms leave no traces in the rewriting pass, except for macros that the host learns
of; that no call in a marked form asks the host about one of these; and, under the option to look names
up in the host, that discovery has found all of these that are named with the qualifier. -/
theorem autoload_picks_marked {ambient : Ambient} {identifier : Tree} {options : WrittenOptions}
    {body : List Tree} {context : Context} {w w₁ : Workshop} {full : Tree}
    (hcontext : Context.create ambient identifier options = .ok context)
    (hfull : (rewrite ambient identifier options body).runFrom w = (.ok full, w₁))
    (hundisturbed : Undisturbed (marks body) (forms body) (surveyed context w body))
    (hcover : (surveyed context w body).tables.Cover context (lateMacrosOf context w body))
    (hcalls : ∀ form ∈ marked body,
      form.AllParts fun part => part.callsOneOf context (lateMacrosOf context w body) = false) :
    ∃ groups short w₂, context.groupForms = .ok groups ∧
      (autoload ambient identifier options body).runFrom w = (.ok short, w₂) ∧
      PicksMarked groups body full short := by
  rcases runFrom_rewrite.1 hfull with
    ⟨created, rewritten, groups, s, hcreated, hactive, hpasses, hgroups, hresult, -⟩
  rw [hcontext] at hcreated
  cases hcreated
  rcases runFrom_passes.1 hpasses with ⟨s₁, hsurvey, hrun⟩
  have hsurveyed : surveyed context w body = s₁ := by
    unfold surveyed
    rw [hsurvey]
  unfold lateMacrosOf at hcover hcalls
  rw [hsurveyed] at hundisturbed hcover hcalls
  rw [marked_eq] at hcalls
  -- both rewriting passes begin in the session in which discovery ends
  have hbegin : s₁.Lags context (lateMacros (marks body) (forms body) s₁) s₁.tables s₁ := by
    rcases of_runFrom_survey hsurvey with ⟨j, results, s', k, hdiscovery, rfl⟩
    have hsame : s'.context = context := (Growing.of_run hdiscovery).context
    exact {
      context := hsame
      sameContext := rfl
      tables := rfl
      frames := rfl
      pass := rfl
      nameIsFinal := rfl
      hostVariables := rfl
      hostFunctions := rfl
      hostGrammars := rfl
      expands := fun _ => rfl
      hostMacros := fun _ _ => rfl
      macros := fun _ hname => hname
      functionNames := fun _ hname => hname }
  obtain ⟨t', hmarked⟩ := mapM_pick_of_lags hcover hrun hbegin hundisturbed (fun _ h => h) hcalls
  rw [← marked_eq] at hmarked
  refine ⟨groups, _, _, hgroups, runFrom_autoload.2 ⟨context, _, t', hcontext, hactive,
    runFrom_passes.2 ⟨s₁, hsurvey, hmarked⟩, rfl, rfl⟩, rewritten, ?_, hresult, rfl⟩
  exact length_of_mapM hrun

/-- Whether two sessions without grammars hold the same names and expect the same definition next. -/
def sameNames (s t : Session) : Bool :=
  s.tables.variableNames == t.tables.variableNames &&
    s.tables.functionNames == t.tables.functionNames && s.tables.macros == t.tables.macros &&
    s.grammars.isEmpty && t.grammars.isEmpty && s.nameIsFinal == t.nameIsFinal

/-- Without grammars, the names are all that the tables hold. -/
theorem of_sameNames {s t : Session} (h : sameNames s t = true) :
    s.tables = t.tables ∧ s.host.grammars = t.host.grammars ∧ s.nameIsFinal = t.nameIsFinal := by
  unfold sameNames Session.grammars at h
  simp only [Bool.and_eq_true, beq_iff_eq, List.isEmpty_iff, List.append_eq_nil_iff] at h
  rcases h with ⟨⟨⟨⟨⟨hvariables, hfunctions⟩, hmacros⟩, hnone, hnoneOfHost⟩, hnone', hnoneOfHost'⟩, hfinal⟩
  refine ⟨?_, hnoneOfHost.trans hnoneOfHost'.symm, hfinal⟩
  rcases hs : s.tables with ⟨variableNames, functionNames, macros, grammars⟩
  rcases ht : t.tables with ⟨variableNames', functionNames', macros', grammars'⟩
  rw [hs, ht] at hvariables hfunctions hmacros
  rw [hs] at hnone
  rw [ht] at hnone'
  dsimp only at hvariables hfunctions hmacros hnone hnone'
  rw [hvariables, hfunctions, hmacros, hnone, hnone']

/-- A workshop whose host knows how to expand macro definitions, and nothing else. -/
def bareWorkshop : Workshop := { host := ⟨[], [], [("defmacro", true)], []⟩ }

/-- A macro, a marked function that calls it, and one more function. -/
def markedCall : List Tree :=
  [identityMacro "m" [], .sym autoloadMarker, constantFunction "f" (.call "m" [.int 1]),
    constantFunction "g" (.int 1)]

/-- A marked function that calls a macro of the namespace is written out alone as among the other
forms. -/
theorem autoload_picks_marked_call :
    ∃ groups full short w₁ w₂,
      (rewrite {} (.str "foo-") .none markedCall).runFrom bareWorkshop = (.ok full, w₁) ∧
      (autoload {} (.str "foo-") .none markedCall).runFrom bareWorkshop = (.ok short, w₂) ∧
      PicksMarked groups markedCall full short := by
  have hcontext : Context.create {} (.str "foo-") .none = .ok (.unset "foo-") := rfl
  obtain ⟨full, w₁, hfull⟩ :
      ∃ full w₁, (rewrite {} (.str "foo-") .none markedCall).runFrom bareWorkshop = (.ok full, w₁) :=
    exists_of_isOk (by decide +kernel)
  -- all names are known by the second pass, so a form without a mark adds nothing to the tables
  have hundisturbed : Undisturbed (marks markedCall) (forms markedCall)
      (surveyed (.unset "foo-") bareWorkshop markedCall) := by
    have hmarks : marks markedCall = [false, true, false] := by decide +kernel
    have hforms : forms markedCall = [identityMacro "m" [], constantFunction "f" (.call "m" [.int 1]),
      constantFunction "g" (.int 1)] := rfl
    have hsame : ∀ s, s = surveyed (.unset "foo-") bareWorkshop markedCall →
        sameNames (after s (identityMacro "m" [])) s = true ∧
        sameNames (after (after (after s (identityMacro "m" []))
            (constantFunction "f" (.call "m" [.int 1]))) (constantFunction "g" (.int 1)))
          (after (after s (identityMacro "m" [])) (constantFunction "f" (.call "m" [.int 1]))) = true := by
      intro s hs
      rw [hs]
      decide +kernel
    rw [hmarks, hforms]
    generalize hs : surveyed (.unset "foo-") bareWorkshop markedCall = s
    rcases hsame s hs.symm with ⟨hfirst, hthird⟩
    exact ⟨fun _ => of_sameNames hfirst, Bool.noConfusion, fun _ => of_sameNames hthird, trivial⟩
  have hcalls : ∀ form ∈ marked markedCall, form.AllParts fun part =>
      part.callsOneOf (.unset "foo-") (lateMacrosOf (.unset "foo-") bareWorkshop markedCall) = false := by
    have htest : ∀ form ∈ marked markedCall, (form.everywhere fun part =>
        !part.callsOneOf (.unset "foo-") (lateMacrosOf (.unset "foo-") bareWorkshop markedCall)) = true := by
      decide +kernel
    intro form hform part hpart
    rw [← Bool.not_eq_true']
    exact Tree.allParts_of_everywhere (htest form hform) part hpart
  obtain ⟨groups, short, w₂, -, hshort, hpicks⟩ := autoload_picks_marked hcontext hfull hundisturbed
    (fun hglobal => nomatch hglobal) hcalls
  exact ⟨groups, full, short, w₁, w₂, hfull, hshort, hpicks⟩

/-! ## Traces that marked forms see -/

/-- Both results exist, but disagree about the marked forms, whatever group stands in front. -/
def Disagree (options : WrittenOptions) (body : List Tree) (w : Workshop) : Prop :=
  ∃ full short w₁ w₂,
    (rewrite {} (.str "foo-") options body).runFrom w = (.ok full, w₁) ∧
    (autoload {} (.str "foo-") options body).runFrom w = (.ok short, w₂) ∧
    ∀ groups, ¬PicksMarked groups body full short

/-- Whether what stands in the marked places of the first result is not written like the second
one. -/
def sourcesDiffer (body : List Tree) (full short : Except Fault Tree) : Bool :=
  match full, short with
  | .ok (.list (_ :: items)), .ok short =>
      items.length == (forms body).length &&
        (Tree.call "progn" (pick (marks body) items)).source != short.source
  | _, _ => false

/-- If both results hold as many forms as the body, no group stands in front, and they disagree if
they are written differently. -/
theorem disagree_of_sourcesDiffer {options : WrittenOptions} {body : List Tree} {w : Workshop}
    (h : sourcesDiffer body ((rewrite {} (.str "foo-") options body).runFrom w).1
      ((autoload {} (.str "foo-") options body).runFrom w).1 = true) : Disagree options body w := by
  rcases hfull : (rewrite {} (.str "foo-") options body).runFrom w with ⟨fault | full, w₁⟩
  · rw [hfull] at h
    cases h
  rcases hshort : (autoload {} (.str "foo-") options body).runFrom w with ⟨fault | short, w₂⟩
  · rw [hfull, hshort] at h
    unfold sourcesDiffer at h
    split at h
    · next heq => cases heq
    · cases h
  rw [hfull, hshort] at h
  refine ⟨full, short, w₁, w₂, hfull, hshort, ?_⟩
  rintro groups ⟨rewritten, hlength, rfl, rfl⟩
  have hdiffer := Bool.and_eq_true_iff.1 h
  have hnone : groups = [] := by
    have hall := beq_iff_eq.1 hdiffer.1
    rw [List.length_append, hlength] at hall
    exact List.eq_nil_of_length_eq_zero (Nat.add_eq_right.1 hall)
  rw [hnone] at hdiffer
  exact (bne_iff_ne.1 hdiffer.2) rfl

/-- Marked forms see what unmarked ones do in the rewriting pass. The host learns of a macro whose
qualified name a marked form calls; the grammar of a macro is set back to the one that it had before
a later definition; a protection marker that covers the head of the form that binds a macro leaves
the next definition with its name as it is; and under the option to ask the host, it knows a macro
whose protected name is a qualified one. -/
theorem disagree_on_traces :
    Disagree .none
      [identityMacro "m" [], constantFunction "f" (.int 1), .sym autoloadMarker,
        .call "foo-m" [.call "f" []]] bareWorkshop ∧
    Disagree .none
      [identityMacro "m" [.call "declare" [.call "debug" [.int 0]]], .sym autoloadMarker,
        .call "m" [.call "f" []], identityMacro "m" [.call "declare" [.call "debug" [.sym "t"]]],
        constantFunction "f" (.int 1)] bareWorkshop ∧
    Disagree (.keywords [.sym ":protection", .str "defa"])
      [identityMacro "m" [], .sym autoloadMarker, .call "defvar" [.sym "y", .int 1]] bareWorkshop ∧
    Disagree (.keywords [.sym ":global"])
      [identityMacro "::foo-m" [], .sym autoloadMarker,
        constantFunction "f" (.call "m" [.int 1])] bareWorkshop := by
  refine ⟨?_, ?_, ?_, ?_⟩
  · exact disagree_of_sourcesDiffer (by decide +kernel)
  · exact disagree_of_sourcesDiffer (by decide +kernel)
  · exact disagree_of_sourcesDiffer (by decide +kernel)
  · exact disagree_of_sourcesDiffer (by decide +kernel)

end Namespace

end LispNamespace
