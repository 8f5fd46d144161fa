import LispNamespace.Proofs.Approach
import LispNamespace.Proofs.GrammarReferences

/-!
# Heads that are treated alike throughout a run

While a run goes on, the namespace takes in functions and macros, and the host learns of macros. So a
form may be treated in one way when it is met first, and in another way later. For most heads, all
sessions of a run agree on what is done with a form, and do what is done when nothing is known yet.
-/

namespace LispNamespace

/-! ## The sessions of a run -/

/-- The session belongs to a run over the host: what it knows about macros beyond the host has been
declared in the run. -/
structure Session.Rooted (host : Host) (s : Session) : Prop where
  nameIsFinal : s.nameIsFinal = false
  hostMacros : ∀ name, host.isMacroName name = true → s.host.isMacroName name = true
  grammars : ∀ name, s.tables.grammars.lookup name = none →
    s.host.grammars.lookup name = host.grammars.lookup name

/-- The session belongs to a run that ends in the last one: it knows no more. -/
structure Session.Bounded (last s : Session) : Prop where
  context : s.context = last.context
  functionNames : ∀ name ∈ s.tables.functionNames, name ∈ last.tables.functionNames
  macros : ∀ name ∈ s.tables.macros, name ∈ last.tables.macros
  grammars : ∀ name, (s.tables.grammars.lookup name).isSome →
    (last.tables.grammars.lookup name).isSome
  hostMacros : ∀ name, s.host.isMacroName name = true → last.host.isMacroName name = true

/-- The session belongs to a run over the host that ends in the last one. -/
structure Session.Within (s : Session) (host : Host) (last : Session) : Prop where
  rooted : s.Rooted host
  bounded : last.Bounded s

theorem Session.Within.isEscaped_eq {s last : Session} {host : Host} (h : s.Within host last)
    (name : Text) : s.isEscaped name = last.context.isEscaped name := by
  unfold Session.isEscaped
  rw [h.bounded.context]

/-- A name that is not protected is qualified alike throughout the run. -/
theorem Session.Within.qualified_eq {s last : Session} {host : Host} (h : s.Within host last)
    {name : Text} (hname : last.context.isEscaped name = false) :
    s.qualified name = last.context.qualifier ++ name := by
  unfold Session.qualified Context.qualified
  rw [h.bounded.context, hname]
  rfl

theorem Session.bounded_self (s : Session) : s.Bounded s :=
  ⟨rfl, fun _ h => h, fun _ h => h, fun _ h => h, fun _ h => h⟩

/-- A session knows no more than those that it grows to. -/
theorem Session.GrowsTo.bounded {last s t : Session} (h : s.GrowsTo t) (ht : last.Bounded t) :
    last.Bounded s where
  context := h.context.symm.trans ht.context
  functionNames name hname := ht.functionNames name (h.functionNames name hname)
  macros name hname := ht.macros name (h.macros name hname)
  grammars name hname := ht.grammars name (h.grammars name hname)
  hostMacros name hname := ht.hostMacros name (h.isMacroName hname)

/-! ## Steady heads -/

/-- Whether what is done with forms of the head may change in a run over the host that ends in the
session: the head is a macro of the namespace, or a function of the namespace although it has a rule
or is a macro of the host, or the host learns of a macro or of a grammar of that name. -/
def Session.shifts (host : Host) (last : Session) (head : Text) : Bool :=
  last.tables.macros.contains head ||
    (last.tables.functionNames.contains head &&
      ((FormRule.ofHead? head).isSome || host.isMacroName head)) ||
    last.host.isMacroName (last.context.bare head) != host.isMacroName (last.context.bare head) ||
    (last.tables.grammars.lookup (last.context.bare head)).isSome

/-- The head is treated alike throughout the run. -/
structure Session.Steady (host : Host) (last : Session) (head : Text) : Prop where
  macros : head ∉ last.tables.macros
  functionNames : head ∈ last.tables.functionNames →
    FormRule.ofHead? head = none ∧ host.isMacroName head = false
  hostMacros : last.host.isMacroName (last.context.bare head) =
    host.isMacroName (last.context.bare head)
  grammars : last.tables.grammars.lookup (last.context.bare head) = none

theorem Session.steady_of_shifts {host : Host} {last : Session} {head : Text}
    (h : last.shifts host head = false) : last.Steady host head := by
  unfold shifts at h
  simp only [Bool.or_eq_false_iff, bne_eq_false_iff_eq] at h
  rcases h with ⟨⟨⟨hmacros, hfunctions⟩, hhost⟩, hgrammars⟩
  refine ⟨fun hmem => ?_, fun hmem => ?_, hhost, ?_⟩
  · rw [List.contains_iff_mem.2 hmem] at hmacros
    cases hmacros
  · rw [List.contains_iff_mem.2 hmem, Bool.true_and, Bool.or_eq_false_iff] at hfunctions
    exact ⟨Option.isNone_iff_eq_none.1 (Option.isSome_eq_false_iff.1 hfunctions.1), hfunctions.2⟩
  · exact Option.isNone_iff_eq_none.1 (Option.isSome_eq_false_iff.1 hgrammars)

namespace Session.Steady

variable {host : Host} {last s : Session} {head : Text} (h : last.Steady host head)
  (hs : s.Rooted host) (hlast : last.Bounded s)

include h hs hlast

/-- About the name of the head, the host says what it said at first. -/
theorem isMacroName_eq :
    s.host.isMacroName (last.context.bare head) = host.isMacroName (last.context.bare head) := by
  rw [Bool.eq_iff_iff]
  constructor
  · intro hknown
    rw [← h.hostMacros]
    exact hlast.hostMacros _ hknown
  · exact hs.hostMacros _

/-- The grammar of the head is the one that the host had at first. -/
theorem grammarFor?_eq :
    s.grammarFor? (last.context.bare head) =
      (Session.fresh last.context host).grammarFor? (last.context.bare head) := by
  have hnone : s.tables.grammars.lookup (last.context.bare head) = none := by
    rw [← Option.not_isSome_iff_eq_none]
    intro hsome
    have hlast' := hlast.grammars _ hsome
    rw [h.grammars] at hlast'
    cases hlast'
  unfold grammarFor? Session.grammars Grammar.Grammars.find? fresh start
  dsimp only
  rw [List.lookup_append, hnone, Option.none_or, hs.grammars _ hnone, List.nil_append]

theorem macroTreatment_eq (written : Text) :
    s.macroTreatment (last.context.bare head) written =
      (Session.fresh last.context host).macroTreatment (last.context.bare head) written := by
  unfold macroTreatment callGrammar?
  rw [h.grammarFor?_eq hs hlast, hlast.context]
  rfl

/-- So are its calls, whatever has been learnt in between. -/
theorem callTreatment_eq (written : Text) :
    s.callTreatment (last.context.bare head) written false =
      (Session.fresh last.context host).callTreatment (last.context.bare head) written false := by
  unfold callTreatment
  simp only [Bool.false_eq_true, if_false]
  rw [h.macroTreatment_eq hs hlast, h.isMacroName_eq hs hlast]
  rfl

/-- A form with a steady head is approached as if nothing had been found, unless the host is asked
about qualified names. -/
theorem approach_eq (hglobal : last.context.options.globalLookup = false) :
    s.approach head = (Session.fresh last.context host).approach head := by
  have hescapes : s.isEscaped head = last.context.isEscaped head := by
    unfold Session.isEscaped
    rw [hlast.context]
  have hstrip : s.stripProtection head = last.context.stripProtection head := by
    unfold Session.stripProtection
    rw [hlast.context]
  have hasks : s.asksHost = false := by
    unfold asksHost
    rw [hlast.context, hglobal]
  have hfresh : (Session.fresh last.context host).isFunction head = false := by
    unfold Session.isFunction
    have hempty : (Session.fresh last.context host).tables.functionNames.contains head = false := rfl
    have hasks' : (Session.fresh last.context host).asksHost = false := hglobal
    rw [hempty, hasks', Bool.false_and, Bool.or_self, Bool.and_false]
  have hcall := h.callTreatment_eq hs hlast
  unfold approach
  rw [hescapes, hstrip, hfresh]
  simp only [Bool.false_eq_true, if_false]
  have hescapes' : (Session.fresh last.context host).isEscaped head = last.context.isEscaped head := rfl
  have hstrip' : (Session.fresh last.context host).stripProtection head =
      last.context.stripProtection head := rfl
  rw [hescapes', hstrip']
  by_cases hescaped : last.context.isEscaped head = true
  · have hbare : last.context.bare head = last.context.stripProtection head := if_pos hescaped
    rw [if_pos hescaped, if_pos hescaped, ← hbare, hcall]
  · have hbare : last.context.bare head = head := if_neg hescaped
    rw [hbare] at hcall
    rw [if_neg hescaped, if_neg hescaped]
    by_cases hfunction : s.isFunction head = true
    -- a function of the namespace is neither a macro nor has it a rule
    · have hmem : head ∈ last.tables.functionNames := by
        unfold Session.isFunction at hfunction
        rw [hasks, Bool.false_and, Bool.or_false, Bool.and_eq_true] at hfunction
        exact hlast.functionNames head (List.contains_iff_mem.1 hfunction.2)
      rcases h.functionNames hmem with ⟨hrule, hhost⟩
      have hown : s.isOwnMacro head = false := by
        unfold isOwnMacro
        rw [hasks, Bool.false_and, Bool.or_false, Bool.eq_false_iff]
        exact fun hmem => h.macros (hlast.macros head (List.contains_iff_mem.1 hmem))
      have hforms : (Session.fresh last.context host).callTreatment head head false = .forms := by
        unfold callTreatment
        have hknown : (Session.fresh last.context host).host.isMacroName head = false := hhost
        simp only [Bool.false_eq_true, if_false, hknown]
      have hforms' : s.callTreatment (s.qualified head) head true = .forms := by
        unfold callTreatment
        simp only [if_true, hown, Bool.false_eq_true, if_false]
      rw [if_pos hfunction, hrule, hforms, hforms']
    · rw [if_neg hfunction]
      split
      · rfl
      · rw [hcall]

end Session.Steady

/-! ## Grammars of steady heads -/

/-- If no grammar of the host refers to another one, neither does one by which a form is treated when
nothing has been found. -/
theorem isSelfContained_of_macroTreatment {context : Context} {host : Host} {head written : Text}
    {spec : Tree}
    (hhost : ∀ name spec, host.grammars.lookup name = some spec →
      Grammar.isSelfContained spec = true)
    (h : (Session.fresh context host).macroTreatment head written = .byGrammar spec) :
    Grammar.isSelfContained spec = true := by
  unfold Session.macroTreatment at h
  split at h
  · cases h
  · next found hfound =>
    split at h
    · cases h
    · split at h
      · cases h
      · next hplain =>
        cases h
        unfold Session.callGrammar? at hfound
        split at hfound
        · next grammar hgrammar =>
          cases hfound
          unfold Session.grammarFor? Grammar.Grammars.find? at hgrammar
          split at hgrammar
          · cases hgrammar
          · exact hhost head spec hgrammar
        -- the grammar that an option gives makes every argument code
        · dsimp only at hfound
          split at hfound
          · cases hfound
            exact absurd rfl hplain
          · cases hfound

/-- The grammar that a call is approached with is one of the host, and refers to no other one. -/
theorem isSelfContained_of_approach {context : Context} {host : Host} {head : Text} {spec : Tree}
    (hhost : ∀ name spec, host.grammars.lookup name = some spec →
      Grammar.isSelfContained spec = true)
    (h : (Session.fresh context host).approach head = .call (.byGrammar spec)) :
    Grammar.isSelfContained spec = true := by
  have hcall : ∀ {name written isOwn},
      Approach.call ((Session.fresh context host).callTreatment name written isOwn) =
        .call (.byGrammar spec) → Grammar.isSelfContained spec = true := by
    intro name written isOwn hcall
    unfold Session.callTreatment at hcall
    generalize (if isOwn then (Session.fresh context host).isOwnMacro written else
      (Session.fresh context host).host.isMacroName name) = isExpanded at hcall
    cases isExpanded with
    | true => exact isSelfContained_of_macroTreatment hhost (Approach.call.inj hcall)
    | false => cases hcall
  unfold Session.approach at h
  split at h
  · exact hcall h
  · split at h
    · exact hcall h
    · split at h
      · cases h
      · exact hcall h

end LispNamespace
