import LispNamespace.Proofs.GrammarChains
import LispNamespace.Proofs.PlanFits
import Mathlib.Logic.Function.Iterate

/-!
# When matching ends

Matching can be run step by step with nothing that makes it end by construction: a chain of bare names
is followed wherever it leads, a repetition goes on until a round leaves as much as it found, and the
depth, which only some of the calls raise, is compared with its limit where single elements are matched
and nowhere else. A run is given a number of steps, as the number of calls that may stand in each other,
and comes to nothing when they are not enough. So a run for which no number of steps is enough is one
that never ends. The only runs of this sort follow a chain of bare names that returns to where it was;
every other run arrives at what `classify` says.
-/

namespace LispNamespace

/-! ## Runs that are given steps -/

/-- No number of steps is enough. -/
def RunsForEver {α : Type} (run : Nat → Option α) : Prop := ∀ steps, run steps = none

/-- From some number of steps on, the run ends, and always with the same result. -/
def Settles {α : Type} (run : Nat → Option α) (result : α) : Prop :=
  ∃ enough, ∀ steps, enough ≤ steps → run steps = some result

section Settles

variable {α β : Type}

theorem Settles.pure (result : α) : Settles (fun _ => some result) result := ⟨0, fun _ _ => rfl⟩

/-- A run is done when it is done after its first step. -/
theorem Settles.step {run : Nat → Option α} {result : α}
    (h : Settles (fun steps => run (steps + 1)) result) : Settles run result := by
  rcases h with ⟨enough, henough⟩
  refine ⟨enough + 1, fun steps hsteps => ?_⟩
  obtain ⟨fewer, rfl⟩ : ∃ fewer, steps = fewer + 1 := ⟨steps - 1, by omega⟩
  exact henough fewer (by omega)

/-- Two runs, one after the other, are done when there are enough steps for both. -/
theorem Settles.bind {run : Nat → Option α} {next : Nat → α → Option β} {a : α} {b : β}
    (h : Settles run a) (hnext : Settles (next · a) b) :
    Settles (fun steps => (run steps).bind (next steps)) b := by
  rcases h with ⟨enough, henough⟩
  rcases hnext with ⟨enough', henough'⟩
  refine ⟨max enough enough', fun steps hsteps => ?_⟩
  dsimp only
  rw [henough steps (by omega), Option.bind_some]
  exact henough' steps (by omega)

theorem Settles.map {run : Nat → Option α} {a : α} (h : Settles run a) (f : α → β) :
    Settles (fun steps => (run steps).map f) (f a) := by
  rcases h with ⟨enough, henough⟩
  refine ⟨enough, fun steps hsteps => ?_⟩
  dsimp only
  rw [henough steps hsteps, Option.map_some]

/-- A run that ends does not go on for ever. -/
theorem Settles.not_runsForEver {run : Nat → Option α} {result : α} (h : Settles run result) :
    ¬RunsForEver run := by
  rintro hforever
  rcases h with ⟨enough, henough⟩
  have hnone := hforever enough
  rw [henough enough (Nat.le_refl enough)] at hnone
  cases hnone

end Settles

namespace Grammar

/-! ## Matching step by step -/

/-- Whether an element is matched by the kind of argument that its name stands for. -/
def namesKind (name : Text) : Bool :=
  isCodeElement name || name == "lambda-expr" || (dataKind? name).isSome

/-- What a list argument is matched as, when its elements were matched. -/
def nestedIn (arg : Tree) (rest : List Tree) : Matched → Matched
  | .error why => .error why
  | .ok (plans, []) => .ok ([.nested plans], rest)
  | .ok (_, _ :: _) => .error (.extraElements arg)

mutual

/-- Runs through the elements of a sequence that stands at a depth. -/
def runSequence (resolver : Resolver) (depth : Nat) (isOptional : Bool) :
    Nat → List Tree → List Tree → Option Matched
  | 0, _, _ => none
  | _ + 1, [], args => some (.ok ([], args))
  | steps + 1, element :: elements, args =>
      match mark? element with
      | some .define => runSequence resolver depth isOptional steps elements args
      | some .optional => runSequence resolver depth true steps elements args
      | some .rest => (runRounds resolver depth steps elements args).map .ok
      | some .or =>
          (runAlternatives resolver depth steps elements args).map fun
            | some found => .ok found
            | none => giveUp isOptional args .noAlternative
      | some .not =>
          match elements with
          | [] => some (.error .emptyNegation)
          | negated :: others =>
              (runElement resolver steps (depth + 1) negated args).bind fun
                | .ok _ => some (giveUp isOptional args (.negated negated))
                | .error _ => runSequence resolver depth isOptional steps others args
      | none =>
          if isOptional && args.isEmpty then some (.ok ([], args))
          else
            (runElement resolver steps (depth + 1) element args).bind fun
              | .error why => some (giveUp isOptional args why)
              | .ok (plans, rest) =>
                  (runSequence resolver depth isOptional steps elements rest).map fun next =>
                    next.map fun found => (plans ++ found.1, found.2)
termination_by structural steps => steps

/-- Runs a group again and again, until it does not fit or leaves as much as it found. -/
def runRounds (resolver : Resolver) (depth : Nat) :
    Nat → List Tree → List Tree → Option (List Plan × List Tree)
  | 0, _, _ => none
  | steps + 1, group, args =>
      if args.isEmpty then some ([], args)
      else
        (runSequence resolver (depth + 1) false steps group args).bind fun
          | .error _ => some ([], args)
          | .ok (plans, remaining) =>
              if remaining.length == args.length then some ([], args)
              else
                (runRounds resolver depth steps group remaining).map fun found =>
                  (plans ++ found.1, found.2)
termination_by structural steps => steps

/-- Tries alternatives until one fits. -/
def runAlternatives (resolver : Resolver) (depth : Nat) :
    Nat → List Tree → List Tree → Option (Option (List Plan × List Tree))
  | 0, _, _ => none
  | _ + 1, [], _ => some none
  | steps + 1, alternative :: others, args =>
      (runElement resolver steps (depth + 1) alternative args).bind fun
        | .ok found => some (some found)
        | .error _ => runAlternatives resolver depth steps others args
termination_by structural steps => steps

/-- Matches one element at a depth. Only here the depth is compared with its limit. -/
def runElement (resolver : Resolver) : Nat → Nat → Tree → List Tree → Option Matched
  | 0, _, _, _ => none
  | steps + 1, depth, element, args =>
      if depthLimit < depth then some (.error .tooDeep)
      else
        match element with
        | .vec elements => runSequence resolver (depth + 1) false steps elements args
        | element =>
            if element.symbol?.any isBodyElement then some (.ok (Plan.uniform .code args, []))
            else
              match args with
              | [] => some (.error (.missing element))
              | arg :: rest =>
                  match element with
                  | .list elements =>
                      match arg.properList? with
                      | none => some (.error (.notAList element arg))
                      | some items =>
                          (runSequence resolver (depth + 1) false steps elements items).map
                            (nestedIn arg rest)
                  | .lit _ _ | .str _ =>
                      some (if arg.isSym element.plain then .ok ([.data], rest)
                        else .error (.notTheSymbol element.plain arg))
                  | .sym name =>
                      let unknown := Except.error (.unknownElement name)
                      if namesKind name then some (matchNamed name arg rest fun _ => unknown)
                      else
                        match resolver name with
                        | some spec => runElement resolver steps (depth + 1) spec args
                        | none => some unknown
                  | element =>
                      some (if element.isZero then .ok (Plan.uniform .data args, [])
                        else .error (.notAnElement element))
termination_by structural steps => steps

end

/-- What matching a whole grammar says, when its elements were matched. -/
def wholly : Matched → Except Mismatch (List Plan)
  | .error why => .error why
  | .ok (plans, []) => .ok plans
  | .ok (_, rest) => .error (.leftOver rest.length)

/-- Classifies the arguments of a call by its grammar. A bare name is followed wherever it leads. -/
def runClassify (resolver : Resolver) :
    Nat → Tree → List Tree → Option (Except Mismatch (List Plan))
  | 0, _, _ => none
  | steps + 1, spec, args =>
      if spec.isSym "t" then some (.ok (Plan.uniform .code args))
      else if spec.isZero || spec.isNil then some (.ok (Plan.uniform .data args))
      else
        match spec.symbol? with
        | some name =>
            match resolver name with
            | some next => runClassify resolver steps next args
            | none => some (.error (.unknownElement name))
        | none =>
            match spec.elements? with
            | some elements => (runSequence resolver 0 false steps elements args).map wholly
            | none => some (.error (.notAGrammar spec))

/-! ## Runs of elements end -/

theorem matchNamed_of_namesKind {name : Text} (h : namesKind name = true) (arg : Tree)
    (rest : List Tree) (otherwise otherwise' : Unit → Matched) :
    matchNamed name arg rest otherwise = matchNamed name arg rest otherwise' := by
  unfold matchNamed
  split
  · rfl
  · next hcode =>
    split
    · rfl
    · next hlambda =>
      cases hkind : dataKind? name with
      | some kind => rfl
      | none => simp [namesKind, hcode, hlambda, hkind] at h

/-- A name of no kind of argument is left to the other grammars. -/
theorem matchNamed_of_not_namesKind {name : Text} (h : ¬namesKind name = true) (arg : Tree)
    (rest : List Tree) (otherwise : Unit → Matched) :
    matchNamed name arg rest otherwise = otherwise () := by
  simp only [namesKind, Bool.or_eq_true, not_or, Option.not_isSome_iff_eq_none] at h
  unfold matchNamed
  rw [if_neg h.1.1, if_neg h.1.2, h.2]

section Sequences

variable {resolver : Resolver} {depth : Nat}

/-- A repetition ends because every further round leaves fewer arguments. -/
theorem settles_runRounds {group : List Tree} {round : List Tree → Matched}
    (hround : ∀ args,
      Settles (fun steps => runSequence resolver (depth + 1) false steps group args) (round args))
    (hconsumes : ∀ args, (round args).Consumes args) (args : List Tree) :
    Settles (fun steps => runRounds resolver depth steps group args) (matchRepeated round args) := by
  fun_induction matchRepeated round args with
  | case1 args why hfails =>
      refine .step ?_
      simp only [runRounds]
      split
      · exact .pure _
      · refine (hfails ▸ hround args).bind ?_
        exact .pure _
  | case2 args plans remaining hfits hlt more rest hmore ih =>
      have hargs : ¬args.isEmpty = true := by
        intro hempty
        rw [List.isEmpty_iff.1 hempty] at hlt
        exact Nat.not_lt_zero _ hlt
      refine .step ?_
      simp only [runRounds, if_neg hargs]
      refine (hfits ▸ hround args).bind ?_
      have hlength : ¬(remaining.length == args.length) = true := by simpa using Nat.ne_of_lt hlt
      simp only [if_neg hlength]
      rw [hmore] at ih
      exact ih.map _
  | case3 args plans remaining hfits hlt =>
      refine .step ?_
      simp only [runRounds]
      split
      · exact .pure _
      · refine (hfits ▸ hround args).bind ?_
        -- a round never leaves more than it found
        rcases hconsumes args plans remaining hfits with ⟨taken, rfl, -⟩
        have hlength : (remaining.length == (taken ++ remaining).length) = true := by
          rw [List.length_append] at hlt ⊢
          simpa using (by omega : remaining.length = taken.length + remaining.length)
        simp only [if_pos hlength]
        exact .pure _

/-- Alternatives are tried one by one. -/
theorem settles_runAlternatives {one : Matcher} {level : Nat}
    (hone : ∀ element args, Settles (fun steps => runElement resolver steps (depth + 1) element args)
      (one level element args)) (alternatives args : List Tree) :
    Settles (fun steps => runAlternatives resolver depth steps alternatives args)
      (matchAny one level args alternatives) := by
  induction alternatives with
  | nil =>
      refine .step ?_
      simp only [runAlternatives]
      exact .pure _
  | cons alternative others ih =>
      have hfirst := hone alternative args
      refine .step ?_
      simp only [runAlternatives]
      unfold matchAny
      cases hfound : one level alternative args with
      | ok found => exact (hfound ▸ hfirst).bind (.pure _)
      | error why => exact (hfound ▸ hfirst).bind ih

/-- A sequence that stands at a depth is done when its elements are. -/
theorem settles_runSequence {one : Matcher}
    (hone : ∀ level element args,
      Settles (fun steps => runElement resolver steps (depth + level + 1) element args)
        (one level element args))
    (hconsumes : ∀ level element args, (one level element args).Consumes args)
    (isOptional : Bool) (level : Nat) (elements args : List Tree) :
    Settles (fun steps => runSequence resolver (depth + level) isOptional steps elements args)
      (matchSequence one isOptional level elements args) := by
  -- the recursion is on the elements; a negation goes on two elements further
  cases elements with
  | nil =>
      refine .step ?_
      simp only [runSequence, matchSequence]
      exact .pure _
  | cons element elements =>
      refine .step ?_
      simp only [runSequence]
      unfold matchSequence
      cases hmark : mark? element with
      | none =>
          dsimp only
          split
          · exact .pure _
          · have hfirst := hone level element args
            cases hfound : one level element args with
            | error why => exact (hfound ▸ hfirst).bind (.pure _)
            | ok found =>
                refine (hfound ▸ hfirst).bind ?_
                exact (settles_runSequence hone hconsumes isOptional level elements found.2).map _
      | some mark =>
          cases mark with
          | define => exact settles_runSequence hone hconsumes isOptional level elements args
          | optional => exact settles_runSequence hone hconsumes true level elements args
          | rest =>
              refine .map (settles_runRounds ?_ ?_ args) _
              · exact settles_runSequence hone hconsumes false (level + 1) elements
              · exact consumes_matchSequence hconsumes false (level + 1) elements
          | or =>
              have htried := settles_runAlternatives (hone level) elements args
              dsimp only
              cases hfound : matchAny one level args elements with
              | none => exact (hfound ▸ htried).map _
              | some found => exact (hfound ▸ htried).map _
          | not =>
              cases elements with
              | nil => exact .pure _
              | cons negated others =>
                  have hnegated := hone level negated args
                  dsimp only
                  cases hfound : one level negated args with
                  | ok found => exact (hfound ▸ hnegated).bind (.pure _)
                  | error why =>
                      refine (hfound ▸ hnegated).bind ?_
                      exact settles_runSequence hone hconsumes isOptional level others args

end Sequences

/-- Matching an element ends, whatever the names in it refer to: what goes deeper takes from the room
that is left, and where nothing is left the depth is past its limit. -/
theorem settles_runElement (resolver : Resolver) (depth : Nat) (element : Tree) (args : List Tree) :
    Settles (fun steps => runElement resolver steps depth element args)
      (matchElement resolver (depthLimit + 1 - depth) element args) := by
  generalize hroom : depthLimit + 1 - depth = room
  -- the machine counts levels up and the matcher counts room down; the induction is on the room
  induction room using Nat.strongRecOn generalizing depth element args with
  | _ room ih =>
  refine .step ?_
  simp only [runElement]
  rcases room with _ | room
  · have hdepth : depthLimit < depth := by omega
    simp only [if_pos hdepth]
    unfold matchElement
    exact .pure _
  · have hdepth : ¬depthLimit < depth := by omega
    simp only [if_neg hdepth]
    have hinner : ∀ elements args, Settles
        (fun steps => runSequence resolver (depth + 1) false steps elements args)
        (matchSequence (fun level => matchElement resolver (room - 1 - level)) false 0 elements
          args) := by
      refine settles_runSequence (fun level element args => ?_)
        (fun level => consumes_matchElement resolver _) false 0
      exact ih (room - 1 - level) (by omega) _ element args (by omega)
    unfold matchElement
    cases element with
    | vec elements => exact hinner elements args
    | sym name =>
        dsimp only
        split
        · exact .pure _
        · rcases args with _ | ⟨arg, rest⟩
          · exact .pure _
          · dsimp only
            by_cases hkind : namesKind name
            · simp only [if_pos hkind]
              rw [matchNamed_of_namesKind hkind]
              exact .pure _
            · simp only [if_neg hkind]
              rw [matchNamed_of_not_namesKind hkind]
              cases resolver name with
              | none => exact .pure _
              -- a name is followed with one level more
              | some spec => exact ih room (Nat.lt_succ_self room) _ spec _ (by omega)
    | list elements =>
        simp only [Tree.symbol?, Option.any_none, Bool.false_eq_true, if_false]
        rcases args with _ | ⟨arg, rest⟩
        · exact .pure _
        · dsimp only
          cases arg.properList? with
          | none => exact .pure _
          | some items => exact (hinner elements items).map _
    | _ =>
        simp only [Tree.symbol?, Option.any_none, Bool.false_eq_true, if_false]
        cases args <;> exact .pure _

/-! ## Runs of whole grammars -/

/-- One step along a chain of names classifies the arguments alike. -/
theorem classifyBy_succ {resolver : Resolver} {name : Text} {next : Tree} (hname : name ≠ "t")
    (hnext : resolver name = some next) (steps : Nat) (args : List Tree) :
    classifyBy resolver (steps + 1) (.sym name) args = classifyBy resolver steps next args := by
  unfold classifyBy
  rw [resolve_succ hname hnext]

/-- A grammar that is no bare name is matched right away, however long a chain may be. -/
theorem settles_runClassify_of_symbol?_eq_none (resolver : Resolver) (steps : Nat) {spec : Tree}
    (hspec : spec.symbol? = none) (args : List Tree) :
    ∃ outcome, Settles (fun steps => runClassify resolver steps spec args) outcome ∧
      classifyBy resolver steps spec args = outcome.mapError .mismatch := by
  have hresolve := resolve_of_symbol?_eq_none resolver steps hspec
  -- the first step of the machine only finds that there is no name to resolve
  suffices h : ∃ outcome, Settles (fun steps => runClassify resolver (steps + 1) spec args) outcome ∧
      classifyBy resolver steps spec args = outcome.mapError .mismatch by
    rcases h with ⟨outcome, hrun, heq⟩
    exact ⟨outcome, hrun.step, heq⟩
  unfold classifyBy
  simp only [hresolve, runClassify, hspec]
  split
  · exact ⟨.ok _, .pure _, rfl⟩
  · split
    · exact ⟨.ok _, .pure _, rfl⟩
    · cases spec.elements? with
      | none => exact ⟨.error _, .pure _, rfl⟩
      | some elements =>
          have hmatched : Settles (fun steps => runSequence resolver 0 false steps elements args)
              (matchSequence (fun level => matchElement resolver (depthLimit - level)) false 0
                elements args) := by
            refine @settles_runSequence resolver 0 _ (fun level element args => ?_)
              (fun level => consumes_matchElement resolver _) false 0 elements args
            have helement := settles_runElement resolver (0 + level + 1) element args
            have hroom : depthLimit + 1 - (0 + level + 1) = depthLimit - level := by omega
            rwa [hroom] at helement
          refine ⟨_, hmatched.map wholly, ?_⟩
          dsimp only
          generalize matchSequence _ false 0 elements args = matched
          rcases matched with why | ⟨plans, _ | ⟨arg, rest⟩⟩ <;> rfl

/-- A bare name that leads to a grammar is classified as that grammar is. -/
theorem settles_runClassify_of_find {resolver : Resolver} {name : Text} {next : Tree}
    (hname : name ≠ "t") (hnext : resolver name = some next) {args : List Tree}
    {outcome : Except Mismatch (List Plan)}
    (h : Settles (fun steps => runClassify resolver steps next args) outcome) :
    Settles (fun steps => runClassify resolver steps (.sym name) args) outcome := by
  have ht : ¬Tree.isSym (.sym name) "t" = true := by simpa [Tree.isSym] using hname
  refine .step ?_
  simpa [runClassify, ht, Tree.isZero, Tree.isNil, Tree.symbol?, hnext] using h

/-- A bare name that leads to no grammar is not followed. -/
theorem settles_runClassify_of_stop {resolver : Resolver} {name : Text}
    (h : name = "t" ∨ resolver name = none) (steps : Nat) (args : List Tree) :
    ∃ outcome, Settles (fun steps => runClassify resolver steps (.sym name) args) outcome ∧
      classifyBy resolver steps (.sym name) args = outcome.mapError .mismatch := by
  by_cases hname : name = "t"
  · subst hname
    refine ⟨.ok (Plan.uniform .code args), .step ?_, ?_⟩
    · simpa [runClassify, Tree.isSym] using Settles.pure _
    · simp [classifyBy, resolve_t, Tree.isSym, Except.mapError]
  · have hnone : resolver name = none := h.resolve_left hname
    refine ⟨.error (.unknownElement name), .step ?_, ?_⟩
    · simpa [runClassify, Tree.isSym, hname, Tree.isZero, Tree.isNil, Tree.symbol?, hnone] using
        Settles.pure _
    · simp [classifyBy, resolve_unknown hname hnone, Except.mapError]

/-- A run ends with what the arguments are classified as, if the chain of names ends. -/
theorem settles_runClassify {resolver : Resolver} {steps : Nat} {spec : Tree} (args : List Tree)
    (h : ∀ last, resolve resolver steps spec ≠ .error (.endlessGrammar last)) :
    ∃ outcome, Settles (fun steps => runClassify resolver steps spec args) outcome ∧
      classifyBy resolver steps spec args = outcome.mapError .mismatch := by
  cases hspec : spec.symbol? with
  | none => exact settles_runClassify_of_symbol?_eq_none resolver steps hspec args
  | some name =>
      obtain rfl : spec = .sym name := by
        cases spec <;> cases hspec
        rfl
      by_cases hstop : name = "t" ∨ resolver name = none
      · exact settles_runClassify_of_stop hstop steps args
      · obtain ⟨hname, hsome⟩ := not_or.1 hstop
        obtain ⟨next, hnext⟩ := Option.ne_none_iff_exists'.1 hsome
        -- the name leads on, and the chain takes one of the steps for it
        cases steps with
        | zero => exact absurd (resolve_zero hname hnext) (h name)
        | succ steps =>
            have hresolve : ∀ last, resolve resolver steps next ≠ .error (.endlessGrammar last) := by
              intro last hlast
              refine h last ?_
              rw [resolve_succ hname hnext]
              exact hlast
            rcases settles_runClassify args hresolve with ⟨outcome, hrun, heq⟩
            refine ⟨outcome, settles_runClassify_of_find hname hnext hrun, ?_⟩
            rw [classifyBy_succ hname hnext, heq]

/-! ## Runs along chains that return -/

/-- A chain of names has no end: each of its names is the grammar of the one before. -/
def Endless (grammars : Grammars) (chain : Nat → Text) : Prop :=
  ∀ n, Leads grammars (chain n) (chain (n + 1))

/-- A run along a chain that has no end is not done after any number of steps. -/
theorem runsForEver_of_endless {grammars : Grammars} {chain : Nat → Text}
    (h : Endless grammars chain) (args : List Tree) :
    RunsForEver fun steps => runClassify grammars.find? steps (.sym (chain 0)) args := by
  intro steps
  dsimp only
  induction steps generalizing chain with
  | zero => rfl
  | succ steps ih =>
      have hname : ¬Tree.isSym (.sym (chain 0)) "t" = true := by simpa [Tree.isSym] using (h 0).1
      have hrest : Endless grammars fun n => chain (n + 1) := fun n => h (n + 1)
      simpa [runClassify, hname, Tree.isZero, Tree.isNil, Tree.symbol?, (h 0).2] using ih hrest

/-- The name that a name leads to; one that leads nowhere stays. -/
def follow (grammars : Grammars) (name : Text) : Text :=
  ((grammars.find? name).bind Tree.symbol?).getD name

theorem Leads.follow_eq {grammars : Grammars} {name next : Text} (h : Leads grammars name next) :
    follow grammars name = next := by
  simp [follow, h.2, Tree.symbol?]

/-- Where a chain arrives is found by following its first name. -/
theorem exists_follow_of_reflTransGen {grammars : Grammars} {name passed : Text}
    (h : Relation.ReflTransGen (Leads grammars) name passed) :
    ∃ n, (follow grammars)^[n] name = passed := by
  induction h using Relation.ReflTransGen.head_induction_on with
  | refl => exact ⟨0, rfl⟩
  | head hleads _ ih =>
      rcases ih with ⟨n, rfl⟩
      exact ⟨n + 1, by rw [Function.iterate_succ_apply, hleads.follow_eq]⟩

/-- A name that arrives at a circle begins a chain without end, which passes a name twice. -/
theorem exists_endless_of_circle {grammars : Grammars} {name passed : Text}
    (hreach : Relation.ReflTransGen (Leads grammars) name passed)
    (hreturn : Relation.TransGen (Leads grammars) passed passed) :
    ∃ chain, chain 0 = name ∧ Endless grammars chain ∧ ∃ i j, i < j ∧ chain i = chain j := by
  -- each name on the way arrives at the circle, so it leads on
  have hway : ∀ n, Relation.ReflTransGen (Leads grammars) ((follow grammars)^[n] name) passed := by
    intro n
    induction n with
    | zero => exact hreach
    | succ n ih =>
        rcases exists_leads_of_circle ih hreturn with ⟨next, hleads, hrest⟩
        rw [Function.iterate_succ_apply', hleads.follow_eq]
        exact hrest
  refine ⟨fun n => (follow grammars)^[n] name, rfl, fun n => ?_, ?_⟩
  · rcases exists_leads_of_circle (hway n) hreturn with ⟨next, hleads, -⟩
    dsimp only
    rw [Function.iterate_succ_apply', hleads.follow_eq]
    exact hleads
  · rcases exists_follow_of_reflTransGen hreach with ⟨n, hn⟩
    rcases Relation.TransGen.head'_iff.1 hreturn with ⟨next, hleads, hrest⟩
    rcases exists_follow_of_reflTransGen hrest with ⟨m, hm⟩
    refine ⟨n, m + 1 + n, by omega, ?_⟩
    dsimp only
    rw [Function.iterate_add_apply, hn, Function.iterate_succ_apply, hleads.follow_eq, hm]

/-! ## Which runs end -/

/-- Only a chain that returns to one of its names is given up as endless. -/
theorem exists_endless_of_classify {grammars : Grammars} {spec : Tree} {args : List Tree} {last : Text}
    (h : classify grammars spec args = .error (.endlessGrammar last)) :
    ∃ chain, spec = .sym (chain 0) ∧ Endless grammars chain ∧ ∃ i j, i < j ∧ chain i = chain j := by
  have hresolve := resolve_of_classify h fun why hwhy => by cases hwhy
  cases spec with
  | sym name =>
      rcases circle_of_resolve hresolve with ⟨passed, hreach, hreturn⟩
      rcases exists_endless_of_circle hreach hreturn with ⟨chain, rfl, hendless, htwice⟩
      exact ⟨chain, rfl, hendless, htwice⟩
  | _ =>
      rw [resolve_of_symbol?_eq_none _ _ rfl] at hresolve
      cases hresolve

/-- Classifying the arguments of a call runs for ever exactly if the grammar is a bare name that begins
a chain of names without end, and such a chain runs in a circle. These are the calls that are given up
because a grammar refers to itself. Every other run ends, with a plan or with a misfit, and it is what
the arguments are classified as. -/
theorem runsForEver_runClassify (grammars : Grammars) (spec : Tree) (args : List Tree) :
    (RunsForEver (fun steps => runClassify grammars.find? steps spec args) ↔
      ∃ chain, spec = .sym (chain 0) ∧ Endless grammars chain ∧ ∃ i j, i < j ∧ chain i = chain j) ∧
    (RunsForEver (fun steps => runClassify grammars.find? steps spec args) ↔
      ∃ last, classify grammars spec args = .error (.endlessGrammar last)) ∧
    (¬RunsForEver (fun steps => runClassify grammars.find? steps spec args) →
      ∃ outcome, Settles (fun steps => runClassify grammars.find? steps spec args) outcome ∧
        classify grammars spec args = outcome.mapError .mismatch) := by
  -- each of the three facts implies the next one, and the last one the first
  have hchain : (∃ last, classify grammars spec args = .error (.endlessGrammar last)) →
      ∃ chain, spec = .sym (chain 0) ∧ Endless grammars chain ∧ ∃ i j, i < j ∧ chain i = chain j :=
    fun ⟨_, hlast⟩ => exists_endless_of_classify hlast
  have hforever : (∃ chain, spec = .sym (chain 0) ∧ Endless grammars chain ∧
        ∃ i j, i < j ∧ chain i = chain j) →
      RunsForEver fun steps => runClassify grammars.find? steps spec args := by
    rintro ⟨chain, rfl, hendless, -⟩
    exact runsForEver_of_endless hendless args
  have hends : (∀ last, classify grammars spec args ≠ .error (.endlessGrammar last)) →
      ∃ outcome, Settles (fun steps => runClassify grammars.find? steps spec args) outcome ∧
        classify grammars spec args = outcome.mapError .mismatch := by
    intro hlast
    refine settles_runClassify args fun last hresolve => hlast last ?_
    unfold classify classifyBy
    rw [hresolve]
  have hlast : RunsForEver (fun steps => runClassify grammars.find? steps spec args) →
      ∃ last, classify grammars spec args = .error (.endlessGrammar last) := by
    intro hrun
    by_contra hnone
    rcases hends (not_exists.1 hnone) with ⟨outcome, hsettles, -⟩
    exact hsettles.not_runsForEver hrun
  refine ⟨⟨fun h => hchain (hlast h), hforever⟩, ⟨hlast, fun h => hforever (hchain h)⟩, fun h => ?_⟩
  exact hends fun last heq => h (hforever (hchain ⟨last, heq⟩))

end Grammar

end LispNamespace
