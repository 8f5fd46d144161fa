import LispNamespace.Grammar.Matching

/-!
# Plans fit their arguments

A plan that comes out of matching is as long as the arguments it classifies, at every level of
nesting, so that applying it neither drops an argument nor stops early.
-/

namespace LispNamespace

/-! ## Fitting plans -/

namespace Plan

mutual

/-- The plan has the shape of the argument: where it looks inside, the argument is a proper list, and
it has a plan for each element. -/
inductive Fits : Plan → Tree → Prop where
  | code (arg : Tree) : Fits .code arg
  | data (arg : Tree) : Fits .data arg
  | nested {plans : List Plan} {arg : Tree} {items : List Tree} (hitems : arg.properList? = some items)
      (h : FitsAll plans items) : Fits (.nested plans) arg

/-- Each of the plans fits the argument at its place, and there are as many of both. -/
inductive FitsAll : List Plan → List Tree → Prop where
  | nil : FitsAll [] []
  | cons {plan : Plan} {arg : Tree} {plans : List Plan} {args : List Tree}
      (first : Fits plan arg) (rest : FitsAll plans args) : FitsAll (plan :: plans) (arg :: args)

end

theorem FitsAll.append {plans plans' : List Plan} {args args' : List Tree}
    (h : FitsAll plans args) (h' : FitsAll plans' args') :
    FitsAll (plans ++ plans') (args ++ args') := by
  induction plans generalizing args with
  | nil =>
      cases h
      exact h'
  | cons plan plans ih =>
      cases h with
      | cons first rest => exact .cons first (ih rest)

theorem fitsAll_uniform {plan : Plan} (h : ∀ arg, Fits plan arg) (args : List Tree) :
    FitsAll (uniform plan args) args := by
  induction args with
  | nil => exact .nil
  | cons arg args ih => exact .cons (h arg) ih

end Plan

namespace Grammar

/-! ## What matching consumes -/

/-- If the matching succeeded, it split the arguments into those that its plans fit and a rest. -/
def Matched.Consumes (result : Matched) (args : List Tree) : Prop :=
  ∀ plans rest, result = .ok (plans, rest) → ∃ taken, args = taken ++ rest ∧ Plan.FitsAll plans taken

variable {args : List Tree}

theorem consumes_error (why : Mismatch) : Matched.Consumes (.error why) args := by
  intro plans rest h
  cases h

theorem consumes_none : Matched.Consumes (.ok ([], args)) args := by
  intro plans rest h
  cases h
  exact ⟨[], rfl, .nil⟩

theorem consumes_first {plan : Plan} {arg : Tree} (h : plan.Fits arg) :
    Matched.Consumes (.ok ([plan], args)) (arg :: args) := by
  intro plans rest hok
  cases hok
  exact ⟨[arg], rfl, .cons h .nil⟩

theorem consumes_all {plan : Plan} (h : ∀ arg, plan.Fits arg) :
    Matched.Consumes (.ok (Plan.uniform plan args, [])) args := by
  intro plans rest hok
  cases hok
  exact ⟨args, (List.append_nil _).symm, Plan.fitsAll_uniform h args⟩

/-- To give up is to fail, or to leave all arguments where the element was optional. -/
theorem consumes_giveUp (isOptional : Bool) (why : Mismatch) :
    (giveUp isOptional args why).Consumes args := by
  unfold giveUp
  split
  · exact consumes_none
  · exact consumes_error why

/-- Matching goes on with the arguments that were left. -/
theorem Matched.Consumes.andThen {plans : List Plan} {rest : List Tree} {next : Matched}
    (h : Matched.Consumes (.ok (plans, rest)) args) (hnext : next.Consumes rest) :
    Matched.Consumes (next.map fun found => (plans ++ found.1, found.2)) args := by
  intro all left hok
  rcases next with _ | ⟨more, left'⟩
  · cases hok
  · cases hok
    rcases h plans rest rfl with ⟨taken, rfl, hfits⟩
    rcases hnext more left' rfl with ⟨taken', rfl, hfits'⟩
    exact ⟨taken ++ taken', (List.append_assoc ..).symm, hfits.append hfits'⟩

/-! ## Sequences -/

/-- A repetition consumes what its rounds consume. -/
theorem consumes_matchRepeated {group : List Tree → Matched}
    (h : ∀ args, (group args).Consumes args) (args : List Tree) :
    Matched.Consumes (.ok (matchRepeated group args)) args := by
  fun_induction matchRepeated group args with
  | case1 args why hgroup => exact consumes_none
  | case2 args plans remaining hgroup hlt more rest hmore ih =>
      have hround : Matched.Consumes (.ok (plans, remaining)) args := hgroup ▸ h args
      rw [hmore] at ih
      exact hround.andThen ih
  -- a round that leaves as much as it found ends the repetition
  | case3 args plans remaining hgroup hlt => exact consumes_none

/-- The alternative that is taken consumes what it would by itself. -/
theorem consumes_matchAny {one : Matcher} (hone : ∀ depth element args,
    (one depth element args).Consumes args) {depth : Nat} {alternatives : List Tree}
    {found : List Plan × List Tree} (h : matchAny one depth args alternatives = some found) :
    Matched.Consumes (.ok found) args := by
  induction alternatives with
  | nil => cases h
  | cons alternative others ih =>
      unfold matchAny at h
      split at h
      · next hfound =>
        cases h
        exact hfound ▸ hone depth alternative args
      · exact ih h

/-- A sequence consumes arguments like the matcher of its elements. -/
theorem consumes_matchSequence {one : Matcher}
    (hone : ∀ depth element args, (one depth element args).Consumes args)
    (isOptional : Bool) (depth : Nat) (elements args : List Tree) :
    (matchSequence one isOptional depth elements args).Consumes args := by
  -- the recursion is on the elements; a negation goes on two elements further
  cases elements with
  | nil =>
      unfold matchSequence
      exact consumes_none
  | cons element elements =>
      unfold matchSequence
      dsimp only
      split
      · exact consumes_matchSequence hone isOptional depth elements args
      · exact consumes_matchSequence hone true depth elements args
      · exact consumes_matchRepeated
          (fun args => consumes_matchSequence hone false (depth + 1) elements args) args
      · split
        · next hfound => exact consumes_matchAny hone hfound
        · exact consumes_giveUp isOptional _
      · split
        · exact consumes_error _
        · next negated others =>
          split
          · exact consumes_giveUp isOptional _
          · exact consumes_matchSequence hone isOptional depth others args
      · split
        · exact consumes_none
        · split
          · exact consumes_giveUp isOptional _
          · next plans rest hfound =>
            have hfirst : Matched.Consumes (.ok (plans, rest)) args :=
              hfound ▸ hone depth element args
            exact hfirst.andThen (consumes_matchSequence hone isOptional depth elements rest)

/-! ## Single elements -/

/-- A named element consumes one argument, or what it falls back on does. -/
theorem consumes_matchNamed {name : Text} {arg : Tree} {rest : List Tree}
    {otherwise : Unit → Matched} (h : (otherwise ()).Consumes (arg :: rest)) :
    (matchNamed name arg rest otherwise).Consumes (arg :: rest) := by
  unfold matchNamed
  split
  · exact consumes_first (.code arg)
  · split
    · split
      · exact consumes_first (.code arg)
      · exact consumes_error _
    · split
      · split
        · exact consumes_first (.data arg)
        · exact consumes_error _
      · exact h

/-- Whatever the element, matching it consumes arguments that its plans fit. -/
theorem consumes_matchElement (resolver : Resolver) (room : Nat) (element : Tree)
    (args : List Tree) : (matchElement resolver room element args).Consumes args := by
  -- nested groups take more than one from the room, so the induction is over all smaller rooms
  induction room using Nat.strongRecOn generalizing element args with
  | _ room ih =>
  rcases room with _ | room
  · unfold matchElement
    exact consumes_error _
  · have hinner : ∀ elements args, Matched.Consumes
        (matchSequence (fun depth => matchElement resolver (room - 1 - depth)) false 0 elements args)
        args :=
      consumes_matchSequence (fun depth => ih (room - 1 - depth) (by omega)) false 0
    unfold matchElement
    dsimp only
    split
    · exact hinner _ args
    · split
      · exact consumes_all .code
      · split
        · exact consumes_error _
        · next arg rest =>
          split
          · split
            · exact consumes_error _
            · next items hitems =>
              split
              · exact consumes_error _
              · next plans hplans =>
                refine consumes_first (.nested hitems ?_)
                rcases hinner _ items plans [] hplans with ⟨taken, rfl, hfits⟩
                rwa [List.append_nil]
              · exact consumes_error _
          · split
            · exact consumes_first (.data arg)
            · exact consumes_error _
          · split
            · exact consumes_first (.data arg)
            · exact consumes_error _
          · refine consumes_matchNamed ?_
            split
            · exact ih room (Nat.lt_succ_self room) _ _
            · exact consumes_error _
          · split
            · exact consumes_all .data
            · exact consumes_error _

/-! ## Whole grammars -/

/-- The plan of a call fits its arguments, whatever the names in its grammar stand for. -/
theorem fitsAll_of_classifyBy {resolver : Resolver} {steps : Nat} {spec : Tree} {args : List Tree}
    {plans : List Plan} (h : classifyBy resolver steps spec args = .ok plans) :
    Plan.FitsAll plans args := by
  unfold classifyBy at h
  split at h
  · cases h
  · split at h
    · cases h
      exact Plan.fitsAll_uniform .code args
    · split at h
      · cases h
        exact Plan.fitsAll_uniform .data args
      · split at h
        · cases h
        · dsimp only at h
          split at h
          · cases h
          · next hmatched =>
            cases h
            -- a plan was found only because nothing was left over
            have hconsumes := fun elements => consumes_matchSequence
              (fun depth => consumes_matchElement resolver (depthLimit - depth)) false 0 elements args
            rcases hconsumes _ plans [] hmatched with ⟨taken, rfl, hfits⟩
            rwa [List.append_nil]
          · cases h

end Grammar

end LispNamespace
