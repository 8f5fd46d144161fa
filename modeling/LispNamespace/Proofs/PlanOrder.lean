import LispNamespace.Proofs.Parts
import LispNamespace.Proofs.PlanFits

/-!
# How plans are carried out

The places where a plan says that an argument is code or a datum are its sites. A plan that came out
of matching has an argument at each of its entries. To carry it out is to visit its sites from left to
right, each of them once, and to put what the visits result in back in their places; nothing else is
touched. This holds in every lawful monad, so it says in which order the effects of the visits happen.
-/

namespace LispNamespace

namespace Plan

/-! ## Entries and sites -/

/-- The plans for the elements of an argument. -/
def entries : Plan → List Plan
  | .nested plans => plans
  | _ => []

/-- The entry of a plan at a position, given by numbers as positions in trees are. -/
def at? (plan : Plan) : List Nat → Option Plan
  | [] => some plan
  | i :: path => plan.entries[i]?.bind (·.at? path)

/-- A place in which a plan says that an argument is code or a datum, and the argument. -/
structure Site where
  /-- The position of the entry and of the argument. -/
  path : List Nat
  /-- Whether the argument is code. -/
  isCode : Bool
  /-- The argument. -/
  arg : Tree

/-- What the plan says at the site. -/
def Site.plan (site : Site) : Plan := if site.isCode then .code else .data

/-- The site as it is seen from the list in which it is in the argument of the given number. -/
def Site.under (i : Nat) (site : Site) : Site := { site with path := i :: site.path }

/-- The site with another argument. -/
def Site.withArg (site : Site) (arg : Tree) : Site := { site with arg := arg }

mutual

/-- The sites of a plan in an argument. -/
def sites : Plan → Tree → List Site
  | .code, arg => [⟨[], true, arg⟩]
  | .data, arg => [⟨[], false, arg⟩]
  | .nested plans, arg => sitesFrom 0 plans (arg.properList?.getD [])

/-- The sites of several plans in their arguments, the first of which has the given number. -/
def sitesFrom (i : Nat) : List Plan → List Tree → List Site
  | plan :: plans, arg :: args => (sites plan arg).map (Site.under i) ++ sitesFrom (i + 1) plans args
  | _, _ => []

end

mutual

/-- The argument with new trees at its sites, in their order. -/
def refill : Plan → Tree → List Tree → Tree
  | .nested plans, .list (first :: rest), found => .list (refillAll plans (first :: rest) found)
  | .nested _, arg, _ => arg
  | _, _, found => found.headD .absent

/-- The arguments with new trees at their sites, in their order. -/
def refillAll : List Plan → List Tree → List Tree → List Tree
  | plan :: plans, arg :: args, found =>
      refill plan arg (found.take (sites plan arg).length) ::
        refillAll plans args (found.drop (sites plan arg).length)
  | _, _, _ => []

end

/-! ## Fitting plans have an argument for each entry -/

theorem FitsAll.length_eq {plans : List Plan} {args : List Tree} (h : FitsAll plans args) :
    plans.length = args.length := by
  induction plans generalizing args with
  | nil =>
      cases h
      rfl
  | cons plan plans ih =>
      cases h with
      | cons first rest => exact congrArg (· + 1) (ih rest)

/-- The plan with a number fits the argument with that number. -/
theorem FitsAll.getElem? {plans : List Plan} {args : List Tree} (h : FitsAll plans args) {i : Nat}
    {plan : Plan} (hplan : plans[i]? = some plan) : ∃ arg, args[i]? = some arg ∧ plan.Fits arg := by
  induction plans generalizing args i with
  | nil => cases hplan
  | cons first plans ih =>
      cases h with
      | cons hfirst hrest =>
          cases i with
          | zero =>
              cases hplan
              exact ⟨_, rfl, hfirst⟩
          | succ i => exact ih hrest hplan

theorem children_of_nested {plans : List Plan} {arg : Tree} (h : (nested plans).Fits arg) :
    FitsAll plans arg.children := by
  cases h with
  | nested hitems hplans =>
      unfold Tree.properList? at hitems
      split at hitems
      · cases hitems
        exact hplans
      · cases hitems
        exact hplans
      · cases hitems
        exact hplans
      · cases hitems

/-- A plan that fits has an argument at each of its entries, which the entry fits. -/
theorem Fits.exists_at? {plan entry : Plan} {arg : Tree} (h : plan.Fits arg) {path : List Nat}
    (hentry : plan.at? path = some entry) : ∃ found, arg.at? path = some found ∧ entry.Fits found := by
  induction path generalizing plan arg with
  | nil =>
      cases hentry
      exact ⟨arg, rfl, h⟩
  | cons i path ih =>
      cases plan with
      | code => cases hentry
      | data => cases hentry
      | nested plans =>
          rcases Option.bind_eq_some_iff.1 hentry with ⟨inner, hinner, hentry⟩
          rcases (children_of_nested h).getElem? hinner with ⟨child, hchild, hfits⟩
          rcases ih hfits hentry with ⟨found, hfound, hresult⟩
          exact ⟨found, Tree.at?_of_child hchild hfound, hresult⟩

/-! ## Sites are the entries for code and data -/

/-- The sites of several plans are those of each plan in its argument. -/
theorem mem_sitesFrom {site : Site} {i : Nat} {plans : List Plan} {args : List Tree} :
    site ∈ sitesFrom i plans args ↔
      ∃ k plan arg inner, plans[k]? = some plan ∧ args[k]? = some arg ∧ inner ∈ sites plan arg ∧
        site = inner.under (i + k) := by
  -- behind the first argument, the numbers are one higher
  induction plans generalizing i args with
  | nil => simp [sitesFrom]
  | cons first plans ih =>
      cases args with
      | nil => simp [sitesFrom]
      | cons arg args =>
          unfold sitesFrom
          rw [List.mem_append, List.mem_map, ih]
          constructor
          · rintro (⟨inner, hinner, rfl⟩ | ⟨k, plan, found, inner, hplan, hfound, hinner, rfl⟩)
            · exact ⟨0, first, arg, inner, rfl, rfl, hinner, rfl⟩
            · exact ⟨k + 1, plan, found, inner, hplan, hfound, hinner, by rw [Nat.add_right_comm]; rfl⟩
          · rintro ⟨k, plan, found, inner, hplan, hfound, hinner, rfl⟩
            cases k with
            | zero =>
                cases hplan
                cases hfound
                exact .inl ⟨inner, hinner, rfl⟩
            | succ k =>
                refine .inr ⟨k, plan, found, inner, hplan, hfound, hinner, ?_⟩
                rw [Nat.add_right_comm]
                rfl

/-- The sites of a nested plan are those of the plans for the elements. -/
theorem sites_nested {plans : List Plan} {arg : Tree} (h : (nested plans).Fits arg) :
    sites (nested plans) arg = sitesFrom 0 plans arg.children := by
  cases h with
  | nested hitems hplans =>
      unfold sites
      rw [hitems]
      unfold Tree.properList? at hitems
      split at hitems
      · cases hitems
        rfl
      · cases hitems
        rfl
      · cases hitems
        rfl
      · cases hitems

/-- A site is an entry for code or data with the argument at its place, and there are no others. -/
theorem Fits.mem_sites {plan : Plan} {arg : Tree} (h : plan.Fits arg) {site : Site} :
    site ∈ sites plan arg ↔
      plan.at? site.path = some site.plan ∧ arg.at? site.path = some site.arg := by
  rcases site with ⟨path, isCode, found⟩
  -- the path is followed into the plan and into the argument at the same time
  induction path generalizing plan arg with
  | nil =>
      cases plan with
      | code | data =>
          unfold sites
          cases isCode <;> simp [Site.plan, at?, Tree.at?, eq_comm]
      | nested plans =>
          rw [sites_nested h, mem_sitesFrom]
          constructor
          · rintro ⟨k, plan, child, inner, -, -, -, hsite⟩
            cases hsite
          · rintro ⟨hentry, -⟩
            cases isCode <;> cases hentry
  | cons i path ih =>
      cases plan with
      | code | data =>
          unfold sites
          constructor
          · intro hsite
            cases List.mem_singleton.1 hsite
          · rintro ⟨hentry, -⟩
            cases hentry
      | nested plans =>
          rw [sites_nested h, mem_sitesFrom]
          constructor
          · rintro ⟨k, plan, child, inner, hplan, hchild, hinner, hsite⟩
            rw [Nat.zero_add] at hsite
            cases hsite
            rcases (children_of_nested h).getElem? hplan with ⟨child', hchild', hfits⟩
            obtain rfl : child' = child := Option.some.inj (hchild'.symm.trans hchild)
            rcases (ih hfits).1 hinner with ⟨hentry, hfound⟩
            exact ⟨Option.bind_eq_some_iff.2 ⟨plan, hplan, hentry⟩, Tree.at?_of_child hchild hfound⟩
          · rintro ⟨hentry, hfound⟩
            rcases Option.bind_eq_some_iff.1 hentry with ⟨plan, hplan, hentry⟩
            rcases Option.bind_eq_some_iff.1 hfound with ⟨child, hchild, hfound⟩
            rcases (children_of_nested h).getElem? hplan with ⟨child', hchild', hfits⟩
            -- the child that the entry fits is the one that the path leads to
            obtain rfl : child' = child := Option.some.inj (hchild'.symm.trans hchild)
            refine ⟨i, plan, child', ⟨path, isCode, found⟩, hplan, hchild, (ih hfits).2 ⟨hentry, hfound⟩, ?_⟩
            rw [Nat.zero_add]
            rfl

/-! ## Sites stand from left to right -/

/-- Sites in order stay in order when they are seen from outside. -/
theorem sorted_under {i : Nat} {found : List Site} (h : found.Pairwise (·.path < ·.path)) :
    (found.map (Site.under i)).Pairwise (·.path < ·.path) :=
  List.pairwise_map.2 (h.imp fun hlt => List.cons_lt_cons_iff.2 (.inr ⟨rfl, hlt⟩))

mutual

/-- The sites of a plan are in the order in which their arguments stand in the source. -/
theorem sorted_sites (plan : Plan) (arg : Tree) : (sites plan arg).Pairwise (·.path < ·.path) := by
  cases plan with
  | code =>
      unfold sites
      exact List.pairwise_singleton ..
  | data =>
      unfold sites
      exact List.pairwise_singleton ..
  | nested plans =>
      unfold sites
      exact sorted_sitesFrom 0 plans _

/-- Each site comes before all that are further to the right. -/
theorem sorted_sitesFrom (i : Nat) (plans : List Plan) (args : List Tree) :
    (sitesFrom i plans args).Pairwise (·.path < ·.path) := by
  cases plans with
  | nil =>
      unfold sitesFrom
      exact .nil
  | cons plan plans =>
      cases args with
      | nil =>
          unfold sitesFrom
          exact .nil
      | cons arg args =>
          have hfirst := sorted_sites plan arg
          have hrest := sorted_sitesFrom (i + 1) plans args
          unfold sitesFrom
          refine List.pairwise_append.2 ⟨sorted_under hfirst, hrest, ?_⟩
          intro site hsite other hother
          rcases List.mem_map.1 hsite with ⟨inner, -, rfl⟩
          rcases mem_sitesFrom.1 hother with ⟨k, _, _, inner', -, -, -, rfl⟩
          exact List.cons_lt_cons_iff.2 (.inl (by omega))

end

/-! ## Carrying out a plan visits its sites -/

/-- What is no list with elements has no sites inside and stays as it is. -/
theorem eq_list_or_stays (arg : Tree) :
    (∃ first rest, arg = .list (first :: rest)) ∨
      (arg.properList?.getD [] = [] ∧ ∀ plans found, refill (nested plans) arg found = arg) := by
  cases arg with
  | list items =>
      cases items with
      | nil => exact .inr ⟨rfl, fun _ _ => by unfold refill; rfl⟩
      | cons first rest => exact .inl ⟨first, rest, rfl⟩
  | _ => exact .inr ⟨rfl, fun _ _ => by unfold refill; rfl⟩

section Visits

variable {m : Type → Type} [Monad m]

/-- What is done at a site. -/
def Site.visit (onCode onData : Tree → m Tree) (site : Site) : m Tree :=
  if site.isCode then onCode site.arg else onData site.arg

variable [LawfulMonad m]

/-- What comes after a walk over a list may rely on as many results as there are items. -/
theorem mapM_bind_congr {α β γ : Type} {f : α → m β} {items : List α} {next other : List β → m γ}
    (h : ∀ found, found.length = items.length → next found = other found) :
    (items.mapM f >>= next) = items.mapM f >>= other := by
  induction items generalizing next other with
  | nil =>
      rw [List.mapM_nil, pure_bind, pure_bind]
      exact h [] rfl
  | cons item items ih =>
      simp only [List.mapM_cons, bind_assoc, pure_bind]
      refine bind_congr fun first => ih fun rest hrest => ?_
      exact h (first :: rest) (congrArg (· + 1) hrest)

mutual

/-- To carry out a plan is to visit its sites in their order and to put the results in. In whatever
monad the visits are, their effects happen in this order and each of them once. -/
theorem apply_eq (onCode onData : Tree → m Tree) (plan : Plan) (arg : Tree) :
    plan.apply onCode onData arg =
      (sites plan arg).mapM (Site.visit onCode onData) >>= fun found => pure (refill plan arg found) := by
  cases plan with
  | code | data =>
      unfold apply sites
      simp [refill, Site.visit]
  | nested plans =>
      unfold apply sites
      rcases eq_list_or_stays arg with ⟨first, rest, rfl⟩ | ⟨hitems, hstays⟩
      · dsimp only
        rw [applyAll_eq onCode onData 0 plans (first :: rest), bind_assoc]
        simp only [pure_bind, refill]
        rfl
      · have hsites : sitesFrom 0 plans [] = [] := by
          cases plans <;> rfl
        rw [hitems, hsites, List.mapM_nil, pure_bind, hstays]
        split
        · cases hitems
        · rfl

/-- To carry out plans is to visit their sites from left to right, and then to put the results in their
places. -/
theorem applyAll_eq (onCode onData : Tree → m Tree) (i : Nat) (plans : List Plan) (args : List Tree) :
    applyAll onCode onData plans args =
      (sitesFrom i plans args).mapM (Site.visit onCode onData) >>= fun found =>
        pure (refillAll plans args found) := by
  cases plans with
  | nil =>
      unfold applyAll sitesFrom refillAll
      simp
  | cons plan plans =>
      cases args with
      | nil =>
          unfold applyAll sitesFrom refillAll
          simp
      | cons arg args =>
          have hfirst := apply_eq onCode onData plan arg
          have hrest := applyAll_eq onCode onData (i + 1) plans args
          have hvisit : Site.visit onCode onData ∘ Site.under i = Site.visit onCode onData := rfl
          unfold applyAll sitesFrom
          rw [hfirst, hrest, List.mapM_append, List.mapM_map, hvisit]
          simp only [bind_assoc, pure_bind]
          refine mapM_bind_congr fun found hfound => bind_congr fun others => ?_
          simp only [refillAll, List.take_left' hfound, List.drop_left' hfound]

end

end Visits

/-! ## What carrying out a plan keeps -/

mutual

/-- What comes in the place of an argument has the shape that the plan expects. -/
theorem Fits.refill {plan : Plan} {arg : Tree} (h : plan.Fits arg) (found : List Tree) :
    plan.Fits (plan.refill arg found) := by
  cases h with
  | code => exact .code _
  | data => exact .data _
  | @nested plans _ items hitems hplans =>
      rcases eq_list_or_stays arg with ⟨first, rest, rfl⟩ | ⟨-, hstays⟩
      · cases hitems
        unfold Plan.refill
        exact .nested rfl (hplans.refillAll found)
      · rw [hstays]
        exact .nested hitems hplans

/-- The plans fit the new arguments as they fit the old ones. -/
theorem FitsAll.refillAll {plans : List Plan} {args : List Tree} (h : FitsAll plans args)
    (found : List Tree) : FitsAll plans (Plan.refillAll plans args found) := by
  cases h with
  | nil =>
      unfold Plan.refillAll
      exact .nil
  | cons first rest =>
      unfold Plan.refillAll
      exact .cons (first.refill _) (rest.refillAll _)

end

/-- Where there are no arguments, there are no sites. -/
theorem sitesFrom_nil (i : Nat) (plans : List Plan) : sitesFrom i plans [] = [] := by
  cases plans <;> rfl

mutual

/-- The sites are where they were, with what has been put in. -/
theorem sites_refill (plan : Plan) (arg : Tree) {found : List Tree}
    (h : found.length = (sites plan arg).length) :
    sites plan (refill plan arg found) = List.zipWith Site.withArg (sites plan arg) found := by
  cases plan with
  | code | data =>
      unfold sites at h
      rcases List.length_eq_one_iff.1 h with ⟨result, rfl⟩
      unfold refill sites
      rfl
  | nested plans =>
      rcases eq_list_or_stays arg with ⟨first, rest, rfl⟩ | ⟨hitems, hstays⟩
      · unfold sites at h ⊢
        unfold refill
        exact sitesFrom_refillAll 0 plans (first :: rest) h
      · rw [hstays]
        unfold sites
        rw [hitems, sitesFrom_nil]
        rfl

/-- The results are at the sites, in the order of the visits. -/
theorem sitesFrom_refillAll (i : Nat) (plans : List Plan) (args : List Tree) {found : List Tree}
    (h : found.length = (sitesFrom i plans args).length) :
    sitesFrom i plans (refillAll plans args found) =
      List.zipWith Site.withArg (sitesFrom i plans args) found := by
  cases plans with
  | nil =>
      unfold sitesFrom
      rfl
  | cons plan plans =>
      cases args with
      | nil =>
          unfold refillAll
          rw [sitesFrom_nil]
          rfl
      | cons arg args =>
          unfold sitesFrom at h
          rw [List.length_append, List.length_map] at h
          -- the results for the first argument come before the others
          have htake : (found.take (sites plan arg).length).length = (sites plan arg).length := by
            rw [List.length_take]
            omega
          have hdrop : (found.drop (sites plan arg).length).length =
              (sitesFrom (i + 1) plans args).length := by
            rw [List.length_drop]
            omega
          have hfirst := sites_refill plan arg htake
          have hrest := sitesFrom_refillAll (i + 1) plans args hdrop
          have hunder : ((sites plan arg).map (Site.under i)).length =
              (found.take (sites plan arg).length).length := by
            rw [List.length_map, htake]
          unfold refillAll sitesFrom
          rw [hfirst, hrest]
          conv =>
            rhs
            rw [← List.take_append_drop (sites plan arg).length found, List.zipWith_append hunder,
              List.zipWith_map_left]
          rw [List.map_zipWith]
          rfl

end

mutual

/-- With the arguments that were there before, nothing changes. -/
theorem Fits.refill_same {plan : Plan} {arg : Tree} (h : plan.Fits arg) :
    plan.refill arg ((sites plan arg).map (·.arg)) = arg := by
  cases h with
  | code | data =>
      unfold sites Plan.refill
      rfl
  | nested hitems hplans =>
      rcases eq_list_or_stays arg with ⟨first, rest, rfl⟩ | ⟨-, hstays⟩
      · cases hitems
        unfold sites Plan.refill
        exact congrArg Tree.list (hplans.refillAll_same 0)
      · exact hstays _ _

/-- Arguments that are put back in their places are the arguments that were there. -/
theorem FitsAll.refillAll_same {plans : List Plan} {args : List Tree} (h : FitsAll plans args)
    (i : Nat) : Plan.refillAll plans args ((sitesFrom i plans args).map (·.arg)) = args := by
  cases h with
  | nil =>
      unfold Plan.refillAll
      rfl
  | @cons plan arg plans args first rest =>
      have hargs : ((sites plan arg).map (Site.under i)).map (·.arg) = (sites plan arg).map (·.arg) := by
        rw [List.map_map]
        rfl
      have hlength : ((sites plan arg).map (·.arg)).length = (sites plan arg).length := List.length_map ..
      unfold sitesFrom Plan.refillAll
      rw [List.map_append, hargs, List.take_left' hlength, List.drop_left' hlength, first.refill_same,
        rest.refillAll_same (i + 1)]

end

/-! ## Plans that mirror their arguments -/

/-- The plans mirror the arguments, and to carry them out is to visit the arguments that they call code
or data. -/
structure Mirrors (plans : List Plan) (args : List Tree) : Prop where
  /-- There are as many plans as arguments. -/
  length_eq : plans.length = args.length
  /-- Each plan says that its argument is code or a datum, or the argument is a proper list, and the
  plan mirrors its elements. -/
  fits : FitsAll plans args
  /-- At each entry of the plans, at any depth, there is an argument. -/
  entry : ∀ {path entry}, (nested plans).at? path = some entry →
    ∃ arg, (Tree.list args).at? path = some arg ∧ entry.Fits arg
  /-- The sites are the entries for code and data, with the arguments there. -/
  mem_sites : ∀ {site}, site ∈ sitesFrom 0 plans args ↔
    (nested plans).at? site.path = some site.plan ∧ (Tree.list args).at? site.path = some site.arg
  /-- They stand from left to right, each of them once. -/
  sorted : (sitesFrom 0 plans args).Pairwise (·.path < ·.path)
  /-- To carry the plans out is to visit the sites in this order. -/
  applyAll_eq : ∀ {m : Type → Type} [Monad m] [LawfulMonad m] (onCode onData : Tree → m Tree),
    applyAll onCode onData plans args =
      (sitesFrom 0 plans args).mapM (Site.visit onCode onData) >>= fun found =>
        pure (refillAll plans args found)
  /-- What comes out has the shape of the arguments. -/
  refillAll_fits : ∀ found, FitsAll plans (refillAll plans args found)
  /-- At the sites it has the results of the visits. -/
  sites_refillAll : ∀ {found : List Tree}, found.length = (sitesFrom 0 plans args).length →
    sitesFrom 0 plans (refillAll plans args found) =
      List.zipWith Site.withArg (sitesFrom 0 plans args) found
  /-- Visits that change nothing leave the arguments as they are. -/
  applyAll_pure : ∀ {m : Type → Type} [Monad m] [LawfulMonad m],
    (applyAll pure pure plans args : m (List Tree)) = pure args

/-- Plans that fit their arguments mirror them. -/
theorem FitsAll.mirrors {plans : List Plan} {args : List Tree} (h : FitsAll plans args) :
    Mirrors plans args := by
  have hroot : (nested plans).Fits (.list args) := .nested rfl h
  have hsites : sites (nested plans) (.list args) = sitesFrom 0 plans args := by
    unfold sites
    rfl
  refine
    { length_eq := h.length_eq
      fits := h
      entry := hroot.exists_at?
      mem_sites := hsites ▸ hroot.mem_sites
      sorted := sorted_sitesFrom 0 plans args
      applyAll_eq := fun onCode onData => Plan.applyAll_eq onCode onData 0 plans args
      refillAll_fits := h.refillAll
      sites_refillAll := sitesFrom_refillAll 0 plans args
      applyAll_pure := ?_ }
  intro m _ _
  -- visits without effect give back what they visit
  have hvisit : ∀ found : List Site,
      (found.mapM (Site.visit pure pure) : m (List Tree)) = pure (found.map (·.arg)) := by
    intro found
    induction found with
    | nil => simp
    | cons site found ih => simp [ih, Site.visit]
  rw [Plan.applyAll_eq pure pure 0, hvisit, pure_bind, h.refillAll_same 0]

/-! ## Comparing plans -/

mutual

/-- Whether two plans say the same. -/
def same : Plan → Plan → Bool
  | .code, .code => true
  | .data, .data => true
  | .nested plans, .nested others => sameAll plans others
  | _, _ => false

/-- Whether two lists of plans say the same. -/
def sameAll : List Plan → List Plan → Bool
  | [], [] => true
  | plan :: plans, other :: others => same plan other && sameAll plans others
  | _, _ => false

end

mutual

theorem same_iff (plan other : Plan) : same plan other = true ↔ plan = other := by
  cases plan with
  | nested plans =>
      cases other with
      | nested others => simp [same, sameAll_iff plans others]
      | _ => simp [same]
  | _ => cases other <;> simp [same]

theorem sameAll_iff (plans others : List Plan) : sameAll plans others = true ↔ plans = others := by
  cases plans with
  | nil => cases others <;> simp [sameAll]
  | cons plan plans =>
      cases others with
      | nil => simp [sameAll]
      | cons other others => simp [sameAll, same_iff plan other, sameAll_iff plans others]

end

instance : DecidableEq Plan := fun plan other => decidable_of_iff _ (same_iff plan other)

end Plan

/-- Whatever the names in the grammar stand for, the plans for the arguments of a call mirror the
arguments. -/
theorem Grammar.mirrors_of_classifyBy {resolver : Resolver} {steps : Nat} {spec : Tree}
    {args : List Tree} {plans : List Plan} (h : classifyBy resolver steps spec args = .ok plans) :
    Plan.Mirrors plans args :=
  (fitsAll_of_classifyBy h).mirrors

/-- The name of a binding stands for a list of a symbol and a form. -/
def Grammar.binding : Resolver := fun name =>
  if name == "binding" then some (.vec [.list [.sym "symbolp", .sym "form"]]) else none

/-- In a call with one binding, the bound name is a datum, and its value and the body are code. -/
theorem Grammar.mirrors_of_classifyBy_binding :
    classifyBy binding 0 (.list [.sym "binding", .sym "body"])
        [.list [.sym "x", Tree.call "f" []], .sym "y"] = .ok [.nested [.data, .code], .code] ∧
      Plan.Mirrors [.nested [.data, .code], .code] [.list [.sym "x", Tree.call "f" []], .sym "y"] := by
  have hplans : (classifyBy binding 0 (.list [.sym "binding", .sym "body"])
      [.list [.sym "x", Tree.call "f" []], .sym "y"]).toOption = some [.nested [.data, .code], .code] := by
    decide +kernel
  cases hclassify : classifyBy binding 0 (.list [.sym "binding", .sym "body"])
      [.list [.sym "x", Tree.call "f" []], .sym "y"] with
  | error fault =>
      rw [hclassify] at hplans
      cases hplans
  | ok plans =>
      rw [hclassify] at hplans
      cases hplans
      exact ⟨rfl, mirrors_of_classifyBy hclassify⟩

end LispNamespace
