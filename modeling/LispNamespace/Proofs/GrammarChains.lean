import LispNamespace.Grammar.Matching
import Mathlib.Data.List.Perm.Subperm
import Mathlib.Logic.Relation

/-!
# Chains of grammars

A grammar may be the bare name of another one. Following such names ends, unless they lead back to
where they came from: there are only as many steps as there are grammars.
-/

namespace LispNamespace.Grammar

/-- The grammar of the first name is the bare second name. The name of the grammar that makes every
argument code leads nowhere. -/
def Leads (grammars : Grammars) (name next : Text) : Prop :=
  name ≠ "t" ∧ grammars.find? name = some (.sym next)

/-- Some name leads back to itself. -/
def Circular (grammars : Grammars) : Prop :=
  ∃ name, Relation.TransGen (Leads grammars) name name

/-- Following a name to the limit of steps passes one name more than there were steps, and all of
them have grammars. -/
theorem chain_of_resolve {grammars : Grammars} {steps : Nat} {name last : Text}
    (h : resolve grammars.find? steps (.sym name) = .error (.endlessGrammar last)) :
    ∃ rest : List Text, rest.length = steps ∧ (name :: rest).IsChain (Leads grammars) ∧
      ∀ passed ∈ name :: rest, passed ∈ grammars.map Prod.fst := by
  -- a name that has a grammar is one of the keys
  have hkey : ∀ {name spec}, grammars.find? name = some spec → name ∈ grammars.map Prod.fst := by
    intro name spec hfind
    unfold Grammars.find? at hfind
    split at hfind
    · cases hfind
    · rcases List.lookup_eq_some_iff.1 hfind with ⟨front, back, heq, -⟩
      rw [heq]
      simp
  -- the name leads on, or it would not be given up
  have hleads : ∀ {steps name}, resolve grammars.find? steps (.sym name) = .error (.endlessGrammar last) →
      name ≠ "t" ∧ ∃ next, grammars.find? name = some next := by
    intro steps name h
    rcases resolve_cases grammars.find? (.sym name) with hok | ⟨other, hunknown⟩ | ⟨_, next, ⟨⟩, hname, hnext⟩
    · rw [hok] at h
      cases h
    · rw [hunknown] at h
      cases h
    · exact ⟨hname, next, hnext⟩
  induction steps generalizing name with
  | zero =>
      rcases hleads h with ⟨-, next, hnext⟩
      exact ⟨[], rfl, .singleton _, List.forall_mem_singleton.2 (hkey hnext)⟩
  | succ steps ih =>
      rcases hleads h with ⟨hname, next, hnext⟩
      rw [resolve_succ hname hnext] at h
      -- only a bare name is followed further
      cases next with
      | sym next =>
          rcases ih h with ⟨rest, hlength, hchain, hkeys⟩
          refine ⟨next :: rest, ?_, ?_, ?_⟩
          · rw [List.length_cons, hlength]
          · exact .cons_cons ⟨hname, hnext⟩ hchain
          · exact List.forall_mem_cons.2 ⟨hkey hnext, hkeys⟩
      | _ =>
          rw [resolve_of_symbol?_eq_none _ _ rfl] at h
          cases h

/-- A chain of names that is longer than the number of grammars arrives at a name that leads back to
itself. -/
theorem circle_of_resolve {grammars : Grammars} {name last : Text}
    (h : resolve grammars.find? grammars.length (.sym name) = .error (.endlessGrammar last)) :
    ∃ passed, Relation.ReflTransGen (Leads grammars) name passed ∧
      Relation.TransGen (Leads grammars) passed passed := by
  by_contra hcircle
  -- the names on a chain that never returns are all different
  have hirrefl : ∀ passed, Relation.ReflTransGen (Leads grammars) name passed →
      ¬Relation.TransGen (Leads grammars) passed passed :=
    fun passed hreach hreturn => hcircle ⟨passed, hreach, hreturn⟩
  rcases chain_of_resolve h with ⟨rest, hlength, hchain, hkeys⟩
  have hpairwise : (name :: rest).Pairwise (Relation.TransGen (Leads grammars)) :=
    List.isChain_iff_pairwise.1 (hchain.imp fun _ _ hleads => .single hleads)
  have hreach : ∀ passed ∈ name :: rest, Relation.ReflTransGen (Leads grammars) name passed :=
    List.forall_mem_cons.2 ⟨.refl, fun passed hpassed =>
      ((List.pairwise_cons.1 hpairwise).1 passed hpassed).to_reflTransGen⟩
  have hnodup : (name :: rest).Nodup := by
    refine hpairwise.imp_of_mem ?_
    rintro a b ha - hab rfl
    exact hirrefl a (hreach a ha) hab
  have hcount : (name :: rest).length ≤ (grammars.map Prod.fst).length :=
    (hnodup.subperm hkeys).length_le
  rw [List.length_cons, List.length_map, hlength] at hcount
  omega

/-- Only a name is followed to the limit of steps. -/
theorem circular_of_resolve {grammars : Grammars} {spec : Tree} {last : Text}
    (h : resolve grammars.find? grammars.length spec = .error (.endlessGrammar last)) :
    Circular grammars := by
  cases spec with
  | sym name =>
      rcases circle_of_resolve h with ⟨passed, -, hreturn⟩
      exact ⟨passed, hreturn⟩
  | _ =>
      rw [resolve_of_symbol?_eq_none _ _ rfl] at h
      cases h

/-- Following a name fails only because the name is unknown or because of a circle. -/
theorem resolve_error {grammars : Grammars} {steps : Nat} {spec : Tree} {fault : Fault}
    (h : resolve grammars.find? steps spec = .error fault) :
    (∃ why, fault = .mismatch why) ∨ ∃ last, fault = .endlessGrammar last := by
  -- a name that is followed leaves one step less; the error is that of the last name
  induction steps generalizing spec with
  | zero =>
      rcases resolve_cases grammars.find? spec with hok | ⟨name, hunknown⟩ | ⟨name, next, rfl, hname, hnext⟩
      · rw [hok] at h
        cases h
      · rw [hunknown] at h
        cases h
        exact .inl ⟨_, rfl⟩
      · rw [resolve_zero hname hnext] at h
        cases h
        exact .inr ⟨_, rfl⟩
  | succ steps ih =>
      rcases resolve_cases grammars.find? spec with hok | ⟨name, hunknown⟩ | ⟨name, next, rfl, hname, hnext⟩
      · rw [hok] at h
        cases h
      · rw [hunknown] at h
        cases h
        exact .inl ⟨_, rfl⟩
      · rw [resolve_succ hname hnext] at h
        exact ih h

/-- Arguments are classified, or do not fit their grammar, unless the chain that their grammar begins
is followed to the limit of steps. -/
theorem resolve_of_classify {grammars : Grammars} {spec : Tree} {args : List Tree} {fault : Fault}
    (h : classify grammars spec args = .error fault) (hfault : ∀ why, fault ≠ .mismatch why) :
    resolve grammars.find? grammars.length spec = .error fault := by
  unfold classify classifyBy at h
  split at h
  · next hresolve =>
    cases h
    exact hresolve
  -- after that, the only faults are mismatches
  · split at h
    · cases h
    · split at h
      · cases h
      · split at h
        · cases h
          exact absurd rfl (hfault _)
        · dsimp only at h
          split at h
          · cases h
            exact absurd rfl (hfault _)
          · cases h
          · cases h
            exact absurd rfl (hfault _)

/-- The only fault besides a misfit is that a chain does not end. -/
theorem endless_of_classify {grammars : Grammars} {spec : Tree} {args : List Tree} {fault : Fault}
    (h : classify grammars spec args = .error fault) (hfault : ∀ why, fault ≠ .mismatch why) :
    ∃ last, fault = .endlessGrammar last := by
  rcases resolve_error (resolve_of_classify h hfault) with ⟨why, rfl⟩ | hlast
  · exact absurd rfl (hfault why)
  · exact hlast

/-- A grammar that is spelled out begins no chain. -/
theorem mismatch_of_classify_list {grammars : Grammars} {elements args : List Tree} {fault : Fault}
    (h : classify grammars (.list elements) args = .error fault) : ∃ why, fault = .mismatch why := by
  by_contra hfault
  have hresolve := resolve_of_classify h fun why hwhy => hfault ⟨why, hwhy⟩
  rw [resolve_of_symbol?_eq_none _ _ rfl] at hresolve
  cases hresolve

/-- A chain that does not end runs in a circle. -/
theorem circular_of_classify {grammars : Grammars} {spec : Tree} {args : List Tree} {fault : Fault}
    (h : classify grammars spec args = .error fault) (hfault : ∀ why, fault ≠ .mismatch why) :
    Circular grammars := by
  rcases endless_of_classify h hfault with ⟨last, rfl⟩
  exact circular_of_resolve (resolve_of_classify h hfault)

/-! ## Grammars that are known in another order -/

/-- From a name that arrives at a circle the chain goes on, and still arrives there. -/
theorem exists_leads_of_circle {grammars : Grammars} {name passed : Text}
    (hreach : Relation.ReflTransGen (Leads grammars) name passed)
    (hreturn : Relation.TransGen (Leads grammars) passed passed) :
    ∃ next, Leads grammars name next ∧ Relation.ReflTransGen (Leads grammars) next passed := by
  rcases hreach.cases_head with rfl | hnext
  · exact Relation.TransGen.head'_iff.1 hreturn
  · exact hnext

/-- Following a name that arrives at a circle passes every limit of steps. -/
theorem resolve_of_circle {grammars : Grammars} {name passed : Text}
    (hreach : Relation.ReflTransGen (Leads grammars) name passed)
    (hreturn : Relation.TransGen (Leads grammars) passed passed) (steps : Nat) :
    ∃ last, resolve grammars.find? steps (.sym name) = .error (.endlessGrammar last) := by
  induction steps generalizing name with
  | zero =>
      rcases exists_leads_of_circle hreach hreturn with ⟨next, hleads, -⟩
      exact ⟨name, resolve_zero hleads.1 hleads.2⟩
  | succ steps ih =>
      rcases exists_leads_of_circle hreach hreturn with ⟨next, hleads, hrest⟩
      rw [resolve_succ hleads.1 hleads.2]
      exact ih hrest

/-- What following a name arrives at does not depend on how many more steps could be taken. -/
theorem resolve_add {grammars : Grammars} {steps : Nat} {spec : Tree}
    (h : ∀ last, resolve grammars.find? steps spec ≠ .error (.endlessGrammar last)) (more : Nat) :
    resolve grammars.find? (steps + more) spec = resolve grammars.find? steps spec := by
  induction steps generalizing spec with
  | zero =>
      rcases resolve_cases grammars.find? spec with hok | ⟨name, hunknown⟩ | ⟨name, next, rfl, hname, hnext⟩
      · rw [hok, hok]
      · rw [hunknown, hunknown]
      · exact absurd (resolve_zero hname hnext) (h name)
  | succ steps ih =>
      rcases resolve_cases grammars.find? spec with hok | ⟨name, hunknown⟩ | ⟨name, next, rfl, hname, hnext⟩
      · rw [hok, hok]
      · rw [hunknown, hunknown]
      · rw [resolve_succ hname hnext] at h
        rw [Nat.add_right_comm, resolve_succ hname hnext, resolve_succ hname hnext]
        exact ih h

/-- A chain that ends in the one table ends in the other, though the tables may be of different
lengths. -/
theorem resolve_length {grammars others : Grammars}
    (h : ∀ name, others.find? name = grammars.find? name) {spec : Tree}
    (hends : ∀ last, resolve grammars.find? grammars.length spec ≠ .error (.endlessGrammar last)) :
    resolve others.find? others.length spec = resolve grammars.find? grammars.length spec := by
  have hfind : others.find? = grammars.find? := funext h
  have hends' : ∀ last, resolve others.find? others.length spec ≠ .error (.endlessGrammar last) := by
    intro last hlast
    cases spec with
    | sym name =>
        rcases circle_of_resolve hlast with ⟨passed, hreach, hreturn⟩
        rcases resolve_of_circle hreach hreturn grammars.length with ⟨last, hlast⟩
        rw [hfind] at hlast
        exact hends last hlast
    | _ =>
        rw [resolve_of_symbol?_eq_none _ _ rfl] at hlast
        cases hlast
  rw [hfind] at hends' ⊢
  -- the one chain has at most as many steps to go as the other
  rcases Nat.le_total grammars.length others.length with hle | hle
  · have hmore := resolve_add hends (others.length - grammars.length)
    rwa [Nat.add_sub_cancel' hle] at hmore
  · have hmore := resolve_add hends' (grammars.length - others.length)
    rw [Nat.add_sub_cancel' hle] at hmore
    exact hmore.symm

/-- Tables that give every name the same grammar classify arguments alike. Only on a chain that does
not end may they give up at different names. -/
theorem classify_eq {grammars others : Grammars}
    (h : ∀ name, others.find? name = grammars.find? name) {spec : Tree} {args : List Tree}
    (hends : ∀ last, classify grammars spec args ≠ .error (.endlessGrammar last)) :
    classify others spec args = classify grammars spec args := by
  have hresolve : ∀ last, resolve grammars.find? grammars.length spec ≠ .error (.endlessGrammar last) := by
    intro last hlast
    refine hends last ?_
    unfold classify classifyBy
    rw [hlast]
  have hfind : others.find? = grammars.find? := funext h
  unfold classify classifyBy
  rw [resolve_length h hresolve, hfind]

/-- Whether every bare name among the grammars is that of a grammar that is spelled out, so that no
chain has more than one step. -/
def isShort (grammars : Grammars) : Bool :=
  grammars.all fun entry =>
    match entry.2 with
    | .sym next => next == "t" || !(grammars.find? next).any Tree.isSymbol
    | _ => true

/-- Chains of one step do not return. -/
theorem not_circular_of_isShort {grammars : Grammars} (h : isShort grammars = true) :
    ¬Circular grammars := by
  -- where one step arrives, there is no other
  have hstep : ∀ {name next further}, Leads grammars name next → ¬Leads grammars next further := by
    rintro name next further ⟨-, hname⟩ ⟨hnext, hfurther⟩
    have hentry : (name, Tree.sym next) ∈ grammars := by
      unfold Grammars.find? at hname
      split at hname
      · cases hname
      · rcases List.lookup_eq_some_iff.1 hname with ⟨front, back, heq, -⟩
        rw [heq]
        simp
    have hshort := List.all_eq_true.1 h _ hentry
    simp only [hfurther, Option.any_some, Bool.or_eq_true, beq_iff_eq, Bool.not_eq_true'] at hshort
    rcases hshort with ht | hsymbol
    · exact hnext ht
    · cases hsymbol
  rintro ⟨name, hname⟩
  rcases Relation.TransGen.head'_iff.1 hname with ⟨next, hfirst, hrest⟩
  rcases Relation.ReflTransGen.cases_head hrest with heq | ⟨further, hsecond, -⟩
  · rw [heq] at hfirst
    exact hstep hfirst hfirst
  · exact hstep hfirst hsecond

end LispNamespace.Grammar
