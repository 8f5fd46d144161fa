import LispNamespace.Forms.Definition
import LispNamespace.Host.Standard

/-!
# Grammars that refer to no other

An element of a grammar may refer to another grammar by name. Arguments are classified by a grammar
without such elements in the same way whatever other grammars there are. The grammars of the standard
host and those of modes are of this kind.
-/

namespace LispNamespace.Grammar

/-! ## Elements -/

/-- Whether a symbol as an element has a meaning that does not depend on other grammars. -/
def isKnownElement (name : Text) : Bool :=
  isBodyElement name || isCodeElement name || name == "lambda-expr" || (dataKind? name).isSome

mutual

/-- Whether an element refers to no other grammar. Alternatives and negations are left out. -/
def refersToNone : Tree → Bool
  | .sym name =>
      match marks.lookup name with
      | some .or | some .not => false
      | some _ => true
      | none => isKnownElement name
  | .list elements | .vec elements => noneRefers elements
  | _ => true

/-- Whether no element refers to another grammar. -/
def noneRefers : List Tree → Bool
  | [] => true
  | element :: elements => refersToNone element && noneRefers elements

end

/-- Whether a grammar refers to no other one. -/
def isSelfContained : Tree → Bool
  | .sym name => name == "t"
  | spec => refersToNone spec

theorem noneRefers_iff {elements : List Tree} :
    noneRefers elements = true ↔ ∀ element ∈ elements, refersToNone element = true := by
  induction elements with
  | nil => simp [noneRefers]
  | cons element elements ih => simp [noneRefers, ih]

theorem noneRefers_of_elements? {spec : Tree} {elements : List Tree}
    (h : isSelfContained spec = true) (helements : spec.elements? = some elements) :
    noneRefers elements = true := by
  cases spec with
  | list items | vec items =>
      cases helements
      unfold isSelfContained refersToNone at h
      exact h
  | _ => cases helements

/-- An element that refers to no other grammar stands for arguments, or it is one of the marks that say
how often the others are matched. -/
theorem mark?_of_refersToNone {element : Tree} (h : refersToNone element = true) :
    mark? element = none ∨ mark? element = some .define ∨ mark? element = some .optional ∨
      mark? element = some .rest := by
  cases element with
  | sym name =>
      have hlookup : mark? (.sym name) = marks.lookup name := rfl
      rw [hlookup]
      unfold refersToNone at h
      cases hmark : marks.lookup name with
      | none => exact .inl rfl
      | some mark =>
          rw [hmark] at h
          cases mark with
          | define => exact .inr (.inl rfl)
          | optional => exact .inr (.inr (.inl rfl))
          | rest => exact .inr (.inr (.inr rfl))
          | or => cases h
          | not => cases h
  | _ => exact .inl rfl

/-! ## Matching -/

/-- Sequences are matched alike if their elements are. -/
theorem matchSequence_congr {one other : Matcher} {elements : List Tree}
    (hrefers : ∀ element ∈ elements, refersToNone element = true)
    (heq : ∀ element ∈ elements, mark? element = none →
      ∀ depth args, one depth element args = other depth element args)
    (isOptional : Bool) (depth : Nat) (args : List Tree) :
    matchSequence one isOptional depth elements args =
      matchSequence other isOptional depth elements args := by
  induction elements generalizing isOptional depth args with
  | nil => rfl
  | cons element elements ih =>
      rcases List.forall_mem_cons.1 hrefers with ⟨hfirst, hothers⟩
      rcases List.forall_mem_cons.1 heq with ⟨hone, heq'⟩
      have ih := ih hothers heq'
      unfold matchSequence
      rcases mark?_of_refersToNone hfirst with hmark | hmark | hmark | hmark
      · simp only [hmark, hone hmark, ih]
      · simp only [hmark, ih]
      · simp only [hmark, ih]
      · have hrest : matchSequence one false (depth + 1) elements =
            matchSequence other false (depth + 1) elements := funext fun args => ih false _ args
        simp only [hmark, hrest]

/-- An element with a known name is matched without a look at other grammars. -/
theorem matchNamed_known {name : Text} (h : isKnownElement name = true)
    (hbody : isBodyElement name = false) (arg : Tree) (rest : List Tree)
    (otherwise other : Unit → Matched) :
    matchNamed name arg rest otherwise = matchNamed name arg rest other := by
  unfold isKnownElement at h
  rw [hbody, Bool.false_or] at h
  unfold matchNamed
  by_cases hcode : isCodeElement name = true
  · rw [if_pos hcode, if_pos hcode]
  · rw [if_neg hcode, if_neg hcode]
    by_cases hlambda : (name == "lambda-expr") = true
    · rw [if_pos hlambda, if_pos hlambda]
    · rw [if_neg hlambda, if_neg hlambda]
      rw [Bool.eq_false_iff.2 hcode, Bool.eq_false_iff.2 hlambda, Bool.false_or, Bool.false_or,
        Option.isSome_iff_exists] at h
      rcases h with ⟨kind, hkind⟩
      simp only [hkind]

/-- An element that refers to no other grammar is matched alike among any grammars. -/
theorem matchElement_congr (resolver other : Resolver) (room : Nat) {element : Tree}
    (h : refersToNone element = true) (hmark : mark? element = none) (args : List Tree) :
    matchElement resolver room element args = matchElement other room element args := by
  -- the elements inside are matched with less room
  induction room using Nat.strongRecOn generalizing element args with
  | _ room ih =>
  cases room with
  | zero =>
      unfold matchElement
      rfl
  | succ room =>
      have hinner : ∀ {elements : List Tree}, noneRefers elements = true → ∀ args,
          matchSequence (fun depth => matchElement resolver (room - 1 - depth)) false 0 elements args =
            matchSequence (fun depth => matchElement other (room - 1 - depth)) false 0 elements args := by
        intro elements helements args
        have hrefers := noneRefers_iff.1 helements
        refine matchSequence_congr hrefers (fun inner hmem hnone depth args => ?_) false 0 args
        exact ih _ (by omega) (hrefers inner hmem) hnone args
      unfold matchElement
      cases element with
      | vec elements =>
          unfold refersToNone at h
          exact hinner h args
      | list elements =>
          unfold refersToNone at h
          simp only [hinner h]
      | sym name =>
          -- the name is no mark, so it stands for a kind of argument, and other grammars are never
          -- asked
          have hknown : isKnownElement name = true := by
            have hlookup : marks.lookup name = none := hmark
            unfold refersToNone at h
            rwa [hlookup] at h
          dsimp only
          by_cases hbody : (Tree.sym name).symbol?.any isBodyElement = true
          · rw [if_pos hbody, if_pos hbody]
          · rw [if_neg hbody, if_neg hbody]
            cases args with
            | nil => rfl
            | cons arg rest =>
                exact matchNamed_known hknown (Bool.eq_false_iff.2 hbody) arg rest _ _
      | _ => rfl

/-- Arguments are classified alike by a grammar that refers to no other one. -/
theorem classify_congr (grammars others : Grammars) {spec : Tree} (h : isSelfContained spec = true)
    (args : List Tree) : classify grammars spec args = classify others spec args := by
  have hresolve : ∀ grammars : Grammars, resolve grammars.find? grammars.length spec = .ok spec := by
    intro grammars
    cases spec with
    | sym name =>
        obtain rfl : name = "t" := beq_iff_eq.1 h
        exact resolve_t _ _
    | _ => exact resolve_of_symbol?_eq_none _ _ rfl
  have hsequence : ∀ elements, spec.elements? = some elements → ∀ args,
      matchSequence (fun depth => matchElement grammars.find? (depthLimit - depth)) false 0 elements args =
        matchSequence (fun depth => matchElement others.find? (depthLimit - depth)) false 0 elements args := by
    intro elements helements args
    have hrefers := noneRefers_iff.1 (noneRefers_of_elements? h helements)
    refine matchSequence_congr hrefers (fun element hmem hnone depth args => ?_) false 0 args
    exact matchElement_congr grammars.find? others.find? _ (hrefers element hmem) hnone args
  unfold classify classifyBy
  rw [hresolve, hresolve]
  dsimp only
  cases helements : spec.elements? with
  | none => rfl
  | some elements => simp only [hsequence elements helements]

/-! ## Known grammars -/

/-- The grammars of mode definitions refer to no other ones. -/
theorem isSelfContained_modes :
    isSelfContained Forms.minorModeGrammar = true ∧ isSelfContained Forms.derivedModeGrammar = true ∧
      isSelfContained Forms.globalizedModeGrammar = true := by
  decide

/-- No grammar of the standard host refers to another one. -/
theorem isSelfContained_standard {name : Text} {spec : Tree}
    (h : Host.standard.grammars.lookup name = some spec) : isSelfContained spec = true := by
  have hall : ∀ entry ∈ Host.standard.grammars, isSelfContained entry.2 = true := by decide
  rcases List.lookup_eq_some_iff.1 h with ⟨front, back, heq, -⟩
  exact hall (name, spec) (heq ▸ List.mem_append_right _ (List.mem_cons_self ..))

end LispNamespace.Grammar
