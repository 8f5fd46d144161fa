import LispNamespace.Proofs.Approach
import LispNamespace.Proofs.Runs

/-!
# What lambda lists bind

A lambda list binds its names from left to right, and each default form is converted where just the
names before it are bound. That holds of lambda lists whose patterns have no other patterns inside:
of a pattern inside a pattern, only the first name is bound.
-/

namespace LispNamespace

open Rewrite Forms

/-! ## The names in a lambda list -/

namespace LambdaList

mutual

/-- The names in a pattern, however deep: its symbols, except those that mark a section. After a dot,
a symbol marks none. -/
def patternNames : Tree → List Text
  | .sym name => if isSectionMarker name then [] else [name]
  | .list items => allPatternNames items
  | .dot items (.sym name) => allPatternNames items ++ [name]
  | .dot items tail => allPatternNames items ++ patternNames tail
  | _ => []

/-- The names in the elements of a pattern. -/
def allPatternNames : List Tree → List Text
  | [] => []
  | item :: rest => patternNames item ++ allPatternNames rest

end

/-- The names of a single variable or of the pattern that stands in its place. -/
def placeNames : Tree → List Text
  | .sym name => [name]
  | pattern => patternNames pattern

/-- The names bound by what a default form is for: a variable, perhaps after its keyword, or a
pattern. -/
def variableNames (variable_ : Tree) : List Text :=
  match variable_ with
  | .list [.sym key, place] =>
      if Tree.isKeywordName key then placeNames place else patternNames variable_
  | variable_ => placeNames variable_

/-- The names that an element of a lambda list binds after the given marker. -/
def paramNames (section_ : Text) (param : Tree) : List Text :=
  match param with
  | .list (variable_ :: more) =>
      if defaultSections.contains section_ then
        variableNames variable_ ++ (suppliedName? more).toList
      else patternNames param
  | param => patternNames param

/-- The marker of the section that an element is followed by. -/
def nextSection (section_ : Text) (param : Tree) : Text :=
  match param with
  | .sym name => if isSectionMarker name then name else section_
  | _ => section_

/-- The marker of the section in which a lambda list goes on after some elements. -/
def sectionAfter (section_ : Text) (params : List Tree) : Text := params.foldl nextSection section_

/-- The names that the elements of a lambda list bind, those after the given marker. -/
def namesFrom (section_ : Text) : List Tree → List Text
  | [] => []
  | param :: rest => paramNames section_ param ++ namesFrom (nextSection section_ param) rest

/-- The elements of a lambda list before its dot. -/
def params : Tree → List Tree
  | .list items | .dot items _ => items
  | _ => []

/-- The names that a lambda list binds: those of its elements, and the name after the dot. -/
def names (list : Tree) : List Text :=
  match list with
  | .dot items tail => namesFrom "" items ++ tail.symbol?.toList
  | list => namesFrom "" (params list)

/-! ## Flat lambda lists -/

/-- Whether the tree is a symbol or the empty list. -/
def isPlain : Tree → Bool
  | .sym _ | .nil => true
  | _ => false

/-- Whether the tree is a symbol or a pattern without another pattern in it. -/
def isFlat : Tree → Bool
  | .sym _ | .nil => true
  | .list items | .dot items (.sym _) => items.all isPlain
  | _ => false

/-- Whether what a default form is for has no patterns inside a pattern. -/
def isFlatVariable (variable_ : Tree) : Bool :=
  match variable_ with
  | .list [.sym key, place] => if Tree.isKeywordName key then isFlat place else isPlain place
  | variable_ => isFlat variable_

/-- Whether an element of a lambda list after the given marker has none. -/
def isFlatParam (section_ : Text) (param : Tree) : Bool :=
  match param with
  | .list (variable_ :: more) =>
      if defaultSections.contains section_ then isFlatVariable variable_
      else isFlat (.list (variable_ :: more))
  | param => isFlat param

/-- Whether the elements of a lambda list after the given marker have none. -/
def isFlatFrom (section_ : Text) : List Tree → Bool
  | [] => true
  | param :: rest => isFlatParam section_ param && isFlatFrom (nextSection section_ param) rest

/-- Whether the tree is a lambda list without patterns inside patterns. -/
def isFlatList : Tree → Bool
  | .list items | .dot items (.sym _) => isFlatFrom "" items
  | .nil => true
  | _ => false

/-! ## Flat patterns -/

theorem patternNames_of_isPlain {item : Tree} (h : isPlain item = true) :
    patternNames item = (paramName? item).toList := by
  cases item with
  | sym name =>
      show (if isSectionMarker name then [] else [name]) =
        (if isSectionMarker name then none else some name).toList
      split <;> rfl
  | nil => rfl
  | _ => cases h

theorem allPatternNames_of_isPlain {items : List Tree} (h : items.all isPlain = true) :
    allPatternNames items = items.filterMap paramName? := by
  induction items with
  | nil => rfl
  | cons item items ih =>
      rw [List.all_cons, Bool.and_eq_true] at h
      unfold allPatternNames
      rw [patternNames_of_isPlain h.1, ih h.2, List.filterMap_cons]
      cases paramName? item <;> rfl

/-- Of a flat pattern, all names are bound. -/
theorem lambdaParams_of_isFlat {pattern : Tree} (h : isFlat pattern = true) :
    lambdaParams pattern = placeNames pattern := by
  unfold isFlat at h
  split at h
  · rfl
  · rfl
  · next items =>
    show items.filterMap paramName? = allPatternNames items
    exact (allPatternNames_of_isPlain h).symm
  · next items name =>
    show items.filterMap paramName? ++ [name] = allPatternNames items ++ [name]
    rw [allPatternNames_of_isPlain h]
  · cases h

/-- A pair whose first element is a keyword binds what its second one says, and any other pair is a
pattern of its own. -/
theorem specificationNames_pair (key : Text) (place : Tree) :
    specificationNames (.list [.sym key, place]) =
      if Tree.isKeywordName key then lambdaParams place
      else lambdaParams (.list [.sym key, place]) := by
  cases place <;> rfl

/-- What a default form is for binds all its names when it is flat. -/
theorem specificationNames_of_isFlatVariable {variable_ : Tree}
    (h : isFlatVariable variable_ = true) :
    specificationNames variable_ = variableNames variable_ := by
  unfold isFlatVariable at h
  unfold variableNames
  split at h
  -- two elements, of which the first may be a keyword
  · next key place =>
    rw [specificationNames_pair]
    show _ = if Tree.isKeywordName key then placeNames place
      else patternNames (.list [.sym key, place])
    split at h
    · next hkey => rw [if_pos hkey, if_pos hkey, lambdaParams_of_isFlat h]
    · next hkey =>
      have hflat : isFlat (.list [.sym key, place]) = true :=
        List.all_eq_true.2 (by simpa [isPlain] using h)
      rw [if_neg hkey, if_neg hkey, lambdaParams_of_isFlat hflat]
      rfl
  · next hpair =>
    have hlambda : specificationNames variable_ = lambdaParams variable_ := by
      cases variable_ with
      | list items =>
          unfold specificationNames Tree.elements?
          dsimp only
          split
          · next heq => exact absurd (congrArg Tree.list (Option.some.inj heq)) (hpair _ _)
          · next heq => exact absurd (congrArg Tree.list (Option.some.inj heq)) (hpair _ _)
          · rfl
      | vec items => cases h
      | _ => rfl
    rw [hlambda, lambdaParams_of_isFlat h]

/-- The names that an element of a lambda list after the given marker adds to the frame. -/
def boundNames (section_ : Text) (param : Tree) : List Text :=
  match param with
  | .sym name => if isSectionMarker name then [] else [name]
  | .list (variable_ :: more) =>
      if defaultSections.contains section_ then
        specificationNames variable_ ++ (suppliedName? more).toList
      else lambdaParams param
  | param => lambdaParams param

/-- A flat element binds all its names. -/
theorem boundNames_of_isFlatParam {section_ : Text} {param : Tree}
    (h : isFlatParam section_ param = true) : boundNames section_ param = paramNames section_ param := by
  cases param with
  | sym name => rfl
  | list items =>
      cases items with
      | nil => rfl
      | cons variable_ more =>
          unfold isFlatParam at h
          unfold boundNames paramNames
          dsimp only at h ⊢
          split at h
          · next hsection =>
            rw [if_pos hsection, if_pos hsection, specificationNames_of_isFlatVariable h]
          · next hsection =>
            rw [if_neg hsection, if_neg hsection, lambdaParams_of_isFlat h]
            rfl
  | _ =>
      unfold isFlatParam at h
      exact lambdaParams_of_isFlat h

end LambdaList

/-! ## Binding from left to right -/

/-- The innermost frame of the session binds just the given names; the frames around it are given,
too. -/
def Session.Binds (s : Session) (names : List Text) (outer : List (List Text)) : Prop :=
  ∃ frame, s.frames = frame :: outer ∧ ∀ name, name ∈ frame ↔ name ∈ names

theorem Session.Binds.growFrame {s : Session} {names : List Text} {outer : List (List Text)}
    (h : s.Binds names outer) (more : List Text) : (s.growFrame more).Binds (more ++ names) outer := by
  rcases h with ⟨frame, hframes, hnames⟩
  refine ⟨more ++ frame, ?_, fun name => ?_⟩
  · unfold Session.growFrame
    rw [hframes]
  · rw [List.mem_append, List.mem_append, hnames]

/-- Names that are bound later are bound in addition to those before. -/
theorem Session.Binds.swap {s : Session} {later earlier bound : List Text} {outer : List (List Text)}
    (h : s.Binds (later ++ (earlier ++ bound)) outer) : s.Binds (earlier ++ later ++ bound) outer := by
  rcases h with ⟨frame, hframes, hframe⟩
  refine ⟨frame, hframes, fun name => ?_⟩
  rw [hframe, List.mem_append, List.mem_append, List.mem_append, List.mem_append, or_assoc,
    or_left_comm]

namespace LambdaList

variable {walk : Walk} {s s' : Session} {bound : List Text} {outer : List (List Text)}

/-- An element that stays as it is binds its names before what follows it is treated. -/
theorem runFrom_staying {names : List Text} {section_ : Text} {param : Tree} {rest results : List Tree}
    (hs : s.Binds bound outer)
    (hrun : (bindNames names >>= fun _ => convertParamItems walk section_ rest >>= fun rest =>
      pure (param :: rest)).runFrom s = (.ok results, s')) :
    ∃ t rest', results = param :: rest' ∧ s.GrowsTo t ∧ t.Binds (names ++ bound) outer ∧
      (convertParamItems walk section_ rest).runFrom t = (.ok rest', s') := by
  rw [runFrom_bindNames] at hrun
  rcases runFrom_bind_ok.1 hrun with ⟨rest', t, hrest, hpure⟩
  rcases runFrom_pure_ok.1 hpure with ⟨rfl, rfl⟩
  exact ⟨_, rest', rfl, s.growsTo_growFrame names, hs.growFrame names, hrest⟩

variable [GrowingWalk walk]

/-- A default form is converted, and whatever stands after it stays. -/
theorem runFrom_convertDefault {more results : List Tree}
    (hrun : (convertDefault walk more).runFrom s = (.ok results, s')) :
    s.GrowsTo s' ∧ s'.frames = s.frames ∧ suppliedName? results = suppliedName? more ∧
      ∀ init rest, more = init :: rest → ∃ init', (walk init).runFrom s = (.ok init', s') ∧
        results = init' :: rest := by
  unfold convertDefault at hrun
  split at hrun
  · rcases runFrom_pure_ok.1 hrun with ⟨rfl, rfl⟩
    refine ⟨.refl _, rfl, rfl, fun init rest heq => ?_⟩
    cases heq
  · next init rest =>
    rcases runFrom_bind_ok.1 hrun with ⟨init', t, hwalk, hpure⟩
    rcases runFrom_pure_ok.1 hpure with ⟨rfl, rfl⟩
    have hgrowth : growth.Steps .form s s' := Keeps.steps_of_run inferInstance hwalk
    refine ⟨hgrowth.1, hgrowth.2, ?_, ?_⟩
    · cases rest with
      | nil => rfl
      | cons supplied rest => cases supplied <;> rfl
    · rintro _ _ ⟨⟩
      exact ⟨init', hwalk, rfl⟩

/-- One element of a lambda list binds its names, and what follows it is treated after that. A symbol
stays as it is, and a default form is converted before. -/
theorem runFrom_convertParamItems_cons {section_ : Text} {param : Tree} {rest results : List Tree}
    (hs : s.Binds bound outer)
    (hrun : (convertParamItems walk section_ (param :: rest)).runFrom s = (.ok results, s')) :
    ∃ param' t rest', results = param' :: rest' ∧ s.GrowsTo t ∧
      t.Binds (boundNames section_ param ++ bound) outer ∧
      (convertParamItems walk (nextSection section_ param) rest).runFrom t = (.ok rest', s') ∧
      (∀ name, param = .sym name → param' = .sym name) ∧
      ∀ variable_ init more, param = .list (variable_ :: init :: more) →
        defaultSections.contains section_ = true →
        ∃ init' u, (walk init).runFrom s = (.ok init', u) ∧
          param' = .list (variable_ :: init' :: more) := by
  unfold convertParamItems at hrun
  split at hrun
  · next heq => cases heq
  -- a marker, or the name of a parameter
  · next name rest heq =>
    cases heq
    have hsame : ∀ other : Text, Tree.sym name = .sym other → Tree.sym name = .sym other := fun _ h => h
    split at hrun
    · next hmarker =>
      rcases runFrom_bind_ok.1 hrun with ⟨rest', t, hrest, hpure⟩
      rcases runFrom_pure_ok.1 hpure with ⟨rfl, rfl⟩
      have hnames : boundNames section_ (.sym name) = [] := if_pos hmarker
      have hsection : nextSection section_ (.sym name) = name := if_pos hmarker
      rw [hnames, hsection]
      refine ⟨_, s, rest', rfl, .refl s, hs, hrest, hsame, ?_⟩
      rintro _ _ _ ⟨⟩
    · next hmarker =>
      rcases runFrom_staying hs hrun with ⟨t, rest', rfl, hgrows, ht, hrest⟩
      have hnames : boundNames section_ (.sym name) = [name] := if_neg hmarker
      have hsection : nextSection section_ (.sym name) = section_ := if_neg hmarker
      rw [hnames, hsection]
      refine ⟨_, t, rest', rfl, hgrows, ht, hrest, hsame, ?_⟩
      rintro _ _ _ ⟨⟩
  · next variable_ more rest heq =>
    cases heq
    unfold boundNames
    dsimp only
    split at hrun
    -- a specification
    · next hsection =>
      rw [if_pos hsection]
      rcases runFrom_bind_ok.1 hrun with ⟨more', t, hmore, hrun⟩
      rcases runFrom_convertDefault hmore with ⟨hgrows, hframes, hsupplied, hinit⟩
      rw [runFrom_bindNames, runFrom_bindNames] at hrun
      rcases runFrom_bind_ok.1 hrun with ⟨rest', u, hrest, hpure⟩
      rcases runFrom_pure_ok.1 hpure with ⟨rfl, rfl⟩
      rw [hsupplied] at hrest
      have ht : t.Binds bound outer := by
        rcases hs with ⟨frame, hs, hbound⟩
        exact ⟨frame, hframes.trans hs, hbound⟩
      refine ⟨_, _, rest', rfl, ?_, ?_, hrest, ?_, ?_⟩
      · exact (hgrows.trans (t.growsTo_growFrame _)).trans (Session.growsTo_growFrame _ _)
      · exact ((ht.growFrame _).growFrame _).swap
      · rintro _ ⟨⟩
      · rintro _ init rest ⟨⟩ -
        rcases hinit init rest rfl with ⟨init', hwalk, rfl⟩
        exact ⟨init', t, hwalk, rfl⟩
    -- a pattern
    · next hsection =>
      rw [if_neg hsection]
      rcases runFrom_staying hs hrun with ⟨t, rest', rfl, hgrows, ht, hrest⟩
      refine ⟨_, t, rest', rfl, hgrows, ht, hrest, ?_, ?_⟩
      · rintro _ ⟨⟩
      · intro _ _ _ _ hsection'
        exact absurd hsection' hsection
  -- anything else counts as a pattern
  · next param rest hsym hlist heq =>
    cases heq
    have hnames : boundNames section_ param = lambdaParams param := by
      unfold boundNames
      split
      · next name => exact absurd rfl (hsym name)
      · next variable_ more => exact absurd rfl (hlist variable_ more)
      · rfl
    have hsection : nextSection section_ param = section_ := by
      unfold nextSection
      split
      · next name => exact absurd rfl (hsym name)
      · rfl
    rcases runFrom_staying hs hrun with ⟨t, rest', rfl, hgrows, ht, hrest⟩
    rw [hnames, hsection]
    refine ⟨_, t, rest', rfl, hgrows, ht, hrest, ?_, ?_⟩
    · intro name heq
      exact absurd heq (hsym name)
    · intro variable_ init more heq
      exact absurd heq (hlist variable_ _)

/-- All elements of a lambda list bind their names, and a default form is converted where just the
names before it are bound. -/
theorem runFrom_convertParamItems {section_ : Text} {items results : List Tree}
    (hflat : isFlatFrom section_ items = true) (hs : s.Binds bound outer)
    (hrun : (convertParamItems walk section_ items).runFrom s = (.ok results, s')) :
    s'.Binds (namesFrom section_ items ++ bound) outer ∧
      ∀ before variable_ init more after, items = before ++ .list (variable_ :: init :: more) :: after →
        defaultSections.contains (sectionAfter section_ before) = true →
        ∃ t init' t', s.GrowsTo t ∧ t.Binds (namesFrom section_ before ++ bound) outer ∧
          (walk init).runFrom t = (.ok init', t') ∧
          results[before.length]? = some (.list (variable_ :: init' :: more)) := by
  -- the names of the items so far are carried along in front of those that were bound before
  induction items generalizing section_ bound s results with
  | nil =>
      unfold convertParamItems at hrun
      rcases runFrom_pure_ok.1 hrun with ⟨rfl, rfl⟩
      refine ⟨hs, fun before _ _ _ _ heq => ?_⟩
      cases before <;> cases heq
  | cons param items ih =>
      unfold isFlatFrom at hflat
      rw [Bool.and_eq_true] at hflat
      rcases runFrom_convertParamItems_cons hs hrun with
        ⟨param', t, rest, rfl, hgrows, ht, hrest, -, hinit⟩
      rw [boundNames_of_isFlatParam hflat.1] at ht
      rcases ih hflat.2 ht hrest with ⟨hbinds, hinits⟩
      constructor
      · exact hbinds.swap
      · intro before variable_ init more after heq hsection
        -- the default value is in this item or in a later one
        cases before with
        | nil =>
            cases heq
            rcases hinit variable_ init more rfl hsection with ⟨init', u, hwalk, rfl⟩
            exact ⟨s, init', u, .refl s, hs, hwalk, rfl⟩
        | cons first before =>
            cases heq
            rcases hinits before variable_ init more after rfl hsection with
              ⟨u, init', u', hgrows', hu, hwalk, hresult⟩
            exact ⟨u, init', u', hgrows.trans hgrows', hu.swap, hwalk, hresult⟩

end LambdaList

/-- A lambda list in which no pattern stands inside another one binds every name in it. Convert such a
list where the innermost frame binds some names. When the conversion yields a result, the innermost
frame also binds the symbols of all patterns, the variables of all specifications with the names that
say whether they were supplied, and the name of the rest or after the dot, and it binds no others. Each
default form of an optional, keyword or auxiliary parameter has been converted where just the names of
the parameters before it were bound in addition to those around the list. -/
theorem convertParams_binds {s s' : Session} {list result : Tree} {bound : List Text}
    {outer : List (List Text)} (hflat : LambdaList.isFlatList list = true) (hs : s.Binds bound outer)
    (hrun : (convertParams convert list).runFrom s = (.ok result, s')) :
    s'.Binds (LambdaList.names list ++ bound) outer ∧
      ∀ before variable_ init more after,
        LambdaList.params list = before ++ .list (variable_ :: init :: more) :: after →
        defaultSections.contains (LambdaList.sectionAfter "" before) = true →
        ∃ t init' t', s.GrowsTo t ∧ t.Binds (LambdaList.namesFrom "" before ++ bound) outer ∧
          (convert init).runFrom t = (.ok init', t') ∧
          (LambdaList.params result)[before.length]? = some (.list (variable_ :: init' :: more)) := by
  unfold convertParams at hrun
  split at hrun
  · next first rest =>
    rcases runFrom_bind_ok.1 hrun with ⟨items, t, hitems, hpure⟩
    rcases runFrom_pure_ok.1 hpure with ⟨rfl, rfl⟩
    exact LambdaList.runFrom_convertParamItems hflat hs hitems
  -- the reader makes no lists with nothing after the dot
  · cases hflat
  · cases hflat
  · next first rest tail _ =>
    cases tail with
    | sym name =>
        rcases runFrom_bind_ok.1 hrun with ⟨items, t, hitems, hrun⟩
        rw [runFrom_bindNames] at hrun
        rcases runFrom_pure_ok.1 hrun with ⟨rfl, rfl⟩
        rcases LambdaList.runFrom_convertParamItems hflat hs hitems with ⟨ht, hinits⟩
        exact ⟨(ht.growFrame [name]).swap, hinits⟩
    | _ => cases hflat
  -- no elements, so at most the name after the dot
  · next hlist _ _ hdot =>
    rw [runFrom_bindNames] at hrun
    rcases runFrom_pure_ok.1 hrun with ⟨hresult, rfl⟩
    have hempty : LambdaList.params list = [] ∧ LambdaList.names list = lambdaParams list := by
      cases list with
      | nil => exact ⟨rfl, rfl⟩
      | list items =>
          cases items with
          | nil => exact ⟨rfl, rfl⟩
          | cons first rest => exact absurd rfl (hlist first rest)
      | dot items tail =>
          cases items with
          | nil => exact ⟨rfl, rfl⟩
          | cons first rest => exact absurd rfl (hdot first rest tail)
      | _ => cases hflat
    rw [hresult, hempty.1, hempty.2]
    refine ⟨hs.growFrame _, fun before _ _ _ _ heq => ?_⟩
    cases before <;> cases heq

/-- A lambda list with a pattern, a default form and a name after its dot. -/
def LambdaList.sample : Tree :=
  .dot [.list [.sym "a", .sym "b"], .sym "&optional", .list [.sym "c", .sym "a", .sym "d"]] (.sym "e")

/-- The default form is a reference to a parameter before it, and stays one. -/
theorem convertParams_binds_sample :
    ∃ s' result,
      (convertParams convert LambdaList.sample).runFrom ((Session.unset "p-").pushFrame []) =
        (.ok result, s') ∧
      s'.Binds ["a", "b", "c", "d", "e"] [] := by
  have hrun : (convertParams convert LambdaList.sample).runFrom ((Session.unset "p-").pushFrame []) =
      (.ok LambdaList.sample, ((convertParams convert LambdaList.sample).runFrom
        ((Session.unset "p-").pushFrame [])).2) := by
    rfl
  have hs : ((Session.unset "p-").pushFrame []).Binds [] [] := ⟨[], rfl, fun _ => Iff.rfl⟩
  exact ⟨_, _, hrun, (convertParams_binds (by decide) hs hrun).1⟩

/-- A lambda list with a pattern inside a pattern. -/
def LambdaList.nested : Tree := .list [.list [.list [.sym "a", .sym "b"], .sym "c"]]

/-- Of the inner pattern, only the first name is bound. -/
theorem convertParams_misses_nested :
    (convertParams convert LambdaList.nested).runFrom ((Session.unset "p-").pushFrame []) =
        (.ok LambdaList.nested, (Session.unset "p-").pushFrame ["a", "c"]) ∧
      LambdaList.names LambdaList.nested = (["a", "b", "c"] : List Text) := by
  constructor
  · rfl
  · decide

end LispNamespace
