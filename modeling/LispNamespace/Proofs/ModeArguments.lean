import LispNamespace.Proofs.Mismatches

/-!
# The arguments of mode definitions

After the names, the definition of a mode has a documentation string, which may be missing, settings,
which are keywords with a value after each, and a body. Where the settings end is for the matching of
grammars to find out, by repeating a group until it fails. It never fails as a whole, since everything
after the documentation may be body: so the definitions of minor and of globalized modes report nothing
themselves, and all that is no documentation and no keyword of a setting is converted.
-/

namespace LispNamespace

open Rewrite Forms

/-! ## Parts of the arguments -/

/-- The arguments of a mode definition in their parts. -/
structure ModeArguments where
  /-- The documentation. -/
  doc : Option Tree
  /-- Keywords, each with its value. -/
  settings : List (Tree × Tree)
  /-- What follows. -/
  body : List Tree

namespace ModeArguments

/-- The arguments in their order. -/
def args (m : ModeArguments) : List Tree :=
  m.doc.toList ++ (m.settings.flatMap (fun setting => [setting.1, setting.2]) ++ m.body)

/-- The documentation and the keywords are data, the values and the body are code. -/
def plan (m : ModeArguments) : List Plan :=
  m.doc.toList.map (fun _ => .data) ++
    (m.settings.flatMap (fun _ => [.data, .code]) ++ Plan.uniform .code m.body)

/-- The parts are those of the given arguments: the documentation is the first argument if that is one,
and the settings are all that stand one after the other behind it. -/
structure Splits (m : ModeArguments) (isDoc : Tree → Bool) (args : List Tree) : Prop where
  args_eq : args = m.args
  doc_eq : m.doc = args.head?.filter isDoc
  keywords : ∀ setting ∈ m.settings, setting.1.isKeyword = true
  longest : ∀ keyword value rest, m.body = keyword :: value :: rest → keyword.isKeyword = false

/-- The settings at the front of arguments, and what follows them. -/
def takeSettings : List Tree → List (Tree × Tree) × List Tree
  | keyword :: value :: rest =>
      if keyword.isKeyword then
        ((keyword, value) :: (takeSettings rest).1, (takeSettings rest).2)
      else ([], keyword :: value :: rest)
  | args => ([], args)

/-- The parts of arguments, given what counts as documentation. -/
def ofArgs (isDoc : Tree → Bool) (args : List Tree) : ModeArguments :=
  let doc := args.head?.filter isDoc
  let rest := takeSettings (args.drop doc.toList.length)
  { doc := doc, settings := rest.1, body := rest.2 }

theorem takeSettings_append (args : List Tree) :
    (takeSettings args).1.flatMap (fun setting => [setting.1, setting.2]) ++ (takeSettings args).2 =
      args := by
  fun_induction takeSettings args with
  | case1 keyword value rest _ ih => exact congrArg (keyword :: value :: ·) ih
  | case2 => rfl
  | case3 => rfl

theorem isKeyword_of_mem_takeSettings {args : List Tree} {setting : Tree × Tree}
    (h : setting ∈ (takeSettings args).1) : setting.1.isKeyword = true := by
  fun_induction takeSettings args with
  | case1 keyword value rest hkeyword ih =>
      rcases List.mem_cons.1 h with rfl | h
      · exact hkeyword
      · exact ih h
  | case2 => cases h
  | case3 => cases h

/-- After the settings comes no other one. -/
theorem not_isKeyword_of_takeSettings {args rest : List Tree} {keyword value : Tree}
    (h : (takeSettings args).2 = keyword :: value :: rest) : keyword.isKeyword = false := by
  fun_induction takeSettings args with
  | case1 _ _ _ _ ih => exact ih h
  | case2 first second others hkeyword =>
      cases h
      exact Bool.eq_false_iff.2 hkeyword
  | case3 args hargs => exact (hargs _ _ _ h).elim

/-- All arguments have parts: what is no documentation and no setting is body. -/
theorem splits_ofArgs (isDoc : Tree → Bool) (args : List Tree) :
    (ofArgs isDoc args).Splits isDoc args where
  args_eq := by
    have hdoc : args = (args.head?.filter isDoc).toList ++
        args.drop (args.head?.filter isDoc).toList.length := by
      cases args with
      | nil => rfl
      | cons first rest =>
          rw [List.head?_cons, Option.filter_some]
          split <;> rfl
    exact hdoc.trans (congrArg _ (takeSettings_append _).symm)
  doc_eq := rfl
  keywords _ h := isKeyword_of_mem_takeSettings h
  longest _ _ _ h := not_isKeyword_of_takeSettings h

end ModeArguments

/-! ## Matching -/

namespace Grammar

/-- The element names a kind of datum, and no other element does. -/
structure IsDatum (name : Text) (kind : Tree → Bool) : Prop where
  unmarked : mark? (.sym name) = none
  notBody : isBodyElement name = false
  matchNamed_eq : ∀ arg rest otherwise, matchNamed name arg rest otherwise =
    if kind arg then .ok ([.data], rest) else .error (.notOfKind name arg)

/-- The kinds of data that the grammars of modes name are keywords, strings, and strings or `nil`.
-/
theorem isDatum_keywordp : IsDatum "keywordp" Tree.isKeyword := ⟨rfl, rfl, fun _ _ _ => rfl⟩

theorem isDatum_stringp : IsDatum "stringp" Tree.isText := ⟨rfl, rfl, fun _ _ _ => rfl⟩

theorem isDatum_stringOrNull : IsDatum "string-or-null-p" fun x => x.isText || x.isNil :=
  ⟨rfl, rfl, fun _ _ _ => rfl⟩

variable (resolver : Resolver) (room : Nat)

/-! ### Single elements -/

/-- Matches elements that have the given room, less one for each repetition around them. -/
def within : Matcher := fun depth => matchElement resolver (room - depth)

/-- A vector is matched as a sequence, with less room for its elements. -/
theorem matchElement_vec (elements args : List Tree) :
    matchElement resolver (room + 2) (.vec elements) args =
      matchSequence (within resolver room) false 0 elements args := by
  unfold matchElement
  rfl

theorem matchElement_missing {name : Text} (h : isBodyElement name = false) :
    matchElement resolver (room + 1) (.sym name) [] = .error (.missing (.sym name)) := by
  unfold matchElement
  exact if_neg (by simp [Tree.symbol?, h])

/-- A kind of data takes one argument of that kind, or says what it met instead. -/
theorem matchElement_datum {name : Text} {kind : Tree → Bool} (h : IsDatum name kind) (arg : Tree)
    (rest : List Tree) :
    matchElement resolver (room + 1) (.sym name) (arg :: rest) =
      if kind arg then .ok ([.data], rest) else .error (.notOfKind name arg) := by
  have hbody : ¬ ((Tree.sym name).symbol?.any isBodyElement) = true := by
    simp [Tree.symbol?, h.notBody]
  unfold matchElement
  exact (if_neg hbody).trans (h.matchNamed_eq arg rest _)

theorem matchElement_form (arg : Tree) (rest : List Tree) :
    matchElement resolver (room + 1) (.sym "form") (arg :: rest) = .ok ([.code], rest) := by
  unfold matchElement
  rfl

theorem matchElement_body (args : List Tree) :
    matchElement resolver (room + 1) (.sym "def-body") args = .ok (Plan.uniform .code args, []) := by
  unfold matchElement
  rfl

/-! ### Sequences -/

/-- An element is matched before the ones after it. -/
theorem matchSequence_cons (one : Matcher) (isOptional : Bool) (depth : Nat) {element : Tree}
    (h : mark? element = none) (elements args : List Tree) :
    matchSequence one isOptional depth (element :: elements) args =
      if isOptional && args.isEmpty then .ok ([], args)
      else
        match one depth element args with
        | .error why => giveUp isOptional args why
        | .ok (plans, rest) =>
            (matchSequence one isOptional depth elements rest).map fun found =>
              (plans ++ found.1, found.2) := by
  rewrite [matchSequence.eq_def]
  dsimp only
  rewrite [h]
  rfl

/-- A sequence goes on after its first element with what that one left. -/
theorem matchSequence_cons_of_ok (one : Matcher) (depth : Nat) {element : Tree} {args rest : List Tree}
    {plans : List Plan} (hmark : mark? element = none) (h : one depth element args = .ok (plans, rest))
    (elements : List Tree) :
    matchSequence one false depth (element :: elements) args =
      (matchSequence one false depth elements rest).map fun found => (plans ++ found.1, found.2) := by
  rw [matchSequence_cons one false depth hmark, h]
  rfl

/-- Outside of optional parts, a sequence fails with its first element. -/
theorem matchSequence_cons_of_error (one : Matcher) (depth : Nat) {element : Tree} {args : List Tree}
    {why : Mismatch} (hmark : mark? element = none) (h : one depth element args = .error why)
    (elements : List Tree) : matchSequence one false depth (element :: elements) args = .error why := by
  rw [matchSequence_cons one false depth hmark, h]
  rfl

/-- After the mark for optional elements, a failure ends the sequence without one. -/
theorem matchSequence_optional (one : Matcher) (isOptional : Bool) (depth : Nat)
    (elements args : List Tree) :
    matchSequence one isOptional depth (.sym "&optional" :: elements) args =
      matchSequence one true depth elements args := rfl

/-- What follows the mark for the rest is repeated for as long as it matches. -/
theorem matchSequence_rest (one : Matcher) (isOptional : Bool) (depth : Nat)
    (elements args : List Tree) :
    matchSequence one isOptional depth (.sym "&rest" :: elements) args =
      .ok (matchRepeated (matchSequence one false (depth + 1) elements) args) := rfl

/-- An argument that may be missing is taken if it is of its kind. -/
theorem matchElement_optional {name : Text} {kind : Tree → Bool} (h : IsDatum name kind)
    (args : List Tree) :
    matchElement resolver (room + 3) (.vec [.sym "&optional", .sym name]) args =
      .ok ((args.head?.filter kind).toList.map fun _ => .data,
        args.drop (args.head?.filter kind).toList.length) := by
  rw [matchElement_vec, matchSequence_optional, matchSequence_cons _ _ _ h.unmarked]
  cases args with
  | nil => rfl
  | cons first rest =>
      have hfirst : within resolver (room + 1) 0 (.sym name) (first :: rest) = _ :=
        matchElement_datum resolver room h first rest
      rw [hfirst, List.head?_cons, Option.filter_some]
      cases kind first <;> rfl

/-- The group of a keyword and a value. -/
def settingGroup : Tree := .vec [.sym "keywordp", .sym "form"]

theorem matchElement_keyword {keyword : Tree} (h : keyword.isKeyword = true) (rest : List Tree) :
    matchElement resolver (room + 1) (.sym "keywordp") (keyword :: rest) = .ok ([.data], rest) := by
  rw [matchElement_datum resolver room isDatum_keywordp, if_pos h]

/-- The group takes a keyword and whatever stands after it. -/
theorem matchElement_settingGroup {keyword : Tree} (h : keyword.isKeyword = true) (value : Tree)
    (rest : List Tree) :
    matchElement resolver (room + 3) settingGroup (keyword :: value :: rest) =
      .ok ([.data, .code], rest) := by
  have hkeyword := matchElement_keyword resolver room h (value :: rest)
  have hvalue := matchElement_form resolver room value rest
  rw [settingGroup, matchElement_vec,
    matchSequence_cons_of_ok (within resolver (room + 1)) 0 rfl hkeyword,
    matchSequence_cons_of_ok (within resolver (room + 1)) 0 rfl hvalue]
  rfl

/-- The group fails where no setting begins. -/
theorem exists_matchElement_settingGroup {args : List Tree}
    (h : ∀ keyword value rest, args = keyword :: value :: rest → keyword.isKeyword = false) :
    ∃ why, matchElement resolver (room + 3) settingGroup args = .error why := by
  have hfails := fun {element : Tree} {args : List Tree} {why : Mismatch} =>
    @matchSequence_cons_of_error (within resolver (room + 1)) 0 element args why
  rw [settingGroup, matchElement_vec]
  rcases args with _ | ⟨keyword, rest⟩
  · have hmissing : within resolver (room + 1) 0 (.sym "keywordp") [] = _ :=
      matchElement_missing resolver room rfl
    exact ⟨_, hfails rfl hmissing _⟩
  · by_cases hkeyword : keyword.isKeyword = true
    · cases rest with
      | nil =>
          -- the keyword is taken, and then its value is missing
          have htaken := matchElement_keyword resolver room hkeyword []
          have hmissing : within resolver (room + 1) 0 (.sym "form") [] = _ :=
            matchElement_missing resolver room rfl
          rw [matchSequence_cons_of_ok (within resolver (room + 1)) 0 rfl htaken, hfails rfl hmissing]
          exact ⟨_, rfl⟩
      | cons value rest =>
          rw [h keyword value rest rfl] at hkeyword
          cases hkeyword
    · have hother : within resolver (room + 1) 0 (.sym "keywordp") (keyword :: rest) = _ :=
        (matchElement_datum resolver room isDatum_keywordp keyword rest).trans (if_neg hkeyword)
      exact ⟨_, hfails rfl hother _⟩

/-- A group that takes one setting and fails where none begins takes all settings when it is repeated. -/
theorem matchRepeated_settings {group : List Tree → Matched}
    (hsetting : ∀ keyword value rest, keyword.isKeyword = true →
      group (keyword :: value :: rest) = .ok ([.data, .code], rest))
    (hstop : ∀ args, (∀ keyword value rest, args = keyword :: value :: rest → keyword.isKeyword = false) →
      ∃ why, group args = .error why) (args : List Tree) :
    matchRepeated group args =
      ((ModeArguments.takeSettings args).1.flatMap fun _ => [.data, .code],
        (ModeArguments.takeSettings args).2) := by
  fun_induction ModeArguments.takeSettings args with
  | case1 keyword value rest hkeyword ih =>
      have hshorter : rest.length < (keyword :: value :: rest).length := by
        simp only [List.length_cons]
        omega
      rw [matchRepeated, hsetting keyword value rest hkeyword]
      dsimp only
      rw [if_pos hshorter, ih]
      rfl
  -- two arguments are left, but the first one is no keyword
  | case2 keyword value rest hkeyword =>
      have hnone : ∀ first second others, keyword :: value :: rest = first :: second :: others →
          first.isKeyword = false := by
        rintro _ _ _ ⟨⟩
        exact Bool.eq_false_iff.2 hkeyword
      rcases hstop _ hnone with ⟨why, hwhy⟩
      rw [matchRepeated, hwhy]
      rfl
  -- there are not two arguments left
  | case3 args hargs =>
      rcases hstop args fun _ _ _ h => (hargs _ _ _ h).elim with ⟨why, hwhy⟩
      rw [matchRepeated, hwhy]
      rfl

/-- Repeating the group takes the settings, and leaves what follows them. -/
theorem matchElement_settings (args : List Tree) :
    matchElement resolver (room + 6) (.vec [.sym "&rest", settingGroup]) args =
      .ok ((ModeArguments.takeSettings args).1.flatMap fun _ => [.data, .code],
        (ModeArguments.takeSettings args).2) := by
  rw [matchElement_vec, matchSequence_rest]
  refine congrArg Except.ok (matchRepeated_settings ?_ ?_ args)
  · intro keyword value rest hkeyword
    have hgroup := matchElement_settingGroup resolver room hkeyword value rest
    exact matchSequence_cons_of_ok (within resolver (room + 4)) 1 rfl hgroup []
  · intro args hargs
    rcases exists_matchElement_settingGroup resolver room hargs with ⟨why, hwhy⟩
    exact ⟨why, matchSequence_cons_of_error (within resolver (room + 4)) 1 rfl hwhy []⟩

/-! ## Grammars of modes -/

/-- What may follow the names of a mode, given the element for the documentation. -/
def modeElements (doc : Text) : List Tree :=
  [.vec [.sym "&optional", .sym doc], .vec [.sym "&rest", settingGroup], .sym "def-body"]

/-- The elements of a mode grammar match any arguments, in their parts. The documentation may be
missing, the settings may be none, and the body takes what is left. -/
theorem matchSequence_modeElements {doc : Text} {isDoc : Tree → Bool} (h : IsDatum doc isDoc)
    (args : List Tree) :
    matchSequence (within resolver depthLimit) false 0 (modeElements doc) args =
      .ok ((ModeArguments.ofArgs isDoc args).plan, []) := by
  have hdoc := matchElement_optional resolver 61 h args
  have hsettings := matchElement_settings resolver 58 (args.drop (args.head?.filter isDoc).toList.length)
  have hbody := matchElement_body resolver 63
    (ModeArguments.takeSettings (args.drop (args.head?.filter isDoc).toList.length)).2
  rw [modeElements, matchSequence_cons_of_ok _ 0 rfl hdoc, matchSequence_cons_of_ok _ 0 rfl hsettings,
    matchSequence_cons_of_ok _ 0 rfl hbody]
  simp [matchSequence, Except.map, ModeArguments.plan, ModeArguments.ofArgs]

/-- Arguments are classified by a list by matching its elements one after the other. -/
theorem classifyBy_list (steps : Nat) {elements : List Tree} (hne : elements ≠ []) (args : List Tree) :
    classifyBy resolver steps (.list elements) args =
      match matchSequence (within resolver depthLimit) false 0 elements args with
      | .error why => .error (.mismatch why)
      | .ok (plans, []) => .ok plans
      | .ok (_, rest) => .error (.mismatch (.leftOver rest.length)) := by
  have hresolve : resolve resolver steps (.list elements) = .ok (.list elements) :=
    resolve_of_symbol?_eq_none resolver steps rfl
  have hnil : (Tree.list elements).isNil = false := by
    cases elements with
    | nil => exact absurd rfl hne
    | cons => rfl
  unfold classifyBy
  simp only [hresolve, Tree.isSym, Tree.isZero, hnil, Tree.elements?]
  rfl

/-- So the grammar classifies all arguments, and the plan is that of their parts. -/
theorem classifyBy_modeElements {doc : Text} {isDoc : Tree → Bool} (h : IsDatum doc isDoc) (steps : Nat)
    (args : List Tree) :
    classifyBy resolver steps (.list (modeElements doc)) args =
      .ok (ModeArguments.ofArgs isDoc args).plan := by
  have hne : modeElements doc ≠ [] := List.cons_ne_nil _ _
  rw [classifyBy_list resolver steps hne, matchSequence_modeElements resolver h]

/-- The definition of a derived mode has one argument more in front, which has to be there. -/
theorem classifyBy_derivedModeGrammar (steps : Nat) (args : List Tree) :
    classifyBy resolver steps derivedModeGrammar args =
      match args with
      | [] => .error (.mismatch (.missing (.sym "form")))
      | _ :: rest => .ok (.code :: (ModeArguments.ofArgs Tree.isText rest).plan) := by
  have helements : derivedModeGrammar = .list (.sym "form" :: modeElements "stringp") := rfl
  rw [helements, classifyBy_list resolver steps (List.cons_ne_nil _ _)]
  cases args with
  | nil =>
      have hmissing : within resolver depthLimit 0 (.sym "form") [] = _ :=
        matchElement_missing resolver 63 rfl
      rw [matchSequence_cons_of_error _ 0 rfl hmissing]
  | cons first rest =>
      have hfirst := matchElement_form resolver 63 first rest
      rw [matchSequence_cons_of_ok (within resolver depthLimit) 0 rfl hfirst,
        matchSequence_modeElements resolver isDatum_stringp]
      rfl

end Grammar

/-! ## Converting the arguments -/

namespace ModeArguments

/-- Converts the values and the body; the documentation and the keywords stay as they are. -/
def convertCode (walk : Walk) (m : ModeArguments) : Rewrite ModeArguments := do
  let settings ← m.settings.mapM fun setting => do return (setting.1, ← walk setting.2)
  let body ← m.body.mapM walk
  return { m with settings := settings, body := body }

theorem applyAll_uniform_code (walk : Walk) (args : List Tree) :
    (Plan.applyAll walk pure (Plan.uniform .code args) args : Rewrite (List Tree)) = args.mapM walk := by
  induction args with
  | nil => rfl
  | cons arg args ih =>
      rw [List.mapM_cons, ← ih]
      rfl

/-- Of the settings the values are walked, and the keywords are kept. -/
theorem applyAll_settings (walk : Walk) (settings : List (Tree × Tree)) (plans : List Plan)
    (args : List Tree) :
    (Plan.applyAll walk pure (settings.flatMap (fun _ => [.data, .code]) ++ plans)
        (settings.flatMap (fun setting => [setting.1, setting.2]) ++ args) : Rewrite (List Tree)) =
      (do
        let found ← settings.mapM fun setting => do return (setting.1, ← walk setting.2)
        let rest ← Plan.applyAll walk pure plans args
        return found.flatMap (fun setting => [setting.1, setting.2]) ++ rest) := by
  induction settings with
  | nil => simp
  | cons setting settings ih =>
      simp only [List.flatMap_cons, List.cons_append, List.nil_append, Plan.applyAll, Plan.apply, ih]
      simp

/-- To carry out the plan is to convert the values and the body. -/
theorem applyAll_plan (walk : Walk) (m : ModeArguments) :
    (Plan.applyAll walk pure m.plan m.args : Rewrite (List Tree)) =
      (do return (← m.convertCode walk).args) := by
  have hrest : (Plan.applyAll walk pure
      (m.settings.flatMap (fun _ => [.data, .code]) ++ Plan.uniform .code m.body)
      (m.settings.flatMap (fun setting => [setting.1, setting.2]) ++ m.body) : Rewrite (List Tree)) =
      (do return (← { m with doc := none }.convertCode walk).args) := by
    rw [applyAll_settings, applyAll_uniform_code]
    simp [convertCode, args]
  rcases m with ⟨_ | doc, settings, body⟩
  · exact hrest
  · simp only [plan, args, Option.toList_some, List.map_cons, List.map_nil, List.cons_append,
      List.nil_append, Plan.applyAll, Plan.apply, hrest]
    simp [convertCode]

end ModeArguments

namespace Forms

/-- Arguments that fit are converted by their plan. -/
theorem convertByGrammar_of_classify (walk : Walk) (head : Text) {spec : Tree} {args : List Tree}
    {plans : List Plan} (h : ∀ grammars, Grammar.classify grammars spec args = .ok plans) :
    convertByGrammar walk head spec args = Plan.applyAll walk pure plans args := by
  refine Rewrite.ext fun s => ?_
  rw [runFrom_convertByGrammar, h]

/-- A call with a mode grammar is converted by its parts. The grammar cannot fail, so nothing is
reported and the arguments are never left as they are. -/
theorem convertByGrammar_modeElements (walk : Walk) (head : Text) {doc : Text} {isDoc : Tree → Bool}
    (h : Grammar.IsDatum doc isDoc) (args : List Tree) :
    convertByGrammar walk head (.list (Grammar.modeElements doc)) args =
      (do return (← (ModeArguments.ofArgs isDoc args).convertCode walk).args) := by
  have hplan := fun grammars : Grammar.Grammars =>
    Grammar.classifyBy_modeElements grammars.find? h grammars.length args
  have hargs := (ModeArguments.splits_ofArgs isDoc args).args_eq
  rw [convertByGrammar_of_classify walk head hplan, ← ModeArguments.applyAll_plan, ← hargs]

end Forms

/-! ## What is reported -/

namespace Rewrite

variable {α β : Type} {P : Entry → Prop}

/-- All that is reported while the step runs satisfies the condition. -/
def Reports (P : Entry → Prop) (step : Rewrite α) : Prop :=
  ∀ s, ∃ entries, (step.runFrom s).2.journal = entries ++ s.journal ∧ ∀ entry ∈ entries, P entry

theorem reports_of_journal_eq {step : Rewrite α} (h : ∀ s, (step.runFrom s).2.journal = s.journal) :
    Reports P step := by
  intro s
  refine ⟨[], h s, ?_⟩
  intro entry hentry
  cases hentry

theorem reports_pure (a : α) : Reports P (pure a) := reports_of_journal_eq fun _ => rfl

theorem Reports.bind {step : Rewrite α} {next : α → Rewrite β} (h : Reports P step)
    (hnext : ∀ a, Reports P (next a)) : Reports P (step >>= next) := by
  intro s
  rcases h s with ⟨entries, hjournal, hentries⟩
  rw [runFrom_bind]
  rcases hrun : step.runFrom s with ⟨fault | a, t⟩
  · rw [hrun] at hjournal
    exact ⟨entries, hjournal, hentries⟩
  · rw [hrun] at hjournal
    rcases hnext a t with ⟨more, hmore, hmores⟩
    refine ⟨more ++ entries, ?_, List.forall_mem_append.2 ⟨hmores, hentries⟩⟩
    rw [List.append_assoc, ← hjournal]
    exact hmore

theorem Reports.mapM {f : α → Rewrite β} (h : ∀ a, Reports P (f a)) (items : List α) :
    Reports P (items.mapM f) := by
  induction items with
  | nil =>
      rw [List.mapM_nil]
      exact reports_pure []
  | cons item items ih =>
      rw [List.mapM_cons]
      exact (h item).bind fun _ => ih.bind fun _ => reports_pure _

end Rewrite

namespace Forms

variable {P : Entry → Prop} {walk : Walk}

theorem reports_convertDefinedName (learn : Register) (name : Tree) :
    Reports P (convertDefinedName learn name) := by
  unfold convertDefinedName
  refine (reports_of_journal_eq fun _ => rfl).bind fun isFinal => ?_
  split
  · exact reports_pure _
  · split
    · refine (reports_of_journal_eq fun _ => rfl).bind fun s => ?_
      split
      · exact reports_pure _
      · exact (reports_of_journal_eq fun _ => rfl).bind fun _ => reports_pure _
    · exact reports_pure _

theorem reports_convertFunctionName (name : Tree) : Reports P (convertFunctionName name) := by
  unfold convertFunctionName
  split
  · exact (reports_of_journal_eq fun _ => rfl).bind fun _ => reports_pure _
  · exact reports_pure _

/-- The code in the arguments is all that anything is reported about. -/
theorem reports_convertCode (hwalk : ∀ form, Reports P (walk form)) (m : ModeArguments) :
    Reports P (m.convertCode walk) := by
  unfold ModeArguments.convertCode
  refine (Reports.mapM (fun setting => ?_) m.settings).bind fun settings => ?_
  · exact (hwalk setting.2).bind fun _ => reports_pure _
  · exact (Reports.mapM hwalk m.body).bind fun _ => reports_pure _

/-- A minor mode defines a name, and its arguments are converted in their parts. -/
theorem convertMinorMode_cons (walk : Walk) (head : Text) (name : Tree) (args : List Tree) :
    convertMinorMode walk head (name :: args) = (do
      let name ← convertDefinedName learnMinorMode name
      let m ← (ModeArguments.ofArgs (fun x => x.isText || x.isNil) args).convertCode walk
      return Tree.call head (name :: m.args)) := by
  have hgrammar : minorModeGrammar = .list (Grammar.modeElements "string-or-null-p") := rfl
  unfold convertMinorMode
  refine bind_congr fun name => ?_
  rw [hgrammar, convertByGrammar_modeElements walk head Grammar.isDatum_stringOrNull]
  simp

/-- A globalized mode names two functions after its own name, and the arguments behind them are
converted in their parts. -/
theorem convertGlobalizedMode_cons (walk : Walk) (head : Text) (name : Tree) (rest : List Tree) :
    convertGlobalizedMode walk head (name :: rest) = (do
      let name ← convertDefinedName learnGlobalizedMode name
      let functions ← (rest.take 2).mapM convertFunctionName
      let m ← (ModeArguments.ofArgs Tree.isText (rest.drop 2)).convertCode walk
      return Tree.call head (name :: (functions ++ m.args))) := by
  have hgrammar : globalizedModeGrammar = .list (Grammar.modeElements "stringp") := rfl
  unfold convertGlobalizedMode
  refine bind_congr fun name => bind_congr fun functions => ?_
  rw [hgrammar, convertByGrammar_modeElements walk head Grammar.isDatum_stringp]
  simp

/-- The definition of a minor mode reports nothing itself. -/
theorem reports_convertMinorMode (hwalk : ∀ form, Reports P (walk form)) (head : Text)
    (tail : List Tree) : Reports P (convertMinorMode walk head tail) := by
  cases tail with
  | nil => exact reports_pure _
  | cons name args =>
      rw [convertMinorMode_cons]
      refine (reports_convertDefinedName _ name).bind fun _ => ?_
      exact (reports_convertCode hwalk _).bind fun _ => reports_pure _

theorem reports_convertGlobalizedMode (hwalk : ∀ form, Reports P (walk form)) (head : Text)
    (tail : List Tree) : Reports P (convertGlobalizedMode walk head tail) := by
  cases tail with
  | nil => exact reports_pure _
  | cons name rest =>
      rw [convertGlobalizedMode_cons]
      refine (reports_convertDefinedName _ name).bind fun _ => ?_
      refine (Reports.mapM reports_convertFunctionName _).bind fun _ => ?_
      exact (reports_convertCode hwalk _).bind fun _ => reports_pure _

/-- What mode definitions do with their arguments. Any arguments are a documentation string, which may be
missing, and in the definition of a minor mode may be nil, all settings behind it, and a body. That is how
the grammars of minor and globalized modes classify them, among any other grammars, and they refuse none.
The grammar of derived modes asks for one form in front and refuses only when there is none. So in the
definitions of minor and globalized modes everything but the documentation and the keywords of settings
is converted, and whatever is reported on the way is reported by these conversions. -/
theorem convertModes_by_parts :
    (∀ isDoc args, (ModeArguments.ofArgs isDoc args).Splits isDoc args) ∧
    (∀ resolver steps args,
      Grammar.classifyBy resolver steps minorModeGrammar args =
          .ok (ModeArguments.ofArgs (fun x => x.isText || x.isNil) args).plan ∧
        Grammar.classifyBy resolver steps globalizedModeGrammar args =
          .ok (ModeArguments.ofArgs Tree.isText args).plan ∧
        Grammar.classifyBy resolver steps derivedModeGrammar args =
          match args with
          | [] => .error (.mismatch (.missing (.sym "form")))
          | _ :: rest => .ok (.code :: (ModeArguments.ofArgs Tree.isText rest).plan)) ∧
    (∀ walk head name args,
      convertMinorMode walk head (name :: args) = (do
        let name ← convertDefinedName learnMinorMode name
        let m ← (ModeArguments.ofArgs (fun x => x.isText || x.isNil) args).convertCode walk
        return Tree.call head (name :: m.args)) ∧
      convertGlobalizedMode walk head (name :: args) = (do
        let name ← convertDefinedName learnGlobalizedMode name
        let functions ← (args.take 2).mapM convertFunctionName
        let m ← (ModeArguments.ofArgs Tree.isText (args.drop 2)).convertCode walk
        return Tree.call head (name :: (functions ++ m.args)))) ∧
    ∀ (P : Entry → Prop) (walk : Walk), (∀ form, Reports P (walk form)) → ∀ head tail,
      Reports P (convertMinorMode walk head tail) ∧ Reports P (convertGlobalizedMode walk head tail) := by
  -- the parts, the plans of the three grammars, the rules of the two modes, and their reports
  refine ⟨ModeArguments.splits_ofArgs, fun resolver steps args => ⟨?_, ?_, ?_⟩,
    fun walk head name args => ⟨?_, ?_⟩, fun P walk hwalk head tail => ⟨?_, ?_⟩⟩
  · exact Grammar.classifyBy_modeElements resolver Grammar.isDatum_stringOrNull steps args
  · exact Grammar.classifyBy_modeElements resolver Grammar.isDatum_stringp steps args
  · exact Grammar.classifyBy_derivedModeGrammar resolver steps args
  · exact convertMinorMode_cons walk head name args
  · exact convertGlobalizedMode_cons walk head name args
  · exact reports_convertMinorMode hwalk head tail
  · exact reports_convertGlobalizedMode hwalk head tail

/-- The last keyword has no value, so it is body. -/
theorem convertModes_by_parts_of_lone_keyword :
    Grammar.classifyBy (fun _ => none) 0 minorModeGrammar
        [.nil, .sym ":init-value", .sym "x", .sym ":lighter"] = .ok [.data, .data, .code, .code] ∧
      (∀ form, Reports (fun _ => False) ((pure : Walk) form)) ∧
      Reports (fun _ => False) (convertMinorMode pure "define-minor-mode"
        [.sym "m", .nil, .sym ":init-value", .sym "x", .sym ":lighter"]) := by
  have hsilent : ∀ form, Reports (fun _ => False) ((pure : Walk) form) := fun form => reports_pure form
  rcases convertModes_by_parts with ⟨-, hplan, -, hreports⟩
  exact ⟨(hplan _ 0 _).1, hsilent, (hreports _ pure hsilent _ _).1⟩

end Forms

end LispNamespace
