import LispNamespace.Options.Written

/-!
# Options before a body and options in a mapping

The keywords at the head of a body and a mapping from names to values are taken apart by two walks
that share no step but the reading of a value. The same options given either way come out the same:
the two walks gather the same settings, or stop at the same option for the same reason. What a
value looks like makes no difference, since the walk over a body never looks at the place after an
option that takes one; a keyword there is the value, and so is the marker of deferred registration.
-/

namespace LispNamespace

namespace OptionKey

/-! ## The keyword of an option -/

/-- The keyword of an option. -/
def keyword : OptionKey → Text
  | .letVars => ":let-vars"
  | .globalLookup => ":global"
  | .verbose => ":verbose"
  | .assumeVarQuote => ":assume-var-quote"
  | .dontAssumeFunctionQuote => ":dont-assume-function-quote"
  | .protection => ":protection"
  | .functionlikeMacros => ":functionlike-macros"
  | .group => ":group"
  | .version => ":version"
  | .package => ":package"

@[simp] theorem ofKeyword?_keyword (key : OptionKey) : ofKeyword? key.keyword = some key := by
  cases key <;> decide

@[simp] theorem isKeywordName_keyword (key : OptionKey) :
    Tree.isKeywordName key.keyword = true := by
  cases key <;> decide

@[simp] theorem ofName?_keyword (key : OptionKey) : ofName? key.keyword = some key := by
  simp [ofName?]

/-- The marker of deferred registration is not the keyword of an option. -/
theorem keyword_ne_autoloadMarker (key : OptionKey) : key.keyword ≠ autoloadMarker := by
  cases key <;> decide

end OptionKey

namespace Options

/-! ## One option either way -/

/-- An option at the head of a body: a flag is its keyword alone, and any other option has its
value after it. -/
def inBody (given : OptionKey × Tree) : List Tree :=
  if given.1.kind = .flag then [.sym given.1.keyword] else [.sym given.1.keyword, given.2]

/-- An option in a mapping: a flag is set there, and any other option has its value. -/
def inMapping (given : OptionKey × Tree) : Text × Tree :=
  (given.1.keyword, if given.1.kind = .flag then .bool true else given.2)

/-- Nothing at the front of the body is an option. -/
def EndsOptions (body : List Tree) : Prop :=
  ∀ first ∈ body.head?, first.isKeyword = true → first.isSym autoloadMarker = true

instance (body : List Tree) : Decidable (EndsOptions body) := by
  unfold EndsOptions
  infer_instance

/-! ## The two walks -/

theorem splitKeywords_of_endsOptions (settings : OptionSettings) {body : List Tree}
    (hbody : EndsOptions body) : splitKeywords settings body = .ok (settings, body) := by
  cases body with
  | nil => rfl
  | cons first rest =>
      have hfirst := hbody first rfl
      cases first with
      | sym name =>
          have hstop : (!Tree.isKeywordName name || name == autoloadMarker) = true := by
            cases hname : Tree.isKeywordName name with
            | false => rfl
            | true => simpa [Tree.isSym] using hfirst hname
          rw [splitKeywords, if_pos hstop]
      | _ => rfl

/-- An option at the head of a body is taken as the same option in a mapping is. -/
theorem splitKeywords_inBody (settings : OptionSettings) (given : OptionKey × Tree)
    (rest : List Tree) :
    splitKeywords settings (inBody given ++ rest) =
      match OptionValue.ofTree given.1.keyword given.1.kind (inMapping given).2 with
      | .error e => .error e
      | .ok value => splitKeywords ((given.1, value) :: settings) rest := by
  rcases given with ⟨key, value⟩
  have hgoes : (!Tree.isKeywordName key.keyword || key.keyword == autoloadMarker) = false := by
    simp [key.keyword_ne_autoloadMarker]
  by_cases hflag : key.kind = .flag
  · simp only [inBody, inMapping, hflag, if_true, List.cons_append, List.nil_append]
    rw [splitKeywords]
    simp only [hgoes, Bool.false_eq_true, if_false, OptionKey.ofKeyword?_keyword, hflag,
      beq_self_eq_true, if_true, OptionValue.ofTree]
  · have hkind : (key.kind == OptionKind.flag) = false := by simpa using hflag
    simp only [inBody, inMapping, hflag, if_false, List.cons_append, List.nil_append]
    rw [splitKeywords]
    cases hvalue : OptionValue.ofTree key.keyword key.kind value <;>
      simp only [hgoes, Bool.false_eq_true, if_false, OptionKey.ofKeyword?_keyword, hkind, hvalue]

/-- A mapping is walked by reading its first value, if it can be read, and then the others. -/
theorem settingsOfMapping_inMapping (settings : OptionSettings) (given : OptionKey × Tree)
    (rest : List (Text × Tree)) :
    settingsOfMapping settings (inMapping given :: rest) =
      match OptionValue.ofTree given.1.keyword given.1.kind (inMapping given).2 with
      | .error e => .error e
      | .ok value => settingsOfMapping ((given.1, value) :: settings) rest := by
  cases hvalue : OptionValue.ofTree given.1.keyword given.1.kind (inMapping given).2 <;>
  · unfold inMapping at hvalue ⊢
    simp only [settingsOfMapping, OptionKey.ofName?_keyword, hvalue]

/-- The settings that both walks gather, or the fault at which both stop. -/
theorem splitKeywords_flatMap_inBody (given : List (OptionKey × Tree)) {body : List Tree}
    (hbody : EndsOptions body) (settings : OptionSettings) :
    splitKeywords settings (given.flatMap inBody ++ body) =
      (settingsOfMapping settings (given.map inMapping)).map (·, body) := by
  induction given generalizing settings with
  | nil => exact splitKeywords_of_endsOptions settings hbody
  | cons first rest ih =>
      rw [List.flatMap_cons, List.append_assoc, splitKeywords_inBody, List.map_cons,
        settingsOfMapping_inMapping]
      cases OptionValue.ofTree first.1.keyword first.1.kind (inMapping first).2 with
      | error e => rfl
      | ok value => exact ih ((first.1, value) :: settings)

/-- Options give the same result at the head of a body as in a mapping, in all surroundings: the
same options with the body left over as it is, or the same error. -/
theorem ofKeywords_eq_ofMapping (ambient : Ambient) (given : List (OptionKey × Tree))
    {body : List Tree} (hbody : EndsOptions body) :
    ofKeywords ambient (given.flatMap inBody ++ body) =
      (ofMapping ambient (given.map inMapping)).map (·, body) := by
  rw [ofKeywords, ofMapping, splitKeywords_flatMap_inBody given hbody]
  cases settingsOfMapping [] (given.map inMapping) with
  | error e => rfl
  | ok settings =>
      show (ofSettings ambient settings >>= fun options => pure (options, body)) =
        (ofSettings ambient settings).map (·, body)
      cases ofSettings ambient settings <;> rfl

theorem ofKeywords_eq_ofMapping_of_marker_as_value :
    EndsOptions [.sym ":autoload", .list [.sym "f"]] ∧
      ofKeywords {} [.sym ":let-vars", .sym ":group", .sym ":autoload", .sym ":package",
          .sym ":global", .sym ":autoload", .list [.sym "f"]] =
        (ofMapping {} [(":let-vars", .bool true), (":group", .sym ":autoload"),
          (":package", .sym ":global")]).map (·, [.sym ":autoload", .list [.sym "f"]]) :=
  ⟨by decide, ofKeywords_eq_ofMapping {}
    [(.letVars, .absent), (.group, .sym ":autoload"), (.package, .sym ":global")] (by decide)⟩

end Options

end LispNamespace
