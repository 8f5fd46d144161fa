import LispNamespace.Proofs.Growth.Rules

/-!
# What is recorded about a macro

Before the form that binds the name of a macro is converted, the name is taken in, the grammar that
the definition declares is attached to the final name, and in the rewriting pass the host is told.
-/

namespace LispNamespace

open Rewrite

/-! ## Tables with an entry set -/

/-- To set an entry once more changes nothing. -/
theorem setEntry_setEntry {α : Type} (table : List (Text × α)) (name : Text) (value : α) :
    setEntry (setEntry table name value) name value = setEntry table name value := by
  induction table with
  | nil => simp [setEntry]
  | cons entry rest ih =>
      by_cases hkey : (entry.1 == name) = true
      · have hset : setEntry (entry :: rest) name value = (name, value) :: rest := by
          rw [setEntry, if_pos hkey]
        rw [hset]
        simp [setEntry]
      · have hset : setEntry (entry :: rest) name value = entry :: setEntry rest name value := by
          rw [setEntry, if_neg hkey]
        rw [hset, setEntry, if_neg hkey, ih]

theorem isMacroName_setEntry (macros : List (Text × Bool)) (name other : Text) (expands : Bool) :
    (setEntry macros name expands).any (·.1 == other) =
      (macros.any (·.1 == other) || name == other) := by
  induction macros with
  | nil => simp [setEntry]
  | cons entry rest ih =>
      rcases entry with ⟨key, old⟩
      unfold setEntry
      by_cases hkey : (key == name) = true
      · rw [if_pos hkey, eq_of_beq hkey]
        simp only [List.any_cons]
        cases (name == other) <;> simp
      · rw [if_neg hkey]
        simp only [List.any_cons, ih, Bool.or_assoc]

/-! ## The records -/

namespace Session

/-- The final name of a macro that is defined under the given name. -/
def macroName (s : Session) (name : Text) : Text :=
  if s.nameIsFinal then name else s.qualified name

/-- The session with the name of a macro taken in, unless it is final or protected. -/
def takeMacroName (s : Session) (name : Text) : Session :=
  let tables :=
    if s.nameIsFinal || s.isEscaped name then s.tables else s.tables.addMacro name
  { s with nameIsFinal := false, tables := tables }

/-- The session with the grammar of a macro declared, if there is one. -/
def declareIfGiven (s : Session) (name : Text) (spec : Option Tree) : Session :=
  match spec with
  | none => s
  | some spec => s.declareGrammar name spec

/-- The session with a macro made known to the host, once definitions are written out. -/
def announce (s : Session) (name : Text) (spec : Option Tree) : Session :=
  if s.pass = .rewriting ∧ !s.host.isMacroName name then
    { s with host := s.host.addMacro name false spec }
  else s

/-- The session with all that is recorded about a macro. -/
def recordMacro (s : Session) (name : Text) (definition : List Tree) : Session :=
  ((s.takeMacroName name).declareIfGiven (s.macroName name)
    (Definition.declaredGrammar? definition)).announce (s.macroName name)
      (Definition.declaredGrammar? definition)

theorem announce_journal (s : Session) (name : Text) (spec : Option Tree) (journal : Journal) :
    ({ s with journal := journal } : Session).announce name spec =
      { s.announce name spec with journal := journal } := by
  unfold announce
  split <;> rfl

/-- What has been reported plays no part in the records. -/
theorem recordMacro_journal (s : Session) (name : Text) (definition : List Tree) (journal : Journal) :
    ({ s with journal := journal } : Session).recordMacro name definition =
      { s.recordMacro name definition with journal := journal } := by
  unfold recordMacro
  rw [← announce_journal]
  cases Definition.declaredGrammar? definition with
  | none => rfl
  | some spec => rfl

/-- To take in the name of a macro is growth. -/
theorem growsTo_takeMacroName (s : Session) (name : Text) : s.GrowsTo (s.takeMacroName name) := by
  unfold takeMacroName
  dsimp only
  split
  · exact s.growsTo_nameIsFinal false
  · exact (s.growsTo_addMacro name).trans (growsTo_nameIsFinal _ false)

/-- To record what is known about a macro is growth. -/
theorem growsTo_recordMacro (s : Session) (name : Text) (definition : List Tree) :
    s.GrowsTo (s.recordMacro name definition) := by
  have hdeclare : ∀ (t : Session) name spec, t.GrowsTo (t.declareIfGiven name spec) := by
    intro t name spec
    unfold declareIfGiven
    split
    · exact .refl t
    · exact t.growsTo_declareGrammar name _
  have hannounce : ∀ (t : Session) name spec, t.GrowsTo (t.announce name spec) := by
    intro t name spec
    unfold announce
    split
    · next h => exact t.growsTo_announce spec h.1 (by simpa using h.2)
    · exact .refl t
  exact ((s.growsTo_takeMacroName name).trans (hdeclare _ _ _)).trans (hannounce _ _ _)

/-! ## What the records hold -/

/-- After a macro was announced, the host knows it, and no other one that it did not know. -/
theorem isMacroName_announce (s : Session) (name other : Text) (spec : Option Tree) :
    (s.announce name spec).host.isMacroName other = true ↔
      s.host.isMacroName other = true ∨ s.pass = .rewriting ∧ other = name := by
  have hadd : (s.host.addMacro name false spec).isMacroName other =
      (s.host.isMacroName other || name == other) := by
    have hmacros : (s.host.addMacro name false spec).macros = setEntry s.host.macros name false := by
      unfold Host.addMacro
      split <;> rfl
    unfold Host.isMacroName
    rw [hmacros, isMacroName_setEntry]
  unfold announce
  split
  · next hnew =>
    show (s.host.addMacro name false spec).isMacroName other = true ↔ _
    rw [hadd, Bool.or_eq_true, beq_iff_eq]
    exact or_congr_right ⟨fun h => ⟨hnew.1, h.symm⟩, fun h => h.2.symm⟩
  · next hold =>
    refine ⟨.inl, fun h => h.elim id ?_⟩
    -- the macro was known already
    rintro ⟨hpass, rfl⟩
    cases hknown : s.host.isMacroName other with
    | true => rfl
    | false => exact absurd ⟨hpass, by rw [hknown]; rfl⟩ hold

/-- To announce a macro leaves everything but the macros and grammars of the host. -/
theorem announce_eq (s : Session) (name : Text) (spec : Option Tree) :
    ∃ macros grammars, s.announce name spec =
      { s with host := { s.host with macros := macros, grammars := grammars } } := by
  unfold announce Host.addMacro
  split
  · split
    · exact ⟨_, _, rfl⟩
    · exact ⟨_, _, rfl⟩
    · exact ⟨_, _, rfl⟩
  · exact ⟨s.host.macros, s.host.grammars, rfl⟩

/-- The host is told no grammar that has not just been declared. -/
theorem grammars_announce (s : Session) (name : Text) (spec : Option Tree) :
    ((s.declareIfGiven name spec).announce name spec).host.grammars =
      (s.declareIfGiven name spec).host.grammars := by
  unfold announce
  split
  · unfold Host.addMacro
    split
    · rfl
    · rfl
    · exact setEntry_setEntry s.host.grammars name _
  · rfl

theorem tables_recordMacro (s : Session) (name : Text) (definition : List Tree) :
    (s.recordMacro name definition).tables =
      ((s.takeMacroName name).declareIfGiven (s.macroName name)
        (Definition.declaredGrammar? definition)).tables := by
  unfold recordMacro
  rcases announce_eq ((s.takeMacroName name).declareIfGiven (s.macroName name)
    (Definition.declaredGrammar? definition)) (s.macroName name)
    (Definition.declaredGrammar? definition) with ⟨macros, grammars, heq⟩
  rw [heq]

/-- The records leave the frames alone, and the definition that they are about is no longer awaited. -/
theorem frames_recordMacro (s : Session) (name : Text) (definition : List Tree) :
    (s.recordMacro name definition).frames = s.frames ∧
      (s.recordMacro name definition).nameIsFinal = false := by
  unfold recordMacro
  rcases announce_eq ((s.takeMacroName name).declareIfGiven (s.macroName name)
    (Definition.declaredGrammar? definition)) (s.macroName name)
    (Definition.declaredGrammar? definition) with ⟨macros, grammars, heq⟩
  rw [heq]
  cases Definition.declaredGrammar? definition with
  | none => exact ⟨rfl, rfl⟩
  | some spec => exact ⟨rfl, rfl⟩

/-- In the second pass the host learns of the macro under its final name; in the first pass it
learns nothing. -/
theorem isMacroName_recordMacro (s : Session) (name other : Text) (definition : List Tree) :
    (s.recordMacro name definition).host.isMacroName other = true ↔
      s.host.isMacroName other = true ∨ s.pass = .rewriting ∧ other = s.macroName name := by
  have hmacros : ((s.takeMacroName name).declareIfGiven (s.macroName name)
      (Definition.declaredGrammar? definition)).host.macros = s.host.macros := by
    unfold declareIfGiven
    split <;> rfl
  have hpass : ((s.takeMacroName name).declareIfGiven (s.macroName name)
      (Definition.declaredGrammar? definition)).pass = s.pass := by
    unfold declareIfGiven
    split <;> rfl
  unfold recordMacro
  rw [isMacroName_announce, hpass]
  unfold Host.isMacroName
  rw [hmacros]

end Session

/-! ## How they are made -/

namespace Forms

/-- The name becomes the final one, and the flag for a final name is taken down. -/
theorem runFrom_convertMacroName (name : Text) (s : Session) :
    (convertMacroName name).runFrom s = (.ok (s.macroName name), s.takeMacroName name) := by
  have htake : takeNameIsFinal.runFrom s = (.ok s.nameIsFinal, { s with nameIsFinal := false }) := rfl
  have hescaped : ({ s with nameIsFinal := false } : Session).isEscaped name = s.isEscaped name := rfl
  unfold convertMacroName Session.macroName Session.takeMacroName
  rw [runFrom_bind, htake]
  dsimp only
  -- a final name is used as it is, and another one is qualified unless it is protected
  cases hfinal : s.nameIsFinal with
  | true => rfl
  | false =>
      rw [if_neg Bool.false_ne_true, runFrom_bind, runFrom_get]
      dsimp only
      rw [hescaped]
      unfold Session.qualified Context.qualified
      by_cases hname : s.isEscaped name = true
      · have hcontext : s.context.isEscaped name = true := hname
        simp only [hname, hcontext, if_true, Bool.or_true]
        rfl
      · have hcontext : ¬s.context.isEscaped name = true := hname
        simp only [hname, hcontext, Bool.or_false]
        rfl

theorem runFrom_declareMacroGrammar (name : Text) (spec : Option Tree) (s : Session) :
    ∃ journal, (declareMacroGrammar name spec).runFrom s =
      (.ok (), { s.declareIfGiven name spec with journal := journal }) := by
  cases spec with
  | none => exact ⟨s.journal, rfl⟩
  | some spec => exact ⟨_, rfl⟩

theorem runFrom_announceMacro (name : Text) (spec : Option Tree) (s : Session) :
    (announceMacro name spec).runFrom s = (.ok (), s.announce name spec) := by
  unfold announceMacro Session.announce
  rw [runFrom_bind, runFrom_get]
  dsimp only
  split <;> rfl

/-- An expansion leaves the session as it is but for its notes, and fails if the host does not
expand the head. -/
theorem runFrom_expandDefinition (head : Text) (name params : Tree) (definition : List Tree)
    (s : Session) :
    if s.host.expandsDefinition head then
      ∃ expansion journal,
        (expandDefinition (Tree.call head (name :: params :: definition))).runFrom s =
          (.ok expansion, { s with journal := journal })
    else
      (expandDefinition (Tree.call head (name :: params :: definition))).runFrom s =
        (.error (.notExpandable (Tree.sym head).display), s) := by
  unfold expandDefinition
  rw [runFrom_bind, runFrom_get]
  dsimp only
  unfold Definition.expandOrFail Definition.expandWith?
  split
  · next hexpands =>
    simp only [Tree.call, Tree.uncons?, if_pos hexpands, Definition.expand_eq]
    exact ⟨_, _, rfl⟩
  · next hexpands =>
    simp only [Tree.call, Tree.uncons?, if_neg hexpands]
    rfl

/-- The records are made whether or not the host expands the definition. -/
theorem runFrom_prepareMacro (head name : Text) (params : Tree) (definition : List Tree)
    (s : Session) :
    ∃ journal, (prepareMacro head name params definition).runFrom s =
      if s.host.expandsDefinition head then
        (.ok (s.macroName name),
          { s.recordMacro name definition with nameIsFinal := true, journal := journal })
      else
        (.error (.notExpandable (Tree.sym head).display),
          { s.recordMacro name definition with journal := journal }) := by
  obtain ⟨journal, hdeclare⟩ := runFrom_declareMacroGrammar (s.macroName name)
    (Definition.declaredGrammar? definition) (s.takeMacroName name)
  -- the host expands the definition after the records have been made exactly if it did before
  have hhost : (s.recordMacro name definition).host.expandsDefinition head =
      s.host.expandsDefinition head := (s.growsTo_recordMacro name definition).hostExpands head
  have hexpand := runFrom_expandDefinition head (.sym (s.macroName name)) params definition
    { s.recordMacro name definition with journal := journal }
  dsimp only at hexpand
  rw [hhost] at hexpand
  unfold prepareMacro
  rw [runFrom_bind, runFrom_convertMacroName]
  dsimp only
  rw [runFrom_bind, hdeclare]
  dsimp only
  rw [runFrom_bind, runFrom_announceMacro, Session.announce_journal]
  dsimp only
  rw [runFrom_bind]
  split at hexpand
  · next hexpands =>
    rcases hexpand with ⟨expansion, journal', hrun⟩
    refine ⟨journal', ?_⟩
    have hrun' := hrun
    unfold Session.recordMacro at hrun'
    rw [hrun', if_pos hexpands]
    rfl
  · next hexpands =>
    refine ⟨journal, ?_⟩
    have hrun := hexpand
    unfold Session.recordMacro at hrun
    rw [hrun, if_neg hexpands]
    rfl

/-- After the records, the form that binds the name is walked, and the definition that is awaited
carries the final name. -/
theorem runFrom_convertMacro (walk : Walk) (head name : Text) (params : Tree) (definition : List Tree)
    (s : Session) :
    ∃ journal, (convertMacro walk head (.sym name :: params :: definition)).runFrom s =
      if s.host.expandsDefinition head then
        (walk (Definition.boundForm (.sym (s.macroName name)) params definition) >>= fun bound =>
          return Definition.withDeclared (.sym (s.macroName name)) definition bound).runFrom
            { s.recordMacro name definition with nameIsFinal := true, journal := journal }
      else
        (.error (.notExpandable (Tree.sym head).display),
          { s.recordMacro name definition with journal := journal }) := by
  rcases runFrom_prepareMacro head name params definition s with ⟨journal, hprepare⟩
  refine ⟨journal, ?_⟩
  rw [convertMacro_eq, runFrom_bind, hprepare]
  by_cases hexpands : s.host.expandsDefinition head = true
  · rw [if_pos hexpands, if_pos hexpands]
  · rw [if_neg hexpands, if_neg hexpands]

end Forms

end LispNamespace
