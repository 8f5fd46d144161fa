import LispNamespace.Proofs.DefinedNames

/-!
# Growth of sessions

However a form is converted, and however the conversion ends, the session only grows: names are
added to the tables and to the innermost frame, the host learns macros and grammars, and nothing is
taken away.
-/

namespace LispNamespace

/-- A host knows a macro exactly when its table has an entry for it. -/
theorem Host.isMacroName_eq_isSome (host : Host) (name : Text) :
    host.isMacroName name = (host.macros.lookup name).isSome := by
  unfold Host.isMacroName
  induction host.macros with
  | nil => rfl
  | cons entry rest ih =>
      rcases entry with ⟨key, expands⟩
      rw [List.any_cons, List.lookup_cons, ih]
      by_cases hk : name = key
      · simp [hk]
      -- the two look-ups compare the keys in opposite directions
      · have hne : (key == name) = false := beq_false_of_ne fun e => hk e.symm
        have hne' : (name == key) = false := beq_false_of_ne hk
        rw [hne, hne', Bool.false_or]

/-! ## Sessions that grow -/

/-- The session `t` may come after `s`: the context, the pass and the frames around the innermost
one are the same, and every name and grammar that `s` knows is known to `t`. -/
structure Session.GrowsTo (s t : Session) : Prop where
  context : t.context = s.context
  pass : t.pass = s.pass
  depth : t.frames.length = s.frames.length
  outerFrames : t.frames.tail = s.frames.tail
  shadowed : ∀ name, s.isShadowed name = true → t.isShadowed name = true
  variableNames : ∀ name ∈ s.tables.variableNames, name ∈ t.tables.variableNames
  functionNames : ∀ name ∈ s.tables.functionNames, name ∈ t.tables.functionNames
  macros : ∀ name ∈ s.tables.macros, name ∈ t.tables.macros
  grammars : ∀ name, (s.tables.grammars.lookup name).isSome →
    (t.tables.grammars.lookup name).isSome
  hostVariables : t.host.variableNames = s.host.variableNames
  hostFunctions : t.host.functionNames = s.host.functionNames
  hostMacros : ∀ name expands, s.host.macros.lookup name = some expands →
    t.host.macros.lookup name = some expands
  /-- The macros that the host learns do not expand as definitions. -/
  hostExpands : ∀ name, t.host.expandsDefinition name = s.host.expandsDefinition name
  /-- It learns of macros in the rewriting pass only. -/
  hostMacrosBefore : s.pass ≠ .rewriting → t.host.macros = s.host.macros
  hostGrammars : ∀ name, (s.host.grammars.lookup name).isSome →
    (t.host.grammars.lookup name).isSome

/-- Which names are local depends on the frames only. -/
theorem Session.isShadowed_congr {s t : Session} {name : Text} (h : t.frames = s.frames) :
    t.isShadowed name = s.isShadowed name := by
  unfold Session.isShadowed
  rw [h]

namespace Session.GrowsTo

variable {s t u : Session}

protected theorem refl (s : Session) : s.GrowsTo s := by
  constructor <;> intros <;> first | rfl | assumption

protected theorem trans (h : s.GrowsTo t) (h' : t.GrowsTo u) : s.GrowsTo u where
  context := h'.context.trans h.context
  pass := h'.pass.trans h.pass
  depth := h'.depth.trans h.depth
  outerFrames := h'.outerFrames.trans h.outerFrames
  shadowed name hn := h'.shadowed name (h.shadowed name hn)
  variableNames name hn := h'.variableNames name (h.variableNames name hn)
  functionNames name hn := h'.functionNames name (h.functionNames name hn)
  macros name hn := h'.macros name (h.macros name hn)
  grammars name hn := h'.grammars name (h.grammars name hn)
  hostVariables := h'.hostVariables.trans h.hostVariables
  hostFunctions := h'.hostFunctions.trans h.hostFunctions
  hostMacros name expands hn := h'.hostMacros name expands (h.hostMacros name expands hn)
  hostExpands name := (h'.hostExpands name).trans (h.hostExpands name)
  hostMacrosBefore hs := (h'.hostMacrosBefore (h.pass ▸ hs)).trans (h.hostMacrosBefore hs)
  hostGrammars name hn := h'.hostGrammars name (h.hostGrammars name hn)

/-- What happens inside a frame is growth outside of it, once the frame is closed. -/
theorem popFrame {names : List Text} (h : (s.pushFrame names).GrowsTo t) :
    s.GrowsTo t.popFrame := by
  have hframes : t.popFrame.frames = s.frames := h.outerFrames
  refine { h with depth := by rw [hframes], outerFrames := by rw [hframes], shadowed := ?_ }
  intro name hn
  rwa [Session.isShadowed_congr hframes]

/-- A host keeps the macros that it knows. -/
theorem isMacroName (h : s.GrowsTo t) {name : Text} (hname : s.host.isMacroName name = true) :
    t.host.isMacroName name = true := by
  rw [Host.isMacroName_eq_isSome, Option.isSome_iff_exists] at hname ⊢
  rcases hname with ⟨expands, hlookup⟩
  exact ⟨expands, h.hostMacros name expands hlookup⟩

/-- Outside of all frames, growth stays there. -/
theorem frames_eq_nil (h : s.GrowsTo t) (hs : s.frames = []) : t.frames = [] := by
  have hlength := h.depth
  rw [hs] at hlength
  exact List.eq_nil_of_length_eq_zero hlength

end Session.GrowsTo

/-! ## Changes that are growth -/

/-- The journal plays no part in growth. -/
theorem Session.growsTo_journal (s : Session) (journal : Journal) :
    s.GrowsTo { s with journal := journal } := by
  exact { Session.GrowsTo.refl s with }

/-- Neither does what is known about the next definition. -/
theorem Session.growsTo_nameIsFinal (s : Session) (isFinal : Bool) :
    s.GrowsTo { s with nameIsFinal := isFinal } := by
  exact { Session.GrowsTo.refl s with }

/-- To bind names in the innermost frame is growth. -/
theorem Session.growsTo_growFrame (s : Session) (names : List Text) :
    s.GrowsTo (s.growFrame names) := by
  unfold Session.growFrame
  split
  · exact .refl s
  · next frame outer hframes =>
    refine { Session.GrowsTo.refl s with
      depth := by rw [hframes]; rfl, outerFrames := by rw [hframes]; rfl, shadowed := ?_ }
    -- the new names stand before those that the frame has
    intro name hn
    simp only [Session.isShadowed, hframes, List.any_cons, Bool.or_eq_true,
      List.contains_eq_mem, decide_eq_true_eq, List.mem_append] at hn ⊢
    exact hn.imp_left .inr

/-- Taking in a name is growth. -/
theorem Session.growsTo_learn (s : Session) (addition : Addition) : s.GrowsTo (s.learn addition) := by
  refine { Session.GrowsTo.refl s with
    variableNames := ?_, functionNames := ?_, macros := ?_, grammars := ?_ }
  · intro name hn
    exact (Addition.mem_variableNames_apply _ _ _).2 (.inl hn)
  · intro name hn
    exact (Addition.mem_functionNames_apply _ _ _).2 (.inl hn)
  · intro name hn
    exact (Addition.macros_apply s.tables addition).symm ▸ hn
  · intro name hn
    exact (Addition.grammars_apply s.tables addition).symm ▸ hn

/-- Taking in name after name is growth. -/
theorem Session.growsTo_foldl_learn (additions : List Addition) (s : Session) :
    s.GrowsTo (additions.foldl Session.learn s) := by
  induction additions generalizing s with
  | nil => exact .refl s
  | cons addition rest ih => exact (s.growsTo_learn addition).trans (ih (s.learn addition))

/-- Setting an entry takes away none. -/
theorem isSome_lookup_setEntry {α : Type} {table : List (Text × α)} {name other : Text} (value : α)
    (h : (table.lookup other).isSome) : ((setEntry table name value).lookup other).isSome := by
  by_cases hname : other = name
  · subst hname
    rw [lookup_setEntry_self]
    rfl
  · rwa [lookup_setEntry_ne table value hname]

/-- To declare a grammar is growth, of the tables and of the host. -/
theorem Session.growsTo_declareGrammar (s : Session) (name : Text) (spec : Tree) :
    s.GrowsTo (s.declareGrammar name spec) :=
  { Session.GrowsTo.refl s with
    grammars := fun _ h => isSome_lookup_setEntry spec h
    hostGrammars := fun _ h => isSome_lookup_setEntry spec h }

/-- To take in a macro is growth. -/
theorem Session.growsTo_addMacro (s : Session) (name : Text) :
    s.GrowsTo { s with tables := s.tables.addMacro name } :=
  { Session.GrowsTo.refl s with
    functionNames := fun _ h => mem_addName.2 (.inl h)
    macros := fun _ h => mem_addName.2 (.inl h) }

/-- A host that does not know a macro only grows when it learns of it. -/
theorem Session.growsTo_announce (s : Session) {name : Text} (spec : Option Tree)
    (hpass : s.pass = .rewriting) (hnew : s.host.isMacroName name = false) :
    s.GrowsTo { s with host := s.host.addMacro name false spec } := by
  -- the new entry is for a name that had none, so it hides no other
  have hmacros : ∀ other expands, s.host.macros.lookup other = some expands →
      (setEntry s.host.macros name false).lookup other = some expands := by
    intro other expands h
    have hne : other ≠ name := by
      rintro rfl
      rw [Host.isMacroName_eq_isSome, h] at hnew
      exact Bool.noConfusion hnew
    rwa [lookup_setEntry_ne s.host.macros false hne]
  -- a macro that is unknown does not expand as a definition, and neither does the new one
  have hexpands : ∀ other, ((setEntry s.host.macros name false).lookup other).getD false =
      (s.host.macros.lookup other).getD false := by
    intro other
    by_cases hother : other = name
    · subst hother
      rw [Host.isMacroName_eq_isSome, Option.isSome_eq_false_iff, Option.isNone_iff_eq_none] at hnew
      rw [lookup_setEntry_self, hnew]
      rfl
    · rw [lookup_setEntry_ne s.host.macros false hother]
  -- whatever the specification, only the entries of macros and grammars change
  obtain ⟨grammars, hhost, hgrammars⟩ : ∃ grammars, s.host.addMacro name false spec =
      { s.host with macros := setEntry s.host.macros name false, grammars := grammars } ∧
      ∀ other, (s.host.grammars.lookup other).isSome → (grammars.lookup other).isSome := by
    unfold Host.addMacro
    split
    · exact ⟨_, rfl, fun _ h => h⟩
    · exact ⟨_, rfl, fun _ h => h⟩
    · exact ⟨_, rfl, fun _ h => isSome_lookup_setEntry _ h⟩
  rw [hhost]
  exact { Session.GrowsTo.refl s with
    hostMacros := hmacros
    hostExpands := hexpands
    hostMacrosBefore := fun hbefore => absurd hpass hbefore
    hostGrammars := hgrammars }

end LispNamespace
