import LispNamespace.Proofs.Comparison.Convert

/-!
# Conversion renames symbols

A conversion that succeeds gives a tree of the same shape, in which a symbol has either stayed, or
lost the protection marker, or been qualified. It is qualified only if the namespace owns it in the
end. A name that is bound around the form is never qualified, unless a definition inside the form
is of that name.

Both statements are about one run. They come out of the comparison of the run with itself, in which
every form is followed by a renaming of it.
-/

namespace LispNamespace

/-! ## What a name may become -/

namespace Session

/-- Whether the namespace owns a name, if the tables are the given ones: they hold it as a variable
or a function, or the host knows its qualified form and is asked about it. -/
def Owns (s : Session) (tables : Tables) (name : Text) : Prop :=
  name ∈ tables.variableNames ∨ name ∈ tables.functionNames ∨
    s.asksHost = true ∧
      (s.host.isBound (s.context.qualifier ++ name) = true ∨
        s.host.isFunctionBound (s.context.qualifier ++ name) = true)

/-- Whether the second name is what the first one may become in a run from the session that ends
with the given tables. -/
def Becomes (s : Session) (tables : Tables) (name result : Text) : Prop :=
  result = name ∨
    (s.isEscaped name = true ∧ result = s.stripProtection name) ∨
    (s.isEscaped name = false ∧ result = s.context.qualifier ++ name ∧ s.Owns tables name)

end Session

/-! ## The comparison of a run with itself -/

namespace Comparison

/-- What a name may become in a run from a session to tables, if `defines` says whether names are
defined on the way: names bound at first are qualified by definitions only. -/
def NameBecomes (before : Session) (after : Tables) (defines : Prop) (name result : Text) : Prop :=
  result = name ∨
    (before.isEscaped name = true ∧ result = before.stripProtection name) ∨
    (before.isEscaped name = false ∧ result = before.context.qualifier ++ name ∧
      before.Owns after name ∧ (before.isShadowed name = true → defines))

/-- A run from a session to tables is compared with itself, but for what is reported. The forms are
those that pass the test everywhere, and each one becomes a renaming of itself. -/
def ofRun (before : Session) (after : Tables) (test : Tree → Bool) (defines : Prop) :
    Comparison where
  Related s t := (∃ journal, t = { s with journal := journal }) ∧ s.context = before.context ∧
    s.host = before.host ∧ ∀ name, before.isShadowed name = true → s.isShadowed name = true
  Counts s := (∀ name ∈ s.tables.variableNames, name ∈ after.variableNames) ∧
    ∀ name ∈ s.tables.functionNames, name ∈ after.functionNames
  Form form := form.everywhere test = true
  Result form a b := b = a ∧ form.Renamed (NameBecomes before after defines) a
  Names ns ms := ms = ns

section Renaming

variable {before : Session} {after : Tables} {test : Tree → Bool} {defines : Prop}

/-- A list of renamings is a renaming of the list. -/
theorem renamedAll_of_pointwise {items ys zs : List Tree}
    (h : Pointwise (ofRun before after test defines).Result items ys zs) :
    zs = ys ∧ Tree.RenamedAll (NameBecomes before after defines) items ys := by
  induction h with
  | nil => exact ⟨rfl, .nil⟩
  | cons first _ ih =>
      rcases first with ⟨rfl, hfirst⟩
      rcases ih with ⟨rfl, hrest⟩
      exact ⟨rfl, .cons hfirst hrest⟩

/-- What a session on the way owns, the first one owns with the tables at the end. -/
theorem owns_of_counts {s t : Session} (hs : (ofRun before after test defines).Related s t)
    (hcounts : (ofRun before after test defines).Counts s) {name : Text}
    (howns : s.Owns s.tables name) : before.Owns after name := by
  rcases hs with ⟨-, hcontext, hhost, -⟩
  rcases howns with hvariable | hfunction | hknown
  · exact .inl (hcounts.1 name hvariable)
  · exact .inr (.inl (hcounts.2 name hfunction))
  · unfold Session.asksHost at hknown
    rw [hcontext, hhost] at hknown
    exact .inr (.inr hknown)

/-- A reference that is qualified is free, so it is not bound around the form. -/
theorem nameBecomes_qualified {s t : Session} {name : Text}
    (hs : (ofRun before after test defines).Related s t)
    (hcounts : (ofRun before after test defines).Counts s)
    (hescaped : s.isEscaped name = false) (hfree : s.isFree name = true)
    (howns : s.Owns s.tables name) :
    NameBecomes before after defines name (s.qualified name) := by
  have howns' := owns_of_counts hs hcounts howns
  rcases hs with ⟨-, hcontext, -, hshadowed⟩
  refine .inr (.inr ⟨?_, ?_, howns', fun hbound => ?_⟩)
  · unfold Session.isEscaped at hescaped ⊢
    rwa [← hcontext]
  · rw [Session.qualified_of_not_isEscaped hescaped, hcontext]
  · unfold Session.isFree at hfree
    rw [hshadowed name hbound, Bool.not_true, Bool.and_false] at hfree
    cases hfree

/-- A reference, to a variable or to a function, becomes what it may. -/
theorem nameBecomes_reference {s t : Session} {name : Text}
    (hs : (ofRun before after test defines).Related s t)
    (hcounts : (ofRun before after test defines).Counts s) {isOwn isKnown : Bool}
    (hown : isOwn = (s.isFree name && isKnown))
    (hknown : s.isEscaped name = false → isKnown = true → s.Owns s.tables name) :
    NameBecomes before after defines name
      (if s.isEscaped name then s.stripProtection name
        else if isOwn then s.qualified name else name) := by
  have hcontext := hs.2.1
  split
  · next hescaped =>
    refine .inr (.inl ⟨?_, ?_⟩)
    · unfold Session.isEscaped at hescaped ⊢
      rwa [← hcontext]
    · unfold Session.stripProtection
      rw [hcontext]
  · next hescaped =>
    split
    · next hqualified =>
      rw [hown, Bool.and_eq_true] at hqualified
      have hescaped' := Bool.eq_false_iff.2 hescaped
      exact nameBecomes_qualified hs hcounts hescaped' hqualified.1
        (hknown hescaped' hqualified.2)
    · exact .inl rfl

/-- Every rule keeps the shape of forms that come from the reader, if none of them is a vector that
is taken for a list, and changes names as the tables in the end allow. -/
theorem lawful_ofRun
    (hreader : ∀ t, test t = true → t.isReaderNode = true)
    (hvector : ∀ t, test t = true → t.isVectorHeadedBy ["lambda", "interactive"] = false) :
    (ofRun before after test defines).Lawful where
  context := by
    rintro s _ ⟨⟨_, rfl⟩, -, -⟩
    rfl
  journal := by
    rintro s _ j k ⟨⟨_, rfl⟩, hrelated⟩
    exact ⟨⟨k, rfl⟩, hrelated⟩
  pushFrame := by
    rintro s _ ns _ ⟨⟨k, rfl⟩, hcontext, hhost, hshadowed⟩ rfl
    refine ⟨⟨k, rfl⟩, hcontext, hhost, fun name hname => ?_⟩
    rw [Session.isShadowed_pushFrame, hshadowed name hname, Bool.or_true]
  popFrame := by
    rintro s _ s' _ ns ms ⟨-, -, -, hshadowed⟩ hgrows _ ⟨⟨k, rfl⟩, hcontext, hhost, -⟩
    -- when the frame is closed, the names around it are bound as they were
    refine ⟨⟨k, rfl⟩, hcontext, hhost, fun name hname => ?_⟩
    exact hgrows.popFrame.shadowed name (hshadowed name hname)
  growFrame := by
    rintro s _ _ ns ⟨⟨k, rfl⟩, hcontext, hhost, hshadowed⟩ rfl
    have hgrows : s.GrowsTo (s.growFrame ns) :=
      Rewrite.growsTo_runFrom (Rewrite.bindNames ns) s
    have hsame : (s.growFrame ns).host = s.host := by
      unfold Session.growFrame
      split <;> rfl
    refine ⟨⟨k, ?_⟩, hgrows.context.trans hcontext, hsame.trans hhost, fun name hname => ?_⟩
    · unfold Session.growFrame
      cases hframes : s.frames <;> simp only [hframes]
    · exact hgrows.shadowed name (hshadowed name hname)
  counts hgrows hcounts :=
    ⟨fun name hname => hcounts.1 name (hgrows.variableNames name hname),
      fun name hname => hcounts.2 name (hgrows.functionNames name hname)⟩
  counts_frames _ hcounts := hcounts
  names_same _ := rfl
  names_append := by
    rintro ns _ ns' _ rfl rfl
    rfl
  names_result := by
    rintro t a _ ⟨rfl, -⟩
    rfl
  form_children := Tree.everywhere_children
  approach := by
    rintro s _ name _ - ⟨⟨_, rfl⟩, -, -⟩ -
    rfl
  macroTreatment := by
    rintro s _ name ⟨⟨_, rfl⟩, -, -⟩
    rfl
  classify := by
    rintro s _ spec args ⟨⟨_, rfl⟩, -, -⟩ -
    rfl
  result_same t := ⟨rfl, .same (fun _ => .inl rfl) t⟩
  result_list h := by
    rcases renamedAll_of_pointwise h with ⟨rfl, hall⟩
    exact ⟨rfl, .list hall⟩
  result_ofList := by
    intro t items ys zs ht hitems h
    rcases renamedAll_of_pointwise h with ⟨rfl, hall⟩
    have hnode := hreader t (Tree.test_of_everywhere ht)
    refine ⟨rfl, ?_⟩
    -- a list that reads as nil stays nil, and no other list comes out empty
    unfold Tree.properList? at hitems
    split at hitems
    · cases hitems
      cases hall
      exact .constant rfl
    · cases hnode
    · cases hitems
      cases hall with
      | nil => cases hnode
      | cons first others => exact .list (.cons first others)
    · cases hitems
  result_call := by
    intro t name parts ys zs ht hname hparts h
    rcases renamedAll_of_pointwise h with ⟨rfl, hall⟩
    refine ⟨rfl, ?_⟩
    -- a vector would come out as a list, which is why the test refuses it
    rcases Tree.eq_of_tailOf? hparts with rfl | rfl
    · exact .list (.cons (.sym (.inl rfl)) hall)
    · have hnone := hvector _ (Tree.test_of_everywhere ht)
      rcases hname with rfl | rfl <;> cases hnone
  result_dot h := by
    rcases renamedAll_of_pointwise h with ⟨rfl, hall⟩
    exact ⟨rfl, .dot hall (.same (fun _ => .inl rfl) _)⟩
  result_dotAbsent h := by
    -- no tree of the reader lacks its tail
    have htail := Tree.everywhere_children h (List.mem_append_right _ (List.mem_singleton.2 rfl))
    cases hreader _ (Tree.test_of_everywhere htail)
  result_variable := by
    rintro s _ name ⟨⟨k, rfl⟩, hrelated⟩ hcounts
    refine ⟨rfl, .sym (nameBecomes_reference ⟨⟨k, rfl⟩, hrelated⟩ hcounts rfl ?_)⟩
    intro hescaped hknown
    rcases Bool.or_eq_true_iff.1 hknown with htable | hhost
    · exact .inl (List.contains_iff_mem.1 htable)
    · rcases Bool.and_eq_true_iff.1 hhost with ⟨hasks, hbound⟩
      rw [Session.qualified_of_not_isEscaped hescaped] at hbound
      exact .inr (.inr ⟨hasks, .inl hbound⟩)
  result_function := by
    rintro s _ name ⟨⟨k, rfl⟩, hrelated⟩ hcounts
    refine ⟨rfl, .sym (nameBecomes_reference ⟨⟨k, rfl⟩, hrelated⟩ hcounts rfl ?_)⟩
    intro hescaped hknown
    rcases Bool.or_eq_true_iff.1 hknown with htable | hhost
    · exact .inr (.inl (List.contains_iff_mem.1 htable))
    · rcases Bool.and_eq_true_iff.1 hhost with ⟨hasks, hbound⟩
      rw [Session.qualified_of_not_isEscaped hescaped] at hbound
      exact .inr (.inr ⟨hasks, .inr hbound⟩)

/-- A definition qualifies its name, which the namespace owns from then on, even if a form around it
binds the name. -/
theorem defining_ofRun (hdefines : defines)
    (hvector : ∀ t, test t = true → t.isVectorHeadedBy ["quote"] = false) :
    (ofRun before after test defines).Defining where
  nameIsFinal := by
    rintro s _ ⟨⟨_, rfl⟩, -, -⟩
    rfl
  clear := by
    rintro s _ ⟨⟨k, rfl⟩, hrelated⟩
    exact ⟨⟨k, rfl⟩, hrelated⟩
  learn := by
    rintro s _ addition ⟨⟨k, rfl⟩, hrelated⟩ -
    exact ⟨⟨k, rfl⟩, hrelated⟩
  result_defined := by
    rintro s _ name ⟨⟨k, rfl⟩, hrelated⟩ hcounts hescaped hname
    -- the name is in the tables by now, whatever is bound around the definition
    have howns := owns_of_counts ⟨⟨k, rfl⟩, hrelated⟩ hcounts (hname.imp_right .inl)
    have hcontext := hrelated.1
    refine ⟨rfl, .sym (.inr (.inr ⟨?_, ?_, howns, fun _ => hdefines⟩))⟩
    · unfold Session.isEscaped at hescaped ⊢
      rwa [← hcontext]
    · rw [Session.qualified_of_not_isEscaped hescaped, hcontext]
  result_quote := by
    rintro t x y _ ht hquoted ⟨rfl, hrenamed⟩
    refine ⟨rfl, ?_⟩
    unfold Tree.quoted? at hquoted
    split at hquoted
    · next hparts =>
      cases hquoted
      rcases Tree.eq_of_tailOf? hparts with rfl | rfl
      · exact .list (.cons (.sym (.inl rfl)) (.cons hrenamed .nil))
      · cases hvector _ (Tree.test_of_everywhere ht)
    · cases hquoted

end Renaming

/-- A run that succeeds turns a form into a renaming of it, by the names that the namespace owns
where the run ends. -/
theorem renamed_of_run {test : Tree → Bool} {defines : Prop} {s s' : Session} {form result : Tree}
    (hC : (ofRun s s'.tables test defines).Lawful)
    (hadmits : (ofRun s s'.tables test defines).AdmitsForms)
    (hform : form.everywhere test = true) (hrun : (convert form).runFrom s = (.ok result, s')) :
    form.Renamed (NameBecomes s s'.tables defines) result := by
  have hgrows : s.GrowsTo s' := Rewrite.Growing.of_run hrun
  have hrelated : (ofRun s s'.tables test defines).Related s s :=
    ⟨⟨s.journal, rfl⟩, rfl, rfl, fun _ hname => hname⟩
  have hcounts : (ofRun s s'.tables test defines).Counts s :=
    ⟨hgrows.variableNames, hgrows.functionNames⟩
  have hcounts' : (ofRun s s'.tables test defines).Counts s' :=
    ⟨fun _ hname => hname, fun _ hname => hname⟩
  rcases follows_convert hC hadmits form hform s s hrelated hcounts result s' hrun hcounts' with
    ⟨_, _, -, ⟨-, hrenamed⟩, -⟩
  exact hrenamed

end Comparison

/-! ## Main results -/

/-- Whether the root of the tree is fit for the statement that conversions keep the shape: it comes
from the reader, it is no macro definition, and no vector that is taken apart like a list. -/
def Tree.keepsShape (t : Tree) : Bool :=
  t.isReaderNode && !t.isListHeadedBy FormRule.macroNames &&
    !t.isVectorHeadedBy ["lambda", "interactive", "quote"]

/-- Whether the root of the tree is fit for the statement that local names are kept: it comes from
the reader, it is no definition, and no vector that is taken for a function. -/
def Tree.keepsLocalNames (t : Tree) : Bool :=
  t.isReaderNode && !t.isListHeadedBy FormRule.definitionNames &&
    !t.isVectorHeadedBy ["lambda", "interactive"]

/-- A form keeps its shape if it comes from the reader, defines no macro, and is no vector that is
taken for a list. -/
theorem Tree.keepsShape_iff {t : Tree} : t.keepsShape = true ↔
    t.isReaderNode = true ∧ t.definesNoMacro = true ∧
      t.isVectorHeadedBy ["lambda", "interactive", "quote"] = false := by
  simp only [keepsShape, definesNoMacro, Bool.and_eq_true, Bool.not_eq_true', and_assoc]

/-- A form keeps its local names if it comes from the reader, is no definition, and is no vector
that is taken for a list. -/
theorem Tree.keepsLocalNames_iff {t : Tree} : t.keepsLocalNames = true ↔
    t.isReaderNode = true ∧ t.isListHeadedBy FormRule.definitionNames = false ∧
      t.isVectorHeadedBy ["lambda", "interactive"] = false := by
  simp only [keepsLocalNames, Bool.and_eq_true, Bool.not_eq_true', and_assoc]

namespace Comparison

variable (s : Session) (tables : Tables)

theorem lawful_keepsShape : (ofRun s tables Tree.keepsShape True).Lawful :=
  lawful_ofRun (fun _ h => (Tree.keepsShape_iff.1 h).1) fun _ h =>
    Tree.isVectorHeadedBy_mono (by simp) (Tree.keepsShape_iff.1 h).2.2

/-- The test that keeps the shape admits definitions, but not of macros. -/
theorem admits_keepsShape : (ofRun s tables Tree.keepsShape True).AdmitsForms := by
  have hdefining : (ofRun s tables Tree.keepsShape True).Defining :=
    defining_ofRun trivial fun _ h =>
      Tree.isVectorHeadedBy_mono (by simp) (Tree.keepsShape_iff.1 h).2.2
  exact admitsForms_of_noMacros hdefining fun _ h =>
    (Tree.keepsShape_iff.1 (Tree.test_of_everywhere h)).2.1

theorem lawful_keepsLocalNames : (ofRun s tables Tree.keepsLocalNames False).Lawful :=
  lawful_ofRun (fun _ h => (Tree.keepsLocalNames_iff.1 h).1) fun _ h =>
    (Tree.keepsLocalNames_iff.1 h).2.2

/-- The test that keeps local names admits no definition. -/
theorem admits_keepsLocalNames : (ofRun s tables Tree.keepsLocalNames False).AdmitsForms :=
  admitsForms_of_noDefinitions fun _ h =>
    (Tree.keepsLocalNames_iff.1 (Tree.test_of_everywhere h)).2.1

end Comparison

/-- Conversion only renames symbols. Whatever the session, a form that comes back has the shape it
had, and each of its symbols stayed, or lost the protection marker, or was qualified as a name that
the namespace owns in the end. -/
theorem convert_renames {s s' : Session} {form result : Tree}
    (hform : form.everywhere Tree.keepsShape = true)
    (hrun : (convert form).runFrom s = (.ok result, s')) :
    form.Renamed (s.Becomes s'.tables) result := by
  have hC := Comparison.lawful_keepsShape s s'.tables
  have hadmits := Comparison.admits_keepsShape s s'.tables
  have hrenamed := Comparison.renamed_of_run hC hadmits hform hrun
  refine hrenamed.mono fun name name' h => ?_
  rcases h with hsame | hstripped | ⟨hescaped, hqualified, howns, -⟩
  · exact .inl hsame
  · exact .inr (.inl hstripped)
  · exact .inr (.inr ⟨hescaped, hqualified, howns⟩)

/-- A function that calls itself is called by the name that its definition gives it. -/
theorem convert_renames_recursion :
    ∃ s' : Session,
      (convert (.recursion "f")).runFrom (.unset "p-") = (.ok (.recursion "p-f"), s') ∧
      (Tree.recursion "f").Renamed ((Session.unset "p-").Becomes s'.tables) (.recursion "p-f") := by
  have hrun : (convert (.recursion "f")).runFrom (.unset "p-") =
      (.ok (.recursion "p-f"), ((convert (.recursion "f")).runFrom (.unset "p-")).2) := rfl
  exact ⟨_, hrun, convert_renames (by decide) hrun⟩

/-- A local name is never rewritten. Whatever the session, a name that is bound around a form and
does not begin with the protection marker stands in the result wherever it stood in the form. -/
theorem convert_keeps_local {s s' : Session} {form result : Tree} {name : Text} {path : List Nat}
    (hform : form.everywhere Tree.keepsLocalNames = true) (hbound : s.isShadowed name = true)
    (hescaped : s.isEscaped name = false)
    (hrun : (convert form).runFrom s = (.ok result, s'))
    (hpath : form.at? path = some (.sym name)) : result.at? path = some (.sym name) := by
  have hC := Comparison.lawful_keepsLocalNames s s'.tables
  have hadmits := Comparison.admits_keepsLocalNames s s'.tables
  have hrenamed := Comparison.renamed_of_run hC hadmits hform hrun
  rcases hrenamed.at? hpath with ⟨part, hpart, hsymbol⟩
  cases hsymbol with
  | constant h => cases h
  | sym h =>
      rcases h with rfl | ⟨hescaped', -⟩ | ⟨-, -, -, hdefines⟩
      · exact hpart
      · rw [hescaped] at hescaped'
        cases hescaped'
      -- a bound name is qualified by definitions only, and there are none
      · exact (hdefines hbound).elim

/-- A session in which a form around binds a name that the namespace owns. -/
def Session.shadowing : Session :=
  { Session.unset "p-" with
    tables := { variableNames := ["f"], functionNames := ["f", "g"] }
    frames := [["f"]] }

/-- The owned name stays as the head of a call and as a variable, where it is bound. -/
theorem convert_keeps_local_call :
    ∃ s' result,
      (convert (.call "g" [.call "f" [.sym "f"]])).runFrom .shadowing = (.ok result, s') ∧
      result.at? [1, 1] = some (.sym "f") := by
  have hrun : (convert (.call "g" [.call "f" [.sym "f"]])).runFrom .shadowing =
      (.ok (.call "p-g" [.call "f" [.sym "f"]]),
        ((convert (.call "g" [.call "f" [.sym "f"]])).runFrom .shadowing).2) := rfl
  exact ⟨_, _, hrun, convert_keeps_local (by decide) (by decide) (by decide) hrun rfl⟩

end LispNamespace
