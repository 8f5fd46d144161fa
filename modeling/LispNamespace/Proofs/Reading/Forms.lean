import LispNamespace.Proofs.Reading.Grammar

/-!
# Reading all forms

The reader of one form, of all forms and of a text with exactly one, each described by the grammar
of forms. They share one fact: the tokens of a form are found in front of any others, so that a row
of tokens is taken apart into forms in one way only.
-/

namespace LispNamespace.Tree

variable [CharNames]

/-! ## One form -/

/-- The reader gives a form exactly if tokens that spell it stand in front. They are consumed. -/
theorem readForm_eq_some_iff {ts : List Token} {failure : Option ReadError} {form : Tree}
    {s : TokenStream} :
    readForm ⟨ts, failure⟩ = (.ok (some form), s) ↔
      ∃ us rest, ts = us ++ rest ∧ Spells us form ∧ s = ⟨rest, failure⟩ := by
  constructor
  · intro h
    exact spells_of_readOpened .nothing h
  · rintro ⟨us, rest, rfl, hform, rfl⟩
    have hstack : Awaits [] us := trivial
    exact readOpened_of_spells hform hstack failure rest

/-- The forms in front of two equal rows of tokens are equal, and so is what follows them. -/
theorem Spells.unique {ts us rest others : List Token} {form tree : Tree} (h : Spells ts form)
    (htree : Spells us tree) (heq : ts ++ rest = us ++ others) : form = tree ∧ rest = others := by
  have hform : readForm ⟨ts ++ rest, none⟩ = (.ok (some form), ⟨rest, none⟩) :=
    readForm_eq_some_iff.2 ⟨ts, rest, rfl, h, rfl⟩
  have hother : readForm ⟨ts ++ rest, none⟩ = (.ok (some tree), ⟨others, none⟩) :=
    readForm_eq_some_iff.2 ⟨us, others, heq, htree, rfl⟩
  rw [hform] at hother
  cases hother
  exact ⟨rfl, rfl⟩

omit [CharNames] in
/-- A form that is completed inside another one leaves that one open. -/
theorem complete_ne_nil {form : Tree} {stack stack' : List Opened}
    (h : complete form stack = .inr stack') : stack' ≠ [] := by
  induction stack generalizing form with
  | nil => cases h
  | cons o outer ih =>
      cases o with
      | shorthand head => exact ih h
      | list items => cases h; exact List.cons_ne_nil _ _
      | dotted items => cases h; exact List.cons_ne_nil _ _
      | tailed items tail => cases h; exact List.cons_ne_nil _ _
      | vec items => cases h; exact List.cons_ne_nil _ _

theorem beginForm_ne_nil {t : Token} {stack stack' : List Opened}
    (h : beginForm t stack = .opened stack') : stack' ≠ [] := by
  unfold beginForm at h
  split at h
  · cases h
  · cases h
  · split at h <;> cases h <;> exact List.cons_ne_nil _ _

/-- A step that opens something or goes on leaves something open. -/
theorem step_ne_nil {t : Token} {stack stack' : List Opened}
    (h : step t stack = .opened stack') : stack' ≠ [] := by
  unfold step at h
  split at h
  · split at h
    · cases h
    · split at h
      · split at h <;> cases h
        exact List.cons_ne_nil _ _
      · exact beginForm_ne_nil h
  · split at h <;> cases h
  · split at h
    · cases h
    · split at h
      · cases h
      · exact beginForm_ne_nil h
  · exact beginForm_ne_nil h

/-- The reader finds nothing only where nothing is left. -/
theorem eq_nil_of_readOpened {stack : List Opened} {failure : Option ReadError} {ts : List Token}
    {s : TokenStream} (h : readOpened stack failure ts = (.ok none, s)) :
    stack = [] ∧ ts = [] ∧ failure = none := by
  -- once something is open, reading cannot end without a form or an error
  induction ts generalizing stack with
  | nil =>
      unfold readOpened at h
      split at h
      · cases h
      · split at h
        · cases h
        · next hend =>
            refine ⟨?_, rfl, rfl⟩
            unfold endError? at hend
            split at hend <;> first | rfl | cases hend
  | cons t rest ih =>
      unfold readOpened at h
      split at h
      · cases h
      · cases h
      · next stack' hstep => exact absurd (ih h).1 (step_ne_nil hstep)
      · split at h
        · cases h
        · next stack' hcomplete => exact absurd (ih h).1 (complete_ne_nil hcomplete)

/-! ## All forms -/

/-- Enough rounds read exactly the forms that the tokens spell, if nothing goes wrong after the
last token. -/
theorem readForms_eq_ok_iff {n : Nat} {ts : List Token} {failure : Option ReadError}
    (hn : ts.length < n) {forms : List Tree} :
    (readForms n ⟨ts, failure⟩).1 = .ok forms ↔ failure = none ∧ SpellsAll false ts forms := by
  induction n generalizing ts forms with
  | zero => exact absurd hn (Nat.not_lt_zero _)
  | succ n ih =>
      constructor
      · intro h
        unfold readForms at h
        split at h
        · cases h
        · next s hread =>
            rcases eq_nil_of_readOpened hread with ⟨-, rfl, rfl⟩
            cases h
            exact ⟨rfl, .nil⟩
        · next form s hread =>
            rcases readForm_eq_some_iff.1 hread with ⟨us, rest, rfl, hform, rfl⟩
            -- a form takes at least one token, so the rounds outlast the forms
            have hpos := hform.length_pos
            have hrest : rest.length < n := by
              rw [List.length_append] at hn
              omega
            split at h
            · next others s hothers =>
                cases h
                rcases (ih hrest).1 (congrArg Prod.fst hothers) with ⟨hfailure, hspells⟩
                exact ⟨hfailure, .cons (fun h => nomatch h) hform hspells⟩
            · cases h
      · rintro ⟨rfl, hspells⟩
        cases hspells with
        | nil => rfl
        | @cons _ us rest form others hdot hform hothers =>
            have hpos := hform.length_pos
            have hrest : rest.length < n := by
              rw [List.length_append] at hn
              omega
            have hread : readForm ⟨us ++ rest, none⟩ = (.ok (some form), ⟨rest, none⟩) :=
              readForm_eq_some_iff.2 ⟨us, rest, rfl, hform, rfl⟩
            have hforms := (ih hrest).2 ⟨rfl, hothers⟩
            simp only [readForms, hread]
            split
            · next others' s heq =>
                rw [heq] at hforms
                cases hforms
                rfl
            · next e s heq =>
                rw [heq] at hforms
                cases hforms

/-- The forms of a text are those that its tokens spell. -/
theorem readAll_eq_ok_iff {source : Text} {forms : List Tree} :
    readAll source = .ok forms ↔
      (Token.lex source).failure = none ∧ SpellsAll false (Token.lex source).tokens forms :=
  readForms_eq_ok_iff (Nat.lt_succ_self _)

/-- A text is read as one form exactly if its tokens spell that form. -/
theorem readOne_eq_ok_iff {source : Text} {form : Tree} :
    readOne source = .ok form ↔
      (Token.lex source).failure = none ∧ Spells (Token.lex source).tokens form := by
  have hone : readOne source = .ok form ↔ readAll source = .ok [form] := by
    unfold readOne
    split <;> simp_all
  rw [hone, readAll_eq_ok_iff]
  refine and_congr_right fun _ => ⟨fun h => ?_, fun h => ?_⟩
  · generalize (Token.lex source).tokens = ts at h
    cases h with
    | cons hdot hform hrest =>
        cases hrest
        rwa [List.append_nil]
  · have hone : SpellsAll false ((Token.lex source).tokens ++ []) [form] :=
      .cons (fun h => nomatch h) h .nil
    rwa [List.append_nil] at hone

end LispNamespace.Tree
