import LispNamespace.Tree.OfTokens

/-!
# The grammar of forms

What rows of tokens spell a form, said as a grammar, and the reader of forms shown to accept what
the grammar derives and nothing else. The reader decides with each token, so the tokens of a form
are found in front of any others, and no two forms are spelled alike.
-/

namespace LispNamespace

/-! ## The grammar -/

namespace Token

/-- Whether the token is a shorthand. -/
def isShorthand (t : Token) : Bool :=
  match t.kind with
  | .functionQuote | .quote | .unquote => true
  | _ => false

/-- The head of the list that a shorthand abbreviates. -/
def longHead (t : Token) : Text := (longForm? t.text).getD t.text

/-- Whether the first of the tokens is a dot. -/
def beginsWithDot (ts : List Token) : Bool := ts.head?.any isDot

end Token

open Token

namespace Tree

variable [CharNames]

mutual

/-- The tokens spell the form. -/
inductive Spells : List Token → Tree → Prop where
  | atom {t : Token} {form : Tree} (h : Atom.ofToken? t = some (.ok form)) : Spells [t] form
  | shorthand {t : Token} {ts : List Token} {form : Tree} (ht : t.isShorthand = true)
      (h : Spells ts form) : Spells (t :: ts) (.list [.sym t.longHead, form])
  | list {first last : Token} {ts : List Token} {items : List Tree}
      (hfirst : first.kind = .openParen) (h : SpellsAll true ts items)
      (hlast : last.kind = .closeParen) : Spells (first :: (ts ++ [last])) (ofList items)
  | dot {first point last : Token} {ts us : List Token} {items : List Tree} {tail : Tree}
      (hfirst : first.kind = .openParen) (h : SpellsAll true ts items) (hitems : items ≠ [])
      (hpoint : point.isDot = true) (htail : Spells us tail) (hlast : last.kind = .closeParen) :
      Spells (first :: (ts ++ point :: (us ++ [last]))) (.dot items tail)
  | vec {first last : Token} {ts : List Token} {items : List Tree}
      (hfirst : first.kind = .openBracket) (h : SpellsAll false ts items)
      (hlast : last.kind = .closeBracket) : Spells (first :: (ts ++ [last])) (.vec items)

/-- The tokens spell the forms one after the other. Inside a list, where a dot has a meaning of its
own, no form begins with one. -/
inductive SpellsAll : Bool → List Token → List Tree → Prop where
  | nil {inList : Bool} : SpellsAll inList [] []
  | cons {inList : Bool} {ts us : List Token} {form : Tree} {forms : List Tree}
      (hdot : inList = true → beginsWithDot ts = false) (first : Spells ts form)
      (rest : SpellsAll inList us forms) : SpellsAll inList (ts ++ us) (form :: forms)

end

/-! ## First tokens -/

/-- A form begins with some token, and with none that closes. -/
theorem Spells.eq_cons {ts : List Token} {form : Tree} (h : Spells ts form) :
    ∃ t us, ts = t :: us ∧ t.kind ≠ .closeParen ∧ t.kind ≠ .closeBracket := by
  cases h with
  | @atom t form h =>
      rcases t with ⟨kind, text⟩
      refine ⟨_, [], rfl, ?_, ?_⟩
      · rintro rfl
        cases h
      · rintro rfl
        cases h
  | @shorthand t ts form ht h =>
      rcases t with ⟨kind, text⟩
      refine ⟨_, ts, rfl, ?_, ?_⟩
      · rintro rfl
        cases ht
      · rintro rfl
        cases ht
  | list hfirst h hlast => exact ⟨_, _, rfl, by simp [hfirst], by simp [hfirst]⟩
  | dot hfirst h hitems hpoint htail hlast => exact ⟨_, _, rfl, by simp [hfirst], by simp [hfirst]⟩
  | vec hfirst h hlast => exact ⟨_, _, rfl, by simp [hfirst], by simp [hfirst]⟩

theorem Spells.length_pos {ts : List Token} {form : Tree} (h : Spells ts form) :
    0 < ts.length := by
  rcases h.eq_cons with ⟨t, us, rfl, -⟩
  exact Nat.succ_pos us.length

omit [CharNames] in
/-- Only a token of the kind of symbols is a dot. -/
theorem kind_of_isDot {t : Token} (h : t.isDot = true) : t.kind = .symbol := by
  unfold isDot at h
  simp only [Bool.and_eq_true, beq_iff_eq] at h
  exact h.1

/-- What begins with a shorthand is the list that the shorthand abbreviates. -/
theorem Spells.of_shorthand {t : Token} {ts : List Token} {form : Tree} (h : Spells (t :: ts) form)
    (ht : t.isShorthand = true) :
    ∃ inner, Spells ts inner ∧ form = .list [.sym t.longHead, inner] := by
  rcases t with ⟨kind, text⟩
  cases h with
  | atom hatom => cases kind <;> contradiction
  | shorthand _ h => exact ⟨_, h, rfl⟩
  | list hfirst =>
      cases hfirst
      cases ht
  | dot hfirst =>
      cases hfirst
      cases ht
  | vec hfirst =>
      cases hfirst
      cases ht

/-- What begins with an opening parenthesis is a list or a dotted list. -/
theorem Spells.of_openParen {t : Token} {ts : List Token} {form : Tree} (h : Spells (t :: ts) form)
    (ht : t.kind = .openParen) :
    (∃ inner last items, ts = inner ++ [last] ∧ SpellsAll true inner items ∧
        last.kind = .closeParen ∧ form = ofList items) ∨
      ∃ inner point us last items tail, ts = inner ++ point :: (us ++ [last]) ∧
        SpellsAll true inner items ∧ point.isDot = true ∧ Spells us tail ∧
          form = .dot items tail := by
  rcases t with ⟨kind, text⟩
  cases ht
  cases h with
  | atom hatom => cases hatom
  | shorthand hshorthand => cases hshorthand
  | list _ h hlast => exact .inl ⟨_, _, _, rfl, h, hlast, rfl⟩
  | dot _ h _ hpoint htail => exact .inr ⟨_, _, _, _, _, _, rfl, h, hpoint, htail, rfl⟩
  | vec hfirst => cases hfirst

/-- What begins with an opening bracket is a vector. -/
theorem Spells.of_openBracket {t : Token} {ts : List Token} {form : Tree}
    (h : Spells (t :: ts) form) (ht : t.kind = .openBracket) :
    ∃ inner last items, ts = inner ++ [last] ∧ SpellsAll false inner items ∧
      form = .vec items := by
  rcases t with ⟨kind, text⟩
  cases ht
  cases h with
  | atom hatom => cases hatom
  | shorthand hshorthand => cases hshorthand
  | list hfirst => cases hfirst
  | dot hfirst => cases hfirst
  | vec _ h => exact ⟨_, _, _, rfl, h, rfl⟩

/-! ## The reader accepts what the grammar derives -/

/-- Goes on reading after a form is complete. -/
def finish (form : Tree) (stack : List Opened) (failure : Option ReadError) (ts : List Token) :
    Except ReadError (Option Tree) × TokenStream :=
  match complete form stack with
  | .inl tree => (.ok (some tree), ⟨ts, failure⟩)
  | .inr stack => readOpened stack failure ts

/-- Whether a form may be spelled by the given tokens where the given forms are open. -/
def Awaits (stack : List Opened) (ts : List Token) : Prop :=
  match stack with
  | .tailed _ _ :: _ => False
  | .list _ :: _ => beginsWithDot ts = false
  | _ => True

/-- A list or a vector that has been opened. -/
def group (inList : Bool) (items : List Tree) : Opened :=
  if inList then .list items else .vec items

/-- A form that is complete in a list or a vector is its next item. -/
theorem finish_group (inList : Bool) (form : Tree) (items : List Tree) (outer : List Opened)
    (failure : Option ReadError) (ts : List Token) :
    finish form (group inList items :: outer) failure ts =
      readOpened (group inList (form :: items) :: outer) failure ts := by
  cases inList <;> rfl

/-- Where a form is awaited, a token that closes nothing begins one. -/
theorem step_of_awaits {stack : List Opened} {t : Token} {ts : List Token}
    (h : Awaits stack (t :: ts)) (hparen : t.kind ≠ .closeParen)
    (hbracket : t.kind ≠ .closeBracket) : step t stack = beginForm t stack := by
  unfold step
  unfold Awaits at h
  split
  · simp only [beq_iff_eq]
    have hdot : t.isDot = false := by simpa [beginsWithDot] using h
    rw [if_neg hparen, if_neg (Bool.eq_false_iff.1 hdot)]
  · exact h.elim
  · simp only [beq_iff_eq]
    rw [if_neg hbracket, if_neg hparen]
  · rfl

/-- Where a form may stand, its first token begins a form. -/
theorem step_of_spells {stack : List Opened} {t : Token} {ts : List Token} {form : Tree}
    (h : Spells (t :: ts) form) (hstack : Awaits stack (t :: ts)) :
    step t stack = beginForm t stack := by
  rcases h.eq_cons with ⟨first, others, hts, hparen, hbracket⟩
  cases hts
  exact step_of_awaits hstack hparen hbracket

omit [CharNames] in
/-- In a vector any form may stand, and in a list any one that does not begin with a dot. -/
theorem awaits_group {inList : Bool} {items : List Tree} {outer : List Opened} {ts : List Token}
    (h : inList = true → beginsWithDot ts = false) : Awaits (group inList items :: outer) ts := by
  cases inList with
  | true => exact h rfl
  | false => trivial

/-- A shorthand opens the list that it abbreviates. -/
theorem beginForm_of_isShorthand {t : Token} (h : t.isShorthand = true) (stack : List Opened) :
    beginForm t stack = .opened (.shorthand t.longHead :: stack) := by
  rcases t with ⟨kind, text⟩
  cases kind <;> first | contradiction | rfl

/-- A parenthesis opens a list, and a bracket a vector. -/
theorem beginForm_of_openParen {t : Token} (h : t.kind = .openParen) (stack : List Opened) :
    beginForm t stack = .opened (.list [] :: stack) := by
  rcases t with ⟨kind, text⟩
  cases h
  rfl

theorem beginForm_of_openBracket {t : Token} (h : t.kind = .openBracket) (stack : List Opened) :
    beginForm t stack = .opened (.vec [] :: stack) := by
  rcases t with ⟨kind, text⟩
  cases h
  rfl

/-- After a token that opens something, reading goes on inside. -/
theorem readOpened_of_opened {t : Token} {stack stack' : List Opened}
    (h : step t stack = .opened stack') (failure : Option ReadError) (rest : List Token) :
    readOpened stack failure (t :: rest) = readOpened stack' failure rest := by
  rw [readOpened, h]

/-- After a token that is a form, reading goes on after the form. -/
theorem readOpened_of_form {t : Token} {form : Tree} {stack stack' : List Opened}
    (h : step t stack = .form form stack') (failure : Option ReadError) (rest : List Token) :
    readOpened stack failure (t :: rest) = finish form stack' failure rest := by
  rw [readOpened, h]
  rfl

mutual

/-- In front of any tokens, and whatever is open, the tokens of a form are read as that form. -/
theorem readOpened_of_spells {ts : List Token} {form : Tree} (h : Spells ts form)
    {stack : List Opened} (hstack : Awaits stack ts) (failure : Option ReadError)
    (rest : List Token) :
    readOpened stack failure (ts ++ rest) = finish form stack failure rest := by
  match h with
  | @Spells.atom _ t form hatom =>
      have hstep := step_of_spells (.atom hatom) hstack
      refine readOpened_of_form ?_ failure rest
      rw [hstep, beginForm, hatom]
  | @Spells.shorthand _ t others form ht h =>
      have hstep := step_of_spells (.shorthand ht h) hstack
      rw [beginForm_of_isShorthand ht] at hstep
      have hinner : Awaits (.shorthand t.longHead :: stack) others := trivial
      exact (readOpened_of_opened hstep ..).trans (readOpened_of_spells h hinner failure rest)
  | @Spells.list _ first last inner items hfirst h hlast =>
      have hstep := step_of_spells (.list hfirst h hlast) hstack
      rw [beginForm_of_openParen hfirst] at hstep
      have hitems := readOpened_of_spellsAll h [] stack failure (last :: rest)
      calc readOpened stack failure (first :: (inner ++ [last]) ++ rest)
          = readOpened (.list [] :: stack) failure (inner ++ last :: rest) := by
            rw [List.cons_append, readOpened_of_opened hstep, List.append_assoc, List.cons_append,
              List.nil_append]
        _ = readOpened (.list items.reverse :: stack) failure (last :: rest) := by
            simpa [group] using hitems
        _ = finish (ofList items) stack failure rest :=
            readOpened_of_form (by simp [step, hlast]) failure rest
  | @Spells.dot _ first point last inner after items tail hfirst h hitems hpoint htail hlast =>
      have hstep := step_of_spells (.dot hfirst h hitems hpoint htail hlast) hstack
      rw [beginForm_of_openParen hfirst] at hstep
      have hbefore := readOpened_of_spellsAll h [] stack failure (point :: (after ++ last :: rest))
      have hkind : point.kind = .symbol := kind_of_isDot hpoint
      have hafter : Awaits (.dotted items.reverse :: stack) after := trivial
      calc readOpened stack failure (first :: (inner ++ point :: (after ++ [last])) ++ rest)
          = readOpened (.list [] :: stack) failure (inner ++ point :: (after ++ last :: rest)) := by
            rw [List.cons_append, readOpened_of_opened hstep]
            simp
        _ = readOpened (.list items.reverse :: stack) failure
              (point :: (after ++ last :: rest)) := by
            simpa [group] using hbefore
        _ = readOpened (.dotted items.reverse :: stack) failure (after ++ last :: rest) :=
            readOpened_of_opened (by simp [step, hkind, hpoint, hitems]) ..
        _ = readOpened (.tailed items.reverse tail :: stack) failure (last :: rest) :=
            readOpened_of_spells htail hafter failure (last :: rest)
        _ = finish (.dot items tail) stack failure rest :=
            readOpened_of_form (by simp [step, hlast]) failure rest
  | @Spells.vec _ first last inner items hfirst h hlast =>
      have hstep := step_of_spells (.vec hfirst h hlast) hstack
      rw [beginForm_of_openBracket hfirst] at hstep
      have hitems := readOpened_of_spellsAll h [] stack failure (last :: rest)
      calc readOpened stack failure (first :: (inner ++ [last]) ++ rest)
          = readOpened (.vec [] :: stack) failure (inner ++ last :: rest) := by
            rw [List.cons_append, readOpened_of_opened hstep, List.append_assoc, List.cons_append,
              List.nil_append]
        _ = readOpened (.vec items.reverse :: stack) failure (last :: rest) := by
            simpa [group] using hitems
        _ = finish (.vec items) stack failure rest :=
            readOpened_of_form (by simp [step, hlast]) failure rest
-- a row of forms may be as long as its first form, which the factor makes room for
termination_by 2 * ts.length
decreasing_by
  all_goals
    simp only [List.length_cons, List.length_append]
    omega

/-- The forms that stand one after the other become elements of the group that is open. -/
theorem readOpened_of_spellsAll {inList : Bool} {ts : List Token} {forms : List Tree}
    (h : SpellsAll inList ts forms) (items : List Tree) (outer : List Opened)
    (failure : Option ReadError) (rest : List Token) :
    readOpened (group inList items :: outer) failure (ts ++ rest) =
      readOpened (group inList (forms.reverse ++ items) :: outer) failure rest := by
  match h with
  | .nil => rfl
  | @SpellsAll.cons _ _ ts us form forms hdot first others =>
      calc readOpened (group inList items :: outer) failure (ts ++ us ++ rest)
          = readOpened (group inList items :: outer) failure (ts ++ (us ++ rest)) := by
            rw [List.append_assoc]
        _ = finish form (group inList items :: outer) failure (us ++ rest) :=
            readOpened_of_spells first (awaits_group hdot) failure (us ++ rest)
        _ = readOpened (group inList (form :: items) :: outer) failure (us ++ rest) :=
            finish_group ..
        _ = readOpened (group inList (forms.reverse ++ form :: items) :: outer) failure rest :=
            readOpened_of_spellsAll others (form :: items) outer failure rest
        _ = readOpened (group inList ((form :: forms).reverse ++ items) :: outer) failure rest := by
            simp
termination_by 2 * ts.length + 1
decreasing_by
  · simp only [List.length_append]
    omega
  · have hlength : 0 < ts.length := first.length_pos
    simp only [List.length_append]
    omega

end

/-! ## What is open has been spelled so far -/

/-- A form that is added after the others is spelled after them. -/
theorem SpellsAll.snoc {inList : Bool} {ts us : List Token} {forms : List Tree} {form : Tree}
    (h : SpellsAll inList ts forms) (hdot : inList = true → beginsWithDot us = false)
    (hlast : Spells us form) : SpellsAll inList (ts ++ us) (forms ++ [form]) := by
  induction forms generalizing ts with
  | nil =>
      cases h
      have hone := SpellsAll.cons hdot hlast .nil
      rwa [List.append_nil] at hone
  | cons first others ih =>
      cases h with
      | @cons _ ts vs _ _ hfirst hform hrest =>
          rw [List.append_assoc]
          exact .cons hfirst hform (ih hrest)

/-- The token has opened the form, and the tokens after it have spelled what it holds so far. -/
def Opened.Holds (t : Token) (ts : List Token) : Opened → Prop
  | .shorthand head => t.isShorthand = true ∧ head = t.longHead ∧ ts = []
  | .list items => t.kind = .openParen ∧ SpellsAll true ts items.reverse
  | .dotted items =>
      t.kind = .openParen ∧ items ≠ [] ∧
        ∃ us point, ts = us ++ [point] ∧ SpellsAll true us items.reverse ∧ point.isDot = true
  | .tailed items tail =>
      t.kind = .openParen ∧ items ≠ [] ∧
        ∃ us point vs, ts = us ++ point :: vs ∧ SpellsAll true us items.reverse ∧
          point.isDot = true ∧ Spells vs tail
  | .vec items => t.kind = .openBracket ∧ SpellsAll false ts items.reverse

/-- The tokens have opened the forms and spelled what they hold so far, each where it was
awaited. -/
inductive Pending : List Opened → List Token → Prop where
  | nothing : Pending [] []
  | opened {stack : List Opened} {o : Opened} {before ts : List Token} {t : Token}
      (houter : Pending stack before) (hstack : Awaits stack [t]) (h : o.Holds t ts) :
      Pending (o :: stack) (before ++ t :: ts)

omit [CharNames] in
/-- Only the first token of a form decides whether the form may stand somewhere. -/
theorem Awaits.cons {stack : List Opened} {t : Token} (h : Awaits stack [t]) (ts : List Token) :
    Awaits stack (t :: ts) := by
  unfold Awaits at h ⊢
  split
  · exact h
  · exact h
  · trivial

/-- A completed form becomes part of the innermost open one, and shorthands are completed with
it. -/
theorem Pending.complete {stack : List Opened} {before : List Token} (h : Pending stack before)
    {us : List Token} {form : Tree} (hform : Spells us form) (hus : Awaits stack us) :
    match Tree.complete form stack with
    | .inl tree => Spells (before ++ us) tree
    | .inr stack => Pending stack (before ++ us) := by
  induction h generalizing us form with
  | nothing => exact hform
  | @opened stack o before ts t houter hstack h ih =>
      -- only a shorthand is complete with the form after it; the others take the form in
      rw [List.append_assoc, List.cons_append]
      cases o with
      | shorthand head =>
          rcases h with ⟨ht, rfl, rfl⟩
          exact ih (.shorthand ht hform) (hstack.cons us)
      | list items =>
          rcases h with ⟨ht, hitems⟩
          refine .opened houter hstack ⟨ht, ?_⟩
          rw [List.reverse_cons]
          exact hitems.snoc (fun _ => hus) hform
      | dotted items =>
          rcases h with ⟨ht, hne, vs, point, rfl, hitems, hpoint⟩
          refine .opened houter hstack ⟨ht, hne, vs, point, us, ?_, hitems, hpoint, hform⟩
          rw [List.append_assoc, List.cons_append, List.nil_append]
      | tailed items tail => exact hus.elim
      | vec items =>
          rcases h with ⟨ht, hitems⟩
          refine .opened houter hstack ⟨ht, ?_⟩
          rw [List.reverse_cons]
          exact hitems.snoc (fun h => nomatch h) hform

/-! ## The reader derives nothing else -/

/-- What a step makes of the tokens up to the one it consumes: the tokens of the form that it
completes are the last of them. -/
def Step.Spelled (tokens : List Token) : Step → Prop
  | .form tree stack =>
      ∃ before us, tokens = before ++ us ∧ Pending stack before ∧ Spells us tree ∧ Awaits stack us
  | .opened stack => Pending stack tokens
  | .refused _ | .spoiled _ => True

/-- The first token of a form completes it, opens it, or spells nothing. -/
theorem Pending.beginForm {stack : List Opened} {before : List Token} (h : Pending stack before)
    {t : Token} (ht : Awaits stack [t]) :
    (Tree.beginForm t stack).Spelled (before ++ [t]) := by
  unfold Tree.beginForm
  split
  · next form hatom => exact ⟨before, [t], rfl, h, .atom hatom, ht⟩
  · trivial
  · split
    · next hkind => exact .opened h ht ⟨hkind, .nil⟩
    · next hkind => exact .opened h ht ⟨hkind, .nil⟩
    · trivial
    · trivial
    · next hatom hparen hbracket hcloseParen hcloseBracket =>
        refine .opened h ht ⟨?_, rfl, rfl⟩
        rcases t with ⟨kind, text⟩
        cases kind <;> first | rfl | contradiction

/-- One token keeps what is pending: it has closed or continued the innermost form, or begun another
one in it. -/
theorem Pending.step {stack : List Opened} {before : List Token} (h : Pending stack before)
    (t : Token) : (Tree.step t stack).Spelled (before ++ [t]) := by
  cases h with
  | nothing => exact Pending.nothing.beginForm trivial
  | @opened stack o before ts first houter hstack ho =>
      have hpending : Pending (o :: stack) (before ++ first :: ts) := .opened houter hstack ho
      cases o with
      | shorthand head => exact hpending.beginForm trivial
      | list items =>
          -- a parenthesis closes the list, a dot announces its tail, all else begins an element
          rcases ho with ⟨hfirst, hitems⟩
          simp only [Tree.step, beq_iff_eq]
          split
          · next hclose =>
              refine ⟨before, first :: (ts ++ [t]), by simp, houter, ?_, hstack.cons _⟩
              exact .list hfirst hitems hclose
          · split
            · next hdot =>
                split
                · trivial
                · next hne =>
                    have hpoint : Opened.Holds first (ts ++ [t]) (.dotted items) :=
                      ⟨hfirst, fun hnil => hne (hnil ▸ rfl), ts, t, rfl, hitems, hdot⟩
                    have hopened := Pending.opened houter hstack hpoint
                    rwa [← List.cons_append, ← List.append_assoc] at hopened
            · next hdot =>
                have ht : Awaits (.list items :: stack) [t] := by simpa [Awaits, beginsWithDot] using hdot
                exact hpending.beginForm ht
      | dotted items => exact hpending.beginForm trivial
      | tailed items tail =>
          -- after the tail, only the closing parenthesis is left
          rcases ho with ⟨hfirst, hne, us, point, vs, rfl, hitems, hpoint, htail⟩
          simp only [Tree.step, beq_iff_eq]
          split
          · next hclose =>
              refine ⟨before, first :: (us ++ point :: (vs ++ [t])), by simp, houter, ?_,
                hstack.cons _⟩
              exact .dot hfirst hitems (by simpa using hne) hpoint htail hclose
          · trivial
      | vec items =>
          rcases ho with ⟨hfirst, hitems⟩
          simp only [Tree.step, beq_iff_eq]
          split
          · next hclose =>
              refine ⟨before, first :: (ts ++ [t]), by simp, houter, ?_, hstack.cons _⟩
              exact .vec hfirst hitems hclose
          · split
            · trivial
            · exact hpending.beginForm trivial

/-- The form that is read is spelled by the tokens that were consumed for it. -/
theorem spells_of_readOpened {stack : List Opened} {before ts : List Token}
    (h : Pending stack before) {failure : Option ReadError} {form : Tree} {s : TokenStream}
    (hread : readOpened stack failure ts = (.ok (some form), s)) :
    ∃ us rest, ts = us ++ rest ∧ Spells (before ++ us) form ∧ s = ⟨rest, failure⟩ := by
  induction ts generalizing stack before with
  | nil =>
      unfold readOpened at hread
      split at hread
      · cases hread
      · split at hread <;> cases hread
  | cons t rest ih =>
      have hstep := h.step t
      unfold readOpened at hread
      split at hread
      · cases hread
      · cases hread
      · next stack' heq =>
          rw [heq] at hstep
          rcases ih hstep hread with ⟨us, others, rfl, hform, rfl⟩
          refine ⟨t :: us, others, rfl, ?_, rfl⟩
          rwa [List.append_assoc] at hform
      · next tree stack' heq =>
          rw [heq] at hstep
          -- the token has completed a form, and with it perhaps the shorthands around it
          rcases hstep with ⟨pre, us, hus, hpending, htree, hawaits⟩
          have hcomplete := hpending.complete htree hawaits
          rw [← hus] at hcomplete
          split at hread
          · next tree' hinl =>
              rw [hinl] at hcomplete
              cases hread
              exact ⟨[t], rest, rfl, hcomplete, rfl⟩
          · next stack' hinr =>
              rw [hinr] at hcomplete
              rcases ih hcomplete hread with ⟨us, others, rfl, hform, rfl⟩
              refine ⟨t :: us, others, rfl, ?_, rfl⟩
              rwa [List.append_assoc] at hform

end Tree

end LispNamespace
