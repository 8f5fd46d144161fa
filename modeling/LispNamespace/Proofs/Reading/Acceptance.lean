import LispNamespace.Proofs.Reading.Forms
import LispNamespace.Proofs.Reading.Lexing

/-!
# What the reader of all forms accepts

A row of tokens of a text is read exactly if the grammar of forms derives it, the forms that are read
are those that are derived, and no others are. A row that is not derived is refused for its syntax,
provided that its strings and characters denote something.
-/

namespace LispNamespace

open Text

/-! ## Tokens of a text -/

namespace Token

/-- Whether the token is no atom, or an atom that denotes a tree. -/
def decodes [CharNames] (t : Token) : Bool :=
  match Atom.ofToken? t with
  | some (.error _) => false
  | _ => true

/-- A token that begins a text begins with its own characters: a shorthand is one of those in the
table. -/
theorem isSome_longForm?_of_first? {c n : Nat} {cs : Text} {kind : TokenKind}
    (h : first? c cs = some (.token kind n))
    (hkind : (Token.mk kind ((c :: cs).take n)).isShorthand = true) :
    (longForm? ((c :: cs).take n)).isSome = true := by
  unfold first? at h
  split at h
  · next single hsingle =>
    cases h
    unfold singleKind? at hsingle
    split at hsingle <;> cases hsingle <;> first | rfl | cases hkind
  · split at h
    -- a comment
    · cases h
    -- the hole of a template, spliced or not
    · cases h
      cases cs with
      | nil => rfl
      | cons d cs =>
          by_cases hd : d = atSign
          · subst hd
            rfl
          · rw [if_neg (by simpa using hd)]
            rfl
    · rcases Option.map_eq_some_iff.1 h with ⟨m, -, heq⟩
      cases heq
      cases hkind
    · split at h <;> cases h <;> cases hkind
    · split at h
      · next hquote =>
        cases h
        cases cs with
        | nil => cases hquote
        | cons d cs =>
            rw [show d = apostrophe by simpa using hquote]
            rfl
      · split at h <;> cases h <;> cases hkind
    · cases h
      cases hkind

/-- The shorthands of a text are those in the table. -/
theorem longForm?_of_mem_lex {source : Text} {t : Token} (h : t ∈ (lex source).tokens)
    (ht : t.isShorthand = true) : longForm? t.text = some t.longHead := by
  rcases first?_of_mem_lexFrom h with ⟨c, cs, n, -, hfirst, htext⟩
  have hsome : (longForm? t.text).isSome = true := by
    rw [htext]
    refine isSome_longForm?_of_first? hfirst ?_
    rwa [← htext]
  rcases Option.isSome_iff_exists.1 hsome with ⟨head, hhead⟩
  unfold longHead
  rw [hhead]
  rfl

end Token

/-! ## Causes of refusal -/

/-- Whether a text is refused for its syntax. A code escape may denote no character, and a text that
is no shorthand may be looked up as one. -/
def ReadError.isSyntax : ReadError → Bool
  | .codeBeyondRange | .codeOverflow | .notOneCharacter _ | .unknownShorthand _ => false
  | _ => true

namespace Tree

/-- What is wrong with forms that are open in the end is an error of syntax. -/
theorem isSyntax_of_endError? {stack : List Opened} {e : ReadError} (h : endError? stack = some e) :
    e.isSyntax = true := by
  unfold endError? at h
  split at h <;> cases h <;> rfl

variable [CharNames]

/-- A token that denotes something where a form should begin is not met with a fault of its own. -/
theorem isSyntax_of_beginForm {t : Token} {stack : List Opened} {e : ReadError}
    (ht : t.decodes = true) (h : beginForm t stack = .refused e ∨ beginForm t stack = .spoiled e) :
    e.isSyntax = true := by
  unfold Token.decodes at ht
  unfold beginForm at h
  split at h
  · rcases h with h | h <;> cases h
  · next heq =>
    rw [heq] at ht
    cases ht
  · split at h <;> rcases h with h | h <;> cases h <;> rfl

/-- A token that can be decoded is refused for an error of syntax only. -/
theorem isSyntax_of_step {t : Token} {stack : List Opened} {e : ReadError} (ht : t.decodes = true)
    (h : step t stack = .refused e ∨ step t stack = .spoiled e) : e.isSyntax = true := by
  unfold step at h
  split at h
  · split at h
    · rcases h with h | h <;> cases h
    · split at h
      · split at h <;> rcases h with h | h <;> cases h
        rfl
      · exact isSyntax_of_beginForm ht h
  · split at h <;> rcases h with h | h <;> cases h
    rfl
  · split at h
    · rcases h with h | h <;> cases h
    · split at h
      · rcases h with h | h <;> cases h
        rfl
      · exact isSyntax_of_beginForm ht h
  · exact isSyntax_of_beginForm ht h

/-- Whatever is open, tokens that denote something are refused for their syntax only. -/
theorem isSyntax_of_readOpened {stack : List Opened} {ts : List Token} {s : TokenStream}
    {e : ReadError} (hts : ∀ t ∈ ts, t.decodes = true)
    (h : readOpened stack none ts = (.error e, s)) : e.isSyntax = true := by
  -- a step may refuse the token or be spoiled by it, open or continue something, or complete a form
  induction ts generalizing stack with
  | nil =>
      unfold readOpened at h
      dsimp only at h
      split at h
      · next hend =>
        cases h
        exact isSyntax_of_endError? hend
      · cases h
  | cons t ts ih =>
      rcases List.forall_mem_cons.1 hts with ⟨ht, hts⟩
      unfold readOpened at h
      split at h
      · next hstep =>
        cases h
        exact isSyntax_of_step ht (.inl hstep)
      · next hstep =>
        cases h
        exact isSyntax_of_step ht (.inr hstep)
      · exact ih hts h
      · split at h
        · cases h
        · exact ih hts h

/-- So are all forms: what is left after a form are tokens from before. -/
theorem isSyntax_of_readForms {n : Nat} {ts : List Token} {e : ReadError}
    (hts : ∀ t ∈ ts, t.decodes = true) (h : (readForms n ⟨ts, none⟩).1 = .error e) :
    e.isSyntax = true := by
  induction n generalizing ts with
  | zero => cases h
  | succ n ih =>
      unfold readForms at h
      split at h
      · next hread =>
        cases h
        exact isSyntax_of_readOpened hts hread
      · cases h
      · next hread =>
        rcases readForm_eq_some_iff.1 hread with ⟨us, rest, rfl, -, rfl⟩
        have hrest : ∀ t ∈ rest, t.decodes = true := fun t ht => hts t (List.mem_append_right us ht)
        split at h
        · cases h
        · next hforms =>
          cases h
          exact ih hrest (congrArg Prod.fst hforms)

/-! ## The forms of a row of tokens -/

/-- The reader of all forms accepts its grammar and nothing else. Take the tokens of any text, and let
the strings and characters among them denote something. Then the reader gives some forms exactly if
the grammar derives them from all of the tokens; there is at most one row of forms that it derives;
and if there is none, the tokens are refused for their syntax. A shorthand is one of those in the
table, and it stands for the head that the table gives. A dot, where it is not that of a dotted list,
is the symbol of that name. -/
theorem readRest_exact {source : Text} {ts : List Token}
    (hlex : (Token.lex source).tokens = ts) (hdecodes : ∀ t ∈ ts, t.decodes = true) :
    (∀ forms, (readRest ⟨ts, none⟩).1 = .ok forms ↔ SpellsAll false ts forms) ∧
      (∀ forms others, SpellsAll false ts forms → SpellsAll false ts others → forms = others) ∧
      ((¬∃ forms, SpellsAll false ts forms) →
        ∃ e, (readRest ⟨ts, none⟩).1 = .error e ∧ e.isSyntax = true) ∧
      (∀ t ∈ ts, t.isShorthand = true → Token.longForm? t.text = some t.longHead) ∧
      (∀ t ∈ ts, t.isDot = true → Spells [t] (.sym ".")) := by
  -- reading on to the end is reading the forms one by one, with no failure of the lexer at the end
  have hread : ∀ forms, (readRest ⟨ts, none⟩).1 = .ok forms ↔ SpellsAll false ts forms := by
    intro forms
    have hforms : (readRest ⟨ts, none⟩).1 = .ok forms ↔ none = none ∧ SpellsAll false ts forms :=
      readForms_eq_ok_iff (Nat.lt_succ_self ts.length)
    exact hforms.trans (and_iff_right rfl)
  refine ⟨hread, ?_, ?_, ?_, ?_⟩
  · intro forms others hforms hothers
    have hboth := ((hread forms).2 hforms).symm.trans ((hread others).2 hothers)
    exact Except.ok.inj hboth
  · intro hnone
    cases hresult : (readRest ⟨ts, none⟩).1 with
    | ok forms => exact absurd ⟨forms, (hread forms).1 hresult⟩ hnone
    | error e => exact ⟨e, rfl, isSyntax_of_readForms hdecodes hresult⟩
  · rintro t ht hshorthand
    rw [← hlex] at ht
    exact Token.longForm?_of_mem_lex ht hshorthand
  · rintro ⟨kind, text⟩ - hdot
    unfold Token.isDot at hdot
    simp only [Bool.and_eq_true, beq_iff_eq] at hdot
    rcases hdot with ⟨rfl, rfl⟩
    exact .atom rfl

omit [CharNames] in
/-- After its dot, a list may end with the symbol that is named by a dot. -/
theorem readRest_exact_dots :
    @SpellsAll .few false (Token.lex "(a . .) '?\\N\x7bSNOWMAN\x7d").tokens
      [.dot [.sym "a"] (.sym "."), .list [.sym "quote", .char 0x2603 "?\\N\x7bSNOWMAN\x7d"]] := by
  have hlex : (Token.lex "(a . .) '?\\N\x7bSNOWMAN\x7d").tokens =
      [⟨.openParen, "("⟩, ⟨.symbol, "a"⟩, ⟨.symbol, "."⟩, ⟨.symbol, "."⟩, ⟨.closeParen, ")"⟩,
        ⟨.quote, "\x27"⟩, ⟨.char, "?\\N\x7bSNOWMAN\x7d"⟩] := by
    decide +kernel
  rw [hlex]
  exact ((@readRest_exact .few _ _ hlex (by decide)).1 _).1 rfl

end Tree

end LispNamespace
