import LispNamespace.Proofs.Reading.Lexing

/-!
# Tokens account for the whole text

Between tokens there are only gaps, of blanks and comments. So the text is what its tokens and the gaps
spell, one after the other, and no character is lost. The one text that does not begin with a token, a
comment or a blank is a double quote after which every further double quote is escaped.
-/

namespace LispNamespace.Token

open Text

/-! ## Gaps -/

/-- Blanks and whole lines of comment, as they stand in front of a token. -/
inductive IsGap : Text → Prop where
  | nil : IsGap []
  | blank {c : Nat} {gap : Text} (hblank : isBlank c = true) (h : IsGap gap) : IsGap (c :: gap)
  | comment {line gap : Text} (hline : newline ∉ line) (h : IsGap gap) :
      IsGap (semicolon :: line ++ newline :: gap)

/-- A gap at the end of the text, where a comment need not end its line. -/
inductive IsLastGap : Text → Prop where
  | gap {gap : Text} (h : IsGap gap) : IsLastGap gap
  | comment {gap line : Text} (h : IsGap gap) (hline : newline ∉ line) :
      IsLastGap (gap ++ semicolon :: line)

theorem IsGap.append {gap gap' : Text} (h : IsGap gap) (h' : IsGap gap') : IsGap (gap ++ gap') := by
  induction h with
  | nil => exact h'
  | blank hblank _ ih => exact .blank hblank ih
  | @comment line gap hline _ ih =>
      have hcomment := IsGap.comment hline ih
      simpa using hcomment

theorem IsLastGap.append {gap last : Text} (h : IsGap gap) (h' : IsLastGap last) :
    IsLastGap (gap ++ last) := by
  cases h' with
  | gap hgap => exact .gap (h.append hgap)
  | comment hgap hline =>
      rw [← List.append_assoc]
      exact .comment (h.append hgap) hline

/-- The text is what the tokens spell in their order, each of them after a gap. -/
inductive Covers : List Token → Text → Prop where
  | nil : Covers [] []
  | cons {t : Token} {ts : List Token} {gap rest : Text} (hgap : IsGap gap) (htext : t.text ≠ [])
      (h : Covers ts rest) : Covers (t :: ts) (gap ++ t.text ++ rest)

/-- A gap in front of a text belongs to its first token, or to the gap at its end if there is none. -/
theorem Covers.prepend {P : Text → Prop} {ts : List Token} {gap front last : Text} (hgap : IsGap gap)
    (hP : P last → P (gap ++ last)) (h : Covers ts front) (hlast : P last) :
    ∃ front' last', gap ++ (front ++ last) = front' ++ last' ∧ Covers ts front' ∧ P last' := by
  cases h with
  | nil => exact ⟨[], gap ++ last, rfl, .nil, hP hlast⟩
  | @cons t ts first rest hfirst htext hrest =>
      refine ⟨(gap ++ first) ++ t.text ++ rest, last, ?_, .cons (hgap.append hfirst) htext hrest, hlast⟩
      simp only [List.append_assoc]

/-! ## Strings that are not closed -/

/-- The number of backslashes at the end of the text. -/
def trailingBackslashes (text : Text) : Nat :=
  (text.reverse.takeWhile (· == backslash)).length

/-- Every double quote in the text is escaped: it comes after an odd number of backslashes. -/
def Unclosed (text : Text) : Prop :=
  ∀ front after, text = front ++ doubleQuote :: after → trailingBackslashes front % 2 = 1

/-- A character that is no backslash separates those in front of it from those after it. -/
theorem trailingBackslashes_cons {c : Nat} (hc : c ≠ backslash) (text : Text) :
    trailingBackslashes (c :: text) = trailingBackslashes text := by
  have hplain : [c].takeWhile (· == backslash) = [] := by simp [hc]
  unfold trailingBackslashes
  rw [List.reverse_cons, List.takeWhile_append, hplain, List.append_nil]
  split
  · next hall => rw [hall]
  · rfl

/-- A backslash and the character that it escapes leave the number even or odd. -/
theorem trailingBackslashes_escape (c : Nat) (text : Text) :
    trailingBackslashes (backslash :: c :: text) % 2 = trailingBackslashes text % 2 := by
  by_cases hc : c = backslash
  · subst hc
    have hpair : [backslash, backslash].takeWhile (· == backslash) = [backslash, backslash] := rfl
    unfold trailingBackslashes
    rw [List.reverse_cons, List.reverse_cons, List.append_assoc, List.takeWhile_append,
      List.singleton_append, hpair]
    split
    · next hall => simp [hall]
    · rfl
  · have hpair : [c, backslash].takeWhile (· == backslash) = [] := by simp [hc]
    unfold trailingBackslashes
    rw [List.reverse_cons, List.reverse_cons, List.append_assoc, List.takeWhile_append,
      List.singleton_append, hpair]
    split
    · next hall => rw [hall, List.append_nil]
    · rfl

theorem unclosed_nil : Unclosed [] := by
  intro front after htext
  cases front <;> cases htext

/-- A double quote at the beginning is not escaped. -/
theorem not_unclosed_doubleQuote (text : Text) : ¬Unclosed (doubleQuote :: text) := by
  intro h
  have hodd := h [] text rfl
  cases hodd

/-- Whether a text is closed does not depend on a character that is neither a backslash nor a double
quote. -/
theorem unclosed_cons {c : Nat} {text : Text} (hslash : c ≠ backslash) (hquote : c ≠ doubleQuote) :
    Unclosed (c :: text) ↔ Unclosed text := by
  constructor
  · rintro h front after rfl
    rw [← trailingBackslashes_cons hslash]
    exact h (c :: front) after rfl
  · intro h front after htext
    rcases front with _ | ⟨d, front⟩
    · exact absurd (List.cons.inj htext).1 hquote
    · obtain ⟨rfl, rfl⟩ := List.cons.inj htext
      rw [trailingBackslashes_cons hslash]
      exact h front after rfl

/-- Nor does it depend on an escaped one, which may be either. -/
theorem unclosed_escape {c : Nat} {text : Text} :
    Unclosed (backslash :: c :: text) ↔ Unclosed text := by
  constructor
  · rintro h front after rfl
    rw [← trailingBackslashes_escape c]
    exact h (backslash :: c :: front) after rfl
  · intro h front after htext
    rcases front with _ | ⟨d, _ | ⟨e, front⟩⟩
    · cases htext
    · -- the escaped character may be a double quote itself
      cases htext
      rfl
    · cases htext
      rw [trailingBackslashes_escape]
      exact h front after rfl

/-- A string has no length exactly if every double quote after its first one is escaped. -/
theorem stringLength?_eq_none_iff (text : Text) : stringLength? text = none ↔ Unclosed text := by
  fun_induction stringLength? text with
  | case1 c cs ih => rw [Option.map_eq_none_iff, ih, unclosed_escape]
  | case2 cs => simp [not_unclosed_doubleQuote]
  | case3 =>
      rw [eq_self, true_iff]
      intro front after htext
      rcases front with _ | ⟨d, _ | ⟨e, front⟩⟩ <;> cases htext
  | case4 c cs hescape hquote hslash ih =>
      rw [Option.map_eq_none_iff, ih, unclosed_cons (ne_backslash hescape hslash) hquote]
  | case5 => simp [unclosed_nil]

/-! ## What begins at a character -/

/-- Only a string that is not closed begins nothing. -/
theorem first?_eq_none {c : Nat} {cs : Text} (h : first? c cs = none) :
    c = doubleQuote ∧ Unclosed cs := by
  unfold first? at h
  split at h
  · cases h
  split at h
  · cases h
  · cases h
  · exact ⟨rfl, (stringLength?_eq_none_iff cs).1 (Option.map_eq_none_iff.1 h)⟩
  · split at h <;> cases h
  · split at h
    · cases h
    · split at h <;> cases h
  · cases h

/-- A comment begins with a semicolon and ends before the next line end. -/
theorem first?_comment {c n : Nat} {cs : Text} (h : first? c cs = some (.comment n)) :
    c = semicolon ∧ n = countWhile (· != newline) cs + 1 := by
  unfold first? at h
  split at h
  · cases h
  split at h
  · cases h
    exact ⟨rfl, rfl⟩
  · cases h
  · obtain ⟨m, -, hpiece⟩ := Option.map_eq_some_iff.1 h
    cases hpiece
  · split at h <;> cases h
  · split at h
    · cases h
    · split at h <;> cases h
  · cases h

/-- A symbol has at least the character that it begins with. -/
theorem symbolLength_pos {c : Nat} (cs : Text) (h : isSymbolChar c = true) :
    0 < symbolLength (c :: cs) := by
  unfold symbolLength
  split
  · exact Nat.succ_pos _
  · next heq =>
    cases heq
    rw [if_pos h]
    exact Nat.succ_pos _
  · next heq => cases heq

/-- A character that is no blank and begins nothing of its own may stand in a symbol. -/
theorem isSymbolChar_of_singleKind? {c : Nat} (hblank : isBlank c = false)
    (hsingle : singleKind? c = none) (hquote : c ≠ doubleQuote) (hcomma : c ≠ comma)
    (hsemicolon : c ≠ semicolon) : isSymbolChar c = true := by
  have hothers : ∀ d ∈ ("()[]\x27\",;\x60" : Text),
      singleKind? d ≠ none ∨ d = doubleQuote ∨ d = comma ∨ d = semicolon := by decide
  have hcontains : ("()[]\x27\",;\x60" : Text).contains c = false := by
    refine Bool.eq_false_iff.2 fun hmem => ?_
    rcases hothers c (List.contains_iff_mem.1 hmem) with h | h | h | h
    · exact h hsingle
    · exact hquote h
    · exact hcomma h
    · exact hsemicolon h
  unfold isSymbolChar
  rw [hblank, hcontains]
  rfl

/-- No token is empty. -/
theorem first?_token_pos {c n : Nat} {cs : Text} {kind : TokenKind} (hblank : isBlank c = false)
    (h : first? c cs = some (.token kind n)) : 0 < n := by
  unfold first? at h
  split at h
  · cases h
    exact Nat.one_pos
  -- where no kind of token consists of the one character, the kinds are tried in their order
  next hsingle =>
  split at h
  · cases h
  · cases h
    split <;> decide
  · obtain ⟨m, -, hpiece⟩ := Option.map_eq_some_iff.1 h
    cases hpiece
    exact Nat.succ_pos _
  · split at h
    · cases h
      exact Nat.succ_pos _
    · cases h
      exact symbolLength_pos cs (by decide)
  · split at h
    · cases h
      decide
    · split at h
      · cases h
        exact Nat.succ_pos _
      · cases h
        exact symbolLength_pos cs (by decide)
  · next hsemicolon hcomma hquote _ _ =>
    cases h
    exact symbolLength_pos cs (isSymbolChar_of_singleKind? hblank hsingle hquote hcomma hsemicolon)

/-! ## The whole text -/

/-- What was read of a text that stands at the position: all of it, or what is in front of a string
that is not closed. -/
inductive AccountsFor (position : Nat) (text : Text) (result : Lexed) : Prop where
  | whole {front last : Text} (htext : text = front ++ last) (hcovers : Covers result.tokens front)
      (hlast : IsLastGap last) (hfailure : result.failure = none)
  | upTo {front gap rest : Text} (htext : text = front ++ gap ++ doubleQuote :: rest)
      (hcovers : Covers result.tokens front) (hgap : IsGap gap) (hrest : Unclosed rest)
      (hfailure : result.failure =
        some (.unexpectedChar (position + (front ++ gap).length) doubleQuote))

namespace AccountsFor

variable {position : Nat} {text : Text} {result : Lexed}

/-- Nothing is left out between a gap and what was read after it. -/
theorem gap {gap : Text} (hgap : IsGap gap) (h : AccountsFor (position + gap.length) text result) :
    AccountsFor position (gap ++ text) result := by
  cases h with
  | whole htext hcovers hlast hfailure =>
      subst htext
      rcases hcovers.prepend hgap (IsLastGap.append hgap) hlast with
        ⟨front', last', heq, hcovers', hlast'⟩
      exact .whole heq hcovers' hlast' hfailure
  | @upTo front gap' rest htext hcovers hgap' hrest hfailure =>
      subst htext
      rcases hcovers.prepend hgap hgap.append hgap' with ⟨front', gap'', heq, hcovers', hgap''⟩
      refine .upTo ?_ hcovers' hgap'' hrest ?_
      · rw [← heq]
        simp only [List.append_assoc]
      · rw [hfailure, ← heq]
        simp only [List.length_append, Nat.add_assoc]

/-- A token accounts for its own text. -/
theorem token (kind : TokenKind) {taken : Text} (htaken : taken ≠ [])
    (h : AccountsFor (position + taken.length) text result) :
    AccountsFor position (taken ++ text) { result with tokens := ⟨kind, taken⟩ :: result.tokens } := by
  cases h with
  | whole heq hcovers hlast hfailure =>
      subst heq
      refine .whole ?_ (.cons .nil htaken hcovers) hlast hfailure
      simp only [List.nil_append, List.append_assoc]
  | @upTo front gap rest heq hcovers hgap hrest hfailure =>
      subst heq
      refine .upTo ?_ (.cons .nil htaken hcovers) hgap hrest ?_
      · simp only [List.nil_append, List.append_assoc]
      · rw [hfailure]
        simp only [List.nil_append, List.length_append, Nat.add_assoc]

/-- A comment ends with its line, or with the text. -/
theorem comment {cs : Text}
    (h : ∀ rest position, rest.length < cs.length + 1 → AccountsFor position rest (lexFrom position rest)) :
    AccountsFor position (semicolon :: cs)
      (lexFrom (position + (countWhile (· != newline) cs + 1)) (cs.drop (countWhile (· != newline) cs))) := by
  have hline := not_mem_takeWhile newline cs
  have hcount : countWhile (· != newline) cs = (cs.takeWhile (· != newline)).length := rfl
  rcases takeWhile_cases newline cs with heq | ⟨rest, heq⟩
  · rw [heq] at hline hcount
    rw [hcount, List.drop_length, lexFrom]
    exact .whole (List.nil_append _).symm .nil (.comment .nil hline) rfl
  · generalize cs.takeWhile (· != newline) = line at hline hcount heq
    have hlt : rest.length < cs.length + 1 := by
      rw [heq, List.length_append, List.length_cons]
      omega
    have hlength : (semicolon :: line ++ [newline]).length = line.length + 1 + 1 := by
      rw [List.length_append, List.length_cons]
      rfl
    have hgap := AccountsFor.gap (.comment hline .nil) (h rest (position + _) hlt)
    have hnewline : isBlank newline = true := rfl
    subst heq
    rw [hcount, List.drop_left, lexFrom, if_pos hnewline, Nat.add_assoc]
    rwa [hlength, List.append_assoc, List.singleton_append] at hgap

end AccountsFor

/-- Reading a text that stands at a position accounts for it. -/
theorem accountsFor_lexFrom (position : Nat) (text : Text) :
    AccountsFor position text (lexFrom position text) := by
  -- a piece is dropped as a whole, so the induction is over all shorter texts
  induction hn : text.length using Nat.strongRecOn generalizing position text with
  | _ n ih =>
    cases text with
    | nil =>
        rw [lexFrom]
        exact .whole (List.nil_append _).symm .nil (.gap .nil) rfl
    | cons c cs =>
        subst hn
        rw [lexFrom]
        split
        · next hblank =>
          have hgap : IsGap [c] := .blank hblank .nil
          exact .gap hgap (ih cs.length (Nat.lt_succ_self _) _ cs rfl)
        · next hblank =>
          cases hfirst : first? c cs with
          | none =>
              rcases first?_eq_none hfirst with ⟨rfl, hrest⟩
              have htext : doubleQuote :: cs = [] ++ [] ++ doubleQuote :: cs := rfl
              exact .upTo htext .nil .nil hrest rfl
          | some piece =>
              have hlength := first?_length_le hfirst
              cases piece with
              | comment n =>
                  rcases first?_comment hfirst with ⟨rfl, rfl⟩
                  exact .comment fun rest position hlt => ih rest.length hlt position rest rfl
              | token kind n =>
                  have hpos := first?_token_pos (Bool.eq_false_iff.2 hblank) hfirst
                  have hdrop : cs.drop (n - 1) = (c :: cs).drop n := by
                    rw [← List.drop_succ_cons (a := c), Nat.sub_add_cancel hpos]
                  have htaken : ((c :: cs).take n).length = n := List.length_take_of_le hlength
                  have hne : (c :: cs).take n ≠ [] := by
                    rw [← List.length_pos_iff, htaken]
                    exact hpos
                  have hlt : ((c :: cs).drop n).length < (c :: cs).length := by
                    rw [List.length_drop, List.length_cons]
                    omega
                  have hrest := ih _ hlt (position + ((c :: cs).take n).length) _ rfl
                  have htoken := hrest.token kind hne
                  rw [List.take_append_drop, htaken] at htoken
                  simpa only [hdrop] using htoken

/-- The tokens of a source account for all of it: it is what they spell, with gaps of blanks and comments
between them. Or the reading stops in front of a double quote that begins a string which is never closed,
and then it accounts for what is in front of it. There is no other reason to stop. -/
theorem lex_covers (source : Text) :
    ((lex source).failure = none ∧
      ∃ front last, source = front ++ last ∧ Covers (lex source).tokens front ∧ IsLastGap last) ∨
    ∃ front gap rest,
      (lex source).failure = some (.unexpectedChar (front ++ gap).length doubleQuote) ∧
      source = front ++ gap ++ doubleQuote :: rest ∧ Covers (lex source).tokens front ∧ IsGap gap ∧
      Unclosed rest := by
  have haccount : AccountsFor 0 source (lex source) := accountsFor_lexFrom 0 source
  cases haccount with
  | whole htext hcovers hlast hfailure => exact .inl ⟨hfailure, _, _, htext, hcovers, hlast⟩
  | upTo htext hcovers hgap hrest hfailure =>
      rw [Nat.zero_add] at hfailure
      exact .inr ⟨_, _, _, hfailure, htext, hcovers, hgap, hrest⟩

end LispNamespace.Token
