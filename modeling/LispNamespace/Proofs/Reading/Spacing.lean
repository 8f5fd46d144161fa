import LispNamespace.Proofs.Reading.Printing

/-!
# Texts that differ in their blanks

Two texts of one form, with other blanks between its pieces, have the same tokens in front of rests
that have the same tokens. That the rests are delimited is not enough for this to go on from piece
to piece: a piece that ends in a question mark takes the closing bracket that follows it, and would
take no blank. So the rests either both begin with a blank, or with the same closing bracket in
front of rests that have the same tokens again.
-/

namespace LispNamespace

open Text

namespace Token

/-! ## The same tokens -/

/-- Nothing goes wrong in the two texts, and the second one has the given tokens at its end, which
the first one lacks. -/
def Alike (us : List Token) (a b : Text) : Prop :=
  ∃ ts, lex a = ⟨ts, none⟩ ∧ lex b = ⟨ts ++ us, none⟩

theorem LexesTo.lex_append {text rest : Text} {ts us : List Token} (h : LexesTo text ts rest)
    (hrest : lex rest = ⟨us, none⟩) : lex (text ++ rest) = ⟨ts ++ us, none⟩ := by
  have htokens := h.tokens
  have hfailure := h.failure
  rw [hrest] at htokens hfailure
  calc lex (text ++ rest)
      = ⟨(lex (text ++ rest)).tokens, (lex (text ++ rest)).failure⟩ := rfl
    _ = ⟨ts ++ us, none⟩ := by rw [htokens, hfailure.2 rfl]

variable {us : List Token}

/-- Two pieces with the same tokens stand in front of rests with the same tokens. -/
theorem Alike.append {ts : List Token} {a b r r' : Text} (h : Alike us r r')
    (ha : LexesTo a ts r) (hb : LexesTo b ts r') : Alike us (a ++ r) (b ++ r') := by
  rcases h with ⟨vs, hr, hr'⟩
  refine ⟨ts ++ vs, ha.lex_append hr, ?_⟩
  rw [hb.lex_append hr', List.append_assoc]

/-! ## Blanks -/

/-- The text consists of spaces and line ends, and there are some. -/
def IsSpacing (gap : Text) : Prop := gap ≠ [] ∧ ∀ c ∈ gap, c = 0x20 ∨ c = newline

instance (gap : Text) : Decidable (IsSpacing gap) := by
  unfold IsSpacing
  infer_instance

/-- Whether the text is empty or begins with a space or a line end. -/
def AtSpacing : Text → Prop
  | [] => True
  | c :: _ => c = 0x20 ∨ c = newline

theorem AtSpacing.delimited {text : Text} (h : AtSpacing text) : Delimited text := by
  cases text with
  | nil => exact trivial
  | cons c cs =>
      rcases h with hspace | hnewline
      · exact .inl hspace
      · exact .inr (.inr (.inr hnewline))

theorem IsSpacing.atSpacing {gap : Text} (h : IsSpacing gap) (rest : Text) :
    AtSpacing (gap ++ rest) := by
  cases gap with
  | nil => exact absurd rfl h.1
  | cons c cs => exact h.2 c List.mem_cons_self

theorem IsSpacing.lexesTo {gap : Text} (h : IsSpacing gap) (rest : Text) : LexesTo gap [] rest := by
  have hblanks := h.2
  clear h
  induction gap with
  | nil => exact .nil
  | cons c cs ih =>
      have hblank : isBlank c = true := by
        rcases hblanks c List.mem_cons_self with rfl | rfl
        · rfl
        · rfl
      have hfirst : LexesTo [c] [] (cs ++ rest) := .blank hblank
      exact hfirst.append (ih fun d hd => hblanks d (List.mem_cons_of_mem c hd))

/-! ## What follows a piece -/

/-- What may follow the same piece of two texts: blanks in both, or nothing, or the same closing
bracket. -/
inductive Respaced (us : List Token) : Text → Text → Prop where
  | gap {r r' : Text} (hr : AtSpacing r) (hr' : AtSpacing r') (h : Alike us r r') : Respaced us r r'
  | close {c : Nat} {r r' : Text} (hc : c = closeParen ∨ c = closeBracket) (h : Alike us r r') :
      Respaced us (c :: r) (c :: r')

namespace Respaced

variable {r r' : Text}

theorem delimited (h : Respaced us r r') : Delimited r ∧ Delimited r' := by
  cases h with
  | gap hr hr' => exact ⟨hr.delimited, hr'.delimited⟩
  | close hc =>
      have hdelimited : ∀ cs, Delimited (_ :: cs) := fun cs =>
        hc.elim (fun hparen => .inr (.inl hparen)) fun hbracket => .inr (.inr (.inl hbracket))
      exact ⟨hdelimited _, hdelimited _⟩

theorem alike (h : Respaced us r r') : Alike us r r' := by
  cases h with
  | gap _ _ h => exact h
  | @close c r r' hc h =>
      obtain ⟨kind, hkind⟩ : ∃ kind, singleKind? c = some kind := by
        rcases hc with rfl | rfl
        · exact ⟨.closeParen, rfl⟩
        · exact ⟨.closeBracket, rfl⟩
      have hone : ∀ rest, LexesTo [c] [⟨kind, [c]⟩] rest := fun _ => .single hkind
      exact h.append (hone r) (hone r')

end Respaced

/-- Blanks in front of texts. -/
theorem Alike.gap {r r' gap gap' : Text} (h : Alike us r r') (hgap : IsSpacing gap)
    (hgap' : IsSpacing gap') : Alike us (gap ++ r) (gap' ++ r') :=
  h.append (hgap.lexesTo r) (hgap'.lexesTo r')

/-! ## Pieces -/

/-- The two texts have the same tokens in front of whatever may follow a piece. -/
def SameTokens (a b : Text) : Prop :=
  ∀ (us : List Token) (r r' : Text), Respaced us r r' → Alike us (a ++ r) (b ++ r')

namespace SameTokens

variable {a b : Text}

/-- A text that has its tokens in front of every delimited text. -/
theorem of_lexesTo {ts : List Token} (h : ∀ rest, Delimited rest → LexesTo a ts rest) :
    SameTokens a a := by
  intro us r r' hr
  exact hr.alike.append (h r hr.delimited.1) (h r' hr.delimited.2)

/-- Two texts with the same tokens have them also by themselves. -/
theorem lex_eq (h : SameTokens a b) : lex a = lex b := by
  have hend : Alike [] [] [] := ⟨[], lex_nil, lex_nil⟩
  rcases h [] [] [] (.gap trivial trivial hend) with ⟨ts, ha, hb⟩
  rw [List.append_nil] at ha hb
  rw [ha, hb, List.append_nil]

/-- The second text has the tokens of the first one in front of those of a rest, with blanks
between. -/
theorem lex_gap_append (h : SameTokens a b) {gap rest : Text} {vs : List Token}
    (hgap : IsSpacing gap) (hrest : lex rest = ⟨vs, none⟩) :
    lex (b ++ (gap ++ rest)) = ⟨(lex a).tokens ++ vs, none⟩ := by
  have hafter : Alike vs [] (gap ++ rest) := ⟨[], lex_nil, (hgap.lexesTo rest).lex_append hrest⟩
  rcases h vs [] _ (.gap trivial (hgap.atSpacing rest) hafter) with ⟨ts, ha, hb⟩
  rw [List.append_nil] at ha
  rw [hb, ha]

/-- A shorthand stands in front of pieces with the same tokens, the comma only where no at sign
follows it. -/
theorem shorthand {name short : Text} (hname : shorthand? name = some short)
    (h : SameTokens a b) (ha : ∀ rest, name = "," → (a ++ rest).head? ≠ some atSign)
    (hb : ∀ rest, name = "," → (b ++ rest).head? ≠ some atSign) :
    SameTokens (short ++ a) (short ++ b) := by
  intro us r r' hr
  rcases lexesTo_shorthand hname with ⟨t, -, -, hlexes⟩
  rw [List.append_assoc, List.append_assoc]
  exact (h us r r' hr).append (hlexes _ (ha r)) (hlexes _ (hb r'))

/-- Pieces between an opening bracket and a closing one. -/
theorem enclosed {first last : Nat} {kind : TokenKind} (hfirst : singleKind? first = some kind)
    (hlast : last = closeParen ∨ last = closeBracket) (h : SameTokens a b) :
    SameTokens (first :: (a ++ [last])) (first :: (b ++ [last])) := by
  intro us r r' hr
  have hinside := h us _ _ (.close hlast hr.alike)
  have hone : ∀ rest, LexesTo [first] [⟨kind, [first]⟩] rest := fun _ => .single hfirst
  simpa using hinside.append (hone _) (hone _)

/-- Pieces with a dot between them. -/
theorem dotted {c d : Text} (h : SameTokens a b) (hcd : SameTokens c d) :
    SameTokens (a ++ (" . " ++ c)) (b ++ (" . " ++ d)) := by
  intro us r r' hr
  have hafter := (hcd us r r' hr).append (lexesTo_dot (c ++ r)) (lexesTo_dot (d ++ r'))
  have hblank : ∀ rest, AtSpacing ((" . " : Text) ++ rest) := fun _ => .inl rfl
  simpa using h us _ _ (.gap (hblank _) (hblank _) hafter)

/-- Pieces that have the same tokens one by one have them with blanks between the pieces. -/
theorem intercalate {α : Type} {items : List α} {f g : α → Text}
    (h : ∀ item ∈ items, SameTokens (f item) (g item)) {gap gap' : Text} (hgap : IsSpacing gap)
    (hgap' : IsSpacing gap') :
    SameTokens (gap.intercalate (items.map f)) (gap'.intercalate (items.map g)) := by
  intro us r r' hr
  induction items with
  | nil => exact hr.alike
  | cons first others ih =>
      have hfirst := h first List.mem_cons_self
      have hothers := ih fun item hitem => h item (List.mem_cons_of_mem first hitem)
      cases others with
      | nil =>
          simp only [List.map_cons, List.map_nil, List.intercalate_singleton]
          exact hfirst us r r' hr
      | cons next others =>
          -- what follows the first piece begins with a blank in both texts
          have hnext := hfirst us _ _
            (.gap (hgap.atSpacing _) (hgap'.atSpacing _) (hothers.gap hgap hgap'))
          simpa [List.intercalate_cons_cons] using hnext

end SameTokens

end Token

end LispNamespace
