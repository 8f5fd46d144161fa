import LispNamespace.Token.Lexer

/-!
# Pieces of source text

How the tokens of a text are put together from the tokens of its pieces. Where a token ends can
depend on what follows it, so a piece has its tokens in front of a given rest. Blanks and closing
brackets end every token, and a text that begins with one of them is what the pieces of a printed
tree stand in front of, where the only blanks are spaces and line ends.
-/

namespace LispNamespace.Token

open Text

/-! ## Up to a character -/

/-- What is left when a backslash has been looked for with a character after it and without. -/
theorem ne_backslash {c : Nat} {cs : Text} (hescape : ∀ d ds, c = backslash → cs = d :: ds → False)
    (halone : c = backslash → cs = [] → False) : c ≠ backslash := by
  rintro rfl
  cases cs with
  | nil => exact halone rfl rfl
  | cons d cs => exact hescape d cs rfl rfl

theorem not_mem_takeWhile (d : Nat) (cs : Text) : d ∉ cs.takeWhile (· != d) := by
  intro hmem
  have htest := List.all_eq_true.1 List.all_takeWhile d hmem
  simp at htest

/-- What stands in front of the first occurrence of a character is the whole text, or the character
follows. -/
theorem takeWhile_cases (d : Nat) (cs : Text) :
    cs.takeWhile (· != d) = cs ∨ ∃ rest, cs = cs.takeWhile (· != d) ++ d :: rest := by
  have hsplit : cs.takeWhile (· != d) ++ cs.dropWhile (· != d) = cs :=
    List.takeWhile_append_dropWhile
  cases hrest : cs.dropWhile (· != d) with
  | nil =>
      rw [hrest, List.append_nil] at hsplit
      exact .inl hsplit
  | cons c rest =>
      -- the row ends where the test fails
      have hc := List.head_dropWhile_not (· != d) (hrest ▸ List.cons_ne_nil c rest)
      simp only [hrest, List.head_cons, bne_eq_false_iff_eq] at hc
      rw [hrest, hc] at hsplit
      exact .inr ⟨rest, hsplit.symm⟩

/-! ## Positions are only reported -/

/-- Where a text stands changes neither its tokens nor whether it has a failure. -/
theorem lexFrom_position (p q : Nat) (cs : Text) :
    (lexFrom p cs).tokens = (lexFrom q cs).tokens ∧
      ((lexFrom p cs).failure = none ↔ (lexFrom q cs).failure = none) := by
  -- a token is dropped as a whole, so the induction is over all shorter texts
  induction hn : cs.length using Nat.strongRecOn generalizing p q cs with
  | _ n ih =>
    cases cs with
    | nil => simp [lexFrom]
    | cons c cs =>
        subst hn
        rw [lexFrom, lexFrom]
        split
        · exact ih cs.length (Nat.lt_succ_self _) _ _ cs rfl
        · have hdrop : ∀ n, (cs.drop (n - 1)).length < (c :: cs).length := by
            intro n
            rw [List.length_drop, List.length_cons]
            omega
          cases first? c cs with
          | none => simp
          | some piece =>
              cases piece with
              | comment n => exact ih _ (hdrop n) _ _ _ rfl
              | token kind n =>
                  rcases ih _ (hdrop n) (p + n) (q + n) _ rfl with ⟨htokens, hfailure⟩
                  exact ⟨congrArg (List.cons _) htokens, hfailure⟩

theorem lex_nil : lex [] = ⟨[], none⟩ := by rw [lex, lexFrom]

/-- A token of a text stands at the front of some end of the text. -/
theorem first?_of_mem_lexFrom {position : Nat} {text : Text} {t : Token}
    (h : t ∈ (lexFrom position text).tokens) :
    ∃ c cs n, (c :: cs) <:+ text ∧ first? c cs = some (.token t.kind n) ∧
      t.text = (c :: cs).take n := by
  -- blanks, comments and tokens are passed over one at a time
  induction hn : text.length using Nat.strongRecOn generalizing position text with
  | _ n ih =>
    cases text with
    | nil => simp [lexFrom] at h
    | cons c cs =>
        subst hn
        have hdrop : ∀ n, (cs.drop (n - 1)).length < (c :: cs).length := by
          intro n
          rw [List.length_drop, List.length_cons]
          omega
        have hsuffix : ∀ n, cs.drop (n - 1) <:+ c :: cs :=
          fun n => (List.drop_suffix _ _).trans (List.suffix_cons c cs)
        rw [lexFrom] at h
        split at h
        · rcases ih cs.length (Nat.lt_succ_self _) h rfl with ⟨d, ds, m, hend, hrest⟩
          exact ⟨d, ds, m, hend.trans (List.suffix_cons c cs), hrest⟩
        · cases hfirst : first? c cs with
          | none => simp [hfirst] at h
          | some piece =>
              rw [hfirst] at h
              cases piece with
              | comment n =>
                  rcases ih _ (hdrop n) h rfl with ⟨d, ds, m, hend, hrest⟩
                  exact ⟨d, ds, m, hend.trans (hsuffix n), hrest⟩
              | token kind n =>
                  rcases List.mem_cons.1 h with rfl | h
                  · exact ⟨c, cs, n, List.suffix_refl _, hfirst, rfl⟩
                  · rcases ih _ (hdrop n) h rfl with ⟨d, ds, m, hend, hrest⟩
                    exact ⟨d, ds, m, hend.trans (hsuffix n), hrest⟩

/-- No token is longer than the text. -/
theorem length_le_of_mem_lexFrom {p : Nat} {cs : Text} {t : Token}
    (h : t ∈ (lexFrom p cs).tokens) : t.text.length ≤ cs.length := by
  rcases first?_of_mem_lexFrom h with ⟨d, ds, n, hend, -, htext⟩
  rw [htext]
  exact Nat.le_trans (List.length_take_le' n (d :: ds)) hend.length_le

/-! ## The tokens of a piece -/

/-- In front of the given rest, the text has the given tokens. -/
structure LexesTo (text : Text) (ts : List Token) (rest : Text) : Prop where
  /-- The tokens of the text come before those of the rest. -/
  tokens : (lex (text ++ rest)).tokens = ts ++ (lex rest).tokens
  /-- What goes wrong goes wrong in the rest. -/
  failure : (lex (text ++ rest)).failure = none ↔ (lex rest).failure = none

namespace LexesTo

variable {a b rest : Text} {ts us : List Token}

theorem nil : LexesTo [] [] rest := ⟨rfl, Iff.rfl⟩

/-- The tokens of two pieces come one after the other. -/
theorem append (ha : LexesTo a ts (b ++ rest)) (hb : LexesTo b us rest) :
    LexesTo (a ++ b) (ts ++ us) rest := by
  constructor
  · rw [List.append_assoc, List.append_assoc, ha.tokens, hb.tokens]
  · rw [List.append_assoc, ha.failure, hb.failure]

/-- A blank is no part of a token. -/
theorem blank {c : Nat} (h : isBlank c = true) : LexesTo [c] [] rest := by
  have hlex : lex ([c] ++ rest) = lexFrom 1 rest := by
    rw [lex, List.cons_append, List.nil_append, lexFrom, if_pos h]
  constructor
  · rw [hlex]
    exact (lexFrom_position 1 0 rest).1
  · rw [hlex]
    exact (lexFrom_position 1 0 rest).2

/-- A piece that begins a token and is as long as it. -/
theorem token {c : Nat} {cs : Text} {kind : TokenKind} (hblank : isBlank c = false)
    (h : first? c (cs ++ rest) = some (.token kind (cs.length + 1))) :
    LexesTo (c :: cs) [⟨kind, c :: cs⟩] rest := by
  have hlex : lex (c :: cs ++ rest) =
      { lexFrom (cs.length + 1) rest with
        tokens := ⟨kind, c :: cs⟩ :: (lexFrom (cs.length + 1) rest).tokens } := by
    rw [lex, List.cons_append, lexFrom, if_neg (Bool.eq_false_iff.1 hblank)]
    simp [h]
  rcases lexFrom_position (cs.length + 1) 0 rest with ⟨htokens, hfailure⟩
  constructor
  · rw [hlex]
    exact congrArg _ htokens
  · rw [hlex]
    exact hfailure

end LexesTo

/-- A text that is a single token begins that token and is as long as it. -/
theorem first?_of_lex_eq {source : Text} {kind : TokenKind}
    (h : (lex source).tokens = [⟨kind, source⟩]) :
    ∃ c cs, source = c :: cs ∧ isBlank c = false ∧
      first? c cs = some (.token kind (cs.length + 1)) := by
  cases source with
  | nil => simp [lex, lexFrom] at h
  | cons c cs =>
      -- the token is as long as the text, so nothing can have been skipped in front of it
      have hskip : ∀ p n, (lexFrom p (cs.drop n)).tokens ≠ [⟨kind, c :: cs⟩] := by
        intro p n htokens
        have hmem : (⟨kind, c :: cs⟩ : Token) ∈ (lexFrom p (cs.drop n)).tokens := by
          rw [htokens]
          exact List.mem_singleton_self _
        have hle := length_le_of_mem_lexFrom hmem
        simp only [List.length_cons, List.length_drop] at hle
        omega
      rw [lex, lexFrom] at h
      split at h
      · exact absurd h (hskip 1 0)
      · next hblank =>
        cases hfirst : first? c cs with
        | none => simp [hfirst] at h
        | some piece =>
            cases piece with
            | comment n =>
                rw [hfirst] at h
                exact absurd h (hskip _ _)
            | token kind' n =>
                rw [hfirst] at h
                simp only [List.cons.injEq, Token.mk.injEq] at h
                rcases h with ⟨⟨rfl, htake⟩, -⟩
                have hlength : n = cs.length + 1 := by
                  have hle : n ≤ cs.length + 1 := first?_length_le hfirst
                  have htaken := congrArg List.length htake
                  rw [List.length_take, List.length_cons] at htaken
                  omega
                subst hlength
                exact ⟨c, cs, rfl, Bool.eq_false_iff.2 hblank, hfirst⟩

/-! ## Where tokens end -/

/-- Whether the text is empty or begins with a space, a closing bracket or a line end, as what
follows an element of a printed tree does. -/
def Delimited : Text → Prop
  | [] => True
  | c :: _ => c = 0x20 ∨ c = closeParen ∨ c = closeBracket ∨ c = newline

/-- Whether no delimiter passes the test. -/
def FailsDelimiters (test : Nat → Bool) : Prop :=
  test 0x20 = false ∧ test closeParen = false ∧ test closeBracket = false ∧ test newline = false

instance (test : Nat → Bool) : Decidable (FailsDelimiters test) := by
  unfold FailsDelimiters
  infer_instance

/-- The first character of a delimited text passes no test that the delimiters fail. -/
theorem Delimited.not_head {rest cs : Text} {c : Nat} (h : Delimited rest) (heq : rest = c :: cs)
    {test : Nat → Bool} (htest : FailsDelimiters test) : test c = false := by
  subst heq
  rcases htest with ⟨hspace, hparen, hbracket, hnewline⟩
  rcases h with rfl | rfl | rfl | rfl
  · exact hspace
  · exact hparen
  · exact hbracket
  · exact hnewline

/-- A row of characters that pass a test goes no further than to a delimiter. -/
theorem countWhile_append {test : Nat → Bool} {rest : Text} (h : Delimited rest)
    (htest : FailsDelimiters test) (cs : Text) :
    countWhile test (cs ++ rest) = countWhile test cs := by
  unfold countWhile
  induction cs with
  | nil =>
      cases rest with
      | nil => rfl
      | cons c rest => simp [h.not_head rfl htest]
  | cons c cs ih =>
      rw [List.cons_append, List.takeWhile_cons, List.takeWhile_cons]
      split
      · rw [List.length_cons, List.length_cons, ih]
      · rfl

/-! ## Punctuation -/

theorem isBlank_of_singleKind? {c : Nat} {kind : TokenKind} (h : singleKind? c = some kind) :
    isBlank c = false := by
  unfold singleKind? at h
  split at h <;> first | rfl | cases h

/-- A bracket or a quote is a token of its own. -/
theorem LexesTo.single {c : Nat} {kind : TokenKind} (h : singleKind? c = some kind) {rest : Text} :
    LexesTo [c] [⟨kind, [c]⟩] rest := by
  refine .token (isBlank_of_singleKind? h) ?_
  unfold first?
  rw [h]
  rfl

/-- The shorthands, each with its long form. -/
theorem shorthand?_cases {name short : Text} (h : shorthand? name = some short) :
    (name = "quote" ∧ short = "\x27") ∨ (name = "\x60" ∧ short = "\x60") ∨
      (name = "," ∧ short = ",") ∨ (name = ",@" ∧ short = ",@") ∨
      (name = "function" ∧ short = "#\x27") := by
  unfold shorthand? at h
  rcases Option.map_eq_some_iff.1 h with ⟨⟨short', name'⟩, hfind, rfl⟩
  have hname : name' = name := by simpa using List.find?_some hfind
  have hmem := List.mem_of_find?_eq_some hfind
  subst hname
  simpa [shorthands, and_comm] using hmem

end LispNamespace.Token
