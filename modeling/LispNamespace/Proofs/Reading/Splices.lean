import LispNamespace.Proofs.Reading.Spacing

/-!
# What a splice leaves of a symbol

A hole whose form is a symbol that begins with an at sign is printed as a comma in front of that
symbol, and read as a splice in front of the rest of the symbol. The rest was escaped as the inside
of a symbol, where question marks and number signs stand plainly, so it may now be read as several
tokens: characters, integers in other bases and at last a symbol. The last token may even take a
bracket that closes the list around the hole. Still the blanks around it make no difference.
-/

namespace LispNamespace

open Text Token

namespace Tree

/-! ## Escaped characters -/

/-- A character inside a symbol, with a backslash if it needs one there. -/
def escaped (c : Nat) : Text :=
  if needsEscape c && c != questionMark && c != numberSign then [backslash, c] else [c]

theorem escapeRest_cons (c : Nat) (cs : Text) :
    escapeRest (c :: cs) = escaped c ++ escapeRest cs := by
  rw [escapeRest, escaped]
  split <;> rfl

theorem escaped_of_needsEscape {c : Nat} (h : needsEscape c = false) : escaped c = [c] := by
  simp [escaped, h]

/-- A character inside a symbol has a backslash or is plain. -/
theorem escaped_cases (c : Nat) :
    (needsEscape c = true ∧ escaped c = [backslash, c]) ∨
      (isPlain c = true ∧ escaped c = [c]) := by
  unfold escaped
  by_cases hneeds : (needsEscape c && c != questionMark && c != numberSign) = true
  · rw [if_pos hneeds]
    rw [Bool.and_eq_true, Bool.and_eq_true] at hneeds
    exact .inl ⟨hneeds.1.1, rfl⟩
  · rw [if_neg hneeds]
    refine .inr ⟨?_, rfl⟩
    by_cases hquestion : c = questionMark
    · rw [hquestion]
      rfl
    by_cases hnumber : c = numberSign
    · rw [hnumber]
      rfl
    exact isPlain_of_needsEscape (by simpa [hquestion, hnumber] using hneeds)

/-- What needs a backslash inside a symbol is none of the characters that need none. -/
theorem ne_of_needsEscape {c d : Nat} (h : needsEscape c = true) (hd : needsEscape d = false) :
    c ≠ d := by
  rintro rfl
  rw [hd] at h
  cases h

/-- The digits of all bases stand plainly in a symbol. -/
theorem needsEscape_of_isHex {c : Nat} (h : isHex c = true) : needsEscape c = false := by
  have hdigits : ∀ d < 0x67, isHex d = true → needsEscape d = false := by decide
  refine hdigits c ?_ h
  unfold isHex hexValue? at h
  split at h
  · omega
  · split at h
    · omega
    · split at h
      · omega
      · cases h

end Tree

namespace Token

open LispNamespace.Tree

/-! ## Characters -/

/-- No escape of several characters begins with a character that is escaped in a name. -/
theorem escapeLength_of_needsEscape {c : Nat} (h : needsEscape c = true) (cs : Text) :
    escapeLength (c :: cs) = 1 := by
  have hoctal : isOctal c = false := by
    refine Bool.eq_false_iff.2 fun hoctal => ?_
    rw [needsEscape_of_isHex (isHex_of_isOctal hoctal)] at h
    cases h
  have hx : c ≠ 'x'.toNat := ne_of_needsEscape h rfl
  have hu : c ≠ 'u'.toNat := ne_of_needsEscape h rfl
  have hU : c ≠ 'U'.toNat := ne_of_needsEscape h rfl
  have hN : c ≠ 'N'.toNat := ne_of_needsEscape h rfl
  simp only [escapeLength, hoctal, beq_iff_eq, if_neg hx, if_neg hu, if_neg hU, if_neg hN,
    Bool.false_eq_true, if_false]

/-- A character inside a symbol is what a question mark in front of it takes. -/
theorem charLength?_escaped (c : Nat) (rest : Text) :
    charLength? (escaped c ++ rest) = some (escaped c).length := by
  rcases escaped_cases c with ⟨hneeds, heq⟩ | ⟨hplain, heq⟩
  · have hcaret : c ≠ caret := ne_of_needsEscape hneeds rfl
    have hmodifier : isModifierLetter c = false := by
      refine Bool.eq_false_iff.2 fun hmodifier => ?_
      have hletters : ∀ d ∈ ("CMSHAs" : Text), needsEscape d = false := by decide
      exact ne_of_needsEscape hneeds (hletters c (List.contains_iff_mem.1 hmodifier)) rfl
    have hescape := escapeLength_of_needsEscape hneeds
    rw [heq]
    show charLength? (backslash :: c :: rest) = some 2
    -- a hyphen would matter after a modifier only
    unfold charLength?
    split
    · next heq' =>
      cases heq'
      exact absurd rfl hcaret
    · next heq' =>
      cases heq'
      rw [hmodifier, hescape]
      rfl
    · next heq' =>
      cases heq'
      rw [hescape]
    · next heq' => cases heq'
    · next hescape' _ heq' =>
      cases heq'
      exact (hescape' _ _ rfl rfl).elim
    · next heq' => cases heq'
  · have hblank := isBlank_of_isPlain hplain
    have hne : c ≠ backslash := by
      rintro rfl
      cases hplain
    rw [heq]
    show charLength? (c :: rest) = some 1
    rw [charLength?, hblank]
    · rfl
    · exact fun _ hc _ => hne hc
    · exact fun _ _ hc _ => hne hc
    · exact fun _ _ hc _ => hne hc
    · exact fun hc _ => hne hc

/-- So a question mark in front of it makes it a character literal, and the name goes on behind it.
-/
theorem lexesTo_char_escaped (c : Nat) (rest : Text) :
    LexesTo (questionMark :: escaped c) [⟨.char, questionMark :: escaped c⟩] rest :=
  .char (charLength?_escaped c rest)

/-! ## Integers in other bases -/

/-- Characters that are not escaped in names are counted alike with and without escapes. -/
theorem countWhile_escapeRest {test : Nat → Bool}
    (htest : ∀ c, test c = true → needsEscape c = false) (cs : Text) :
    countWhile test (escapeRest cs) = countWhile test cs := by
  unfold countWhile
  induction cs with
  | nil => rfl
  | cons c cs ih =>
      rw [escapeRest_cons]
      by_cases hc : test c = true
      · rw [escaped_of_needsEscape (htest c hc), List.singleton_append,
          List.takeWhile_cons_of_pos hc, List.takeWhile_cons_of_pos hc, List.length_cons,
          List.length_cons, ih]
      · have hbackslash : ¬ test backslash = true := by
          intro h
          cases htest backslash h
        rw [List.takeWhile_cons_of_neg hc]
        rcases escaped_cases c with ⟨-, heq⟩ | ⟨-, heq⟩
        · rw [heq, List.cons_append, List.takeWhile_cons_of_neg hbackslash]
        · rw [heq, List.singleton_append, List.takeWhile_cons_of_neg hc]

/-- What is an integer after a number sign is one also where it is written inside a symbol. -/
theorem radixLength?_escapeRest (cs : Text) {rest : Text} (hrest : Delimited rest) :
    radixLength? (escapeRest cs ++ rest) = radixLength? cs := by
  cases cs with
  | nil =>
      cases rest with
      | nil => rfl
      | cons c rest => rcases hrest with rfl | rfl | rfl | rfl <;> rfl
  | cons c cs =>
      rw [escapeRest_cons]
      -- a character that is escaped begins no base, and one that is not stands as it did
      rcases escaped_cases c with ⟨hneeds, heq⟩ | ⟨-, heq⟩
      · have hb : c ≠ 'b'.toNat := ne_of_needsEscape hneeds rfl
        have ho : c ≠ 'o'.toNat := ne_of_needsEscape hneeds rfl
        have hx : c ≠ 'x'.toNat := ne_of_needsEscape hneeds rfl
        rw [heq]
        simp only [radixLength?, beq_iff_eq, if_neg hb, if_neg ho, if_neg hx]
        rfl
      · have hcount : ∀ test, (∀ c, test c = true → needsEscape c = false) →
            FailsDelimiters test →
              countWhile test (escapeRest cs ++ rest) = countWhile test cs := by
          intro test htest hfails
          rw [countWhile_append hrest hfails, countWhile_escapeRest htest]
        have hoctal : ∀ c, isOctal c = true → needsEscape c = false :=
          fun c hc => needsEscape_of_isHex (isHex_of_isOctal hc)
        rw [heq, List.singleton_append, List.cons_append, radixLength?, radixLength?,
          hcount isBinary (fun c hc => hoctal c (isOctal_of_isBinary hc)) (by decide),
          hcount isOctal hoctal (by decide),
          hcount isHex (fun c hc => needsEscape_of_isHex hc) (by decide)]

/-- The characters of an integer stand plainly in a symbol. -/
theorem digits_of_radixLength? {cs : Text} {n : Nat} (h : radixLength? cs = some n) :
    ∃ digits others, cs = digits ++ others ∧ digits.length = n ∧
      ∀ c ∈ digits, needsEscape c = false := by
  cases cs with
  | nil => cases h
  | cons c cs =>
      -- the letter of the base and its digits form one row, whatever the base
      have hrow : ∀ test, (∀ d, test d = true → needsEscape d = false) → needsEscape c = false →
          some (countWhile test cs + 1) = some n →
            ∃ digits others, c :: cs = digits ++ others ∧ digits.length = n ∧
              ∀ d ∈ digits, needsEscape d = false := by
        intro test htest hc hn
        refine ⟨c :: cs.takeWhile test, cs.dropWhile test, ?_, Option.some.inj hn, ?_⟩
        · rw [List.cons_append, List.takeWhile_append_dropWhile]
        · refine List.forall_mem_cons.2 ⟨hc, fun d hd => htest d ?_⟩
          exact List.all_eq_true.1 List.all_takeWhile d hd
      have hoctal : ∀ d, isOctal d = true → needsEscape d = false :=
        fun d hd => needsEscape_of_isHex (isHex_of_isOctal hd)
      unfold radixLength? at h
      simp only [Option.ite_none_left_eq_some, beq_iff_eq] at h
      rcases h with ⟨hpos, h⟩
      split at h
      · next hb =>
        refine hrow isBinary (fun d hd => hoctal d (isOctal_of_isBinary hd)) ?_ h
        rw [hb]
        rfl
      split at h
      · next ho =>
        refine hrow isOctal hoctal ?_ h
        rw [ho]
        rfl
      split at h
      · next hx =>
        refine hrow isHex (fun d hd => needsEscape_of_isHex hd) ?_ h
        rw [hx]
        rfl
      · next hb ho hx =>
        rw [if_neg hb, if_neg ho, if_neg hx] at hpos
        exact absurd rfl hpos

/-- Digits are not escaped. -/
theorem escapeRest_append {digits : Text} (h : ∀ c ∈ digits, needsEscape c = false)
    (others : Text) : escapeRest (digits ++ others) = digits ++ escapeRest others := by
  induction digits with
  | nil => rfl
  | cons c digits ih =>
      rw [List.cons_append, escapeRest_cons, escaped_of_needsEscape (h c List.mem_cons_self),
        ih fun d hd => h d (List.mem_cons_of_mem c hd)]
      rfl

/-- Inside a symbol, no apostrophe follows a number sign. -/
theorem head?_escapeRest_append (cs : Text) {rest : Text} (hrest : Delimited rest) :
    (escapeRest cs ++ rest).head? ≠ some apostrophe := by
  intro hhead
  cases cs with
  | nil =>
      cases rest with
      | nil => cases hhead
      | cons c rest =>
          cases hhead
          rcases hrest with hc | hc | hc | hc <;> cases hc
  | cons c cs =>
      rw [escapeRest_cons] at hhead
      rcases escaped_cases c with ⟨-, heq⟩ | ⟨hplain, heq⟩
      · rw [heq] at hhead
        cases hhead
      · rw [heq] at hhead
        cases hhead
        cases hplain

/-- After a number sign, an integer in another base is a token of its own where its digits stand,
and everything else is no token. -/
theorem first?_numberSign (cs : Text) {rest : Text} (hrest : Delimited rest) :
    first? numberSign (escapeRest cs ++ rest) =
      match radixLength? cs with
      | some n => some (.token .radix (n + 1))
      | none => some (word numberSign (escapeRest cs ++ rest)) := by
  have hfirst : ∀ text : Text, first? numberSign text =
      if text.head? == some apostrophe then some (.token .functionQuote 2)
      else
        match radixLength? text with
        | some n => some (.token .radix (n + 1))
        | none => some (word numberSign text) := fun _ => rfl
  rw [hfirst, if_neg (by simpa using head?_escapeRest_append cs hrest),
    radixLength?_escapeRest cs hrest]

/-- A number sign inside a symbol begins an integer or the last symbol. -/
theorem lexesTo_numberSign (cs : Text) :
    (∃ digits others, cs = digits ++ others ∧
      escapeRest (digits ++ others) = digits ++ escapeRest others ∧
      ∀ rest, Delimited rest →
        LexesTo (numberSign :: digits) [⟨.radix, numberSign :: digits⟩]
          (escapeRest others ++ rest)) ∨
      ∀ rest, Delimited rest →
        LexesTo (numberSign :: escapeRest cs) [⟨.symbol, numberSign :: escapeRest cs⟩] rest := by
  cases hradix : radixLength? cs with
  | some n =>
      rcases digits_of_radixLength? hradix with ⟨digits, others, rfl, hlength, hdigits⟩
      refine .inl ⟨digits, others, rfl, escapeRest_append hdigits others, fun rest hrest =>
        .token rfl ?_⟩
      have hfirst := first?_numberSign (digits ++ others) hrest
      rwa [hradix, escapeRest_append hdigits, List.append_assoc, ← hlength] at hfirst
  | none =>
      refine .inr fun rest hrest => .token rfl ?_
      have hlength : symbolLength (numberSign :: (escapeRest cs ++ rest)) =
          (escapeRest cs).length + 1 := by
        rw [symbolLength_cons rfl, (spellsName_escapeRest cs).symbolLength hrest]
      rw [first?_numberSign cs hrest, hradix]
      exact congrArg (fun n => some (Piece.token .symbol n)) hlength

/-! ## What is left of a symbol -/

/-- A question mark at the end takes the bracket that follows it, the same in both texts. -/
theorem Respaced.alike_questionMark {us : List Token} {r r' : Text} (h : Respaced us r r') :
    Alike us (questionMark :: r) (questionMark :: r') := by
  cases h with
  | gap hr hr' h =>
      have hone : ∀ rest, AtSpacing rest →
          LexesTo [questionMark] [⟨.symbol, [questionMark]⟩] rest := by
        intro rest hrest
        refine .token rfl ?_
        cases rest with
        | nil => rfl
        | cons c rest => rcases hrest with rfl | rfl <;> rfl
      exact h.append (hone r hr) (hone r' hr')
  | @close c r r' hc h =>
      have htwo : ∀ rest, LexesTo [questionMark, c] [⟨.char, [questionMark, c]⟩] rest := by
        intro rest
        refine .char ?_
        rcases hc with rfl | rfl <;> rfl
      exact h.append (htwo r) (htwo r')

/-- What a splice leaves of a symbol has the same tokens whatever the blanks around it. -/
theorem sameTokens_escapeRest (name : Text) : SameTokens (escapeRest name) (escapeRest name) := by
  intro us r r' hr
  -- every token but the last is taken off as a whole
  induction hn : name.length using Nat.strongRecOn generalizing name with
  | _ n ih =>
    cases name with
    | nil => exact hr.alike
    | cons c cs =>
        subst hn
        have hshorter : ∀ digits others : Text, cs = digits ++ others →
            Alike us (escapeRest others ++ r) (escapeRest others ++ r') := by
          rintro digits others rfl
          refine ih others.length ?_ others rfl
          rw [List.length_cons, List.length_append]
          omega
        by_cases hquestion : c = questionMark
        · have hplain : escapeRest (c :: cs) = questionMark :: escapeRest cs := by
            rw [hquestion, escapeRest_cons]
            rfl
          rw [hplain]
          cases cs with
          | nil => exact hr.alike_questionMark
          | cons d cs =>
              have hchar := lexesTo_char_escaped d
              rw [escapeRest_cons, ← List.cons_append, List.append_assoc, List.append_assoc]
              exact (hshorter [d] cs rfl).append (hchar _) (hchar _)
        by_cases hnumber : c = numberSign
        · have hplain : escapeRest (c :: cs) = numberSign :: escapeRest cs := by
            rw [hnumber, escapeRest_cons]
            rfl
          rw [hplain]
          rcases lexesTo_numberSign cs with ⟨digits, others, rfl, hescape, hradix⟩ | hsymbol
          · rw [hescape, ← List.cons_append, List.append_assoc, List.append_assoc]
            exact (hshorter digits others rfl).append (hradix r hr.delimited.1)
              (hradix r' hr.delimited.2)
          · exact hr.alike.append (hsymbol r hr.delimited.1) (hsymbol r' hr.delimited.2)
        -- any other character begins the last symbol
        · have hspells := spellsName_escapeRest (c :: cs)
          have hsymbol : ∀ rest, Delimited rest →
              LexesTo (escapeRest (c :: cs)) [⟨.symbol, escapeRest (c :: cs)⟩] rest := by
            intro rest hrest
            rw [escapeRest_cons] at hspells ⊢
            rcases escaped_cases c with ⟨-, heq⟩ | ⟨-, heq⟩
            · rw [heq] at hspells ⊢
              exact .symbol hspells (by decide) (by decide) hrest
            · rw [heq] at hspells ⊢
              exact .symbol hspells hquestion hnumber hrest
          exact SameTokens.of_lexesTo hsymbol us r r' hr

end Token

end LispNamespace
