import LispNamespace.Tree.Source
import LispNamespace.Token.Literal
import LispNamespace.Proofs.Reading.Forms
import LispNamespace.Proofs.Reading.Lexing

/-!
# Strings and characters as source text

A literal that the reader made stands in a printed tree as it was written, and is read there as the
same token. For a string that is so in front of anything. A character has to end where it ended
before: its escape may not go on into what follows it, which no delimiter allows, and a modifier
alone, which is a character to the lexer, denotes none. The text of a string that the program made
denotes the string.
-/

namespace LispNamespace

open Text

namespace Token

/-! ## Strings -/

/-- A string ends where it ends, whatever follows. -/
theorem stringLength?_append {cs : Text} {n : Nat} (h : stringLength? cs = some n) (rest : Text) :
    stringLength? (cs ++ rest) = some n := by
  fun_induction stringLength? cs generalizing n with
  | case1 c cs ih =>
      rcases Option.map_eq_some_iff.1 h with ⟨m, hm, rfl⟩
      rw [List.cons_append, List.cons_append, stringLength?, ih hm]
      rfl
  | case2 cs =>
      cases h
      rfl
  | case3 => cases h
  | case4 c cs hescape hquote halone ih =>
      rcases Option.map_eq_some_iff.1 h with ⟨m, hm, rfl⟩
      -- a backslash would have been read with the character after it
      have hne : c ≠ backslash := ne_backslash hescape halone
      rw [List.cons_append, stringLength?, ih hm]
      · rfl
      · exact fun _ _ hc _ => hne hc
      · exact hquote
      · exact fun hc _ => hne hc
  | case5 => cases h

/-! ## Characters -/

/-- A row of characters that ends inside a text ends there whatever follows. -/
theorem countWhile_append_of_lt {test : Nat → Bool} {cs : Text} (h : countWhile test cs < cs.length)
    (rest : Text) : countWhile test (cs ++ rest) = countWhile test cs := by
  unfold countWhile at h ⊢
  induction cs with
  | nil => exact absurd h (Nat.lt_irrefl _)
  | cons c cs ih =>
      rw [List.takeWhile_cons] at h
      rw [List.cons_append, List.takeWhile_cons, List.takeWhile_cons]
      split
      · next htest =>
        rw [if_pos htest, List.length_cons, List.length_cons] at h
        rw [List.length_cons, List.length_cons, ih (Nat.lt_of_succ_lt_succ h)]
      · rfl

/-- A name in braces that extends over a whole text ends there whatever follows. -/
theorem nameLength?_append {cs rest : Text} (h : (nameLength? cs).getD 0 = cs.length)
    (hrest : Delimited rest) : (nameLength? (cs ++ rest)).getD 0 = cs.length := by
  cases cs with
  | nil =>
      cases rest with
      | nil => rfl
      | cons c rest => rcases hrest with rfl | rfl | rfl | rfl <;> rfl
  | cons c cs =>
      unfold nameLength? at h
      split at h
      · next inner heq =>
        rcases List.cons.inj heq with ⟨rfl, rfl⟩
        simp only at h
        split at h
        · next hlt =>
          have hinside := countWhile_append_of_lt hlt rest
          have hlt' : countWhile (· != closeBrace) cs < (cs ++ rest).length := by
            rw [List.length_append]
            omega
          rw [List.cons_append, nameLength?]
          simp only [hinside]
          rw [if_pos hlt']
          exact h
        · cases h
      · cases h

/-- An escape that extends over a whole text ends there also in front of a delimited text. -/
theorem escapeLength_append {c : Nat} {cs rest : Text}
    (h : escapeLength (c :: cs) = (c :: cs).length) (hrest : Delimited rest) :
    escapeLength (c :: (cs ++ rest)) = (c :: cs).length := by
  have hoctal : countWhile isOctal (c :: (cs ++ rest)) = countWhile isOctal (c :: cs) :=
    countWhile_append hrest (by decide) (c :: cs)
  have hhex : countWhile isHex (cs ++ rest) = countWhile isHex cs :=
    countWhile_append hrest (by decide) cs
  by_cases hname : c = 'N'.toNat
  · subst hname
    have hlength : (nameLength? cs).getD 0 = cs.length := Nat.succ.inj h
    exact congrArg Nat.succ (nameLength?_append hlength hrest)
  -- every other escape is a row of digits, and no delimiter is one
  · rw [← h]
    simp only [escapeLength, hoctal, hhex, beq_iff_eq, if_neg hname]

/-- A hyphen ends every escape after its letter. -/
theorem escapeLength_hyphen (c : Nat) (cs : Text) : escapeLength (c :: hyphen :: cs) = 1 := by
  have hhex : countWhile isHex (hyphen :: cs) = 0 := rfl
  have hname : nameLength? (hyphen :: cs) = none := rfl
  unfold escapeLength
  simp only [hhex, hname]
  split
  · next hoctal =>
    have hone : countWhile isOctal (c :: hyphen :: cs) = 1 := by
      rw [countWhile, List.takeWhile_cons_of_pos hoctal]
      rfl
    rw [hone]
    rfl
  · repeat' split
    all_goals first | rfl | contradiction

/-- The letters of the modifiers are those that the lexer knows. -/
theorem modifier?_of_isModifierLetter {c : Nat} (h : isModifierLetter c = true) :
    ∃ modifier, Literal.modifier? .character c = some modifier := by
  have hletters : ∀ c ∈ ("CMSHAs" : Text), (Literal.modifier? .character c).isSome = true := by
    decide
  exact Option.isSome_iff_exists.1 (hletters c (List.contains_iff_mem.1 h))

/-- A modifier that decodes has a character after it that does. -/
theorem decodeChar_of_modify [CharNames] {setting : Literal.Setting} {modifier : Literal.Modifier}
    {body cs : Text} {decoded : Option Nat × Text}
    (h : (if cs.isEmpty = true then .error (.modifierAlone body)
      else Literal.decodeChar setting body cs >>= Literal.modify setting body modifier) =
        .ok decoded) :
    cs ≠ [] ∧ ∃ inner, Literal.decodeChar setting body cs = .ok inner := by
  split at h
  · cases h
  · next hne =>
    refine ⟨fun hnil => hne (hnil ▸ rfl), ?_⟩
    cases hinner : Literal.decodeChar setting body cs with
    | error e =>
        rw [hinner] at h
        cases h
    | ok inner => exact ⟨inner, rfl⟩

/-- A character that extends over a whole text and denotes something ends there also in front of a
delimited text. -/
theorem charLength?_append [CharNames] {body cs rest : Text}
    (hlength : charLength? cs = some cs.length) {decoded : Option Nat × Text}
    (hdecode : Literal.decodeChar .character body cs = .ok decoded)
    (hrest : Delimited rest) : charLength? (cs ++ rest) = some cs.length := by
  fun_induction charLength? cs generalizing decoded with
  | case1 cs ih =>
      -- control is a character of its own to the lexer when nothing follows, but denotes none
      rw [Literal.decodeChar] at hdecode
      rcases decodeChar_of_modify hdecode with ⟨hne, inner, hinner⟩
      have hgetD : (charLength? cs).getD 0 = cs.length := by simpa using hlength
      have hcs : charLength? cs = some cs.length := by
        cases heq : charLength? cs with
        | none =>
            rw [heq] at hgetD
            exact absurd (List.length_eq_zero_iff.1 hgetD.symm) hne
        | some n =>
            rw [heq] at hgetD
            exact congrArg some hgetD
      rw [List.cons_append, List.cons_append, charLength?, ih hcs hinner]
      rfl
  -- a modifier and the character that it modifies
  | case2 c cs hcaret hmodifier n hn ih =>
      rcases modifier?_of_isModifierLetter hmodifier with ⟨modifier, hknown⟩
      rw [Literal.decodeChar] at hdecode
      · rw [hknown] at hdecode
        rcases decodeChar_of_modify hdecode with ⟨-, inner, hinner⟩
        have hcs : charLength? cs = some cs.length := by
          rw [hn]
          simpa using hlength
        rw [List.cons_append, List.cons_append, List.cons_append, charLength?, if_pos hmodifier,
          ih hcs hinner]
        · rfl
        · exact hcaret
      · exact hcaret
  | case3 => simp at hlength
  | case4 c cs =>
      rw [escapeLength_hyphen] at hlength
      simp at hlength
  -- an escape, perhaps by the letter of a modifier, which needs a hyphen after it
  | case5 c cs hcaret hhyphen =>
      have hescape : escapeLength (c :: cs) = (c :: cs).length := by simpa using hlength
      have happend := escapeLength_append hescape hrest
      have hhyphen' : ∀ others, cs ++ rest ≠ hyphen :: others := by
        intro others heq
        cases cs with
        | nil =>
            cases rest with
            | nil => cases heq
            | cons d rest =>
                rcases List.cons.inj heq with ⟨rfl, -⟩
                rcases hrest with hd | hd | hd | hd <;> cases hd
        | cons d cs => exact hhyphen cs (congrArg (· :: cs) (List.cons.inj heq).1)
      rw [List.cons_append, List.cons_append, charLength?, happend]
      · rfl
      · exact hcaret
      · exact hhyphen'
  | case6 => cases hlength
  | case7 => cases hlength
  -- a character that stands for itself
  | case8 c cs _ _ hescape halone hblank =>
      have hcs : cs = [] := by simpa using hlength
      subst hcs
      have hne : c ≠ backslash := fun hc => halone hc rfl
      rw [List.cons_append, List.nil_append, charLength?, if_neg hblank]
      · rfl
      · exact fun _ hc _ => hne hc
      · exact fun _ _ hc _ => hne hc
      · exact fun _ _ hc _ => hne hc
      · exact fun hc _ => hne hc
  | case9 => cases hlength

/-! ## The tokens of literals -/

/-- Where the first token is a literal, its opening character and its length say which one. -/
theorem first?_literal {c : Nat} {cs : Text} {kind : TokenKind} {n : Nat}
    (h : first? c cs = some (.token kind n)) :
    (kind = .string → c = doubleQuote ∧ ∃ m, stringLength? cs = some m ∧ n = m + 1) ∧
      (kind = .char → c = questionMark ∧ ∃ m, charLength? cs = some m ∧ n = m + 1) := by
  unfold first? at h
  split at h
  · next single hsingle =>
    -- a bracket or a quote is no literal
    cases h
    unfold singleKind? at hsingle
    split at hsingle <;> cases hsingle <;> simp
  · split at h
    · cases h
    · cases h
      simp
    · rcases Option.map_eq_some_iff.1 h with ⟨m, hm, heq⟩
      cases heq
      exact ⟨fun _ => ⟨rfl, m, hm, rfl⟩, fun h => nomatch h⟩
    · split at h
      · next m hm =>
        cases h
        exact ⟨(fun h => nomatch h), fun _ => ⟨rfl, m, hm, rfl⟩⟩
      · cases h
        simp
    · split at h
      · cases h
        simp
      · split at h <;> cases h <;> simp
    · cases h
      simp

/-- A string that ends at its last character is one token. -/
theorem LexesTo.string {cs rest : Text} (h : stringLength? cs = some cs.length) :
    LexesTo (doubleQuote :: cs) [⟨.string, doubleQuote :: cs⟩] rest := by
  refine .token rfl ?_
  have hfirst : first? doubleQuote (cs ++ rest) =
      (stringLength? (cs ++ rest)).map fun n => .token .string (n + 1) := rfl
  rw [hfirst, stringLength?_append h]
  rfl

/-- A character literal is one token up to the end of its character. -/
theorem LexesTo.char {cs rest : Text} (h : charLength? (cs ++ rest) = some cs.length) :
    LexesTo (questionMark :: cs) [⟨.char, questionMark :: cs⟩] rest := by
  refine .token rfl ?_
  unfold first?
  rw [h]
  rfl

end Token

namespace Atom

/-- What a symbol token denotes is no literal. -/
theorem ofSymbolToken_ne_literal (text : Text) :
    (∀ value written, ofSymbolToken text ≠ .lit value written) ∧
      ∀ code written, ofSymbolToken text ≠ .char code written := by
  unfold ofSymbolToken
  split
  · constructor <;> intro _ _ h <;> cases h
  · split
    · constructor <;> intro _ _ h <;> cases h
    · split
      · constructor <;> intro _ _ h <;> cases h
      · constructor <;> intro _ _ h <;> cases h

variable [CharNames]

/-- A literal is denoted by the string token or the character token of its text. -/
theorem ofToken?_cases {t : Token} {form : Tree} (h : ofToken? t = some (.ok form)) :
    (form = ofSymbolToken t.text ∨ form = ofRadixToken t.text) ∨
      (t.kind = .string ∧
        ∃ value, Literal.decodeString t.text = .ok value ∧ form = .lit value t.text) ∨
      (t.kind = .char ∧
        ∃ code, Literal.decodeCharacter t.text = .ok code ∧ form = .char code t.text) := by
  -- the kinds of tokens in the order in which they are tried
  unfold ofToken? at h
  split at h
  · exact .inl (.inl (Except.ok.inj (Option.some.inj h)).symm)
  · exact .inl (.inr (Except.ok.inj (Option.some.inj h)).symm)
  · next hkind =>
    simp only [Option.some.injEq] at h
    cases hdecode : Literal.decodeString t.text with
    | error e =>
        rw [hdecode] at h
        cases h
    | ok value =>
        rw [hdecode] at h
        cases h
        exact .inr (.inl ⟨hkind, value, rfl, rfl⟩)
  · next hkind =>
    simp only [Option.some.injEq] at h
    cases hdecode : Literal.decodeCharacter t.text with
    | error e =>
        rw [hdecode] at h
        cases h
    | ok code =>
        rw [hdecode] at h
        cases h
        exact .inr (.inr ⟨hkind, code, rfl, rfl⟩)
  · cases h

/-- Only the token of its text denotes a string of the source. -/
theorem eq_of_ofToken?_lit {t : Token} {value written : Text}
    (h : ofToken? t = some (.ok (.lit value written))) :
    t = ⟨.string, written⟩ ∧ Literal.decodeString written = .ok value := by
  rcases t with ⟨kind, text⟩
  rcases ofToken?_cases h with (hsymbol | hradix) | ⟨rfl, _, hdecode, hform⟩ | ⟨-, _, -, hform⟩
  · exact absurd hsymbol.symm ((ofSymbolToken_ne_literal text).1 _ _)
  · cases hradix
  · cases hform
    exact ⟨rfl, hdecode⟩
  · cases hform

/-- Only the token of its text denotes a character of the source. -/
theorem eq_of_ofToken?_char {t : Token} {code : Nat} {written : Text}
    (h : ofToken? t = some (.ok (.char code written))) :
    t = ⟨.char, written⟩ ∧ Literal.decodeCharacter written = .ok code := by
  rcases t with ⟨kind, text⟩
  rcases ofToken?_cases h with (hsymbol | hradix) | ⟨-, _, -, hform⟩ | ⟨rfl, _, hdecode, hform⟩
  · exact absurd hsymbol.symm ((ofSymbolToken_ne_literal text).2 _ _)
  · cases hradix
  · cases hform
  · cases hform
    exact ⟨rfl, hdecode⟩

end Atom

namespace Tree

open Token

/-- Whether only a token of its own can spell the tree. -/
def isAtom : Tree → Bool
  | .nil | .list _ | .vec _ | .dot _ _ => false
  | _ => true

variable [CharNames]

/-- A form without parts is spelled by one token. -/
theorem Spells.of_isAtom {ts : List Token} {form : Tree} (h : Spells ts form)
    (hform : form.isAtom = true) : ∃ t, ts = [t] ∧ Atom.ofToken? t = some (.ok form) := by
  cases h with
  | @atom t _ hatom => exact ⟨t, rfl, hatom⟩
  | shorthand => cases hform
  | @list _ _ _ items =>
      cases items with
      | nil => cases hform
      | cons item items => cases hform
  | dot => cases hform
  | vec => cases hform

/-- A text that is read as an atom is the only token of it. -/
theorem lex_of_readOne {source : Text} {form : Tree} (h : readOne source = .ok form)
    (hform : form.isAtom = true) :
    ∃ t, (lex source).tokens = [t] ∧ Atom.ofToken? t = some (.ok form) :=
  (readOne_eq_ok_iff.1 h).2.of_isAtom hform

/-- A string that the reader made is written as a string token. -/
theorem eq_of_readOne_lit {value written : Text}
    (h : readOne written = .ok (.lit value written)) :
    Literal.decodeString written = .ok value ∧
      ∃ cs, written = doubleQuote :: cs ∧ stringLength? cs = some cs.length := by
  rcases lex_of_readOne h rfl with ⟨t, htokens, hatom⟩
  rcases Atom.eq_of_ofToken?_lit hatom with ⟨rfl, hdecode⟩
  rcases first?_of_lex_eq htokens with ⟨c, cs, rfl, -, hfirst⟩
  rcases (first?_literal hfirst).1 rfl with ⟨rfl, n, hlength, hn⟩
  cases Nat.succ.inj hn
  exact ⟨hdecode, cs, rfl, hlength⟩

/-- A character that the reader made is written as a character token. -/
theorem eq_of_readOne_char {code : Nat} {written : Text}
    (h : readOne written = .ok (.char code written)) :
    Literal.decodeCharacter written = .ok code ∧
      ∃ cs, written = questionMark :: cs ∧ charLength? cs = some cs.length := by
  rcases lex_of_readOne h rfl with ⟨t, htokens, hatom⟩
  rcases Atom.eq_of_ofToken?_char hatom with ⟨rfl, hdecode⟩
  rcases first?_of_lex_eq htokens with ⟨c, cs, rfl, -, hfirst⟩
  rcases (first?_literal hfirst).2 rfl with ⟨rfl, n, hlength, hn⟩
  cases Nat.succ.inj hn
  exact ⟨hdecode, cs, rfl, hlength⟩

/-- A string that the reader made has its text as its token, in front of anything. -/
theorem lexesTo_of_readOne_lit {value written : Text}
    (h : readOne written = .ok (.lit value written)) (rest : Text) :
    LexesTo written [⟨.string, written⟩] rest := by
  rcases eq_of_readOne_lit h with ⟨-, cs, rfl, hlength⟩
  exact .string hlength

/-- A character that the reader made has its text as its token, in front of every delimited
text. -/
theorem lexesTo_of_readOne_char {code : Nat} {written rest : Text}
    (h : readOne written = .ok (.char code written)) (hrest : Delimited rest) :
    LexesTo written [⟨.char, written⟩] rest := by
  rcases eq_of_readOne_char h with ⟨hdecode, cs, rfl, hlength⟩
  unfold Literal.decodeCharacter at hdecode
  cases hdecoded : Literal.decodeChar .character (questionMark :: cs) cs with
  | error e =>
      rw [List.drop_one, List.tail_cons, hdecoded] at hdecode
      cases hdecode
  | ok decoded => exact .char (charLength?_append hlength hdecoded hrest)

end Tree

/-! ## Strings made by the program -/

namespace Literal

variable [CharNames]

/-- What is decoded at the front of a text stands before what is decoded after it. -/
theorem decodeAll_ok {body cs rest : Text} {code : Option Nat} (hcs : cs ≠ [])
    (h : decodeChar .string body cs = .ok (code, rest)) :
    decodeAll body cs = (decodeAll body rest).map fun codes => code.toList ++ codes := by
  conv => lhs; unfold decodeAll
  rw [if_neg (by simpa using hcs)]
  split
  · next heq =>
    rw [h] at heq
    cases heq
  · next heq =>
    rw [h] at heq
    cases heq
    rfl

/-- A character that is decoded stands before those that are decoded after it. -/
theorem decodeAll_of_decodeChar {body cs rest : Text} {code : Nat}
    (h : decodeChar .string body cs = .ok (some code, rest)) :
    decodeAll body cs = (decodeAll body rest).map (code :: ·) := by
  have hne : cs ≠ [] := by
    rintro rfl
    cases h
  rw [decodeAll_ok hne h]
  rfl

/-- A backslash before a backslash or a double quote makes it part of the string. -/
theorem decodeChar_escaped {body : Text} {c : Nat} (h : c = backslash ∨ c = doubleQuote)
    (rest : Text) : decodeChar .string body (backslash :: c :: rest) = .ok (some c, rest) := by
  have hescape : decodeEscape body (c :: rest) = .ok (some c, rest) := by
    rcases h with rfl | rfl <;> rfl
  have hmodifier : modifier? .string c = none := by
    rcases h with rfl | rfl <;> rfl
  have hcaret : c ≠ caret := by
    rcases h with rfl | rfl <;> decide
  unfold decodeChar
  split
  · next heq =>
    cases heq
    exact absurd rfl hcaret
  · next heq =>
    cases heq
    rw [hmodifier]
    exact hescape
  · next heq =>
    cases heq
    exact hescape
  · next hne heq =>
    cases heq
    exact (hne rfl).elim
  · next heq => cases heq

theorem decodeChar_plain {setting : Setting} {body : Text} {c : Nat} (h : c ≠ backslash)
    (rest : Text) : decodeChar setting body (c :: rest) = .ok (some c, rest) := by
  unfold decodeChar
  split
  · next heq =>
    cases heq
    exact absurd rfl h
  · next heq =>
    cases heq
    exact absurd rfl h
  · next heq =>
    cases heq
    exact absurd rfl h
  · next heq =>
    cases heq
    rfl
  · next heq => cases heq

end Literal

namespace Tree

open Token

/-- A character of a string, escaped where it would end the string or begin an escape. -/
def escapeInString (c : Nat) : Text :=
  if c == backslash || c == doubleQuote then [backslash, c] else [c]

theorem stringSource_eq (value : Text) :
    stringSource value = doubleQuote :: (value.flatMap escapeInString ++ [doubleQuote]) := rfl

/-- The string ends with the quote that was put at its end. -/
theorem stringLength?_escaped (value : Text) :
    stringLength? (value.flatMap escapeInString ++ [doubleQuote]) =
      some (value.flatMap escapeInString ++ [doubleQuote]).length := by
  induction value with
  | nil => rfl
  | cons c value ih =>
      rw [List.flatMap_cons, List.append_assoc, escapeInString]
      split
      · rw [List.cons_append, List.cons_append, List.nil_append, stringLength?, ih]
        rfl
      · next hplain =>
        simp only [Bool.or_eq_true, beq_iff_eq, not_or] at hplain
        rw [List.cons_append, List.nil_append, stringLength?, ih]
        · rfl
        · exact fun _ _ hc _ => hplain.1 hc
        · exact hplain.2
        · exact fun hc _ => hplain.1 hc

/-- What is escaped is decoded to what it was. -/
theorem decodeAll_escaped [CharNames] (body value : Text) :
    Literal.decodeAll body (value.flatMap escapeInString) = .ok value := by
  induction value with
  | nil =>
      rw [List.flatMap_nil, Literal.decodeAll]
      rfl
  | cons c value ih =>
      have hchar : Literal.decodeChar .string body ((c :: value).flatMap escapeInString) =
          .ok (some c, value.flatMap escapeInString) := by
        rw [List.flatMap_cons, escapeInString]
        split
        · next hescape =>
          simp only [Bool.or_eq_true, beq_iff_eq] at hescape
          exact Literal.decodeChar_escaped hescape _
        · next hplain =>
          simp only [Bool.or_eq_true, beq_iff_eq, not_or] at hplain
          exact Literal.decodeChar_plain hplain.1 _
      rw [Literal.decodeAll_of_decodeChar hchar, ih]
      rfl

/-- The text of a string denotes the string. -/
theorem decodeString_stringSource [CharNames] (value : Text) :
    Literal.decodeString (stringSource value) = .ok value := by
  rw [stringSource_eq, Literal.decodeString, List.drop_one, List.tail_cons, List.dropLast_concat]
  exact decodeAll_escaped _ value

/-- The text of a string made by the program is a token in front of anything. -/
theorem lexesTo_stringSource (value rest : Text) :
    LexesTo (stringSource value) [⟨.string, stringSource value⟩] rest := by
  rw [stringSource_eq]
  exact .string (stringLength?_escaped value)

end Tree

end LispNamespace
