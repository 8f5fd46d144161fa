import LispNamespace.Proofs.Reading.Literals

/-!
# What decoding a literal can do

The escapes and the modifiers of a literal have few outcomes. From these follow, for every text, that
decoding leaves an end of the text, that it misses no character after a backslash where each backslash has
one, and that the codes it finds are codes of characters, with modifier bits above them at most.
-/

namespace LispNamespace

open Text

namespace Literal

/-! ## What an escape can be -/

/-- The outcomes of an escape with the letter `c` that `cs` follows: the text that belongs to it is
nothing, a row of digits, or a name in braces. -/
inductive Escapes [CharNames] (body : Text) (c : Nat) (cs : Text) :
    Except ReadError (Option Nat × Nat) → Prop where
  | lineEnd : Escapes body c cs (.ok (none, 0))
  | letter {code : Nat} (hcode : code = c ∨ code ≤ 0x7f) : Escapes body c cs (.ok (some code, 0))
  | number {digits rest : Text} (value : Nat) (htext : cs = digits ++ rest)
      (hdigits : ∀ d ∈ digits, isHex d = true) :
      Escapes body c cs ((charCode value).map (some ·, digits.length))
  | name {name rest : Text} (htext : cs = openBrace :: (name ++ closeBrace :: rest)) :
      Escapes body c cs ((namedCode name).map (some ·, name.length + 2))
  | invalid : Escapes body c cs (.error (.invalidEscape c body))
  | unterminated : Escapes body c cs (.error (.unterminatedName body))

theorem escapedLetter?_le {c code : Nat} (h : escapedLetter? c = some code) : code ≤ 0x7f := by
  have hall : ∀ entry ∈ escapedLetters, entry.2 ≤ 0x7f := by decide
  rcases Option.map_eq_some_iff.1 h with ⟨entry, hfind, rfl⟩
  exact hall entry (List.mem_of_find?_eq_some hfind)

/-- Up to three octal digits count, the letter of the escape among them. -/
theorem Escapes.octal [CharNames] (body : Text) {c : Nat} (hc : isOctal c = true) (cs : Text) (value : Nat) :
    Escapes body c cs
      ((charCode value).map (some ·, (((c :: cs).takeWhile isOctal).take 3).length - 1)) := by
  have hlength : (((c :: cs).takeWhile isOctal).take 3).length - 1 =
      ((cs.takeWhile isOctal).take 2).length := by
    rw [List.takeWhile_cons_of_pos hc, List.take_succ_cons]
    rfl
  have htext : cs = (cs.takeWhile isOctal).take 2 ++
      ((cs.takeWhile isOctal).drop 2 ++ cs.dropWhile isOctal) := by
    rw [← List.append_assoc, List.take_append_drop, List.takeWhile_append_dropWhile]
  rw [hlength]
  refine .number value htext fun d hd => isHex_of_isOctal ?_
  exact List.all_eq_true.1 List.all_takeWhile d (List.mem_of_mem_take hd)

/-- A row of digits of a fixed width is all there, or the escape is none. -/
theorem Escapes.fixed [CharNames] (body : Text) (c : Nat) (cs : Text) (width value : Nat) :
    Escapes body c cs
      (if (cs.take width).length == width && (cs.take width).all isHex then
        (charCode value).map (some ·, width)
      else .error (.invalidEscape c body)) := by
  split
  · next hwidth =>
    rw [Bool.and_eq_true, beq_iff_eq] at hwidth
    have hnumber : Escapes body c cs ((charCode value).map (some ·, (cs.take width).length)) :=
      .number value (List.take_append_drop width cs).symm (List.all_eq_true.1 hwidth.2)
    rwa [hwidth.1] at hnumber
  · exact .invalid

/-- A name in braces is there when its closing brace is. -/
theorem Escapes.braced [CharNames] (body : Text) (c : Nat) {cs : Text}
    (hopen : cs.head? = some openBrace)
    (hclosed : (cs.tail.takeWhile (· != closeBrace)).length < cs.tail.length) :
    Escapes body c cs ((namedCode (cs.tail.takeWhile (· != closeBrace))).map
      (some ·, (cs.tail.takeWhile (· != closeBrace)).length + 2)) := by
  rcases cs with _ | ⟨d, cs⟩
  · cases hopen
  obtain rfl : d = openBrace := Option.some.inj hopen
  rw [List.tail_cons] at hclosed ⊢
  rcases Token.takeWhile_cases closeBrace cs with heq | ⟨rest, heq⟩
  · rw [heq] at hclosed
    exact absurd hclosed (Nat.lt_irrefl _)
  · exact .name (congrArg _ heq)

/-- Every escape has one of these outcomes. -/
theorem escapes [CharNames] (body : Text) (c : Nat) (cs : Text) :
    Escapes body c cs (escape body c cs) := by
  unfold escape
  split
  · exact .lineEnd
  · split
    · next hletter => exact .letter (.inr (escapedLetter?_le hletter))
    · split
      · dsimp only
        split
        · exact .invalid
        · refine .number _ List.takeWhile_append_dropWhile.symm fun d hd => ?_
          exact List.all_eq_true.1 List.all_takeWhile d hd
      · split
        · next hoctal => exact .octal body hoctal cs _
        · split
          · exact .fixed body c cs _ _
          · split
            · next hname =>
              simp only [Bool.and_eq_true, beq_iff_eq] at hname
              dsimp only
              split
              · next hclosed => exact .braced body c hname.2 hclosed
              · exact .unterminated
            · exact .letter (.inl rfl)

theorem map_eq_ok {α β : Type} {result : Except ReadError α} {f : α → β} {b : β}
    (h : result.map f = .ok b) : ∃ a, result = .ok a ∧ f a = b := by
  cases result with
  | error error => cases h
  | ok a => exact ⟨a, rfl, Except.ok.inj h⟩

/-- No escape goes on past the end. -/
theorem escape_le [CharNames] {body cs : Text} {c n : Nat} {code : Option Nat}
    (h : escape body c cs = .ok (code, n)) : n ≤ cs.length := by
  have hescapes := escapes body c cs
  generalize escape body c cs = result at h hescapes
  cases hescapes with
  | lineEnd =>
      cases h
      exact Nat.zero_le _
  | letter =>
      cases h
      exact Nat.zero_le _
  | number value htext =>
      rcases map_eq_ok h with ⟨found, -, heq⟩
      cases heq
      rw [htext, List.length_append]
      exact Nat.le_add_right _ _
  | name htext =>
      rcases map_eq_ok h with ⟨found, -, heq⟩
      cases heq
      rw [htext, List.length_cons, List.length_append, List.length_cons]
      omega
  | invalid => cases h
  | unterminated => cases h

/-! ## What decoding a character can be -/

/-- The outcomes of decoding the character at the front of a text. -/
inductive Decodes [CharNames] (setting : Setting) (body : Text) :
    Text → Except ReadError (Option Nat × Text) → Prop where
  | alone {front : Text} (hfront : front ≠ []) : Decodes setting body front (.error (.modifierAlone body))
  | control {cs : Text} {result : Except ReadError (Option Nat × Text)} (hcs : cs ≠ [])
      (h : Decodes setting body cs result) :
      Decodes setting body (backslash :: caret :: cs) (result >>= modify setting body .control)
  | lettered {c : Nat} {modifier : Modifier} {cs : Text} {result : Except ReadError (Option Nat × Text)}
      (hcs : cs ≠ []) (h : Decodes setting body cs result) :
      Decodes setting body (backslash :: c :: hyphen :: cs) (result >>= modify setting body modifier)
  | escape (c : Nat) (cs : Text) :
      Decodes setting body (backslash :: c :: cs)
        ((escape body c cs).map fun found => (found.1, cs.drop found.2))
  | plain {c : Nat} (hc : c ≠ backslash) (cs : Text) : Decodes setting body (c :: cs) (.ok (some c, cs))
  | nothing {cs : Text} (hcs : cs = [] ∨ cs = [backslash]) :
      Decodes setting body cs (.error (.danglingEscape body))

/-- Every character has one of these outcomes. -/
theorem decodes [CharNames] (setting : Setting) (body cs : Text) :
    Decodes setting body cs (decodeChar setting body cs) := by
  fun_induction decodeChar setting body cs with
  | case1 cs hempty => exact .alone (List.cons_ne_nil _ _)
  | case2 cs hempty ih => exact .control (fun hnil => hempty (hnil ▸ rfl)) ih
  | case3 c cs hcaret modifier hmodifier hempty => exact .alone (List.cons_ne_nil _ _)
  | case4 c cs hcaret modifier hmodifier hempty ih =>
      exact .lettered (fun hnil => hempty (hnil ▸ rfl)) ih
  | case5 c cs hcaret hmodifier => exact .escape c (hyphen :: cs)
  | case6 cs hcaret hhyphen =>
      cases cs with
      | nil => exact .nothing (.inr rfl)
      | cons c cs => exact .escape c cs
  | case7 c cs hcaret hhyphen hslash => exact .plain hslash cs
  | case8 => exact .nothing (.inl rfl)

variable {setting : Setting} {body cs rest : Text} {code : Option Nat}

/-- What a modifier is put on decodes to a code without it. -/
theorem bind_modify_eq_ok {result : Except ReadError (Option Nat × Text)} {modifier : Modifier}
    (h : (result >>= modify setting body modifier) = .ok (code, rest)) :
    ∃ inner outer, result = .ok (some inner, rest) ∧ applyModifier setting modifier inner = .ok outer ∧
      code = some outer := by
  rcases result with error | ⟨inner, left⟩
  · cases h
  · obtain rfl : rest = left := modify_rest h
    cases inner with
    | none => cases h
    | some inner =>
        rcases map_eq_ok h with ⟨outer, happly, heq⟩
        cases heq
        exact ⟨inner, outer, rfl, happly, rfl⟩

/-- What is left is an end of the text. -/
theorem decodeChar_suffix [CharNames] (h : decodeChar setting body cs = .ok (code, rest)) :
    rest <:+ cs := by
  have hdecodes := decodes setting body cs
  generalize decodeChar setting body cs = result at h hdecodes
  induction hdecodes generalizing code with
  | alone | nothing => cases h
  | control hcs _ ih =>
      rcases bind_modify_eq_ok h with ⟨inner, outer, hinner, -, -⟩
      exact (ih hinner).trans (List.suffix_append [backslash, caret] _)
  | @lettered c _ _ _ hcs _ ih =>
      rcases bind_modify_eq_ok h with ⟨inner, outer, hinner, -, -⟩
      exact (ih hinner).trans (List.suffix_append [backslash, c, hyphen] _)
  | escape c cs =>
      rcases map_eq_ok h with ⟨found, -, heq⟩
      cases heq
      exact (List.drop_suffix _ _).trans (List.suffix_append [backslash, c] cs)
  | plain hc cs =>
      cases h
      exact List.suffix_cons _ _

/-! ## Backslashes with a character after them -/

/-- Every backslash that escapes has the character that it escapes after it. -/
inductive Paired : Text → Prop where
  | nil : Paired []
  | plain {c : Nat} {cs : Text} (hc : c ≠ backslash) (h : Paired cs) : Paired (c :: cs)
  | escape (c : Nat) {cs : Text} (h : Paired cs) : Paired (backslash :: c :: cs)

/-- What is decoded does not end with the complaint that a backslash has nothing after it. -/
def NeverDangles {α : Type} (result : Except ReadError α) : Prop :=
  ∀ body, result ≠ .error (.danglingEscape body)

theorem NeverDangles.map {α β : Type} {result : Except ReadError α} (h : NeverDangles result)
    (f : α → β) : NeverDangles (result.map f) := by
  cases result with
  | error error =>
      intro body heq
      exact h body (congrArg Except.error (Except.error.inj heq))
  | ok a =>
      intro body heq
      cases heq

theorem NeverDangles.bind {α β : Type} {result : Except ReadError α} {f : α → Except ReadError β}
    (h : NeverDangles result) (hf : ∀ a, NeverDangles (f a)) : NeverDangles (result >>= f) := by
  cases result with
  | error error =>
      intro body heq
      exact h body (congrArg Except.error (Except.error.inj heq))
  | ok a => exact hf a

/-- None of the steps that decoding is made of makes the complaint, except for the one that meets
the backslash. -/
theorem neverDangles_charCode (n : Nat) : NeverDangles (charCode n) := by
  intro body h
  unfold charCode at h
  split at h
  · cases h
  · split at h <;> cases h

theorem neverDangles_namedCode [CharNames] (name : Text) : NeverDangles (namedCode name) := by
  intro body h
  unfold namedCode at h
  split at h
  · split at h
    · cases h
    · split at h
      · cases h
      · split at h <;> cases h
  · split at h <;> cases h

theorem neverDangles_escape [CharNames] (body : Text) (c : Nat) (cs : Text) :
    NeverDangles (escape body c cs) := by
  have hescapes := escapes body c cs
  generalize escape body c cs = result at hescapes
  cases hescapes with
  | number value => exact (neverDangles_charCode value).map _
  | name => exact (neverDangles_namedCode _).map _
  | _ =>
    intro body' h
    cases h

theorem neverDangles_applyModifier (setting : Setting) (modifier : Modifier) (code : Nat) :
    NeverDangles (applyModifier setting modifier code) := by
  intro body h
  unfold applyModifier at h
  split at h
  · unfold applyControl at h
    dsimp only at h
    split at h
    · cases h
    · split at h
      · cases h
      · split at h <;> cases h
  · split at h <;> cases h
  · cases h

theorem neverDangles_modify (setting : Setting) (body : Text) (modifier : Modifier)
    (decoded : Option Nat × Text) : NeverDangles (modify setting body modifier decoded) := by
  unfold modify
  split
  · intro body' h
    cases h
  · exact (neverDangles_applyModifier _ _ _).map _

/-- Where every backslash has a character after it, decoding does not miss one. -/
theorem neverDangles_decodeChar [CharNames] (setting : Setting) (body : Text) {cs : Text}
    (hpaired : Paired cs) (hcs : cs ≠ []) : NeverDangles (decodeChar setting body cs) := by
  have hdecodes := decodes setting body cs
  generalize decodeChar setting body cs = result at hdecodes
  induction hdecodes with
  | alone | plain =>
      intro body' h
      cases h
  | control hinner _ ih =>
      cases hpaired with
      | plain hc => exact (hc rfl).elim
      | escape _ h => exact (ih h hinner).bind (neverDangles_modify _ _ _)
  | lettered hinner _ ih =>
      cases hpaired with
      | plain hc => exact (hc rfl).elim
      | escape _ h =>
          cases h with
          | plain _ h => exact (ih h hinner).bind (neverDangles_modify _ _ _)
  | escape c cs => exact (neverDangles_escape body c cs).map _
  | nothing hend =>
      rcases hend with rfl | rfl
      · exact (hcs rfl).elim
      · cases hpaired with
        | plain hc => exact (hc rfl).elim

/-- What follows characters that are no backslashes has its backslashes paired if the whole has. -/
theorem Paired.of_append {front rest : Text} (h : Paired (front ++ rest))
    (hfront : ∀ c ∈ front, c ≠ backslash) : Paired rest := by
  induction front with
  | nil => exact h
  | cons c front ih =>
      rcases List.forall_mem_cons.1 hfront with ⟨hc, hfront⟩
      rw [List.cons_append] at h
      generalize htext : c :: (front ++ rest) = text at h
      cases h with
      | nil => cases htext
      | plain _ h =>
          cases htext
          exact ih h hfront
      | escape => exact (hc (List.cons.inj htext).1).elim

/-- A closing brace ends a pair or stands for itself. -/
theorem Paired.of_closeBrace {name rest : Text} (h : Paired (name ++ closeBrace :: rest)) :
    Paired rest := by
  generalize htext : name ++ closeBrace :: rest = text at h
  induction h generalizing name with
  | nil => cases name <;> cases htext
  | plain hc h ih =>
      rcases name with _ | ⟨d, name⟩
      · cases htext
        exact h
      · cases htext
        exact ih rfl
  | escape c h ih =>
      rcases name with _ | ⟨d, _ | ⟨e, name⟩⟩
      · cases htext
      · cases htext
        exact h
      · cases htext
        exact ih rfl

/-- An escape leaves no backslash without its character. -/
theorem Paired.drop_escape [CharNames] {body cs : Text} {c n : Nat} {code : Option Nat}
    (h : Paired cs) (hescape : Literal.escape body c cs = .ok (code, n)) : Paired (cs.drop n) := by
  have hescapes := escapes body c cs
  generalize Literal.escape body c cs = result at hescape hescapes
  cases hescapes with
  | lineEnd | letter =>
      cases hescape
      exact h
  -- digits are no backslashes, so behind them the pairs go on as before
  | number value htext hdigits =>
      rcases map_eq_ok hescape with ⟨found, -, heq⟩
      cases heq
      rw [htext] at h ⊢
      rw [List.drop_left]
      refine h.of_append fun d hd => ?_
      rintro rfl
      cases hdigits backslash hd
  | @name name rest htext =>
      rcases map_eq_ok hescape with ⟨found, -, heq⟩
      cases heq
      have hdrop : cs.drop (name.length + 2) = rest := by
        have hsplit : cs = openBrace :: (name ++ [closeBrace]) ++ rest := by simpa using htext
        have hlength : name.length + 2 = (openBrace :: (name ++ [closeBrace])).length := by simp
        rw [hsplit, hlength, List.drop_left]
      rw [hdrop]
      rw [htext] at h
      cases h with
      | plain _ h => exact h.of_closeBrace
  | invalid | unterminated => cases hescape

/-- Decoding leaves no backslash without its character. -/
theorem Paired.decodeChar [CharNames] (h : Paired cs)
    (hdecode : decodeChar setting body cs = .ok (code, rest)) : Paired rest := by
  have hdecodes := decodes setting body cs
  generalize Literal.decodeChar setting body cs = result at hdecode hdecodes
  -- the induction is on the modifiers in front of the character, each of which is a pair
  induction hdecodes generalizing code with
  | alone | nothing => cases hdecode
  | control _ _ ih =>
      rcases bind_modify_eq_ok hdecode with ⟨inner, outer, hinner, -, -⟩
      cases h with
      | plain hc => exact (hc rfl).elim
      | escape _ h => exact ih h hinner
  | lettered _ _ ih =>
      rcases bind_modify_eq_ok hdecode with ⟨inner, outer, hinner, -, -⟩
      cases h with
      | plain hc => exact (hc rfl).elim
      | escape _ h =>
          cases h with
          | plain _ h => exact ih h hinner
  | escape c cs =>
      rcases map_eq_ok hdecode with ⟨found, hescape, heq⟩
      cases heq
      cases h with
      | plain hc => exact (hc rfl).elim
      | escape _ h => exact h.drop_escape hescape
  | plain hc cs =>
      cases hdecode
      cases h with
      | plain _ h => exact h
      | escape => exact (hc rfl).elim

/-! ## Codes are codes of characters -/

/-- The code of a character; in a literal of its own, modifier bits may stand above it. -/
def InRange (setting : Setting) (code : Nat) : Prop :=
  match setting with
  | .string => code ≤ 0x10ffff
  | .character => baseCode code ≤ 0x10ffff

theorem inRange_of_le {code : Nat} (h : code ≤ 0x10ffff) (setting : Setting) : InRange setting code := by
  cases setting with
  | string => exact h
  | character => exact Nat.le_trans (Nat.mod_le _ _) h

theorem charCode_le {n code : Nat} (h : charCode n = .ok code) : code ≤ 0x10ffff := by
  unfold charCode at h
  split at h
  · next hle =>
    cases h
    exact hle
  · split at h <;> cases h

/-- Neither a number after `U+` nor the name of a character goes beyond the last code point. -/
theorem namedCode_le [CharNames] {name : Text} {code : Nat} (h : namedCode name = .ok code) :
    code ≤ 0x10ffff := by
  unfold namedCode at h
  split at h
  · split at h
    · cases h
    · next n _ =>
      split at h
      · cases h
      · split at h
        · cases h
        · cases h
          omega
  · split at h
    · next found hnamed =>
      cases h
      exact CharNames.le_of_text? hnamed code List.mem_cons_self
    · cases h
    · cases h

/-- An escape decodes to the code of a character: a number is checked, the characters in a table and
those that have names have codes, and any other escaped character stands for itself. -/
theorem escape_code_le [CharNames] {body cs : Text} {c n code : Nat} (hc : c ≤ 0x10ffff)
    (h : escape body c cs = .ok (some code, n)) : code ≤ 0x10ffff := by
  have hescapes := escapes body c cs
  generalize escape body c cs = result at h hescapes
  cases hescapes with
  | lineEnd | invalid | unterminated => cases h
  | letter hcode =>
      cases h
      omega
  | number value =>
      rcases map_eq_ok h with ⟨found, hfound, heq⟩
      cases heq
      exact charCode_le hfound
  | name =>
      rcases map_eq_ok h with ⟨found, hfound, heq⟩
      cases heq
      exact namedCode_le hfound

theorem baseCode_or (a b : Nat) : baseCode (a ||| b) = baseCode a ||| baseCode b :=
  Nat.or_mod_two_pow (n := 22)

theorem baseCode_modifierBits (code : Nat) : baseCode (modifierBits code) = 0 := by
  unfold modifierBits baseCode
  omega

theorem baseCode_bit (modifier : Modifier) : baseCode modifier.bit = 0 := by
  cases modifier <;> rfl

/-- Control replaces the character by one of the lowest codes, or stands as a bit above it. -/
theorem inRange_applyControl {code code' : Nat} (hcode : InRange setting code)
    (h : applyControl setting code = .ok code') : InRange setting code' := by
  have hlow : ∀ low, low ≤ 127 → InRange setting (low ||| modifierBits code) := by
    intro low hlow
    -- in a string there are no bits of modifiers to keep
    cases setting with
    | string =>
        have hbits : modifierBits code = 0 := by
          change code ≤ 0x10ffff at hcode
          unfold modifierBits baseCode
          omega
        rw [hbits, Nat.or_zero]
        exact Nat.le_trans hlow (by decide)
    | character =>
        change baseCode (low ||| modifierBits code) ≤ 0x10ffff
        rw [baseCode_or, baseCode_modifierBits, Nat.or_zero]
        exact Nat.le_trans (Nat.mod_le _ _) (Nat.le_trans hlow (by decide))
  unfold applyControl at h
  dsimp only at h
  split at h
  · cases h
    exact hlow 127 (Nat.le_refl _)
  · split at h
    · cases h
      exact hlow _ (Nat.le_trans Nat.and_le_right (by decide))
    · split at h
      · cases h
      · cases h
        change baseCode (code ||| Modifier.control.bit) ≤ 0x10ffff
        rw [baseCode_or, baseCode_bit, Nat.or_zero]
        exact hcode

/-- A modifier in a character literal changes the bits above the code, or makes it a control
character. In a string it is refused where the code would leave the range. -/
theorem inRange_applyModifier {modifier : Modifier} {code code' : Nat} (hcode : InRange setting code)
    (h : applyModifier setting modifier code = .ok code') : InRange setting code' := by
  unfold applyModifier at h
  split at h
  · exact inRange_applyControl hcode h
  · split at h
    · cases h
    · next hascii =>
      cases h
      have hbyte : code ||| 0x80 < 2 ^ 8 := Nat.or_lt_two_pow (by omega) (by decide)
      exact Nat.le_trans (Nat.le_of_lt hbyte) (by decide)
  · cases h
    change baseCode (code ||| modifier.bit) ≤ 0x10ffff
    rw [baseCode_or, baseCode_bit, Nat.or_zero]
    exact hcode

/-- Each character decodes to a code in the range, with whatever modifiers in front of it. -/
theorem inRange_decodeChar [CharNames] {code : Nat} (hcs : ∀ c ∈ cs, c ≤ 0x10ffff)
    (h : decodeChar setting body cs = .ok (some code, rest)) : InRange setting code := by
  have hdecodes := decodes setting body cs
  generalize decodeChar setting body cs = result at h hdecodes
  induction hdecodes generalizing code with
  | alone | nothing => cases h
  | control _ _ ih =>
      rcases bind_modify_eq_ok h with ⟨inner, outer, hinner, happly, heq⟩
      cases heq
      refine inRange_applyModifier (ih (fun d hd => hcs d ?_) hinner) happly
      exact List.mem_append_right [backslash, caret] hd
  | @lettered c _ _ _ _ _ ih =>
      rcases bind_modify_eq_ok h with ⟨inner, outer, hinner, happly, heq⟩
      cases heq
      refine inRange_applyModifier (ih (fun d hd => hcs d ?_) hinner) happly
      exact List.mem_append_right [backslash, c, hyphen] hd
  | escape c cs =>
      rcases map_eq_ok h with ⟨found, hescape, heq⟩
      rcases found with ⟨found, n⟩
      cases heq
      exact inRange_of_le (escape_code_le (hcs c (by simp)) hescape) setting
  | plain _ cs =>
      cases h
      exact inRange_of_le (hcs _ List.mem_cons_self) setting

end Literal

end LispNamespace
