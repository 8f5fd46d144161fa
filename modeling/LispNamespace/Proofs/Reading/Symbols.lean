import LispNamespace.Tree.Source
import LispNamespace.Proofs.Reading.Lexing

/-!
# Symbols and numbers as source text

The text of a symbol is one token in front of anything that may follow it, and it denotes the
symbol again: nothing in it ends the token, and a name that reads as a number or as the dot is
escaped. Two names have no text that denotes them, `nil` and the empty one. The digits of an integer
are a token of the same kind, and so is the display of any other number.
-/

namespace LispNamespace

open Text

/-! ## Spellings of names -/

namespace Token

/-- Whether the character stands for itself in a symbol. -/
def isPlain (c : Nat) : Bool := isSymbolChar c && c != backslash

/-- A blank does not stand for itself in a symbol. -/
theorem isBlank_of_isPlain {c : Nat} (h : isPlain c = true) : isBlank c = false := by
  have hchar : isSymbolChar c = true := (Bool.and_eq_true_iff.1 h).1
  unfold isSymbolChar at hchar
  rw [Bool.not_eq_true', Bool.or_eq_false_iff] at hchar
  exact hchar.1

theorem symbolLength_cons {c : Nat} (h : isPlain c = true) (cs : Text) :
    symbolLength (c :: cs) = symbolLength cs + 1 := by
  have hchar : isSymbolChar c = true := (Bool.and_eq_true_iff.1 h).1
  conv => lhs; unfold symbolLength
  split
  · next heq =>
    rcases List.cons.inj heq with ⟨rfl, -⟩
    cases h
  · next heq =>
    rcases List.cons.inj heq with ⟨rfl, rfl⟩
    rw [if_pos hchar]
  · next heq => cases heq

theorem symbolLength_escaped (c : Nat) (cs : Text) :
    symbolLength (backslash :: c :: cs) = symbolLength cs + 2 := rfl

/-- No symbol goes on into a delimited text. -/
theorem Delimited.symbolLength {rest : Text} (h : Delimited rest) : symbolLength rest = 0 := by
  cases rest with
  | nil => rfl
  | cons c rest =>
      rcases h with rfl | rfl | rfl | rfl
      · rfl
      · rfl
      · rfl
      · rfl

/-- The text spells the name: each character of the name stands there plainly or escaped. -/
inductive SpellsName : Text → Text → Prop where
  | nil : SpellsName [] []
  | plain {c : Nat} {cs name : Text} (hc : isPlain c = true) (h : SpellsName cs name) :
      SpellsName (c :: cs) (c :: name)
  | escaped {c : Nat} {cs name : Text} (h : SpellsName cs name) :
      SpellsName (backslash :: c :: cs) (c :: name)

namespace SpellsName

variable {text name : Text}

theorem of_plain (h : ∀ c ∈ name, isPlain c = true) : SpellsName name name := by
  induction name with
  | nil => exact .nil
  | cons c name ih =>
      refine .plain (h c List.mem_cons_self) (ih ?_)
      intro d hd
      exact h d (List.mem_cons_of_mem c hd)

/-- A spelling is a symbol up to its end. -/
theorem symbolLength (h : SpellsName text name) {rest : Text} (hrest : Delimited rest) :
    symbolLength (text ++ rest) = text.length := by
  induction h with
  | nil => exact hrest.symbolLength
  | plain hc h ih => rw [List.cons_append, symbolLength_cons hc, ih, List.length_cons]
  | escaped h ih =>
      rw [List.cons_append, List.cons_append, symbolLength_escaped, ih, List.length_cons,
        List.length_cons]

/-- A spelling spells one name. -/
theorem symbolName (h : SpellsName text name) : Atom.symbolName text = name := by
  induction h with
  | nil => rfl
  | @plain c cs name hc h ih =>
      rw [Atom.symbolName, ih]
      rintro - - rfl -
      cases hc
  | escaped h ih => rw [Atom.symbolName, ih]

/-- Without a backslash, a spelling is the name. -/
theorem eq_of_not_mem (h : SpellsName text name) (hmem : backslash ∉ text) : text = name := by
  induction h with
  | nil => rfl
  | plain hc h ih => rw [ih fun hmem' => hmem (List.mem_cons_of_mem _ hmem')]
  | escaped h ih => exact absurd List.mem_cons_self hmem

end SpellsName

/-- Most characters begin a symbol. -/
theorem first?_of_isPlain {c : Nat} (h : isPlain c = true) (hchar : c ≠ questionMark)
    (hnumber : c ≠ numberSign) (cs : Text) : first? c cs = some (word c cs) := by
  unfold first?
  split
  · next kind hkind =>
    unfold singleKind? at hkind
    split at hkind <;> first | cases h | cases hkind
  · split
    · cases h
    · cases h
    · cases h
    · exact absurd rfl hchar
    · exact absurd rfl hnumber
    · rfl

/-- A spelling is a token in front of every delimited text, if it does not begin with a character
that can begin another token. -/
theorem LexesTo.symbol {c : Nat} {cs name rest : Text} (h : SpellsName (c :: cs) name)
    (hquestion : c ≠ questionMark) (hnumber : c ≠ numberSign) (hrest : Delimited rest) :
    LexesTo (c :: cs) [⟨.symbol, c :: cs⟩] rest := by
  have hlength := h.symbolLength hrest
  have hfirst : isBlank c = false ∧ first? c (cs ++ rest) = some (word c (cs ++ rest)) := by
    cases h with
    | plain hc h => exact ⟨isBlank_of_isPlain hc, first?_of_isPlain hc hquestion hnumber _⟩
    | escaped h => exact ⟨rfl, rfl⟩
  refine .token hfirst.1 ?_
  rw [hfirst.2]
  exact congrArg (fun n => some (Piece.token .symbol n)) hlength

end Token

namespace Tree

open Token Atom

/-- A character that needs no backslash in a symbol is plain. -/
theorem isPlain_of_needsEscape {c : Nat} (h : needsEscape c = false) : isPlain c = true := by
  unfold needsEscape at h
  rcases Bool.or_eq_false_iff.1 h with ⟨hblank, hmem⟩
  have hne : ∀ d : Nat, d ∈ ("()[]\x27\",;\x60?#\\" : Text) → c ≠ d := by
    rintro d hd rfl
    rw [List.contains_iff_mem.2 hd] at hmem
    cases hmem
  have hchar : ("()[]\x27\",;\x60" : Text).contains c = false := by
    refine Bool.eq_false_iff.2 fun hcontains => ?_
    have hsub : ∀ d ∈ ("()[]\x27\",;\x60" : Text), d ∈ ("()[]\x27\",;\x60?#\\" : Text) := by decide
    exact hne c (hsub c (List.contains_iff_mem.1 hcontains)) rfl
  have hbackslash : c ≠ backslash := hne backslash (by decide)
  unfold isPlain isSymbolChar
  rw [hblank, hchar]
  exact bne_iff_ne.2 hbackslash

/-- With its characters escaped where needed, any name is spelled. -/
theorem spellsName_escapeRest (name : Text) : SpellsName (escapeRest name) name := by
  induction name with
  | nil => exact .nil
  | cons c name ih =>
      rw [escapeRest]
      split
      · exact .escaped ih
      · next hescape =>
        refine .plain ?_ ih
        by_cases hquestion : c = questionMark
        · rw [hquestion]
          rfl
        by_cases hnumber : c = numberSign
        · rw [hnumber]
          rfl
        have hneeds : needsEscape c = false := by simpa [hquestion, hnumber] using hescape
        exact isPlain_of_needsEscape hneeds

end Tree

/-! ## Numerals -/

namespace Atom

open Token

/-- Whether the character may occur in a decimal number. -/
def isNumeralChar (c : Nat) : Bool :=
  isDigit c || c == hyphen || c == plus || c == fullStop || c == 'e'.toNat

theorem isPlain_of_isDigit {c : Nat} (h : isDigit c = true) : isPlain c = true := by
  -- every script has its ten digits in a row
  have hzeros : ∀ first ∈ digitZeros, ∀ k ∈ List.range 10, isPlain (first + k) = true := by decide
  obtain ⟨first, hfirst, hle, hlt⟩ : ∃ first ∈ digitZeros, first ≤ c ∧ c < first + 10 := by
    unfold isDigit digitValue? at h
    split at h
    · split at h
      · next hdigit => exact ⟨0x30, List.mem_cons_self, hdigit.1, hdigit.2⟩
      · cases h
    · rw [Option.isSome_map, List.find?_isSome] at h
      rcases h with ⟨first, hfirst, hrange⟩
      exact ⟨first, hfirst, of_decide_eq_true hrange⟩
  have hplain := hzeros first hfirst (c - first) (List.mem_range.2 (by omega))
  rwa [Nat.add_sub_cancel' hle] at hplain

theorem isPlain_of_isNumeralChar {c : Nat} (h : isNumeralChar c = true) : isPlain c = true := by
  simp only [isNumeralChar, Bool.or_eq_true, beq_iff_eq] at h
  rcases h with (((h | rfl) | rfl) | rfl) | rfl
  · exact isPlain_of_isDigit h
  · decide
  · decide
  · decide
  · decide

/-- A number has a sign in front of it, or none. -/
theorem splitSign_cases (cs : Text) :
    (splitSign cs).2 = cs ∨ cs = hyphen :: (splitSign cs).2 ∨ cs = plus :: (splitSign cs).2 := by
  unfold splitSign
  split
  · exact .inr (.inl rfl)
  · exact .inr (.inr rfl)
  · exact .inl rfl

theorem isNumeralChar_of_splitSign {cs : Text}
    (h : ∀ c ∈ (splitSign cs).2, isNumeralChar c = true) : ∀ c ∈ cs, isNumeralChar c = true := by
  rcases splitSign_cases cs with heq | heq | heq
  · rwa [heq] at h
  · rw [heq]
    exact List.forall_mem_cons.2 ⟨by decide, h⟩
  · rw [heq]
    exact List.forall_mem_cons.2 ⟨by decide, h⟩

theorem isNumeralChar_of_isDigit {c : Nat} (h : isDigit c = true) : isNumeralChar c = true := by
  simp [isNumeralChar, h]

/-- An exponent is made of the characters of numbers. -/
theorem isNumeralChar_of_exponent? {cs : Text} {n : Int} (h : exponent? cs = some n) :
    ∀ c ∈ cs, isNumeralChar c = true := by
  cases cs with
  | nil => exact fun c hc => nomatch hc
  | cons c cs =>
      unfold exponent? at h
      simp only [Option.ite_none_right_eq_some, Bool.and_eq_true, beq_iff_eq] at h
      rcases h with ⟨⟨⟨rfl, -⟩, hdigits⟩, -⟩
      refine List.forall_mem_cons.2 ⟨by decide, isNumeralChar_of_splitSign ?_⟩
      intro d hd
      exact isNumeralChar_of_isDigit (List.all_eq_true.1 hdigits d hd)

theorem isDigit_of_mem_takeWhile {cs : Text} {c : Nat} (h : c ∈ cs.takeWhile isDigit) :
    isDigit c = true := List.all_eq_true.1 List.all_takeWhile c h

/-- A decimal number has digits, signs, points and the letter of the exponent only. -/
theorem isNumeralChar_of_isNumeral {cs : Text} (h : isNumeral cs = true) :
    ∀ c ∈ cs, isNumeralChar c = true := by
  rcases Option.isSome_iff_exists.1 h with ⟨p, hp⟩
  unfold parts? at hp
  simp only [Option.ite_none_left_eq_some] at hp
  rcases hp with ⟨-, hp⟩
  rcases Option.map_eq_some_iff.1 hp with ⟨n, hn, -⟩
  have hexponent := isNumeralChar_of_exponent? hn
  -- digits come first, then perhaps a point with more digits, and the exponent last
  refine isNumeralChar_of_splitSign fun c hc => ?_
  rw [← List.takeWhile_append_dropWhile (p := isDigit) (l := (splitSign cs).2)] at hc
  rcases List.mem_append.1 hc with hc | hc
  · exact isNumeralChar_of_isDigit (isDigit_of_mem_takeWhile hc)
  · split at hexponent
    · next after heq =>
      rw [heq] at hc
      rcases List.mem_cons.1 hc with rfl | hc
      · decide
      rw [← List.takeWhile_append_dropWhile (p := isDigit) (l := after)] at hc
      rcases List.mem_append.1 hc with hc | hc
      · exact isNumeralChar_of_isDigit (isDigit_of_mem_takeWhile hc)
      · exact hexponent c hc
    · exact hexponent c hc

/-- What reads as an integer reads as a decimal number. -/
theorem isNumeral_of_integer? {cs : Text} {n : Int} (h : integer? cs = some n) :
    isNumeral cs = true := by
  unfold integer? at h
  simp only [Option.ite_none_right_eq_some, Bool.and_eq_true, Bool.not_eq_true',
    Bool.or_eq_true, beq_iff_eq, List.isEmpty_iff] at h
  rcases h with ⟨⟨hdigits, hrest⟩, -⟩
  have hrest' : (splitSign cs).2.dropWhile isDigit = [] ∨
      (splitSign cs).2.dropWhile isDigit = [fullStop] := hrest
  unfold isNumeral parts?
  rcases hrest' with hrest | hrest
  · simp [hdigits, hrest, exponent?]
  · simp [hdigits, hrest, exponent?]

end Atom

namespace Tree

open Token Atom

/-! ## Symbols -/

/-- The text of a symbol that has a name spells that name. -/
theorem spellsName_symbolSource {name : Text} (h : name ≠ []) :
    SpellsName (symbolSource name) name := by
  unfold symbolSource
  split
  · exact absurd rfl h
  · next c cs =>
    split
    · next hspecial =>
      refine .escaped (.of_plain fun d hd => ?_)
      rcases Bool.or_eq_true_iff.1 hspecial with hdot | hnumeral
      · cases eq_of_beq hdot
        cases hd
      · have hchar := isNumeralChar_of_isNumeral hnumeral d (List.mem_cons_of_mem c hd)
        exact isPlain_of_isNumeralChar hchar
    · split
      · exact .escaped (spellsName_escapeRest cs)
      · next hescape =>
        exact .plain (isPlain_of_needsEscape (Bool.eq_false_iff.2 hescape))
          (spellsName_escapeRest cs)

/-- The text of a symbol is a token in front of every delimited text. -/
theorem lexesTo_symbolSource (name : Text) {rest : Text} (hrest : Delimited rest) :
    LexesTo (symbolSource name) [⟨.symbol, symbolSource name⟩] rest := by
  by_cases hname : name = []
  · subst hname
    -- the empty name is written as two number signs
    have hlength : symbolLength (numberSign :: numberSign :: rest) = 2 := by
      rw [symbolLength_cons rfl, symbolLength_cons rfl, hrest.symbolLength]
    have hfirst : first? numberSign ([numberSign] ++ rest) = some (.token .symbol 2) :=
      congrArg (fun n => some (Piece.token .symbol n)) hlength
    exact LexesTo.token rfl hfirst
  have hspells := spellsName_symbolSource hname
  unfold symbolSource at hspells ⊢
  split at hspells
  · exact absurd rfl hname
  · next c cs =>
    split at hspells
    · next hspecial =>
      rw [if_pos hspecial]
      exact .symbol hspells (by decide) (by decide) hrest
    · next hspecial =>
      rw [if_neg hspecial]
      split at hspells
      · next hescape =>
        rw [if_pos hescape]
        exact .symbol hspells (by decide) (by decide) hrest
      · next hescape =>
        rw [if_neg hescape]
        refine .symbol hspells ?_ ?_ hrest
        · rintro rfl
          exact hescape rfl
        · rintro rfl
          exact hescape rfl

/-- The text of a name denotes it. -/
theorem symbolName_symbolSource {name : Text} (h : name ≠ []) :
    symbolName (symbolSource name) = name := (spellsName_symbolSource h).symbolName

/-- A symbol is never written as a number. -/
theorem isNumeral_symbolSource {name : Text} (h : name ≠ []) :
    isNumeral (symbolSource name) = false := by
  refine Bool.eq_false_iff.2 fun hnumeral => ?_
  have hmem : backslash ∉ symbolSource name := by
    intro hmem
    have hchar := isNumeralChar_of_isNumeral hnumeral backslash hmem
    revert hchar
    decide
  -- so nothing is escaped, although a name that reads as a number is
  have heq : symbolSource name = name := (spellsName_symbolSource h).eq_of_not_mem hmem
  rw [heq] at hnumeral
  unfold symbolSource at heq
  split at heq
  · exact h rfl
  · rw [hnumeral, Bool.or_true, if_pos rfl] at heq
    exact absurd (congrArg List.length heq) (Nat.succ_ne_self _)

/-- The text of a symbol denotes the symbol, except that `nil` denotes the empty list. -/
theorem ofSymbolToken_symbolSource {name : Text} (hname : name ≠ []) (hnil : name ≠ "nil") :
    ofSymbolToken (symbolSource name) = .sym name := by
  have hnumeral := isNumeral_symbolSource hname
  have hinteger : Atom.integer? (symbolSource name) = none := by
    refine Option.eq_none_iff_forall_ne_some.2 fun n hn => ?_
    rw [isNumeral_of_integer? hn] at hnumeral
    cases hnumeral
  have hparts : parts? (symbolSource name) = none := by
    simpa [isNumeral] using hnumeral
  have hsource : (symbolSource name == "nil") = false := by
    refine beq_false_of_ne fun heq => hnil ?_
    rw [← symbolName_symbolSource hname, heq]
    rfl
  rw [ofSymbolToken, hsource, hinteger, hparts, symbolName_symbolSource hname]
  rfl

/-- A symbol is never written as the dot. -/
theorem symbolSource_ne_dot (name : Text) : symbolSource name ≠ "." := by
  intro heq
  by_cases hname : name = []
  · subst hname
    cases heq
  have hdot := symbolName_symbolSource hname
  rw [heq] at hdot
  subst hdot
  cases heq

end Tree

/-! ## Integers -/

namespace Atom

open Token

/-- The decimal digits of a number. -/
def digits (n : Nat) : Text := (Nat.toDigits 10 n).map Char.toNat

/-- The ten digits have their values in the table for all scripts, too. -/
theorem digitValue?_of_isDigit {c : Char} (h : c.isDigit = true) :
    digitValue? c.toNat = some (c.toNat - '0'.toNat) := by
  have hrange : 0x30 ≤ c.toNat ∧ c.toNat < 0x3a := by
    simp only [Char.isDigit, Bool.and_eq_true, decide_eq_true_eq, UInt32.le_iff_toNat_le] at h
    rcases h with ⟨hle, hge⟩
    exact ⟨hle, Nat.lt_succ_of_le hge⟩
  have hascii : c.toNat < 0x80 := Nat.lt_trans hrange.2 (by decide)
  rw [digitValue?, if_pos hascii, if_pos hrange]
  rfl

theorem isDigit_of_mem_digits {n c : Nat} (h : c ∈ digits n) : isDigit c = true := by
  rcases List.mem_map.1 h with ⟨d, hd, rfl⟩
  have hdigit := Nat.isDigit_of_mem_toDigits (by decide) (by decide) hd
  rw [isDigit, digitValue?_of_isDigit hdigit]
  rfl

theorem digits_ne_nil (n : Nat) : digits n ≠ [] := by
  simp [digits]

/-- The digits of a number denote the number. -/
theorem decimal_digits (n : Nat) : decimal (digits n) = n := by
  -- read from the left, starting with any number
  have hfold : ∀ (cs : List Char) (m : Nat), (∀ c ∈ cs, c.isDigit = true) →
      (cs.map Char.toNat).foldl (fun n c => n * 10 + (digitValue? c).getD 0) m =
        Nat.ofDigitChars 10 cs m := by
    intro cs
    induction cs with
    | nil => exact fun m _ => rfl
    | cons c cs ih =>
        intro m h
        rw [List.map_cons, List.foldl_cons, digitValue?_of_isDigit (h c List.mem_cons_self),
          Nat.ofDigitChars_cons, Option.getD_some, Nat.mul_comm m 10]
        exact ih _ fun d hd => h d (List.mem_cons_of_mem c hd)
  have hdigits : ∀ c ∈ Nat.toDigits 10 n, c.isDigit = true :=
    fun c hc => Nat.isDigit_of_mem_toDigits (by decide) (by decide) hc
  rw [decimal, numeral, digits, hfold _ 0 hdigits, Nat.ofDigitChars_ten_toDigits]

/-- An integer is written as its digits, after a hyphen if it is negative. -/
theorem ofString_toString (value : Int) :
    ofString (toString value) =
      (if value < 0 then [hyphen] else []) ++ digits value.natAbs := by
  cases value with
  | ofNat n =>
      have hsign : ¬ (Int.ofNat n < 0) := Int.not_lt.2 (Int.natCast_nonneg n)
      rw [if_neg hsign, List.nil_append]
      change (Nat.repr n).toList.map Char.toNat = digits n
      rw [Nat.toList_repr]
      rfl
  | negSucc n =>
      have hsign : Int.negSucc n < 0 := Int.negSucc_lt_zero n
      rw [if_pos hsign]
      change ofString ("-" ++ Nat.repr (n + 1)) = [hyphen] ++ digits (n + 1)
      rw [ofString_append]
      change [hyphen] ++ (Nat.repr (n + 1)).toList.map Char.toNat = _
      rw [Nat.toList_repr]
      rfl

theorem splitSign_digits (n : Nat) : splitSign (digits n) = (false, digits n) := by
  have hdigit : ∀ c ∈ digits n, isDigit c = true := fun c hc => isDigit_of_mem_digits hc
  cases heq : digits n with
  | nil => rfl
  | cons c cs =>
      have hc : isDigit c = true := hdigit c (heq ▸ List.mem_cons_self)
      unfold splitSign
      split
      · next hcons =>
        rcases List.cons.inj hcons with ⟨rfl, -⟩
        cases hc
      · next hcons =>
        rcases List.cons.inj hcons with ⟨rfl, -⟩
        cases hc
      · rfl

/-- Digits after a sign are an integer. -/
theorem integer?_of_splitSign {cs : Text} {negative : Bool} {n : Nat}
    (h : splitSign cs = (negative, digits n)) :
    integer? cs = some (if negative then -(n : Int) else n) := by
  have hdigit : ∀ c ∈ digits n, isDigit c = true := fun c hc => isDigit_of_mem_digits hc
  have htake : (digits n ++ []).takeWhile isDigit = digits n ++ [].takeWhile isDigit :=
    List.takeWhile_append_of_pos hdigit
  have hdrop : (digits n ++ []).dropWhile isDigit = [].dropWhile isDigit :=
    List.dropWhile_append_of_pos hdigit
  rw [List.append_nil, List.takeWhile_nil, List.append_nil] at htake
  rw [List.append_nil, List.dropWhile_nil] at hdrop
  unfold integer?
  rw [h]
  simp [htake, hdrop, digits_ne_nil, decimal_digits]

/-- The text of an integer is read as that integer. -/
theorem integer?_toString (value : Int) : integer? (toString value) = some value := by
  rw [ofString_toString]
  by_cases hsign : value < 0
  · have hsplit : splitSign ([hyphen] ++ digits value.natAbs) = (true, digits value.natAbs) := rfl
    rw [if_pos hsign, integer?_of_splitSign hsplit, if_pos rfl]
    exact congrArg some (by omega)
  · rw [if_neg hsign, List.nil_append, integer?_of_splitSign (splitSign_digits _)]
    exact congrArg some (Int.natAbs_of_nonneg (Int.not_lt.1 hsign))

end Atom

/-! ## Displays of numbers -/

namespace Number

open Token Atom

/-- Whether the character may occur in the display of a number: it may in a decimal number, or it is
a letter of the infinities or of the value that is no number. -/
def isDisplayChar (c : Nat) : Bool :=
  isNumeralChar c || ("infa" : Text).contains c

theorem isDisplayChar_of_isNumeralChar {c : Nat} (h : isNumeralChar c = true) :
    isDisplayChar c = true := by
  simp [isDisplayChar, h]

theorem isPlain_of_isDisplayChar {c : Nat} (h : isDisplayChar c = true) : isPlain c = true := by
  rcases Bool.or_eq_true_iff.1 h with hnumeral | hletter
  · exact isPlain_of_isNumeralChar hnumeral
  · have hletters : ∀ d ∈ ("infa" : Text), isPlain d = true := by decide
    exact hletters c (List.contains_iff_mem.1 hletter)

/-- A text of such characters is a token in front of every delimited text. -/
theorem lexesTo_of_isDisplayChar {text rest : Text} (hne : text ≠ [])
    (h : ∀ c ∈ text, isDisplayChar c = true) (hrest : Delimited rest) :
    LexesTo text [⟨.symbol, text⟩] rest := by
  have hspells : SpellsName text text := .of_plain fun c hc => isPlain_of_isDisplayChar (h c hc)
  cases text with
  | nil => exact absurd rfl hne
  | cons c cs =>
      have hc := h c List.mem_cons_self
      refine .symbol hspells ?_ ?_ hrest
      · rintro rfl
        cases hc
      · rintro rfl
        cases hc

/-- A row of characters that may occur in the display of a number. -/
def IsDisplayRow (row : List Char) : Prop := ∀ c ∈ row, isDisplayChar c.toNat = true

/-- All parts that a display is put together of are rows of such characters: digits, zeros, the
point, the sign and the exponent. -/
theorem isDisplayRow_toDigits (n : Nat) : IsDisplayRow (Nat.toDigits 10 n) := by
  intro c hc
  have hdigit := Nat.isDigit_of_mem_toDigits (by decide) (by decide) hc
  refine isDisplayChar_of_isNumeralChar (isNumeralChar_of_isDigit ?_)
  rw [isDigit, digitValue?_of_isDigit hdigit]
  rfl

namespace IsDisplayRow

variable {row others : List Char} {c : Char}

theorem nil : IsDisplayRow [] := fun _ hc => nomatch hc

theorem cons (hc : isDisplayChar c.toNat = true) (h : IsDisplayRow row) :
    IsDisplayRow (c :: row) := List.forall_mem_cons.2 ⟨hc, h⟩

theorem append (h : IsDisplayRow row) (hothers : IsDisplayRow others) :
    IsDisplayRow (row ++ others) := List.forall_mem_append.2 ⟨h, hothers⟩

theorem replicate (n : Nat) (hc : isDisplayChar c.toNat = true) :
    IsDisplayRow (List.replicate n c) := by
  intro d hd
  rwa [List.eq_of_mem_replicate hd]

theorem of_subset (h : IsDisplayRow row) (hsub : others ⊆ row) : IsDisplayRow others :=
  fun c hc => h c (hsub hc)

theorem showExponent (e : Int) : IsDisplayRow (showExponent e) := by
  refine .append (.cons ?_ (.replicate _ rfl)) (isDisplayRow_toDigits _)
  split <;> rfl

theorem showScientific (h : IsDisplayRow row) (lead : Int) :
    IsDisplayRow (showScientific row lead) := by
  have hfirst := h.of_subset (List.take_subset 1 row)
  refine .append (.append hfirst ?_) (.cons rfl (.showExponent lead))
  split
  · exact .nil
  · exact .cons rfl (h.of_subset (List.drop_subset 1 row))

theorem showPositional (h : IsDisplayRow row) (lead : Int) :
    IsDisplayRow (showPositional row lead) := by
  unfold Number.showPositional
  split
  · exact .append (.cons rfl (.cons rfl (.replicate _ rfl))) h
  · have hwhole := h.of_subset (List.take_subset (lead.toNat + 1) row)
    refine .append (.append hwhole (.replicate _ rfl)) (.cons rfl ?_)
    split
    · exact .cons rfl .nil
    · exact h.of_subset (List.drop_subset _ row)

theorem showDigits (digits : Nat) (place : Int) : IsDisplayRow (showDigits digits place) := by
  -- the digits that count are some of the digits
  have hrow : IsDisplayRow ((Nat.toDigits 10 digits).reverse.dropWhile (· == '0')).reverse := by
    refine (isDisplayRow_toDigits digits).of_subset fun c hc => ?_
    exact List.mem_reverse.1 ((List.dropWhile_sublist _).subset (List.mem_reverse.1 hc))
  unfold Number.showDigits
  simp only
  split
  · exact hrow.showPositional _
  · exact hrow.showScientific _

end IsDisplayRow

/-- So the display of a number consists of characters that stand plainly in a symbol. -/
theorem isDisplayRow_display (b : Binary) : IsDisplayRow b.display.toList := by
  unfold Binary.display
  split
  · exact .cons rfl (.cons rfl (.cons rfl .nil))
  · split
    · exact .cons rfl (.cons rfl (.cons rfl (.cons rfl .nil)))
    · exact .cons rfl (.cons rfl (.cons rfl .nil))
  · simp only [String.toList_ofList]
    refine .append ?_ ?_
    · split
      · exact .cons rfl .nil
      · exact .nil
    · split
      · exact .cons rfl (.cons rfl (.cons rfl .nil))
      · exact .showDigits _ _

theorem showDigits_ne_nil (digits : Nat) (place : Int) : showDigits digits place ≠ [] := by
  unfold showDigits
  simp only
  split
  · unfold showPositional
    split
    · exact List.cons_ne_nil _ _
    · exact List.append_ne_nil_of_right_ne_nil _ (List.cons_ne_nil _ _)
  · exact List.append_ne_nil_of_right_ne_nil _ (List.cons_ne_nil _ _)

theorem display_ne_nil (b : Binary) : ofString b.display ≠ [] := by
  unfold Binary.display ofString
  split
  · decide
  · split <;> decide
  · simp only [String.toList_ofList, ne_eq, List.map_eq_nil_iff]
    refine List.append_ne_nil_of_right_ne_nil _ ?_
    split
    · exact List.cons_ne_nil _ _
    · exact showDigits_ne_nil _ _

theorem isDisplayChar_of_mem_display {b : Binary} {c : Nat} (h : c ∈ ofString b.display) :
    isDisplayChar c = true := by
  rcases List.mem_map.1 h with ⟨d, hd, rfl⟩
  exact isDisplayRow_display b d hd

/-- The display of a number is a token in front of every delimited text. -/
theorem lexesTo_display (b : Binary) {rest : Text} (hrest : Delimited rest) :
    LexesTo b.display [⟨.symbol, b.display⟩] rest :=
  lexesTo_of_isDisplayChar (display_ne_nil b) (fun _ hc => isDisplayChar_of_mem_display hc) hrest

end Number

namespace Tree

open Token Atom Number

theorem isNumeralChar_of_mem_toString {value : Int} {c : Nat} (h : c ∈ ofString (toString value)) :
    isNumeralChar c = true := by
  rw [ofString_toString] at h
  rcases List.mem_append.1 h with h | h
  · split at h
    · rw [List.mem_singleton.1 h]
      rfl
    · cases h
  · exact isNumeralChar_of_isDigit (isDigit_of_mem_digits h)

theorem toString_ne_nil (value : Int) : ofString (toString value) ≠ [] := by
  intro heq
  rw [ofString_toString] at heq
  exact digits_ne_nil _ (List.append_eq_nil_iff.1 heq).2

/-- The text of an integer is a token in front of every delimited text. -/
theorem lexesTo_toString (value : Int) {rest : Text} (hrest : Delimited rest) :
    LexesTo (toString value) [⟨.symbol, toString value⟩] rest :=
  lexesTo_of_isDisplayChar (toString_ne_nil value)
    (fun _ hc => isDisplayChar_of_isNumeralChar (isNumeralChar_of_mem_toString hc)) hrest

/-- The text of an integer denotes the integer. -/
theorem ofSymbolToken_toString (value : Int) : ofSymbolToken (toString value) = .int value := by
  have hnil : (ofString (toString value) == "nil") = false := by
    refine beq_false_of_ne fun heq => ?_
    have hmem : 'n'.toNat ∈ ofString (toString value) := heq ▸ List.mem_cons_self
    have hchar := isNumeralChar_of_mem_toString hmem
    revert hchar
    decide
  rw [ofSymbolToken, hnil, integer?_toString]
  rfl

end Tree

end LispNamespace
