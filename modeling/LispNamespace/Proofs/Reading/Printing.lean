import LispNamespace.Proofs.Parts
import LispNamespace.Proofs.Reading.Symbols
import LispNamespace.Proofs.Reading.Literals

/-!
# The texts of trees as pieces

What the printer writes between and around the texts of trees: blanks, brackets, dots and
shorthands. A shorthand is a token of its own except for the comma, which an at sign extends, and
the only texts of trees that begin with an at sign are those of symbols.
-/

namespace LispNamespace

open Text

namespace Token

/-- The piece has the same tokens without a blank in front of it. -/
theorem LexesTo.of_blank {c : Nat} {text rest : Text} {ts : List Token} (hc : isBlank c = true)
    (h : LexesTo (c :: text) ts rest) : LexesTo text ts rest := by
  have hblank : LexesTo [c] [] (text ++ rest) := .blank hc
  exact ⟨hblank.tokens.symm.trans h.tokens, hblank.failure.symm.trans h.failure⟩

/-- A shorthand is a token of its own, the comma only where no at sign follows. -/
theorem lexesTo_shorthand {name short : Text} (h : shorthand? name = some short) :
    ∃ t : Token, t.isShorthand = true ∧ t.longHead = name ∧
      ∀ rest, (name = "," → rest.head? ≠ some atSign) → LexesTo short [t] rest := by
  rcases shorthand?_cases h with h | h | h | h | h
  · rcases h with ⟨rfl, rfl⟩
    exact ⟨⟨.quote, "\x27"⟩, rfl, rfl, fun _ _ => .single rfl⟩
  · rcases h with ⟨rfl, rfl⟩
    exact ⟨⟨.quote, "\x60"⟩, rfl, rfl, fun _ _ => .single rfl⟩
  · rcases h with ⟨rfl, rfl⟩
    refine ⟨⟨.unquote, ","⟩, rfl, rfl, fun rest hrest => ?_⟩
    -- the lexer looks one character past the comma
    have hfirst : first? comma rest =
        some (.token .unquote (if rest.head? == some atSign then 2 else 1)) := rfl
    rw [if_neg (by simpa using hrest rfl)] at hfirst
    exact .token rfl hfirst
  · rcases h with ⟨rfl, rfl⟩
    exact ⟨⟨.unquote, ",@"⟩, rfl, rfl, fun _ _ => .token rfl rfl⟩
  · rcases h with ⟨rfl, rfl⟩
    exact ⟨⟨.functionQuote, "#\x27"⟩, rfl, rfl, fun _ _ => .token rfl rfl⟩

/-- A dot between blanks is a token of its own. -/
theorem lexesTo_dot (rest : Text) : LexesTo (" . " : Text) [⟨.symbol, "."⟩] rest := by
  have hdot : LexesTo [fullStop] [⟨.symbol, [fullStop]⟩] ([0x20] ++ rest) :=
    .symbol (.plain rfl .nil) (by decide) (by decide) (.inl rfl)
  have hblank : LexesTo [0x20] [] (([fullStop] ++ [0x20]) ++ rest) := .blank rfl
  exact hblank.append (hdot.append (.blank rfl))

end Token

namespace Tree

open Token

/-! ## Texts after blanks -/

/-- The texts, each after a blank. -/
def afterBlanks (texts : List Text) : Text := texts.flatMap fun text => 0x20 :: text

theorem spaced_cons (text : Text) (texts : List Text) :
    spaced (text :: texts) = text ++ afterBlanks texts := by
  induction texts generalizing text with
  | nil => simp [spaced, afterBlanks, List.intercalate]
  | cons next texts ih =>
      have hspaced : spaced (text :: next :: texts) = text ++ 0x20 :: spaced (next :: texts) := by
        simp [spaced, List.intercalate]
        rfl
      rw [hspaced, ih]
      rfl

/-- What comes after an item is a blank, or what comes after the items. -/
theorem delimited_afterBlanks {texts : List Text} {rest : Text} (h : Delimited rest) :
    Delimited (afterBlanks texts ++ rest) := by
  cases texts with
  | nil => exact h
  | cons text texts => exact .inl rfl

/-- Texts have the same tokens with a blank between any two and with one before each. -/
theorem lexesTo_spaced {texts : List Text} {ts : List Token} {rest : Text}
    (h : LexesTo (afterBlanks texts) ts rest) : LexesTo (spaced texts) ts rest := by
  cases texts with
  | nil => exact h
  | cons text texts =>
      rw [spaced_cons]
      exact .of_blank rfl h

/-- The blank in front has no token. -/
theorem lex_afterBlanks (texts : List Text) (rest : Text) :
    (lex (afterBlanks texts ++ rest)).tokens = (lex (spaced texts ++ rest)).tokens := by
  cases texts with
  | nil => rfl
  | cons text texts =>
      have hblank : LexesTo [0x20] [] (text ++ afterBlanks texts ++ rest) := .blank rfl
      rw [spaced_cons]
      exact hblank.tokens

/-- The tokens behind an item are those of the next item and of what comes behind that one. -/
theorem lex_afterBlanks_cons (item : Tree) (items : List Tree) (rest : Text) :
    (lex (afterBlanks (sources (item :: items)) ++ rest)).tokens =
      (lex (item.source ++ (afterBlanks (sources items) ++ rest))).tokens := by
  have hblank : LexesTo [0x20] [] (item.source ++ afterBlanks (sources items) ++ rest) := .blank rfl
  rw [← List.append_assoc]
  exact hblank.tokens

/-- Between brackets, the tokens are those that stand in front of the closing one. -/
theorem lex_enclosed {first : Nat} {kind : TokenKind} (hfirst : singleKind? first = some kind)
    (texts : List Text) (after rest : Text) :
    (lex (first :: spaced texts ++ after ++ rest)).tokens =
      ⟨kind, [first]⟩ :: (lex (afterBlanks texts ++ (after ++ rest))).tokens := by
  have hopen : LexesTo [first] [⟨kind, [first]⟩] (spaced texts ++ (after ++ rest)) :=
    .single hfirst
  rw [lex_afterBlanks, List.append_assoc]
  exact hopen.tokens

/-! ## First characters -/

/-- Whether the root of the tree is one whose text the reader understands: lists have elements,
dotted lists have items before the dot, and a literal is what the reader makes of the text that it
was written as. Missing values, truth values and numbers that are no integers are none. -/
def isReadable [CharNames] : Tree → Bool
  | .nil | .sym _ | .str _ | .int _ | .vec _ => true
  | .lit value written =>
      match readOne written with
      | .ok (.lit value' written') => value' == value && written' == written
      | _ => false
  | .char code written =>
      match readOne written with
      | .ok (.char code' written') => code' == code && written' == written
      | _ => false
  | .list items | .dot items _ => !items.isEmpty
  | .absent | .bool _ | .float _ => false

/-- Whether the root of the tree is no literal, or the one that the reader makes of the text that it
was written as. -/
def isVerbatim [CharNames] (t : Tree) : Bool :=
  match t with
  | .lit _ _ | .char _ _ => t.isReadable
  | _ => true

/-- A literal that can be read has a text that is one token. -/
theorem isVerbatim_of_isReadable [CharNames] {t : Tree} (h : t.isReadable = true) :
    t.isVerbatim = true := by
  cases t <;> first | rfl | exact h

/-- The text of a literal that can be read is read as it. -/
theorem readOne_of_isReadable_lit [CharNames] {value written : Text}
    (h : isReadable (.lit value written) = true) :
    readOne written = .ok (.lit value written) := by
  rw [isReadable] at h
  split at h
  · next value' written' heq =>
    simp only [Bool.and_eq_true, beq_iff_eq] at h
    rcases h with ⟨rfl, rfl⟩
    exact heq
  · cases h

/-- So is that of a character. -/
theorem readOne_of_isReadable_char [CharNames] {code : Nat} {written : Text}
    (h : isReadable (.char code written) = true) :
    readOne written = .ok (.char code written) := by
  rw [isReadable] at h
  split at h
  · next code' written' heq =>
    simp only [Bool.and_eq_true, beq_iff_eq] at h
    rcases h with ⟨rfl, rfl⟩
    exact heq
  · cases h

/-- Whether the tree is a symbol whose name begins with an at sign. -/
def isSpliced : Tree → Bool
  | .sym name => beginsWith name "@"
  | _ => false

/-- A list with a shorthand has a symbol for its head and one element more. -/
theorem eq_of_listShorthand? {head : Tree} {n : Nat} {short : Text}
    (h : listShorthand? head n = some short) :
    ∃ name, head = .sym name ∧ n = 1 ∧ shorthand? name = some short := by
  unfold listShorthand? at h
  split at h
  · next name =>
    split at h
    · next hone => exact ⟨name, rfl, eq_of_beq hone, h⟩
    · cases h
  · cases h

theorem sources_length (items : List Tree) : (sources items).length = items.length := by
  induction items with
  | nil => rfl
  | cons item items ih => rw [sources, List.length_cons, List.length_cons, ih]

/-- The elements of a list that has a shorthand. -/
theorem eq_of_listShorthand?_sources {head : Tree} {others : List Tree} {short : Text}
    (h : listShorthand? head (sources others).length = some short) :
    ∃ name form, head = .sym name ∧ others = [form] ∧ shorthand? name = some short ∧
      sourceOfItems (head :: others) = short ++ form.source := by
  rcases eq_of_listShorthand? h with ⟨name, rfl, hone, hname⟩
  rw [sources_length] at hone
  rcases List.length_eq_one_iff.1 hone with ⟨form, rfl⟩
  refine ⟨name, form, rfl, rfl, hname, ?_⟩
  rw [sourceOfItems, listSource, h]
  exact congrArg (short ++ ·) ((spaced_cons _ []).trans (List.append_nil _))

/-- The text begins with some character, which is an at sign exactly if the tree is a symbol whose
name begins with one. -/
def BeginsPlainly (text : Text) (spliced : Bool) : Prop :=
  ∃ c cs, text = c :: cs ∧ (c = atSign ↔ spliced = true)

theorem beginsPlainly_cons {c : Nat} (cs : Text) (hc : c ≠ atSign) :
    BeginsPlainly (c :: cs) false := ⟨c, cs, rfl, fun h => absurd h hc, fun h => nomatch h⟩

/-- The text of a name begins with an at sign exactly if the name does. -/
theorem beginsPlainly_symbolSource (name : Text) :
    BeginsPlainly (symbolSource name) (beginsWith name "@") := by
  cases name with
  | nil => exact beginsPlainly_cons _ (by decide)
  | cons c cs =>
      have hbegins : beginsWith (c :: cs) "@" = (c == atSign) := by
        have hat : ("@" : Text) = [atSign] := rfl
        rw [beginsWith, hat]
        simp [List.isPrefixOf, Bool.beq_comm (a := c)]
      rw [hbegins, symbolSource]
      split
      · next hspecial =>
        have hc : c ≠ atSign := by
          rintro rfl
          rcases Bool.or_eq_true_iff.1 hspecial with hdot | hnumeral
          · cases hdot
          · have hchar := Atom.isNumeralChar_of_isNumeral hnumeral atSign List.mem_cons_self
            revert hchar
            decide
        rw [beq_false_of_ne hc]
        exact beginsPlainly_cons _ (by decide)
      · split
        · next hescape =>
          have hc : c ≠ atSign := by
            rintro rfl
            cases hescape
          rw [beq_false_of_ne hc]
          exact beginsPlainly_cons _ (by decide)
        · exact ⟨c, escapeRest cs, rfl, beq_iff_eq.symm⟩

/-- Numbers do not begin with an at sign. -/
theorem beginsPlainly_of_isDisplayChar {text : Text} (hne : text ≠ [])
    (h : ∀ c ∈ text, Number.isDisplayChar c = true) : BeginsPlainly text false := by
  cases text with
  | nil => exact absurd rfl hne
  | cons c cs =>
      refine beginsPlainly_cons cs ?_
      rintro rfl
      cases h atSign List.mem_cons_self

/-- A shorthand begins with no at sign. -/
theorem beginsPlainly_shorthand {name short : Text} (h : shorthand? name = some short)
    (text : Text) : BeginsPlainly (short ++ text) false := by
  rcases shorthand?_cases h with h | h | h | h | h <;> obtain ⟨-, rfl⟩ := h <;>
    exact beginsPlainly_cons _ (by decide)

/-- The text of a tree begins with an at sign exactly if it is that of a symbol whose name does. -/
theorem beginsPlainly_source [CharNames] {t : Tree} (ht : t.isVerbatim = true) :
    BeginsPlainly t.source t.isSpliced := by
  have hlist : ∀ items : List Tree, BeginsPlainly (sourceOfItems items) false := by
    intro items
    cases items with
    | nil => exact beginsPlainly_cons _ (by decide)
    | cons head rest =>
        rw [sourceOfItems, listSource]
        split
        · next short hshort =>
          rcases eq_of_listShorthand? hshort with ⟨name, -, -, hname⟩
          exact beginsPlainly_shorthand hname _
        · exact beginsPlainly_cons _ (by decide)
  -- only the text of a symbol can begin with an at sign
  cases t with
  | nil => exact beginsPlainly_cons _ (by decide)
  | absent => exact beginsPlainly_cons _ (by decide)
  | bool value => cases value <;> exact beginsPlainly_cons _ (by decide)
  | sym name =>
      rw [source]
      exact beginsPlainly_symbolSource name
  | lit value written =>
      rcases eq_of_readOne_lit (readOne_of_isReadable_lit ht) with ⟨-, cs, rfl, -⟩
      rw [source]
      exact beginsPlainly_cons _ (by decide)
  | str value =>
      rw [source, stringSource_eq]
      exact beginsPlainly_cons _ (by decide)
  | char code written =>
      rcases eq_of_readOne_char (readOne_of_isReadable_char ht) with ⟨-, cs, rfl, -⟩
      rw [source]
      exact beginsPlainly_cons _ (by decide)
  | int value =>
      rw [source]
      refine beginsPlainly_of_isDisplayChar (toString_ne_nil value) fun c hc => ?_
      exact Number.isDisplayChar_of_isNumeralChar (isNumeralChar_of_mem_toString hc)
  | float value =>
      rw [source]
      exact beginsPlainly_of_isDisplayChar (Number.display_ne_nil value) fun c hc =>
        Number.isDisplayChar_of_mem_display hc
  | list items =>
      rw [source]
      exact hlist items
  | vec items =>
      rw [source]
      exact beginsPlainly_cons _ (by decide)
  | dot items tail =>
      rw [source]
      split
      · exact hlist items
      · exact beginsPlainly_cons _ (by decide)

end Tree

end LispNamespace
