import LispNamespace.Proofs.Reading.Decoding
import Mathlib.Data.Multiset.MapFold

/-!
# Modifiers in any order

In a character literal no modifier is refused, so the modifiers before a character are functions from
codes to codes, the innermost of which is applied first. Each modifier but control sets a bit above the
codes of characters. Control looks at the part below these bits only, and there it either replaces it or
leaves it alone and sets a bit of its own. So any two modifiers commute, control with itself for the
plain reason that it is one function, and a row of modifiers acts through the multiset of them.
-/

namespace LispNamespace

open Text

namespace Literal

/-! ## The parts of a code -/

/-- The bits of modifiers are those from the twenty-second on. -/
theorem modifierBits_eq_shift (code : Nat) : modifierBits code = (code >>> 22) <<< 22 := by
  unfold modifierBits baseCode
  rw [Nat.shiftLeft_eq, Nat.shiftRight_eq_div_pow]
  omega

theorem modifierBits_or (a b : Nat) : modifierBits (a ||| b) = modifierBits a ||| modifierBits b := by
  simp only [modifierBits_eq_shift, Nat.shiftRight_or_distrib, Nat.shiftLeft_or_distrib]

/-- The bit of a modifier is above the codes of characters. -/
theorem modifierBits_bit (modifier : Modifier) : modifierBits modifier.bit = modifier.bit := by
  cases modifier <;> rfl

theorem baseCode_or_bit (code : Nat) (modifier : Modifier) :
    baseCode (code ||| modifier.bit) = baseCode code := by
  rw [baseCode_or, baseCode_bit, Nat.or_zero]

/-! ## Modifiers as functions on codes -/

/-- The control code of a character that has one. -/
def controlCode? (base : Nat) : Option Nat :=
  if base == 0x3f then some 127
  else if (0x40 ≤ base && base ≤ 0x5f) || (0x61 ≤ base && base ≤ 0x7a) then some (base &&& 0x1f)
  else none

/-- The code with the control modifier: the control code in the place of the character if there is one,
and else a bit above it. -/
def withControl (code : Nat) : Nat :=
  match controlCode? (baseCode code) with
  | some low => low ||| modifierBits code
  | none => code ||| Modifier.control.bit

/-- The code of a character literal with a modifier in front. -/
def withModifier (modifier : Modifier) (code : Nat) : Nat :=
  match modifier with
  | .control => withControl code
  | modifier => code ||| modifier.bit

/-- In a character literal, every code can take the control modifier. -/
theorem applyControl_character (code : Nat) : applyControl .character code = .ok (withControl code) := by
  unfold applyControl withControl controlCode?
  dsimp only
  split
  · rfl
  · split <;> rfl

/-- In a character literal no modifier is refused. -/
theorem applyModifier_character (modifier : Modifier) (code : Nat) :
    applyModifier .character modifier code = .ok (withModifier modifier code) := by
  cases modifier with
  | control => exact applyControl_character code
  | _ => rfl

/-- Control takes no notice of the bits of modifiers and keeps them. -/
theorem withControl_or_bit (code : Nat) (modifier : Modifier) :
    withControl (code ||| modifier.bit) = withControl code ||| modifier.bit := by
  unfold withControl
  rw [baseCode_or_bit, modifierBits_or, modifierBits_bit]
  cases controlCode? (baseCode code) with
  | some low => exact (Nat.or_assoc ..).symm
  | none =>
      dsimp only
      ac_rfl

/-- Each other modifier sets its bit and does nothing else. -/
theorem withModifier_of_ne {modifier : Modifier} (h : modifier ≠ .control) (code : Nat) :
    withModifier modifier code = code ||| modifier.bit := by
  cases modifier with
  | control => exact absurd rfl h
  | _ => rfl

/-- Two modifiers have the same effect in either order. -/
theorem withModifier_left_comm (first second : Modifier) (code : Nat) :
    withModifier first (withModifier second code) = withModifier second (withModifier first code) := by
  by_cases hfirst : first = .control
  · by_cases hsecond : second = .control
    · rw [hfirst, hsecond]
    · rw [hfirst, withModifier_of_ne hsecond, withModifier_of_ne hsecond]
      exact withControl_or_bit code second
  · by_cases hsecond : second = .control
    · rw [hsecond, withModifier_of_ne hfirst, withModifier_of_ne hfirst]
      exact (withControl_or_bit code first).symm
    · simp only [withModifier_of_ne hfirst, withModifier_of_ne hsecond]
      ac_rfl

instance : LeftCommutative withModifier := ⟨withModifier_left_comm⟩

/-- The code of a character literal with modifiers in front. -/
def withModifiers (modifiers : Multiset Modifier) (code : Nat) : Nat :=
  modifiers.foldr withModifier code

/-! ## Modifiers as they are written -/

/-- The ways to write a modifier. -/
inductive Spelling where
  /-- A caret, for control. -/
  | caret
  /-- The letter of the modifier and a hyphen. -/
  | lettered (modifier : Modifier)

namespace Spelling

/-- The text of a modifier before a character. -/
def text : Spelling → Text
  | .caret => [backslash, Text.caret]
  | .lettered modifier => [backslash, modifier.letter.toNat, hyphen]

/-- The modifier that is written. -/
def modifier : Spelling → Modifier
  | .caret => .control
  | .lettered modifier => modifier

end Spelling

/-- The text of modifiers before a character. -/
def spelled (spellings : List Spelling) : Text := spellings.flatMap Spelling.text

/-- The modifiers that are written, in no order. -/
def modifiersOf (spellings : List Spelling) : Multiset Modifier := spellings.map Spelling.modifier

/-- The text of a character literal with modifiers in front of a character or an escape. -/
def characterToken (spellings : List Spelling) (base : Text) : Text :=
  questionMark :: (spelled spellings ++ base)

theorem spelled_cons_append (spelling : Spelling) (spellings : List Spelling) (base : Text) :
    spelled (spelling :: spellings) ++ base = spelling.text ++ (spelled spellings ++ base) := by
  unfold spelled
  rw [List.flatMap_cons, List.append_assoc]

/-! ## The literal at hand only matters for complaints -/

variable (body : Text)

theorem toOption_bind {α β : Type} (result : Except ReadError α) (f : α → Except ReadError β) :
    (result >>= f).toOption = result.toOption.bind fun a => (f a).toOption := by
  cases result <;> rfl

theorem toOption_map {α β : Type} (result : Except ReadError α) (f : α → β) :
    (result.map f).toOption = result.toOption.map f := by
  cases result <;> rfl

/-- The text that errors quote plays no part in this. -/
theorem toOption_modify (setting : Setting) (other : Text) (modifier : Modifier)
    (decoded : Option Nat × Text) :
    (modify setting body modifier decoded).toOption = (modify setting other modifier decoded).toOption := by
  rcases decoded with ⟨code | _, rest⟩ <;> rfl

variable [CharNames]

theorem toOption_escape (other : Text) (c : Nat) (cs : Text) :
    (escape body c cs).toOption = (escape other c cs).toOption := by
  unfold escape
  split
  · rfl
  · split
    · rfl
    · split
      · dsimp only
        split <;> rfl
      · split
        · rfl
        · split
          · dsimp only
            generalize (if (c == 'u'.toNat) = true then 4 else 8) = width
            split <;> rfl
          · split
            · dsimp only
              split <;> rfl
            · rfl

theorem toOption_decodeEscape (other : Text) (cs : Text) :
    (decodeEscape body cs).toOption = (decodeEscape other cs).toOption := by
  cases cs with
  | nil => rfl
  | cons c cs =>
      unfold decodeEscape
      rw [toOption_map, toOption_map, toOption_escape body other]

/-- What a character denotes does not depend on the literal it stands in. -/
theorem toOption_decodeChar (setting : Setting) (other : Text) (cs : Text) :
    (decodeChar setting body cs).toOption = (decodeChar setting other cs).toOption := by
  -- a modifier hands the text on to the character after it
  have hmodified : ∀ {cs : Text} {modifier : Modifier},
      (decodeChar setting body cs).toOption = (decodeChar setting other cs).toOption →
      (decodeChar setting body cs >>= modify setting body modifier).toOption =
        (decodeChar setting other cs >>= modify setting other modifier).toOption := by
    intro cs modifier h
    rw [toOption_bind, toOption_bind, h]
    exact congrArg _ (funext (toOption_modify body setting other modifier))
  fun_induction decodeChar setting body cs with
  | case1 cs hempty =>
      rw [decodeChar, if_pos hempty]
      rfl
  | case2 cs hempty ih =>
      rw [decodeChar, if_neg hempty]
      exact hmodified ih
  | case3 c cs hcaret modifier hmodifier hempty =>
      rw [decodeChar, hmodifier]
      · dsimp only
        rw [if_pos hempty]
        rfl
      · exact hcaret
  | case4 c cs hcaret modifier hmodifier hempty ih =>
      rw [decodeChar, hmodifier]
      · dsimp only
        rw [if_neg hempty]
        exact hmodified ih
      · exact hcaret
  | case5 c cs hcaret hmodifier =>
      rw [decodeChar, hmodifier]
      · exact toOption_decodeEscape body other (c :: hyphen :: cs)
      · exact hcaret
  | case6 cs hcaret hhyphen =>
      rw [decodeChar]
      · exact toOption_decodeEscape body other cs
      · exact hcaret
      · exact hhyphen
  | case7 c cs hcaret hhyphen hslash =>
      rw [decodeChar]
      · exact hcaret
      · exact hhyphen
      · exact hslash
  | case8 => rfl

/-- The code of the character or the escape at the front of a text, if it has one. An escaped line end
has none. -/
def denoted? (base : Text) : Option Nat :=
  (decodeChar .character base base).toOption.bind (·.1)

/-- What has a code has it in every literal, and something may be left after it. -/
theorem exists_of_denoted? {base : Text} {code : Nat} (h : denoted? base = some code) :
    ∃ rest, decodeChar .character body base = .ok (some code, rest) := by
  unfold denoted? at h
  rw [toOption_decodeChar base .character body] at h
  rcases hdecode : decodeChar .character body base with error | ⟨found, rest⟩
  · rw [hdecode] at h
    cases h
  · rw [hdecode] at h
    cases h
    exact ⟨rest, rfl⟩

/-! ## Rows of modifiers -/

/-- A modifier is decoded by decoding what it stands in front of. -/
theorem decodeChar_spelling (spelling : Spelling) {cs : Text} (hcs : cs ≠ []) :
    decodeChar .character body (spelling.text ++ cs) =
      decodeChar .character body cs >>= modify .character body spelling.modifier := by
  have hempty : ¬ cs.isEmpty = true := fun h => hcs (List.isEmpty_iff.1 h)
  rcases spelling with _ | modifier
  · exact if_neg hempty
  · cases modifier <;> exact if_neg hempty

/-- Modifiers with no character after them are refused. -/
theorem decodeChar_spelling_nil (spelling : Spelling) :
    decodeChar .character body spelling.text = .error (.modifierAlone body) := by
  rcases spelling with _ | modifier
  · rfl
  · cases modifier <;> rfl

/-- A row of modifiers is applied to the code of the character it stands in front of. -/
theorem decodeChar_spelled {base rest : Text} {code : Nat}
    (h : decodeChar .character body base = .ok (some code, rest)) (spellings : List Spelling) :
    decodeChar .character body (spelled spellings ++ base) =
      .ok (some (withModifiers (modifiersOf spellings) code), rest) := by
  have hbase : base ≠ [] := by
    rintro rfl
    cases h
  induction spellings with
  | nil => exact h
  | cons spelling spellings ih =>
      have hcs : spelled spellings ++ base ≠ [] := List.append_ne_nil_of_right_ne_nil _ hbase
      have hmodifiers : withModifiers (modifiersOf (spelling :: spellings)) code =
          withModifier spelling.modifier (withModifiers (modifiersOf spellings) code) := rfl
      rw [spelled_cons_append, decodeChar_spelling body spelling hcs, ih, hmodifiers]
      show (applyModifier .character spelling.modifier _).map _ = _
      rw [applyModifier_character]
      rfl

/-- Modifiers in front of what has no code have none either. -/
theorem decodeChar_spelled_of_none {base : Text} (h : denoted? base = none) {spellings : List Spelling}
    (hne : spellings ≠ []) : (decodeChar .character body (spelled spellings ++ base)).toOption = none := by
  induction spellings with
  | nil => exact absurd rfl hne
  | cons spelling spellings ih =>
      rw [spelled_cons_append]
      by_cases hcs : spelled spellings ++ base = []
      · rw [hcs, List.append_nil, decodeChar_spelling_nil]
        rfl
      · rw [decodeChar_spelling body spelling hcs, toOption_bind]
        cases spellings with
        | nil =>
            -- the base has no code: to decode it fails, or it is an escaped line end
            change (decodeChar .character body base).toOption.bind _ = none
            unfold denoted? at h
            rw [toOption_decodeChar base .character body] at h
            rcases hdecode : decodeChar .character body base with error | ⟨_ | code, rest⟩
            · rfl
            · rfl
            · rw [hdecode] at h
              cases h
        | cons next spellings => rw [ih (List.cons_ne_nil _ _), Option.bind_none]

/-- A character literal is the character after its question mark, where an escaped line end stands
for a line end. -/
theorem toOption_decodeCharacter (token : Text) :
    (decodeCharacter token).toOption =
      (decodeChar .character token (token.drop 1)).toOption.map fun decoded => decoded.1.getD 0x0a :=
  toOption_map _ _

/-- The order of modifiers does not matter. Let modifiers be written, each in any of its spellings and as
often as one likes, in front of a character or an escape that has a code. The literal has a code as well,
which is a function of that code and of the multiset of the modifiers. Whatever text stands after them,
rows of the same modifiers give literals with the same code, or none of them has one. -/
theorem decodeCharacter_ignores_order (base : Text) :
    (∀ code, denoted? base = some code → ∀ spellings,
      decodeCharacter (characterToken spellings base) =
        .ok (withModifiers (modifiersOf spellings) code)) ∧
    ∀ first second, modifiersOf first = modifiersOf second →
      (decodeCharacter (characterToken first base)).toOption =
        (decodeCharacter (characterToken second base)).toOption := by
  have hcode : ∀ code, denoted? base = some code → ∀ spellings,
      decodeCharacter (characterToken spellings base) =
        .ok (withModifiers (modifiersOf spellings) code) := by
    intro code hbase spellings
    rcases exists_of_denoted? (characterToken spellings base) hbase with ⟨rest, hdecode⟩
    have hspelled := decodeChar_spelled _ hdecode spellings
    exact congrArg (Except.map _) hspelled
  refine ⟨hcode, fun first second hsame => ?_⟩
  cases hbase : denoted? base with
  | some code => rw [hcode code hbase, hcode code hbase, hsame]
  -- behind modifiers such a base is refused, whichever they are; without any, both sides are the
  -- same token
  | none =>
      have hlength : first.length = second.length := by
        simpa [modifiersOf] using congrArg Multiset.card hsame
      cases first with
      | nil =>
          obtain rfl : second = [] := List.length_eq_zero_iff.1 hlength.symm
          rfl
      | cons spelling first =>
          have hnone : ∀ {spellings : List Spelling}, spellings ≠ [] →
              (decodeCharacter (characterToken spellings base)).toOption = none := by
            intro spellings hne
            rw [toOption_decodeCharacter]
            exact congrArg _ (decodeChar_spelled_of_none _ hbase hne)
          have hsecond : second ≠ [] := by
            rintro rfl
            cases hlength
          rw [hnone (List.cons_ne_nil _ _), hnone hsecond]

omit [CharNames] in
/-- The second control finds a control code and sets a bit, be it next to the first one or not. Where
there is no control code, as for a character with a name of its own, both set the same bit. -/
theorem decodeCharacter_ignores_order_of_two_controls :
    @denoted? .few "a" = some 0x61 ∧ @decodeCharacter .few "?\\S-\\^\\M-\\C-a" = .ok 0xe000001 ∧
      (@decodeCharacter .few "?\\S-\\^\\M-\\C-a").toOption =
        (@decodeCharacter .few "?\\C-\\C-\\M-\\S-a").toOption ∧
      @decodeCharacter .few "?\\S-\\^\\M-\\C-\\N\x7bsnowman\x7d" = .ok 0xe002603 := by
  rcases @decodeCharacter_ignores_order .few "a" with ⟨hcode, horder⟩
  have hsame : modifiersOf [.lettered .shift, .caret, .lettered .meta_, .lettered .control] =
      modifiersOf [.lettered .control, .lettered .control, .lettered .meta_, .lettered .shift] := by
    decide
  refine ⟨rfl, hcode 0x61 rfl [.lettered .shift, .caret, .lettered .meta_, .lettered .control],
    horder _ _ hsame, ?_⟩
  exact (@decodeCharacter_ignores_order .few "\\N\x7bsnowman\x7d").1 0x2603 rfl
    [.lettered .shift, .caret, .lettered .meta_, .lettered .control]

end Literal

end LispNamespace
