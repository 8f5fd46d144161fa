/-!
# Texts

A text is a row of code points. Source text, names and messages are texts and not strings: a code
escape in a string literal can denote a lone surrogate, which is a code point without being a
character, and names can be made of such literals. Where a text is spelled out in this library, a
string stands for the text of its characters.
-/

namespace LispNamespace

/-- A text, as the row of its code points. -/
abbrev Text := List Nat

namespace Text

/-- The text of the characters of a string. -/
def ofString (s : String) : Text := s.toList.map Char.toNat

instance : Coe String Text := ⟨ofString⟩

/-- The text as a string. A lone surrogate, which no string holds, becomes U+FFFD. -/
def asString (text : Text) : String :=
  String.ofList (text.map fun n => if n.isValidChar then Char.ofNat n else Char.ofNat 0xfffd)

/-- The text with the small letters of ASCII replaced by capital ones. -/
def uppercase (text : Text) : Text :=
  text.map fun n => if 'a'.toNat ≤ n ∧ n ≤ 'z'.toNat then n - 0x20 else n

/-- The text with the capital letters of ASCII replaced by small ones. -/
def lowercase (text : Text) : Text :=
  text.map fun n => if 'A'.toNat ≤ n ∧ n ≤ 'Z'.toNat then n + 0x20 else n

/-- Different strings are different texts. -/
@[simp] theorem ofString_inj {s t : String} : ofString s = ofString t ↔ s = t := by
  constructor
  · intro h
    exact String.toList_inj.1 ((List.map_inj_right fun _ _ h => Char.toNat_inj.1 h).1 h)
  · rintro rfl
    rfl

@[simp] theorem ofString_append (s t : String) : ofString (s ++ t) = ofString s ++ ofString t := by
  simp [ofString]

end Text

end LispNamespace
