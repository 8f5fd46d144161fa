import LispNamespace.Text.Basic

/-!
# Beginnings and ends of texts

A namespace puts its qualifier before a name, and a protection marker stands before a name that
is to be left alone. Both are compared and removed by code points.
-/

namespace LispNamespace.Text

/-- Whether the text begins with the given stem. -/
def beginsWith (text stem : Text) : Bool := stem.isPrefixOf text

/-- The text without its first `n` code points. -/
def dropFirst (text : Text) (n : Nat) : Text := text.drop n

/-- The text without the code points at its end that satisfy the test. -/
def dropLastWhile (text : Text) (test : Nat → Bool) : Text :=
  (text.reverse.dropWhile test).reverse

/-- A text begins with a stem when it is the stem with some rest after it. -/
theorem beginsWith_iff {text stem : Text} :
    beginsWith text stem = true ↔ ∃ rest, text = stem ++ rest := by
  simp only [beginsWith, List.isPrefixOf_iff_prefix]
  exact ⟨fun ⟨rest, h⟩ => ⟨rest, h.symm⟩, fun ⟨rest, h⟩ => ⟨rest, h.symm⟩⟩

end LispNamespace.Text
