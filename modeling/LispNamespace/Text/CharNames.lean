import LispNamespace.Text.Basic

/-!
# Names of characters

Unicode gives names to characters, and to some sequences of several characters. Its table of names
is no part of this library: whatever reads the name of a character is given a table, and what is
said about it holds for every table. All that is known of one is that names stand for code points.
-/

namespace LispNamespace

/-- A table of the names of characters. -/
class CharNames where
  /-- The text that a name stands for: one character, or the characters of a named sequence. Nothing
  else has a name. -/
  text? : Text → Option Text
  /-- No name stands for anything beyond the last code point. -/
  le_of_text? : ∀ {name text : Text}, text? name = some text → ∀ c ∈ text, c ≤ 0x10ffff

namespace CharNames

/-- The table with the given entries, whose names are in capitals. They are found in small letters,
too. -/
@[reducible] def ofEntries (entries : List (Text × Text))
    (hentries : ∀ entry ∈ entries, ∀ c ∈ entry.2, c ≤ 0x10ffff) : CharNames where
  text? name := entries.lookup (Text.uppercase name)
  le_of_text? := by
    intro name text hlookup
    rcases List.lookup_eq_some_iff.1 hlookup with ⟨front, back, heq, -⟩
    exact hentries (Text.uppercase name, text) (by simp [heq])

/-- A table of four names, the last of which is that of a sequence. It is what a run from the command
line is given, and enough for instances of what is said about all tables. -/
@[reducible] def few : CharNames :=
  .ofEntries
    [("SNOWMAN", [0x2603]), ("LATIN SMALL LETTER E WITH ACUTE", [0xe9]),
     ("GREEK SMALL LETTER ALPHA", [0x3b1]), ("LATIN SMALL LETTER R WITH TILDE", [0x72, 0x303])]
    (by decide)

end CharNames

end LispNamespace
