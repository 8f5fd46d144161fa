import LispNamespace.Proofs.Reading.Layouts

/-!
# Colours take no room

A colour code goes from its escape character over a bracket and digits to an `m`. Blanks, line ends,
parentheses and the escape character itself do not occur after its beginning, so no colour code reaches
over a place where one of these begins: there, taking the colour codes out of a text is taking them out
of its two parts. A layout is put together at such places only. Without their colour codes a layout with
colours and one without are the same text, broken into the same lines, whatever names and literals hold
themselves.
-/

namespace LispNamespace

open Text Token

namespace Colour

/-! ## Colour codes -/

/-- The escape character, which begins a colour code. -/
abbrev escapeCharacter : Nat := 0x1b

/-- The letter that ends a colour code. -/
abbrev lastLetter : Nat := 0x6d

/-- The text is one colour code. -/
def IsCode (code : Text) : Prop :=
  ∃ digits : Text, digits ≠ [] ∧ (∀ d ∈ digits, isDigit d = true) ∧
    code = escapeCharacter :: openBracket :: (digits ++ [lastLetter])

/-- Whether a code point occurs in colour codes after their beginning. -/
def continues (c : Nat) : Bool := c == openBracket || isDigit c || c == lastLetter

theorem IsCode.ne_nil {code : Text} (h : IsCode code) : code ≠ [] := by
  rcases h with ⟨digits, -, -, rfl⟩
  exact List.cons_ne_nil _ _

theorem IsCode.head_eq {c : Nat} {code : Text} (h : IsCode (c :: code)) : c = escapeCharacter := by
  rcases h with ⟨digits, -, -, heq⟩
  exact (List.cons.inj heq).1

/-- What does not occur after the beginning of colour codes occurs in them as their beginning only. -/
theorem IsCode.continues_of_mem_tail {c first : Nat} {code : Text} (h : IsCode (first :: code))
    (hc : c ∈ code) : continues c = true := by
  rcases h with ⟨digits, -, hdigits, heq⟩
  rw [(List.cons.inj heq).2] at hc
  unfold continues
  rcases List.mem_cons.1 hc with rfl | hc
  · rfl
  · rcases List.mem_append.1 hc with hdigit | hlast
    · simp [hdigits c hdigit]
    · simp [List.mem_singleton.1 hlast]

/-- After the bracket, a colour code needs digits and its last letter right after them. -/
theorem codeLength_bracket (rest : Text) :
    codeLength (escapeCharacter :: openBracket :: rest) =
      if (rest.takeWhile isDigit).length != 0 && (rest.dropWhile isDigit).head? == some lastLetter then
        (rest.takeWhile isDigit).length + 3
      else 0 := by
  have hdrop : rest.drop (Token.countWhile isDigit rest) = rest.dropWhile isDigit :=
    (congrArg (List.drop _) List.takeWhile_append_dropWhile.symm).trans List.drop_left
  rw [← hdrop]
  rfl

/-- A colour code ends where it ends, whatever follows. -/
theorem codeLength_code_append {code : Text} (h : IsCode code) (rest : Text) :
    codeLength (code ++ rest) = code.length := by
  rcases h with ⟨digits, hne, hdigits, rfl⟩
  have htext : escapeCharacter :: openBracket :: (digits ++ [lastLetter]) ++ rest =
      escapeCharacter :: openBracket :: (digits ++ lastLetter :: rest) := by
    simp
  have htake : (digits ++ lastLetter :: rest).takeWhile isDigit = digits := by
    rw [List.takeWhile_append_of_pos hdigits]
    exact List.append_nil digits
  have hdrop : (digits ++ lastLetter :: rest).dropWhile isDigit = lastLetter :: rest := by
    rw [List.dropWhile_append_of_pos hdigits]
    rfl
  rw [htext, codeLength_bracket, htake, hdrop, if_pos (by simpa using hne)]
  simp

/-- Where the length of a colour code is found, there is one. -/
theorem exists_of_codeLength {cs : Text} (h : codeLength cs ≠ 0) :
    ∃ code rest, IsCode code ∧ cs = code ++ rest := by
  by_cases hbegins : beginsWith cs "\x1b[" = true
  · rcases beginsWith_iff.1 hbegins with ⟨rest, rfl⟩
    change codeLength (escapeCharacter :: openBracket :: rest) ≠ 0 at h
    rw [codeLength_bracket] at h
    split at h
    · next hcode =>
      simp only [Bool.and_eq_true, bne_iff_ne, beq_iff_eq] at hcode
      rcases List.head?_eq_some_iff.1 hcode.2 with ⟨after, hafter⟩
      have hrest : rest = rest.takeWhile isDigit ++ lastLetter :: after := by
        rw [← hafter, List.takeWhile_append_dropWhile]
      refine ⟨_, after, ⟨rest.takeWhile isDigit, ?_, ?_, rfl⟩, ?_⟩
      · exact fun hnil => hcode.1 (congrArg List.length hnil)
      · exact List.all_eq_true.1 List.all_takeWhile
      · refine (congrArg (("\x1b[" : Text) ++ ·) hrest).trans ?_
        simp [Text.ofString]
    · exact absurd rfl h
  · rw [codeLength, if_neg hbegins] at h
    exact absurd rfl h

/-! ## Taking colour codes out -/

/-- The code points that are still to be passed over are dropped. -/
theorem stripFrom_eq (skip : Nat) (cs : Text) : stripFrom skip cs = strip (cs.drop skip) := by
  induction cs generalizing skip with
  | nil => simp [strip, stripFrom]
  | cons c cs ih =>
      cases skip with
      | zero => rfl
      | succ skip => exact ih skip

/-- A colour code at the beginning is taken out. -/
theorem strip_code_append {code : Text} (h : IsCode code) (rest : Text) :
    strip (code ++ rest) = strip rest := by
  have hlength := codeLength_code_append h rest
  cases code with
  | nil => exact absurd rfl h.ne_nil
  | cons c code =>
      rw [List.cons_append] at hlength ⊢
      rw [strip, stripFrom, hlength]
      exact (stripFrom_eq _ _).trans (congrArg strip List.drop_left)

/-- Where no colour code begins, the code point stays. -/
theorem strip_cons {c : Nat} {cs : Text} (h : codeLength (c :: cs) = 0) :
    strip (c :: cs) = c :: strip cs := by
  rw [strip, stripFrom, h]
  rfl

/-- A text is read from the left, a colour code at a time or one code point where none begins. -/
theorem induction_on_codes {motive : Text → Prop} (nil : motive [])
    (code : ∀ code rest, IsCode code → motive rest → motive (code ++ rest))
    (plain : ∀ c rest, codeLength (c :: rest) = 0 → motive rest → motive (c :: rest)) (cs : Text) :
    motive cs := by
  induction hn : cs.length using Nat.strongRecOn generalizing cs with
  | _ n ih =>
  rcases cs with _ | ⟨c, rest⟩
  · exact nil
  · by_cases hlength : codeLength (c :: rest) = 0
    · exact plain c rest hlength (ih rest.length (by simp [← hn]) rest rfl)
    · rcases exists_of_codeLength hlength with ⟨first, after, hfirst, heq⟩
      rw [heq] at hn ⊢
      have hpositive := List.length_pos_iff.2 hfirst.ne_nil
      rw [List.length_append] at hn
      exact code first after hfirst (ih after.length (by omega) after rfl)

/-! ## Borders of colour codes -/

/-- No colour code goes on into the text: it is empty or begins with a code point that does not occur in
colour codes after their beginning. -/
def IsBorder (cs : Text) : Prop := ∀ c ∈ cs.head?, continues c = false

theorem isBorder_cons {c : Nat} (h : continues c = false) (cs : Text) : IsBorder (c :: cs) := by
  intro d hd
  cases hd
  exact h

/-- A colour code that begins in front of a border ends there. -/
theorem codeLength_append_of_isBorder {a b : Text} (hb : IsBorder b) (ha : a ≠ [])
    (h : codeLength a = 0) : codeLength (a ++ b) = 0 := by
  refine Decidable.byContradiction fun hne => ?_
  rcases exists_of_codeLength hne with ⟨code, rest, hcode, heq⟩
  rcases List.append_eq_append_iff.1 heq with ⟨beyond, rfl, hbeyond⟩ | ⟨inside, rfl, -⟩
  · rcases beyond with _ | ⟨c, beyond⟩
    · rw [List.append_nil] at hcode
      have hlength := codeLength_code_append hcode []
      rw [List.append_nil, h] at hlength
      exact ha (List.length_eq_zero_iff.1 hlength.symm)
    · rcases List.exists_cons_of_ne_nil ha with ⟨first, front, rfl⟩
      have hc : continues c = true :=
        hcode.continues_of_mem_tail (List.mem_append_right front List.mem_cons_self)
      rw [hb c (hbeyond ▸ rfl)] at hc
      cases hc
  · rw [codeLength_code_append hcode] at h
    exact hcode.ne_nil (List.length_eq_zero_iff.1 h)

/-- At a border, colour codes are taken out of the two parts of a text. -/
theorem strip_append {b : Text} (hb : IsBorder b) (a : Text) : strip (a ++ b) = strip a ++ strip b := by
  induction a using induction_on_codes with
  | nil => rfl
  | code code rest hcode ih =>
      rw [List.append_assoc, strip_code_append hcode, strip_code_append hcode, ih]
  | plain c rest hlength ih =>
      have hwhole := codeLength_append_of_isBorder hb (List.cons_ne_nil c rest) hlength
      rw [List.cons_append] at hwhole ⊢
      rw [strip_cons hwhole, strip_cons hlength, ih, List.cons_append]

theorem codeLength_cons_of_ne {c : Nat} (h : c ≠ escapeCharacter) (cs : Text) :
    codeLength (c :: cs) = 0 := by
  refine Decidable.byContradiction fun hne => ?_
  rcases exists_of_codeLength hne with ⟨code, rest, hcode, heq⟩
  rcases List.exists_cons_of_ne_nil hcode.ne_nil with ⟨first, code, rfl⟩
  obtain rfl : c = first := (List.cons.inj heq).1
  exact h hcode.head_eq

/-- A text without escape characters stays as it is, and no colour code begins in it. -/
theorem strip_append_of_not_mem {a : Text} (ha : escapeCharacter ∉ a) (b : Text) :
    strip (a ++ b) = a ++ strip b := by
  induction a with
  | nil => rfl
  | cons c a ih =>
      have hc : c ≠ escapeCharacter := fun heq => ha (heq ▸ List.mem_cons_self)
      have hrest : escapeCharacter ∉ a := fun hmem => ha (List.mem_cons_of_mem c hmem)
      rw [List.cons_append, strip_cons (codeLength_cons_of_ne hc _), ih hrest, List.cons_append]

/-- What does not occur in colour codes is kept, each time it occurs. -/
theorem mem_strip {c : Nat} (hc : c ≠ escapeCharacter) (hcontinues : continues c = false) {cs : Text} :
    c ∈ strip cs ↔ c ∈ cs := by
  induction cs using induction_on_codes with
  | nil => rfl
  | code code rest hcode ih =>
      have hnot : c ∉ code := by
        intro hmem
        rcases List.exists_cons_of_ne_nil hcode.ne_nil with ⟨first, code, rfl⟩
        rcases List.mem_cons.1 hmem with rfl | hmem
        · exact hc hcode.head_eq
        · rw [hcode.continues_of_mem_tail hmem] at hcontinues
          cases hcontinues
      rw [strip_code_append hcode, ih, List.mem_append, or_iff_right hnot]
  | plain d rest hlength ih => rw [strip_cons hlength, List.mem_cons, List.mem_cons, ih]

/-- No colour code reaches over a blank. -/
theorem isBorder_of_isSpacing {gap : Text} (h : IsSpacing gap) (rest : Text) : IsBorder (gap ++ rest) := by
  rcases List.exists_cons_of_ne_nil h.1 with ⟨c, gap, rfl⟩
  refine isBorder_cons ?_ (gap ++ rest)
  rcases h.2 c List.mem_cons_self with rfl | rfl <;> rfl

theorem not_mem_of_isSpacing {gap : Text} (h : IsSpacing gap) : escapeCharacter ∉ gap := by
  intro hmem
  rcases h.2 _ hmem with heq | heq <;> cases heq

/-- No colour code reaches over the blanks between texts. -/
theorem strip_intercalate {gap : Text} (h : IsSpacing gap) (texts : List Text) :
    strip (gap.intercalate texts) = gap.intercalate (texts.map strip) := by
  induction texts with
  | nil => rfl
  | cons text texts ih =>
      cases texts with
      | nil => rw [List.map_singleton, List.intercalate_singleton, List.intercalate_singleton]
      | cons next texts =>
          rw [List.map_cons, List.map_cons, List.intercalate_cons_cons, List.intercalate_cons_cons,
            ← List.map_cons, ← ih, List.append_assoc, List.append_assoc,
            strip_append (isBorder_of_isSpacing h _), strip_append_of_not_mem (not_mem_of_isSpacing h)]

/-- Nor does one reach over the parentheses of a list. -/
theorem strip_parentheses (inside : Text) :
    strip (openParen :: (inside ++ [closeParen])) = openParen :: (strip inside ++ [closeParen]) := by
  have hopen : codeLength (openParen :: (inside ++ [closeParen])) = 0 :=
    codeLength_cons_of_ne (by decide) _
  rw [strip_cons hopen, strip_append (isBorder_cons rfl [])]
  rfl

/-- Taking colour codes out of a text is taking them out of each of its lines. -/
theorem splitOn_strip (cs : Text) :
    (strip cs).splitOn newline = (cs.splitOn newline).map strip := by
  induction hn : cs.length using Nat.strongRecOn generalizing cs with
  | _ n ih =>
  by_cases hmem : newline ∈ cs
  · rcases List.append_of_mem hmem with ⟨line, rest, rfl⟩
    have hbreak : codeLength (newline :: rest) = 0 := codeLength_cons_of_ne (by decide) rest
    rw [List.length_append, List.length_cons] at hn
    rw [strip_append (isBorder_cons rfl rest), strip_cons hbreak, List.splitOn_append_cons_self,
      List.splitOn_append_cons_self, List.map_append, ih line.length (by omega) line rfl,
      ih rest.length (by omega) rest rfl]
  · have hkept : newline ∉ strip cs := fun h => hmem ((mem_strip (by decide) rfl).1 h)
    rw [List.splitOn_eq_singleton hmem, List.splitOn_eq_singleton hkept]
    rfl

/-! ## The colours of symbols -/

/-- The colours of a layout are colour codes. -/
theorem isCode_qualified : IsCode qualified := ⟨"92", by decide, by decide, rfl⟩

theorem isCode_quotedData : IsCode quotedData := ⟨"96", by decide, by decide, rfl⟩

theorem isCode_special : IsCode special := ⟨"90", by decide, by decide, rfl⟩

theorem isCode_ordinary : IsCode ordinary := ⟨"94", by decide, by decide, rfl⟩

theorem strip_reset : strip reset = [] := by decide

end Colour

namespace Tree

open Colour

/-- A symbol shows the same text in any colour, whatever characters are in its name. -/
theorem strip_colouredSymbol (style : Style) (quoted : Bool) (name : Text) :
    strip (colouredSymbol style quoted name) = strip (symbolSource name) := by
  unfold colouredSymbol
  dsimp only
  split
  · rfl
  · have hreset : IsBorder reset := isBorder_cons rfl "[0m"
    rw [List.append_assoc, strip_code_append, strip_append hreset, strip_reset, List.append_nil]
    split
    · exact isCode_qualified
    · split
      · exact isCode_quotedData
      · split
        · exact isCode_special
        · exact isCode_ordinary

/-! ## Lists -/

/-- On one line, colour codes are taken out of each part. -/
theorem strip_onOneLine (parts : List Text) : strip (onOneLine parts) = onOneLine (parts.map strip) := by
  unfold onOneLine spaced
  rw [strip_parentheses, strip_intercalate isSpacing_space]

/-- Over several lines they are, too, since a part is followed by the end of its line. -/
theorem strip_overLines (indent : Int) (first : Text) (others : List Text) :
    strip (overLines indent first others) = overLines indent (strip first) (others.map strip) := by
  rw [overLines_eq, overLines_eq, strip_parentheses, strip_intercalate (isSpacing_newline_margin indent),
    List.map_cons]

variable {style other : Style}

/-- Whether a list fits on one line depends on what its elements show and on the width. -/
theorem fits_congr (hwidth : style.width = other.width) {parts parts' : List Text}
    (hparts : parts.map strip = parts'.map strip) (indent : Int) :
    style.fits indent parts = other.fits indent parts' := by
  have hlines : ∀ parts : List Text,
      parts.any (·.contains newline) = (parts.map strip).any (·.contains newline) := by
    intro parts
    rw [List.any_map]
    refine congrArg (parts.any ·) (funext fun text => ?_)
    rw [Function.comp_apply, Bool.eq_iff_iff, List.contains_iff_mem, List.contains_iff_mem]
    exact (mem_strip (by decide) rfl).symm
  unfold Style.fits
  rw [hlines parts, hlines parts', strip_onOneLine, strip_onOneLine, hparts, hwidth]

/-- Whether the parts fit on one line is decided by their lengths without colour codes, so that both
layouts break their lines in the same places. -/
theorem strip_enclose (hwidth : style.width = other.width) {first first' : Text}
    {others others' : List Text} (hfirst : strip first = strip first')
    (hothers : others.map strip = others'.map strip) (indent : Int) :
    strip (enclose style indent first others) = strip (enclose other indent first' others') := by
  have hparts : (first :: others).map strip = (first' :: others').map strip := by
    rw [List.map_cons, List.map_cons, hfirst, hothers]
  unfold enclose
  rw [fits_congr hwidth hparts]
  split
  · rw [strip_onOneLine, strip_onOneLine, hparts]
  · rw [strip_overLines, strip_overLines, hfirst, hothers]

/-! ## Layouts -/

/-- At the same width, the layouts of a tree in any two styles show the same text. -/
theorem strip_layout (hwidth : style.width = other.width) (t : Tree) (indent : Int) (quoted : Bool) :
    strip (t.layout style indent quoted) = strip (t.layout other indent quoted) := by
  induction t using induction_on_children generalizing indent quoted with
  | h t ih =>
    cases t with
    | sym name =>
        rw [layout, layout, strip_colouredSymbol, strip_colouredSymbol]
    | list items =>
        cases items with
        | nil => rw [layout, layout]
        | cons head others =>
            cases hshort : listShorthand? head (sources others).length with
            | some short =>
                rcases eq_of_listShorthand?_sources hshort with ⟨name, form, rfl, rfl, hname, -⟩
                have hplain : escapeCharacter ∉ short := by
                  rcases shorthand?_cases hname with h | h | h | h | h <;> obtain ⟨-, rfl⟩ := h <;> decide
                have hmem : form ∈ (list [sym name, form]).children :=
                  List.mem_cons_of_mem _ (List.mem_singleton_self form)
                rw [layout_shorthand style indent quoted hname, layout_shorthand other indent quoted hname,
                  strip_append_of_not_mem hplain, strip_append_of_not_mem hplain, ih form hmem]
            | none =>
                rw [layout_list style indent quoted hshort, layout_list other indent quoted hshort]
                refine strip_enclose hwidth (ih head List.mem_cons_self _ _) ?_ indent
                rw [layouts_eq_map, layouts_eq_map, List.map_map, List.map_map]
                exact List.map_congr_left fun item hitem =>
                  ih item (List.mem_cons_of_mem head hitem) _ _
    -- any other tree is laid out as its text
    | _ =>
        rw [layout, layout]
        all_goals simp

/-- Colours make no difference to what is shown. Without their colour codes, the layouts of a tree with
colours and without are the same text, and each line of the one shows what that line of the other shows.
This is so although the width of a line is measured on texts that have colour codes: a list of any
elements fits on one line with colours exactly if it does without. Colour codes in names and literals
are no exception. -/
theorem layout_ignores_colour (style : Style) (t : Tree) (indent : Int) (quoted : Bool) :
    strip (t.layout { style with colour := true } indent quoted) =
        strip (t.layout { style with colour := false } indent quoted) ∧
      ((t.layout { style with colour := true } indent quoted).splitOn newline).map strip =
        ((t.layout { style with colour := false } indent quoted).splitOn newline).map strip ∧
      ∀ items : List Tree,
        Style.fits { style with colour := true } indent
            (layouts { style with colour := true } (indent + 1) quoted items) =
          Style.fits { style with colour := false } indent
            (layouts { style with colour := false } (indent + 1) quoted items) := by
  have hwidth : Style.width { style with colour := true } =
      Style.width { style with colour := false } := rfl
  have hshown : ∀ (t : Tree) indent,
      strip (t.layout { style with colour := true } indent quoted) =
        strip (t.layout { style with colour := false } indent quoted) :=
    fun t indent => strip_layout hwidth t indent quoted
  refine ⟨hshown t indent, ?_, fun items => fits_congr rfl ?_ indent⟩
  · rw [← splitOn_strip, ← splitOn_strip, hshown]
  · rw [layouts_eq_map, layouts_eq_map, List.map_map, List.map_map]
    exact List.map_congr_left fun item _ => hshown item (indent + 1)

/-- The colour code in a string takes no room either, and an escape character at the end of a name does
not join the code after it. -/
example : layout { width := 7, colour := true } 0 false (list [.str "\x1b[1m", .sym "m\x1b"]) =
    "(\x22\x1b[1m\x22 \x1b[94mm\x1b\x1b[0m)" := by
  decide

end Tree

end LispNamespace
