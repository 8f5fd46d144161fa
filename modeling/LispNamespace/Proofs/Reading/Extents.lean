import LispNamespace.Proofs.Reading.Decoding

/-!
# Where literals end

The lexer says how far a literal extends, and the decoder finds out again by reading it. Here the decoder
goes through the literal by positions, as it is written: it comes to nothing where it would look at a
position past the end or where it has no steps left, and the position that it arrives at is counted and
not cut off at the end. In the literals that the lexer finds it never comes to nothing, and it arrives at
their ends.
-/

namespace LispNamespace

open Text

namespace Literal

/-! ## Decoding by positions -/

/-- The modifier that is written at a position, and the position after it. -/
def modifierAt? (setting : Setting) (body : Text) (pos : Nat) : Option (Modifier × Nat) :=
  match body.drop pos with
  | backslash :: caret :: _ => some (.control, pos + 2)
  | backslash :: c :: hyphen :: _ => (modifier? setting c).map (·, pos + 3)
  | _ => none

/-- What a modifier makes of the character after it. -/
def modified (setting : Setting) (body : Text) (modifier : Modifier) :
    Option Nat → Except ReadError (Option Nat)
  | none => .error (.modifierOnLineEnd body)
  | some code => (applyModifier setting modifier code).map some

/-- Decodes the character at a position with its modifiers: its code, and the position after it. -/
def decodeAt [CharNames] (setting : Setting) (body : Text) :
    Nat → Nat → Option (Except ReadError (Option Nat × Nat))
  | 0, _ => none
  | steps + 1, pos =>
      match modifierAt? setting body pos with
      | some (modifier, next) =>
          if body.length ≤ next then some (.error (.modifierAlone body))
          else
            (decodeAt setting body steps next).map fun decoded =>
              decoded.bind fun found => (modified setting body modifier found.1).map (·, found.2)
      | none =>
          match body[pos]? with
          | none => none
          | some c =>
              if c = backslash then
                match body[pos + 1]? with
                | none => some (.error (.danglingEscape body))
                | some c =>
                    some ((escape body c (body.drop (pos + 2))).map fun found =>
                      (found.1, pos + 2 + found.2))
              else some (.ok (some c, pos + 1))

/-- Decodes a string from a position on: the code points that are appended, and the position at which
the loop ends or the error that ends it. -/
def decodeLoop [CharNames] (body : Text) : Nat → Nat → Option (Text × Except ReadError Nat)
  | 0, _ => none
  | steps + 1, pos =>
      if pos < body.length then
        match decodeAt .string body body.length pos with
        | none => none
        | some (.error error) => some ([], .error error)
        | some (.ok (code, next)) =>
            (decodeLoop body steps next).map fun found => (code.toList ++ found.1, found.2)
      else some ([], .ok pos)

/-! ## Positions and what is left -/

section Positions

variable {setting : Setting} {body : Text} {pos : Nat}

theorem drop_add {cs front rest : Text} (h : body.drop pos = cs) (hcs : cs = front ++ rest) :
    body.drop (pos + front.length) = rest := by
  rw [← List.drop_drop, h, hcs, List.drop_left]

theorem getElem?_of_drop {cs : Text} (h : body.drop pos = cs) (i : Nat) : body[pos + i]? = cs[i]? := by
  rw [← h, List.getElem?_drop]

theorem length_of_drop {cs : Text} (h : body.drop pos = cs) (hpos : pos < body.length) :
    body.length = pos + cs.length := by
  rw [← h, List.length_drop]
  omega

/-- A modifier acts on what is decoded after it, whatever is left. -/
theorem modify_map_eq (modifier : Modifier) (decoded : Except ReadError (Option Nat × Text)) :
    ((decoded.map fun found => (found.1, body.length - found.2.length)).bind fun found =>
        (modified setting body modifier found.1).map (·, found.2)) =
      (decoded >>= modify setting body modifier).map fun found =>
        (found.1, body.length - found.2.length) := by
  rcases decoded with error | ⟨code, rest⟩
  · rfl
  · rcases code with _ | code
    · rfl
    · cases happly : applyModifier setting modifier code with
      | error error => simp [Except.map, Except.bind, bind, modified, modify, happly]
      | ok code => simp [Except.map, Except.bind, bind, modified, modify, happly]

/-- No modifier is written where what is left does not begin with one. -/
theorem modifierAt?_eq_none {cs : Text} (hcs : body.drop pos = cs)
    (hcaret : ∀ rest, cs ≠ backslash :: caret :: rest)
    (hhyphen : ∀ c rest, cs ≠ backslash :: c :: hyphen :: rest) :
    modifierAt? setting body pos = none := by
  unfold modifierAt?
  rw [hcs]
  split
  · exact absurd rfl (hcaret _)
  · exact absurd rfl (hhyphen _ _)
  · rfl

variable [CharNames]

/-- To decode an escape at a position is to decode what is left there. -/
theorem escape_map_eq {c : Nat} {cs : Text} (hlength : body.length = pos + (cs.length + 2)) :
    ((escape body c cs).map fun found => (found.1, pos + 2 + found.2)) =
      (decodeEscape body (c :: cs)).map fun decoded => (decoded.1, body.length - decoded.2.length) := by
  have hdecode : decodeEscape body (c :: cs) =
      (escape body c cs).map fun found => (found.1, cs.drop found.2) := rfl
  rw [hdecode]
  cases hescape : escape body c cs with
  | error error => rfl
  | ok found =>
      have hle := escape_le hescape
      have hend : pos + 2 + found.2 = body.length - (cs.drop found.2).length := by
        rw [List.length_drop]
        omega
      exact congrArg (fun next => Except.ok (found.1, next)) hend

/-- A modifier at a position, if what is after it is decoded there as it is by itself. -/
theorem decodeAt_modifier (front : Text) {cs : Text} {modifier : Modifier} {steps : Nat}
    (hbody : body.drop pos = front ++ cs) (hpos : pos < body.length)
    (hmodifier : modifierAt? setting body pos = some (modifier, pos + front.length))
    (hrest : body.drop (pos + front.length) = cs → pos + front.length < body.length →
      decodeAt setting body steps (pos + front.length) =
        some ((decodeChar setting body cs).map fun decoded =>
          (decoded.1, body.length - decoded.2.length))) :
    decodeAt setting body (steps + 1) pos =
      some ((if cs.isEmpty then .error (.modifierAlone body)
        else decodeChar setting body cs >>= modify setting body modifier).map fun decoded =>
          (decoded.1, body.length - decoded.2.length)) := by
  have hlength := length_of_drop hbody hpos
  rw [List.length_append] at hlength
  unfold decodeAt
  rw [hmodifier]
  dsimp only
  -- at the end of the text there is no character to put the modifier on
  cases cs with
  | nil =>
      rw [if_pos (by simp at hlength; omega)]
      rfl
  | cons c cs =>
      have hlt : pos + front.length < body.length := by
        rw [List.length_cons] at hlength
        omega
      rw [if_neg (Nat.not_le_of_lt hlt), hrest (drop_add hbody rfl) hlt]
      exact congrArg some (modify_map_eq _ _)

/-- An escape at a position that no modifier is written at. -/
theorem decodeAt_escape {c : Nat} {cs : Text} (hbody : body.drop pos = backslash :: c :: cs)
    (hpos : pos < body.length) (hmodifier : modifierAt? setting body pos = none) (steps : Nat) :
    decodeAt setting body (steps + 1) pos =
      some ((decodeEscape body (c :: cs)).map fun decoded =>
        (decoded.1, body.length - decoded.2.length)) := by
  have hlength := length_of_drop hbody hpos
  have hfirst : body[pos]? = some backslash := getElem?_of_drop hbody 0
  have hsecond : body[pos + 1]? = some c := getElem?_of_drop hbody 1
  have hrest : body.drop (pos + [backslash, c].length) = cs := drop_add hbody rfl
  rw [List.length_cons, List.length_singleton] at hrest
  unfold decodeAt
  rw [hmodifier, hfirst]
  dsimp only
  rw [if_pos rfl, hsecond, hrest]
  exact congrArg some (escape_map_eq (by simpa using hlength))

/-- To decode at a position is to decode what is left there, and the position that is arrived at is
where what is left then begins. -/
theorem decodeAt_eq {cs : Text} {pos steps : Nat} (hcs : body.drop pos = cs) (hpos : pos < body.length)
    (hsteps : cs.length ≤ steps) :
    decodeAt setting body steps pos =
      some ((decodeChar setting body cs).map fun decoded =>
        (decoded.1, body.length - decoded.2.length)) := by
  induction steps generalizing cs pos with
  | zero =>
      have hlength := length_of_drop hcs hpos
      omega
  | succ steps ih =>
  have hlength := length_of_drop hcs hpos
  unfold decodeChar
  -- the cases are those of decoding what is left
  split
  · next cs =>
    have hmodifier : modifierAt? setting body pos = some (.control, pos + 2) := by
      unfold modifierAt?
      rw [hcs]
      rfl
    refine decodeAt_modifier [backslash, caret] hcs hpos hmodifier fun hrest hlt => ih hrest hlt ?_
    rw [List.length_cons, List.length_cons] at hsteps
    omega
  · next c cs hcaret =>
    have hmodifierAt : modifierAt? setting body pos = (modifier? setting c).map (·, pos + 3) := by
      unfold modifierAt?
      rw [hcs]
      split
      · next heq =>
        cases heq
        exact (hcaret rfl).elim
      · next heq =>
        cases heq
        rfl
      · next hhyphen => exact (hhyphen c cs rfl).elim
    cases hmodifier : modifier? setting c with
    | none => exact decodeAt_escape hcs hpos (by rw [hmodifierAt, hmodifier]; rfl) steps
    | some modifier =>
        rw [hmodifier] at hmodifierAt
        refine decodeAt_modifier [backslash, c, hyphen] hcs hpos hmodifierAt
          fun hrest hlt => ih hrest hlt ?_
        rw [List.length_cons, List.length_cons, List.length_cons] at hsteps
        omega
  · next cs hcaret hhyphen =>
    have hmodifier : modifierAt? setting body pos = none :=
      modifierAt?_eq_none hcs (fun rest heq => hcaret rest (List.cons.inj heq).2)
        fun c rest heq => hhyphen c rest (List.cons.inj heq).2
    cases cs with
    | nil =>
        have hfirst : body[pos]? = some backslash := getElem?_of_drop hcs 0
        have hsecond : body[pos + 1]? = none := getElem?_of_drop hcs 1
        unfold decodeAt
        rw [hmodifier, hfirst]
        dsimp only
        rw [if_pos rfl, hsecond]
        rfl
    | cons c cs => exact decodeAt_escape hcs hpos hmodifier steps
  · next c cs hcaret hhyphen hslash =>
    have hfirst : body[pos]? = some c := getElem?_of_drop hcs 0
    have hmodifier : modifierAt? setting body pos = none :=
      modifierAt?_eq_none hcs (fun _ heq => hslash (List.cons.inj heq).1)
        fun _ _ heq => hslash (List.cons.inj heq).1
    have hend : pos + 1 = body.length - cs.length := by
      rw [List.length_cons] at hlength
      omega
    unfold decodeAt
    rw [hmodifier, hfirst]
    dsimp only
    rw [if_neg hslash]
    exact congrArg (fun next => some (Except.ok (some c, next))) hend
  · rw [List.length_nil] at hlength
    omega

end Positions

/-! ## What the lexer takes -/

/-- The body of a string token has a character after each backslash that escapes. -/
theorem paired_of_stringLength? {cs : Text} {n : Nat} (h : Token.stringLength? cs = some n) :
    ∃ body, cs.take n = body ++ [doubleQuote] ∧ Paired body := by
  fun_induction Token.stringLength? cs generalizing n with
  | case1 c cs ih =>
      rcases Option.map_eq_some_iff.1 h with ⟨m, hm, rfl⟩
      rcases ih hm with ⟨body, htake, hpaired⟩
      exact ⟨backslash :: c :: body, congrArg (backslash :: c :: ·) htake, .escape c hpaired⟩
  | case2 cs =>
      cases h
      exact ⟨[], rfl, .nil⟩
  | case3 => cases h
  | case4 c cs hescape hquote hslash ih =>
      rcases Option.map_eq_some_iff.1 h with ⟨m, hm, rfl⟩
      rcases ih hm with ⟨body, htake, hpaired⟩
      have hc : c ≠ backslash := Token.ne_backslash hescape hslash
      exact ⟨c :: body, congrArg (c :: ·) htake, .plain hc hpaired⟩
  | case5 => cases h

/-- Of a row of characters that is cut off, what was in front of the cut is left. -/
theorem countWhile_take (test : Nat → Bool) (k : Nat) (cs : Text) :
    Token.countWhile test (cs.take k) = min k (Token.countWhile test cs) := by
  unfold Token.countWhile
  rw [← List.take_takeWhile, List.length_take]

theorem escapeLength_pos (c : Nat) (cs : Text) : 0 < Token.escapeLength (c :: cs) := by
  unfold Token.escapeLength
  dsimp only
  split
  · next hoctal =>
    rw [Token.countWhile, List.takeWhile_cons_of_pos hoctal, List.length_cons]
    omega
  · repeat' split
    all_goals omega

theorem charLength?_pos {cs : Text} {n : Nat} (h : Token.charLength? cs = some n) : 0 < n := by
  fun_induction Token.charLength? cs <;> cases h <;> exact Nat.succ_pos _

/-! ## Strings -/

variable [CharNames] {setting : Setting} {body cs rest : Text} {code : Option Nat}

/-- Decoding ends at the first character that cannot be decoded. -/
theorem decodeAll_error {error : ReadError} (hcs : cs ≠ [])
    (h : decodeChar .string body cs = .error error) : decodeAll body cs = .error error := by
  unfold decodeAll
  rw [if_neg (by simpa using hcs)]
  split
  · next found heq =>
    rw [h] at heq
    cases heq
    rfl
  · next heq =>
    rw [h] at heq
    cases heq

/-- What is left after a character stands at the position that is arrived at, which is further on, and has
a character after each backslash that escapes, too. -/
theorem next_of_decodeChar {pos : Nat} (hpaired : Paired (body.drop pos)) (hpos : pos < body.length)
    (h : decodeChar .string body (body.drop pos) = .ok (code, rest)) :
    body.drop (body.length - rest.length) = rest ∧ pos < body.length - rest.length ∧ Paired rest := by
  have hshorter := decodeChar_shorter h
  rw [List.length_drop] at hshorter
  have hsuffix : rest <:+ body := (decodeChar_suffix h).trans (List.drop_suffix _ _)
  exact ⟨(List.suffix_iff_eq_drop.1 hsuffix).symm, by omega, hpaired.decodeChar h⟩

/-- The loop over a string ends: with an error that is not about a backslash at the end, or exactly at the
end of the body. It appends the codes of characters only. -/
theorem decodeLoop_spec {pos steps : Nat} (hbody : ∀ c ∈ body, c ≤ 0x10ffff)
    (hpos : pos ≤ body.length) (hpaired : Paired (body.drop pos)) (hsteps : body.length - pos < steps) :
    ∃ appended ending, decodeLoop body steps pos = some (appended, ending) ∧
      (∀ c ∈ appended, c ≤ 0x10ffff) ∧
      ((ending = .ok body.length ∧ decodeAll body (body.drop pos) = .ok appended) ∨
        ∃ error, ending = .error error ∧ (∀ body, error ≠ .danglingEscape body) ∧
          decodeAll body (body.drop pos) = .error error) := by
  -- there are enough steps as long as there are more than characters left, and each round takes one
  -- at least
  induction steps generalizing pos with
  | zero => omega
  | succ steps ih =>
      unfold decodeLoop
      by_cases hend : pos < body.length
      · have hne : body.drop pos ≠ [] := by
          rw [← List.length_pos_iff, List.length_drop]
          omega
        have hdecodeAt : decodeAt .string body body.length pos =
            some ((decodeChar .string body (body.drop pos)).map fun decoded =>
              (decoded.1, body.length - decoded.2.length)) :=
          decodeAt_eq rfl hend (by simp)
        rw [if_pos hend, hdecodeAt]
        cases hchar : decodeChar .string body (body.drop pos) with
        | error error =>
            have hdangles := neverDangles_decodeChar .string body hpaired hne
            refine ⟨[], .error error, rfl, by simp, .inr ⟨error, rfl, ?_, decodeAll_error hne hchar⟩⟩
            rintro body' rfl
            exact hdangles body' hchar
        | ok decoded =>
            rcases decoded with ⟨code, rest⟩
            -- the next round begins behind a whole character, so the backslashes left are paired
            -- again
            rcases next_of_decodeChar hpaired hend hchar with ⟨hrest, hlt, hnext⟩
            rw [← hrest] at hnext
            have hcode : ∀ c ∈ code.toList, c ≤ 0x10ffff := by
              intro c hc
              rw [Option.mem_toList.1 hc] at hchar
              exact inRange_decodeChar (fun d hd => hbody d (List.mem_of_mem_drop hd)) hchar
            rcases ih (Nat.sub_le _ _) hnext (by omega) with ⟨appended, ending, hloop, hbound, hresult⟩
            refine ⟨code.toList ++ appended, ending, ?_, ?_, ?_⟩
            · change (decodeLoop body steps (body.length - rest.length)).map _ = _
              rw [hloop]
              rfl
            · intro c hc
              exact (List.mem_append.1 hc).elim (hcode c) (hbound c)
            · rw [decodeAll_ok hne hchar]
              rw [hrest] at hresult
              rcases hresult with ⟨hending, hall⟩ | ⟨error, hending, hdangles, hall⟩
              · exact .inl ⟨hending, by rw [hall]; rfl⟩
              · exact .inr ⟨error, hending, hdangles, by rw [hall]; rfl⟩
      · obtain rfl : pos = body.length := by omega
        rw [if_neg hend, List.drop_length]
        refine ⟨[], _, rfl, by simp, .inl ⟨rfl, ?_⟩⟩
        unfold decodeAll
        rfl

/-! ## Characters -/

/-- Decoding leaves nothing and misses nothing. -/
structure Exhausts (result : Except ReadError (Option Nat × Text)) : Prop where
  dangles : NeverDangles result
  left : ∀ {code rest}, result = .ok (code, rest) → rest = []

omit [CharNames] in
/-- A modifier leaves what the character after it leaves. -/
theorem Exhausts.bind {result : Except ReadError (Option Nat × Text)} (h : Exhausts result)
    (setting : Setting) (body : Text) (modifier : Modifier) :
    Exhausts (result >>= modify setting body modifier) where
  dangles := h.dangles.bind (neverDangles_modify setting body modifier)
  left hok := by
    rcases bind_modify_eq_ok hok with ⟨inner, outer, hinner, -, -⟩
    exact h.left hinner

omit [CharNames] in
/-- A modifier without a character leaves nothing, and is refused for another reason than a
backslash alone. -/
theorem exhausts_modifierAlone (body : Text) : Exhausts (.error (.modifierAlone body)) where
  dangles body' h := by cases h
  left h := by cases h

/-- A modifier before a text that is decoded to its end, if there is any. -/
theorem Exhausts.modifier {setting : Setting} {body cs : Text} {modifier : Modifier}
    (h : cs ≠ [] → Exhausts (decodeChar setting body cs)) :
    Exhausts (if cs.isEmpty then .error (.modifierAlone body)
      else decodeChar setting body cs >>= modify setting body modifier) := by
  split
  · exact exhausts_modifierAlone body
  · next hne => exact (h fun hnil => hne (hnil ▸ rfl)).bind setting body modifier

/-- An escape is exhausted if its text goes to the end. -/
theorem exhausts_decodeEscape {body : Text} {c : Nat} {cs : Text}
    (h : ∀ {code n}, escape body c cs = .ok (code, n) → cs.length ≤ n) :
    Exhausts (decodeEscape body (c :: cs)) where
  dangles := (neverDangles_escape body c cs).map _
  left hok := by
    rcases map_eq_ok hok with ⟨found, hescape, heq⟩
    cases heq
    exact List.drop_eq_nil_of_le (h hescape)

/-- An octal digit after a backslash begins a code by number. -/
theorem escape_octal {c : Nat} (hc : isOctal c = true) (body cs : Text) :
    escape body c cs = (charCode (hexadecimal 8 (((c :: cs).takeWhile isOctal).take 3))).map
      (some ·, (((c :: cs).takeWhile isOctal).take 3).length - 1) := by
  have hdigit : ∀ k < 8, 0x30 + k ≠ newline ∧ escapedLetter? (0x30 + k) = none ∧
      0x30 + k ≠ 'x'.toNat := by decide
  have hrange : 0x30 ≤ c ∧ c < 0x38 := of_decide_eq_true hc
  rcases hdigit (c - 0x30) (by omega) with ⟨hnewline, hletter, hx⟩
  rw [Nat.add_sub_cancel' hrange.1] at hnewline hletter hx
  unfold escape
  rw [if_neg (by simpa using hnewline), hletter]
  dsimp only
  rw [if_neg (by simpa using hx), if_pos hc]

/-- An escape by a row of digits of a fixed width takes that many, if any. -/
theorem width_le_of_escape {body cs : Text} {c width n : Nat} {code : Option Nat}
    (hescape : escape body c cs =
      if (cs.take width).length == width && (cs.take width).all isHex then
        (charCode (hexadecimal 16 (cs.take width))).map (some ·, width)
      else .error (.invalidEscape c body))
    (h : escape body c cs = .ok (code, n)) : width = n := by
  rw [hescape] at h
  split at h
  · rcases map_eq_ok h with ⟨found, -, heq⟩
    exact (Prod.mk.inj heq).2
  · cases h

/-- An octal escape takes the digits that are cut off for it. -/
theorem length_le_of_escape_octal {body cs : Text} {c n : Nat} {code : Option Nat}
    (hc : isOctal c = true)
    (h : escape body c (cs.take (Token.escapeLength (c :: cs) - 1)) = .ok (code, n)) :
    Token.escapeLength (c :: cs) - 1 ≤ n := by
  have hlength : Token.escapeLength (c :: cs) = min 3 (Token.countWhile isOctal (c :: cs)) := by
    unfold Token.escapeLength
    exact if_pos hc
  have hpos : 0 < Token.countWhile isOctal (c :: cs) := by
    unfold Token.countWhile
    rw [List.takeWhile_cons_of_pos hc]
    exact Nat.succ_pos _
  have htake : c :: cs.take (Token.escapeLength (c :: cs) - 1) =
      (c :: cs).take (Token.escapeLength (c :: cs)) := by
    rw [← List.take_succ_cons, Nat.sub_add_cancel (by omega)]
  have hcount := countWhile_take isOctal (Token.escapeLength (c :: cs)) (c :: cs)
  rw [escape_octal hc, htake] at h
  rcases map_eq_ok h with ⟨found, -, heq⟩
  have hn := (Prod.mk.inj heq).2
  rw [List.length_take] at hn
  unfold Token.countWhile at hcount hlength
  omega

/-- A hexadecimal escape takes the digits that are cut off for it. -/
theorem countWhile_le_of_escape_x {body cs : Text} {n : Nat} {code : Option Nat}
    (h : escape body 'x'.toNat (cs.take (Token.countWhile isHex cs)) = .ok (code, n)) :
    Token.countWhile isHex cs ≤ n := by
  have hcount := countWhile_take isHex (Token.countWhile isHex cs) cs
  generalize cs.take (Token.countWhile isHex cs) = taken at h hcount
  have hescape : escape body 'x'.toNat taken =
      if (taken.takeWhile isHex).isEmpty then .error (.invalidEscape 'x'.toNat body)
      else (charCode (hexadecimal 16 (taken.takeWhile isHex))).map
        (some ·, (taken.takeWhile isHex).length) := rfl
  rw [hescape] at h
  split at h
  · cases h
  · rcases map_eq_ok h with ⟨found, -, heq⟩
    have hn := (Prod.mk.inj heq).2
    unfold Token.countWhile at hcount ⊢
    omega

/-- A name in braces that is cut off after its closing brace is taken as a whole. -/
theorem nameLength?_le_of_escape {body cs : Text} {m n : Nat} {code : Option Nat}
    (hname : Token.nameLength? cs = some m)
    (h : escape body 'N'.toNat (cs.take m) = .ok (code, n)) : m ≤ n := by
  unfold Token.nameLength? at hname
  split at hname
  · next cs =>
    simp only [Option.ite_none_right_eq_some, Option.some.injEq] at hname
    rcases hname with ⟨hinside, rfl⟩
    have hcount := countWhile_take (· != closeBrace) (Token.countWhile (· != closeBrace) cs + 1) cs
    rw [List.take_succ_cons] at h
    generalize cs.take (Token.countWhile (· != closeBrace) cs + 1) = taken at h hcount
    have hescape : escape body 'N'.toNat (openBrace :: taken) =
        if (taken.takeWhile (· != closeBrace)).length < taken.length then
          (namedCode (taken.takeWhile (· != closeBrace))).map
            (some ·, (taken.takeWhile (· != closeBrace)).length + 2)
        else .error (.unterminatedName body) := rfl
    rw [hescape] at h
    split at h
    · rcases map_eq_ok h with ⟨found, -, heq⟩
      have hn := (Prod.mk.inj heq).2
      unfold Token.countWhile at hcount ⊢
      omega
    · cases h
  · cases hname

/-- Of the text that belongs to an escape, nothing is left. -/
theorem length_le_of_escape_take {body cs : Text} {c n : Nat} {code : Option Nat}
    (h : escape body c (cs.take (Token.escapeLength (c :: cs) - 1)) = .ok (code, n)) :
    (cs.take (Token.escapeLength (c :: cs) - 1)).length ≤ n := by
  rw [List.length_take]
  -- the lexer takes an escape of one kind only, and the decoder takes all of it
  by_cases hoctal : isOctal c = true
  · exact Nat.le_trans (Nat.min_le_left _ _) (length_le_of_escape_octal hoctal h)
  by_cases hx : c = 'x'.toNat
  · subst hx
    exact Nat.le_trans (Nat.min_le_left _ _) (countWhile_le_of_escape_x h)
  by_cases hu : c = 'u'.toNat
  · subst hu
    have hlength : Token.escapeLength ('u'.toNat :: cs) - 1 ≤ 4 := by
      change (if 4 ≤ Token.countWhile isHex cs then 5 else 1) - 1 ≤ 4
      split <;> decide
    have hwidth : 4 = n := width_le_of_escape rfl h
    omega
  by_cases hU : c = 'U'.toNat
  · subst hU
    have hlength : Token.escapeLength ('U'.toNat :: cs) - 1 ≤ 8 := by
      change (if 8 ≤ Token.countWhile isHex cs then 9 else 1) - 1 ≤ 8
      split <;> decide
    have hwidth : 8 = n := width_le_of_escape rfl h
    omega
  by_cases hN : c = 'N'.toNat
  · subst hN
    have hlength : Token.escapeLength ('N'.toNat :: cs) - 1 = (Token.nameLength? cs).getD 0 := rfl
    rw [hlength] at h ⊢
    cases hname : Token.nameLength? cs with
    | none => exact Nat.le_trans (Nat.min_le_left _ _) (Nat.zero_le _)
    | some m =>
        rw [hname] at h
        exact Nat.le_trans (Nat.min_le_left _ _) (nameLength?_le_of_escape hname h)
  · have hlength : Token.escapeLength (c :: cs) = 1 := by
      simp only [Token.escapeLength, beq_iff_eq, if_neg hoctal, if_neg hx, if_neg hu, if_neg hU, if_neg hN]
    rw [hlength]
    omega

/-- A backslash that begins no modifier begins an escape. -/
theorem decodeChar_escape {c : Nat} {cs : Text} (hcaret : c ≠ caret) (hhyphen : cs.head? ≠ some hyphen) :
    decodeChar setting body (backslash :: c :: cs) = decodeEscape body (c :: cs) := by
  unfold decodeChar
  split
  · next heq =>
    cases heq
    exact absurd rfl hcaret
  · next heq =>
    cases heq
    exact absurd rfl hhyphen
  · next heq =>
    cases heq
    rfl
  · next hslash heq =>
    cases heq
    exact absurd rfl hslash
  · next heq => cases heq

/-- The text that the lexer takes for an escape is decoded to its end. -/
theorem exhausts_escape (body : Text) {c : Nat} {cs : Text} (hcaret : c ≠ caret)
    (hhyphen : cs.head? ≠ some hyphen) :
    Exhausts (decodeChar .character body
      ((backslash :: c :: cs).take (Token.escapeLength (c :: cs) + 1))) := by
  have htake : (backslash :: c :: cs).take (Token.escapeLength (c :: cs) + 1) =
      backslash :: c :: cs.take (Token.escapeLength (c :: cs) - 1) := by
    obtain ⟨m, hm⟩ : ∃ m, Token.escapeLength (c :: cs) = m + 1 :=
      Nat.exists_eq_succ_of_ne_zero (Nat.ne_of_gt (escapeLength_pos c cs))
    rw [hm]
    rfl
  have hhead : (cs.take (Token.escapeLength (c :: cs) - 1)).head? ≠ some hyphen := by
    rw [List.head?_take]
    split
    · nofun
    · exact hhyphen
  rw [htake, decodeChar_escape hcaret hhead]
  exact exhausts_decodeEscape length_le_of_escape_take

/-- So is any other character. -/
theorem exhausts_plain (body : Text) {c : Nat} (hc : c ≠ backslash) :
    Exhausts (decodeChar .character body [c]) := by
  rw [decodeChar_plain hc]
  constructor
  · intro body' heq
    cases heq
  · intro code rest heq
    cases heq
    rfl

/-- The text that the lexer takes for a character is decoded to its end. -/
theorem exhausts_decodeChar (body : Text) {cs : Text} {n : Nat} (h : Token.charLength? cs = some n) :
    Exhausts (decodeChar .character body (cs.take n)) := by
  have halone : ∀ {c : Nat}, c ≠ caret → Exhausts (decodeChar .character body [backslash, c]) := by
    intro c hcaret
    rw [decodeChar_escape hcaret (by simp)]
    exact exhausts_decodeEscape fun _ => Nat.zero_le _
  fun_induction Token.charLength? cs generalizing n with
  | case1 cs ih =>
      cases h
      rw [List.take_succ_cons, List.take_succ_cons, decodeChar]
      refine .modifier fun hne => ?_
      cases hlength : Token.charLength? cs with
      | none =>
          rw [hlength] at hne
          exact absurd rfl hne
      | some m => exact ih hlength
  | case2 c cs hcaret hmodifier m hm ih =>
      cases h
      rcases Token.modifier?_of_isModifierLetter hmodifier with ⟨modifier, hknown⟩
      rw [List.take_succ_cons, List.take_succ_cons, List.take_succ_cons, decodeChar]
      · rw [hknown]
        exact .modifier fun _ => ih hm
      · exact hcaret
  -- a backslash and a letter, which no character follows that it could modify
  | case3 c cs hcaret hmodifier hnone ih =>
      cases h
      exact halone hcaret
  | case4 c cs hcaret hmodifier =>
      rw [Token.escapeLength_hyphen] at h
      cases h
      exact halone hcaret
  | case5 c cs hcaret hhyphen =>
      cases h
      refine exhausts_escape body hcaret fun hhead => ?_
      rcases List.head?_eq_some_iff.1 hhead with ⟨rest, rfl⟩
      exact hhyphen rest rfl
  | case6 => cases h
  | case7 => cases h
  | case8 c cs _ _ hescape halone hblank =>
      cases h
      exact exhausts_plain body (Token.ne_backslash hescape halone)
  | case9 => cases h

/-! ## Tokens -/

/-- A character token is decoded to its end, if decoding it gives anything. -/
theorem decodeAt_char {cs : Text} {n : Nat} (hlength : Token.charLength? cs = some n)
    (hcs : ∀ c ∈ cs.take n, c ≤ 0x10ffff) {token : Text} (htoken : token = questionMark :: cs.take n) :
    (∃ error, decodeAt .character token token.length 1 = some (.error error) ∧
        (∀ body, error ≠ .danglingEscape body) ∧ decodeCharacter token = .error error) ∨
      ∃ code, decodeAt .character token token.length 1 = some (.ok (code, token.length)) ∧
        decodeCharacter token = .ok (code.getD 0x0a) ∧ baseCode (code.getD 0x0a) ≤ 0x10ffff := by
  have hrest : token.drop 1 = cs.take n := by rw [htoken, List.drop_one, List.tail_cons]
  have hlt : 1 < token.length := by
    have hpos := charLength?_pos hlength
    have hle := Token.charLength?_le hlength
    rw [htoken, List.length_cons, List.length_take]
    omega
  have hdecodeAt : decodeAt .character token token.length 1 =
      some ((decodeChar .character token (cs.take n)).map fun decoded =>
        (decoded.1, token.length - decoded.2.length)) :=
    decodeAt_eq hrest hlt (by rw [htoken, List.length_cons]; exact Nat.le_succ _)
  -- the lexer ends the token where the decoder ends the character
  have hexhausts := exhausts_decodeChar token hlength
  unfold decodeCharacter
  rw [hdecodeAt, hrest]
  cases hdecode : decodeChar .character token (cs.take n) with
  | error error =>
      refine .inl ⟨error, rfl, ?_, rfl⟩
      rintro body rfl
      exact hexhausts.dangles body hdecode
  | ok decoded =>
      rcases decoded with ⟨code, rest⟩
      obtain rfl := hexhausts.left hdecode
      refine .inr ⟨code, rfl, rfl, ?_⟩
      cases code with
      | none => decide
      | some code =>
          have hrange : InRange .character code := inRange_decodeChar hcs hdecode
          exact hrange

/-- The loop over a string token lands on the end of the body, if it gives anything. -/
theorem decodeLoop_string {cs : Text} {n : Nat} (hlength : Token.stringLength? cs = some n)
    (hcs : ∀ c ∈ cs.take n, c ≤ 0x10ffff) {token : Text} (htoken : token = doubleQuote :: cs.take n) :
    ∃ appended ending, decodeLoop (token.drop 1).dropLast token.length 0 = some (appended, ending) ∧
      (∀ c ∈ appended, c ≤ 0x10ffff) ∧
      ((ending = .ok (token.drop 1).dropLast.length ∧ decodeString token = .ok appended) ∨
        ∃ error, ending = .error error ∧ (∀ body, error ≠ .danglingEscape body) ∧
          decodeString token = .error error) := by
  rcases paired_of_stringLength? hlength with ⟨body, htake, hpaired⟩
  have hbody : (token.drop 1).dropLast = body := by
    rw [htoken, htake, List.drop_one, List.tail_cons, List.dropLast_concat]
  have hcodes : ∀ c ∈ body, c ≤ 0x10ffff := by
    intro c hc
    refine hcs c ?_
    rw [htake]
    exact List.mem_append_left _ hc
  have hsteps : body.length - 0 < token.length := by
    rw [htoken, htake, List.length_cons, List.length_append]
    omega
  unfold decodeString
  rw [hbody]
  exact decodeLoop_spec hcodes (Nat.zero_le _) hpaired hsteps

end Literal

/-- In a text of code points, every literal is decoded as far as the lexer says that it extends. Decoding a
character token raises an error or stops exactly at the end of the token, and decoding a string token raises
an error or lands exactly on the end of its body. It never looks past the end, never meets a backslash with
nothing after it, and needs no more steps than the token has characters. What it appends to a string are
codes of characters, and so is what is left of the code of a character without its modifier bits. -/
theorem Token.decoding_ends_with_token [CharNames] {source : Text}
    (hsource : ∀ c ∈ source, c ≤ 0x10ffff) {t : Token} (ht : t ∈ (lex source).tokens) :
    (t.kind = .char →
      (∃ error, Literal.decodeAt .character t.text t.text.length 1 = some (.error error) ∧
          (∀ body, error ≠ .danglingEscape body) ∧ Literal.decodeCharacter t.text = .error error) ∨
        ∃ code, Literal.decodeAt .character t.text t.text.length 1 = some (.ok (code, t.text.length)) ∧
          Literal.decodeCharacter t.text = .ok (code.getD 0x0a) ∧
          Literal.baseCode (code.getD 0x0a) ≤ 0x10ffff) ∧
      (t.kind = .string →
        ∃ appended ending,
          Literal.decodeLoop (t.text.drop 1).dropLast t.text.length 0 = some (appended, ending) ∧
          (∀ c ∈ appended, c ≤ 0x10ffff) ∧
          ((ending = .ok (t.text.drop 1).dropLast.length ∧ Literal.decodeString t.text = .ok appended) ∨
            ∃ error, ending = .error error ∧ (∀ body, error ≠ .danglingEscape body) ∧
              Literal.decodeString t.text = .error error)) := by
  -- the lexer has found the token at some place of the source, by the first characters there
  rcases first?_of_mem_lexFrom ht with ⟨c, cs, n, hend, hfirst, htext⟩
  rcases first?_literal hfirst with ⟨hstring, hchar⟩
  have hcodes : ∀ m, ∀ d ∈ cs.take m, d ≤ 0x10ffff := by
    intro m d hd
    exact hsource d (hend.subset (List.mem_cons_of_mem c (List.mem_of_mem_take hd)))
  constructor
  · intro hkind
    rcases hchar hkind with ⟨rfl, m, hlength, rfl⟩
    exact Literal.decodeAt_char hlength (hcodes m) htext
  · intro hkind
    rcases hstring hkind with ⟨rfl, m, hlength, rfl⟩
    exact Literal.decodeLoop_string hlength (hcodes m) htext

/-- Control over a character that is given by name is decoded up to the end of the name. -/
theorem Token.decoding_ends_with_token_control :
    (∀ c ∈ ("?\\C-\\N\x7bSNOWMAN\x7d" : Text), c ≤ 0x10ffff) ∧
      ⟨.char, "?\\C-\\N\x7bSNOWMAN\x7d"⟩ ∈ (lex "?\\C-\\N\x7bSNOWMAN\x7d").tokens ∧
      ∃ code, @Literal.decodeAt .few .character "?\\C-\\N\x7bSNOWMAN\x7d" 15 1 = some (.ok (code, 15)) ∧
        @Literal.decodeCharacter .few "?\\C-\\N\x7bSNOWMAN\x7d" = .ok (code.getD 0x0a) ∧
        Literal.baseCode (code.getD 0x0a) ≤ 0x10ffff := by
  have hsource : ∀ c ∈ ("?\\C-\\N\x7bSNOWMAN\x7d" : Text), c ≤ 0x10ffff := by decide
  have hmem : ⟨.char, "?\\C-\\N\x7bSNOWMAN\x7d"⟩ ∈ (lex "?\\C-\\N\x7bSNOWMAN\x7d").tokens := by
    decide +kernel
  have hcode : @Literal.decodeCharacter .few "?\\C-\\N\x7bSNOWMAN\x7d" = .ok 0x4002603 := rfl
  refine ⟨hsource, hmem, ?_⟩
  rcases (@decoding_ends_with_token .few _ hsource _ hmem).1 rfl with ⟨error, -, -, herror⟩ | hends
  · rw [hcode] at herror
    cases herror
  · exact hends

end LispNamespace
