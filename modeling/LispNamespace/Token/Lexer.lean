import LispNamespace.Text.Blank
import LispNamespace.Text.Digit
import LispNamespace.Text.Punctuation
import LispNamespace.Token.Basic
import LispNamespace.Token.Error

/-!
# From texts to tokens

Blanks separate tokens, and a semicolon begins a comment that ends before the next line end.
Every other character begins a token, except a double quote that is never closed. What a token
extends over is said by the lengths below; a question mark or a number sign that begins nothing of
its own begins a symbol.
-/

namespace LispNamespace.Token

open Text

/-! ## Lengths of tokens -/

/-- The number of characters at the front that satisfy the test. -/
def countWhile (test : Nat → Bool) (cs : Text) : Nat := (cs.takeWhile test).length

/-- No token is longer than what is left of the text. -/
theorem countWhile_le (test : Nat → Bool) (cs : Text) : countWhile test cs ≤ cs.length :=
  (List.takeWhile_prefix test).length_le

/-- Whether a code point may stand unescaped inside a symbol. The backslash may, when it is the
last character of the text. -/
def isSymbolChar (c : Nat) : Bool :=
  !(isBlank c || ("()[]\x27\",;\x60" : Text).contains c)

/-- The length of the symbol at the front: plain characters and escaped ones. -/
def symbolLength : Text → Nat
  | backslash :: _ :: cs => symbolLength cs + 2
  | c :: cs => if isSymbolChar c then symbolLength cs + 1 else 0
  | [] => 0

/-- The length of the rest of a string after its opening quote, with the closing quote. -/
def stringLength? : Text → Option Nat
  | backslash :: _ :: cs => (stringLength? cs).map (· + 2)
  | doubleQuote :: _ => some 1
  | backslash :: [] => none
  | _ :: cs => (stringLength? cs).map (· + 1)
  | [] => none

/-- Whether the character names a modifier that is written before a hyphen. -/
def isModifierLetter (c : Nat) : Bool := ("CMSHAs" : Text).contains c

/-- The length of a named character after its letter `N`: the braces and what is between. -/
def nameLength? : Text → Option Nat
  | openBrace :: cs =>
      let inside := countWhile (· != closeBrace) cs
      if inside < cs.length then some (inside + 2) else none
  | _ => none

/-- The length of an escape after its backslash. An escape that lacks its digits extends over its
letter alone. -/
def escapeLength : Text → Nat
  | [] => 0
  | c :: cs =>
      if isOctal c then min 3 (countWhile isOctal (c :: cs))
      else if c == 'x'.toNat then countWhile isHex cs + 1
      else if c == 'u'.toNat then (if 4 ≤ countWhile isHex cs then 5 else 1)
      else if c == 'U'.toNat then (if 8 ≤ countWhile isHex cs then 9 else 1)
      else if c == 'N'.toNat then (nameLength? cs).getD 0 + 1
      else 1

/-- The length of a character after its question mark. A modifier applies to a character that
follows; with none following, its backslash and letter are the character. -/
def charLength? : Text → Option Nat
  | backslash :: caret :: cs => some ((charLength? cs).getD 0 + 2)
  | backslash :: c :: hyphen :: cs =>
      if isModifierLetter c then
        match charLength? cs with
        | some n => some (n + 3)
        -- nothing to modify: the backslash and its letter are the character, and the hyphen comes
        -- after it
        | none => some 2
      else some (escapeLength (c :: hyphen :: cs) + 1)
  | backslash :: c :: cs => some (escapeLength (c :: cs) + 1)
  | backslash :: [] => none
  -- a blank is no character unless it is escaped
  | c :: _ => if isBlank c then none else some 1
  | [] => none

/-- The length of an integer in base two, eight or sixteen after its number sign. -/
def radixLength? : Text → Option Nat
  | c :: cs =>
      let digits :=
        if c == 'b'.toNat then countWhile isBinary cs
        else if c == 'o'.toNat then countWhile isOctal cs
        else if c == 'x'.toNat then countWhile isHex cs
        else 0
      if digits == 0 then none else some (digits + 1)
  | [] => none

/-! ## No length exceeds the text -/

theorem symbolLength_le (cs : Text) : symbolLength cs ≤ cs.length := by
  fun_induction symbolLength cs <;> simp_all

theorem stringLength?_le {cs : Text} {n : Nat} (h : stringLength? cs = some n) :
    n ≤ cs.length := by
  fun_induction stringLength? cs generalizing n with
  | case1 c cs ih =>
      obtain ⟨m, hm, rfl⟩ := Option.map_eq_some_iff.1 h
      have := ih hm
      simp; omega
  | case2 => simp_all
  | case3 => simp at h
  | case4 c cs _ _ _ ih =>
      obtain ⟨m, hm, rfl⟩ := Option.map_eq_some_iff.1 h
      have := ih hm
      simp; omega
  | case5 => simp at h

theorem nameLength?_le {cs : Text} {n : Nat} (h : nameLength? cs = some n) :
    n ≤ cs.length := by
  unfold nameLength? at h
  split at h
  · simp only [Option.ite_none_right_eq_some, Option.some.injEq] at h
    simp; omega
  · simp at h

theorem escapeLength_le (cs : Text) : escapeLength cs ≤ cs.length := by
  unfold escapeLength
  split
  · simp
  · next c cs =>
    have h8 := countWhile_le isOctal (c :: cs)
    have h16 := countWhile_le isHex cs
    have hn : (nameLength? cs).getD 0 ≤ cs.length := by
      cases hn : nameLength? cs with
      | none => simp
      | some n => simpa using nameLength?_le hn
    simp only [List.length_cons] at h8 ⊢
    repeat' split
    all_goals omega

theorem charLength?_le {cs : Text} {n : Nat} (h : charLength? cs = some n) :
    n ≤ cs.length := by
  fun_induction charLength? cs generalizing n with
  | case1 cs ih =>
      obtain rfl := Option.some.inj h
      cases hc : charLength? cs with
      | none => simp
      | some m => have := ih hc; simp; omega
  | case2 c cs _ _ m hm ih =>
      obtain rfl := Option.some.inj h
      have := ih hm
      simp; omega
  | case3 => obtain rfl := Option.some.inj h; simp
  | case4 c cs =>
      obtain rfl := Option.some.inj h
      have := escapeLength_le (c :: hyphen :: cs)
      simp at this ⊢; omega
  | case5 c cs =>
      obtain rfl := Option.some.inj h
      have := escapeLength_le (c :: cs)
      simp at this ⊢; omega
  | case6 => simp at h
  | case7 => simp at h
  | case8 => obtain rfl := Option.some.inj h; simp
  | case9 => simp at h

theorem radixLength?_le {cs : Text} {n : Nat} (h : radixLength? cs = some n) :
    n ≤ cs.length := by
  unfold radixLength? at h
  split at h
  · next c cs =>
    have h2 := countWhile_le isBinary cs
    have h8 := countWhile_le isOctal cs
    have h16 := countWhile_le isHex cs
    simp only [Option.ite_none_left_eq_some, Option.some.injEq] at h
    simp only [List.length_cons]
    repeat' split at h
    all_goals omega
  · simp at h

/-! ## The next token -/

/-- What begins at a character that is no blank. -/
inductive Piece where
  /-- A comment of the given length. -/
  | comment (length : Nat)
  /-- A token of the given kind and length. -/
  | token (kind : TokenKind) (length : Nat)
  deriving DecidableEq, Repr

/-- The number of characters that a piece extends over. -/
def Piece.length : Piece → Nat
  | .comment n | .token _ n => n

/-- The kind of a token that consists of a single character. -/
def singleKind? : Nat → Option TokenKind
  | openParen => some .openParen
  | closeParen => some .closeParen
  | openBracket => some .openBracket
  | closeBracket => some .closeBracket
  | apostrophe | backquote => some .quote
  | _ => none

/-- The symbol that begins with the character `c` when `cs` follows it. -/
def word (c : Nat) (cs : Text) : Piece := .token .symbol (symbolLength (c :: cs))

/-- What begins with the character `c` when `cs` follows it. -/
def first? (c : Nat) (cs : Text) : Option Piece :=
  match singleKind? c with
  | some kind => some (.token kind 1)
  | none =>
      match c with
      | semicolon => some (.comment (countWhile (· != newline) cs + 1))
      | comma => some (.token .unquote (if cs.head? == some atSign then 2 else 1))
      | doubleQuote => (stringLength? cs).map fun n => .token .string (n + 1)
      -- what cannot begin a character or an integer begins a symbol
      | questionMark =>
          match charLength? cs with
          | some n => some (.token .char (n + 1))
          | none => some (word c cs)
      | numberSign =>
          if cs.head? == some apostrophe then some (.token .functionQuote 2)
          else
            match radixLength? cs with
            | some n => some (.token .radix (n + 1))
            | none => some (word c cs)
      | _ => some (word c cs)

/-- What begins at a character extends no further than the text. -/
theorem first?_length_le {c : Nat} {cs : Text} {piece : Piece}
    (h : first? c cs = some piece) : piece.length ≤ cs.length + 1 := by
  have wordFits : (word c cs).length ≤ cs.length + 1 := symbolLength_le (c :: cs)
  unfold first? at h
  split at h
  · obtain rfl := Option.some.inj h
    simp [Piece.length]
  split at h
  · obtain rfl := Option.some.inj h
    exact Nat.succ_le_succ (countWhile_le _ cs)
  · obtain rfl := Option.some.inj h
    cases cs with
    | nil => simp [Piece.length]
    | cons d cs => simp only [Piece.length, List.length_cons]; split <;> omega
  · obtain ⟨n, hn, rfl⟩ := Option.map_eq_some_iff.1 h
    exact Nat.succ_le_succ (stringLength?_le hn)
  · split at h
    · next n hn => obtain rfl := Option.some.inj h; exact Nat.succ_le_succ (charLength?_le hn)
    · obtain rfl := Option.some.inj h; exact wordFits
  · split at h
    · next hq =>
      obtain rfl := Option.some.inj h
      cases cs with
      | nil => simp at hq
      | cons d cs => simp [Piece.length]
    · split at h
      · next n hn => obtain rfl := Option.some.inj h; exact Nat.succ_le_succ (radixLength?_le hn)
      · obtain rfl := Option.some.inj h; exact wordFits
  · obtain rfl := Option.some.inj h
    exact wordFits

/-! ## All tokens -/

/-- The tokens of a text, and why there are no more, if not because the text ends. -/
structure Lexed where
  /-- The tokens in the order of the text. -/
  tokens : List Token
  /-- What stopped the reading of tokens before the end of the text. -/
  failure : Option ReadError
  deriving DecidableEq, Repr, Inhabited

/-- The tokens of a text that stands at the given position. -/
def lexFrom (position : Nat) : Text → Lexed
  | [] => ⟨[], none⟩
  | c :: cs =>
      if isBlank c then lexFrom (position + 1) cs
      else
        match first? c cs with
        | none => ⟨[], some (.unexpectedChar position c)⟩
        | some (.comment n) => lexFrom (position + n) (cs.drop (n - 1))
        | some (.token kind n) =>
            let rest := lexFrom (position + n) (cs.drop (n - 1))
            { rest with tokens := ⟨kind, (c :: cs).take n⟩ :: rest.tokens }
termination_by cs => cs.length
decreasing_by all_goals (simp only [List.length_cons, List.length_drop]; omega)

/-- The tokens of a text. -/
def lex (source : Text) : Lexed := lexFrom 0 source

end LispNamespace.Token
