import LispNamespace.Token.Atom
import LispNamespace.Token.Lexer

/-!
# From tokens to trees

A form is an atom, a shorthand followed by a form, a parenthesised list, perhaps dotted, or a
bracketed vector. The tokens of a form are read from left to right; what has been opened and not
yet completed is kept on a stack. A dot counts as such only where an element of a list may stand;
anywhere else it is the symbol of that name.

Reading stops at the first token that does not fit, which stays unread, and after a token that
denotes nothing. What was consumed stays consumed.
-/

namespace LispNamespace

/-! ## Streams of tokens -/

/-- The tokens that are still to be read, and what follows them if not the end of the text. -/
structure TokenStream where
  /-- The tokens to be read. -/
  tokens : List Token
  /-- What goes wrong after the last token. -/
  failure : Option ReadError
  deriving DecidableEq, Repr, Inhabited

namespace TokenStream

/-- The tokens of a text. -/
def ofSource (source : Text) : TokenStream :=
  let lexed := Token.lex source
  ⟨lexed.tokens, lexed.failure⟩

/-- The stream after its tokens and its failure have been met. -/
def exhausted : TokenStream := ⟨[], none⟩

/-- The next token without consuming it; a failure is met once. -/
def peek (s : TokenStream) : Except ReadError (Option Token) × TokenStream :=
  match s.tokens, s.failure with
  | t :: _, _ => (.ok (some t), s)
  | [], some e => (.error e, exhausted)
  | [], none => (.ok none, s)

/-- The next token, which is consumed. -/
def advance (s : TokenStream) : Except ReadError (Option Token) × TokenStream :=
  match s.tokens with
  | t :: rest => (.ok (some t), { s with tokens := rest })
  | [] => s.peek

end TokenStream

namespace Tree

/-! ## Opened forms -/

/-- A form that has been opened and not yet completed. Elements are kept in reverse. -/
inductive Opened where
  /-- A shorthand whose long form has the given head. -/
  | shorthand (head : Text)
  /-- A list with its elements so far. -/
  | list (items : List Tree)
  /-- A list after its dot. -/
  | dotted (items : List Tree)
  /-- A dotted list after its tail. -/
  | tailed (items : List Tree) (tail : Tree)
  /-- A vector with its elements so far. -/
  | vec (items : List Tree)
  deriving Inhabited

/-- What is wrong when the text ends with the given forms open, the innermost first. -/
def endError? : List Opened → Option ReadError
  | [] => none
  | .shorthand head :: _ => some (.nothingAfter head)
  | .list _ :: _ => some .unclosedList
  | .dotted _ :: _ | .tailed _ _ :: _ => some .unclosedDot
  | .vec _ :: _ => some .unclosedVector

/-- Adds a form to the innermost opened one, completing shorthands on the way. The form itself
is returned when nothing is open. -/
def complete (form : Tree) : List Opened → Tree ⊕ List Opened
  | [] => .inl form
  | .shorthand head :: stack => complete (.list [.sym head, form]) stack
  | .list items :: stack => .inr (.list (form :: items) :: stack)
  | .dotted items :: stack => .inr (.tailed items form :: stack)
  | .tailed items tail :: stack => .inr (.tailed items tail :: stack)
  | .vec items :: stack => .inr (.vec (form :: items) :: stack)

/-- What a token does to the opened forms. -/
inductive Step where
  /-- The token is consumed and a form is complete. -/
  | form (tree : Tree) (stack : List Opened)
  /-- The token is consumed and the opened forms have changed. -/
  | opened (stack : List Opened)
  /-- The token does not fit and stays unread. -/
  | refused (error : ReadError)
  /-- The token is consumed, and reading cannot go on. -/
  | spoiled (error : ReadError)
  deriving Inhabited

variable [CharNames]

/-- What a token does where a form should begin. -/
def beginForm (t : Token) (stack : List Opened) : Step :=
  match Atom.ofToken? t with
  | some (.ok tree) => .form tree stack
  | some (.error e) => .spoiled e
  | none =>
      match t.kind with
      | .openParen => .opened (.list [] :: stack)
      | .openBracket => .opened (.vec [] :: stack)
      | .closeParen | .closeBracket => .refused (.unexpectedClose t.text)
      | _ =>
          .opened (.shorthand ((Token.longForm? t.text).getD t.text) :: stack)

/-- What a token does when the given forms are open. -/
def step (t : Token) (stack : List Opened) : Step :=
  match stack with
  | .list items :: outer =>
      if t.kind == .closeParen then .form (ofList items.reverse) outer
      else if t.isDot then
        if items.isEmpty then .spoiled .dotWithoutItem else .opened (.dotted items :: outer)
      else beginForm t stack
  | .tailed items tail :: outer =>
      if t.kind == .closeParen then .form (.dot items.reverse tail) outer
      else .refused .unclosedDot
  | .vec items :: outer =>
      if t.kind == .closeBracket then .form (.vec items.reverse) outer
      else if t.kind == .closeParen then .refused (.mismatchedClose t.text)
      else beginForm t stack
  | _ => beginForm t stack

/-! ## Reading forms -/

/-- Reads on until a form is complete with nothing left open; none at the end of the text when
nothing is open. -/
def readOpened (stack : List Opened) (failure : Option ReadError) :
    List Token → Except ReadError (Option Tree) × TokenStream
  | [] =>
      match failure with
      | some e => (.error e, .exhausted)
      | none =>
          match endError? stack with
          | some e => (.error e, .exhausted)
          | none => (.ok none, .exhausted)
  | t :: rest =>
      match step t stack with
      | .refused e => (.error e, ⟨t :: rest, failure⟩)
      | .spoiled e => (.error e, ⟨rest, failure⟩)
      | .opened stack => readOpened stack failure rest
      | .form tree stack =>
          match complete tree stack with
          | .inl tree => (.ok (some tree), ⟨rest, failure⟩)
          | .inr stack => readOpened stack failure rest

/-- The next form of a stream, none at its end. -/
def readForm (s : TokenStream) : Except ReadError (Option Tree) × TokenStream :=
  readOpened [] s.failure s.tokens

/-- Reads the form after a shorthand and gives the long form. -/
def readAfterShorthand (text : Text) (s : TokenStream) :
    Except ReadError (Option Tree) × TokenStream :=
  match Token.longForm? text with
  | none => (.error (.unknownShorthand text), s)
  | some head => readOpened [.shorthand head] s.failure s.tokens

/-- Reads forms up to the end of the stream, with at most the given number of forms. -/
def readForms : Nat → TokenStream → Except ReadError (List Tree) × TokenStream
  | 0, s => (.ok [], s)
  | n + 1, s =>
      match readForm s with
      | (.error e, s) => (.error e, s)
      | (.ok none, s) => (.ok [], s)
      | (.ok (some tree), s) =>
          match readForms n s with
          | (.ok trees, s) => (.ok (tree :: trees), s)
          | (.error e, s) => (.error e, s)

/-- Reads every form up to the end of the stream. A form takes at least one token. -/
def readRest (s : TokenStream) : Except ReadError (List Tree) × TokenStream :=
  readForms (s.tokens.length + 1) s

/-- Every form of a text. -/
def readAll (source : Text) : Except ReadError (List Tree) :=
  (readRest (.ofSource source)).1

/-- The form of a text that holds exactly one. -/
def readOne (source : Text) : Except ReadError Tree :=
  match readAll source with
  | .error e => .error e
  | .ok [tree] => .ok tree
  | .ok trees => .error (.formCount trees.length)

end Tree

end LispNamespace
