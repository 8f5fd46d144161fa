import LispNamespace.Host.Basic
import LispNamespace.Journal

/-!
# Macro definitions

A macro definition expands into a form that binds the macro's name to a lambda expression. The
declarations at the head of its body do not become part of the lambda expression. They become forms
of their own, and one of them may give the grammar of the macro's arguments.
-/

namespace LispNamespace

namespace Definition

/-! ## Documentation and declarations -/

/-- Splits a body into its leading documentation and declarations, and the rest. A leading string
is documentation only when something follows it. -/
def splitDocumentation : List Tree → List Tree × List Tree
  | first :: second :: rest =>
      if first.isText then ([first], second :: rest) else ([], first :: second :: rest)
  | body => ([], body)

/-- Splits a body into its leading documentation and declarations, and the rest. -/
def splitDeclarations (body : List Tree) : List Tree × List Tree :=
  let (documentation, rest) := splitDocumentation body
  let isDeclaration := fun form : Tree => form.isHeadedBy "declare"
  (documentation ++ rest.takeWhile isDeclaration, rest.dropWhile isDeclaration)

/-- The elements of a declaration form after its head. -/
def declarationItems (form : Tree) : List Tree := (form.tailOf? "declare").getD []

/-- The grammar that a single declaration gives. -/
def grammarOf? (declaration : Tree) : Option Tree :=
  match declaration.tailOf? "debug" with
  | some (spec :: _) => some spec
  | _ => none

/-- The first grammar that the declarations of a body give; an absent one counts as none. -/
def declaredGrammar? (body : List Tree) : Option Tree :=
  match ((splitDeclarations body).1.flatMap declarationItems).findSome? grammarOf? with
  | some .absent => none
  | found => found

/-! ## Forms made of declarations -/

/-- The declarations that set a property of the macro, with the name of the property. -/
def propertyDeclarations : List (Text × Text) :=
  [("indent", "lisp-indent-function"), ("doc-string", "doc-string-elt"),
   ("no-font-lock-keyword", "no-font-lock-keyword"), ("pure", "pure"),
   ("side-effect-free", "side-effect-free"), ("interactive-only", "interactive-only")]

/-- What becomes of a single declaration of the macro `name`: a form, a note that it was dropped,
or nothing when it is no declaration. -/
def declarationForm? (name : Tree) (declaration : Tree) : Option (Tree ⊕ Note) :=
  match declaration.uncons? with
  | some (.sym kind, values) =>
      let form : Option Tree :=
        match propertyDeclarations.lookup kind, values with
        | some property, value :: _ =>
            some (Tree.call "function-put"
              [Tree.quote name, Tree.quote (.sym property), Tree.quote value])
        | _, _ =>
            match declaration.tailOf? "debug", declaration.tailOf? "obsolete" with
            | some (spec :: _), _ =>
                some (Tree.call "progn" [.sym ":autoload-end",
                  Tree.call "put"
                    [Tree.quote name, Tree.quote (.sym "edebug-form-spec"), Tree.quote spec]])
            | _, some (instead :: since :: _) =>
                some (Tree.call "make-obsolete" [Tree.quote name, Tree.quote instead, since])
            | _, _ => none
      match form with
      | some form => some (.inl form)
      | none => some (.inr (.droppedDeclaration kind name))
  | _ => none

/-- What becomes of the declarations of the macro `name`, in order. -/
def declarationResults (name : Tree) (head : List Tree) : List (Tree ⊕ Note) :=
  (head.flatMap declarationItems).filterMap (declarationForm? name)

/-- The forms that the declarations of the macro `name` turn into. -/
def declarationForms (name : Tree) (head : List Tree) : List Tree :=
  (declarationResults name head).filterMap fun
    | .inl form => some form
    | .inr _ => none

/-- The notes on declarations of the macro `name` that were dropped. -/
def declarationNotes (name : Tree) (head : List Tree) : List Note :=
  (declarationResults name head).filterMap fun
    | .inl _ => none
    | .inr note => some note

/-! ## Expansion -/

/-- The form that binds a name to a macro with the given parameters and body. -/
def bindingForm (name params : Tree) (body : List Tree) : Tree :=
  Tree.call "defalias"
    [Tree.quote name,
     Tree.call "cons"
       [Tree.quote (.sym "macro"),
        Tree.call "function" [Tree.call "lambda" (params :: body)]]]

/-- The expansion of a macro definition from its arguments: the form that binds the name, followed
by the forms of its declarations if there are any. -/
def expand (args : List Tree) : Except Fault (Tree × List Note) :=
  match args with
  | name :: params :: definition =>
      let (head, body) := splitDeclarations definition
      let binding := bindingForm name params (head.filter Tree.isText ++ body)
      let declared := declarationForms name head
      let notes := declarationNotes name head
      .ok (if declared.isEmpty then binding else Tree.call "prog1" (binding :: declared), notes)
  | _ => .error .incompleteDefinition

/-- Expands a form whose head the host expands as a definition; none for any other form. -/
def expandWith? (host : Host) (form : Tree) : Option (Except Fault (Tree × List Note)) :=
  match form.uncons? with
  | some (.sym head, args) => if host.expandsDefinition head then some (expand args) else none
  | _ => none

/-- The expansion of a form that must expand. -/
def expandOrFail (host : Host) (form : Tree) : Except Fault (Tree × List Note) :=
  match expandWith? host form with
  | some result => result
  | none =>
      match form.front? with
      | some front => .error (.notExpandable front)
      | none => .error (.headless form)

end Definition

end LispNamespace
