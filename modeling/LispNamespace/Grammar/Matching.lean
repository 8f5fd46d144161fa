import LispNamespace.Fault
import LispNamespace.Grammar.Element
import LispNamespace.Grammar.Plan

/-!
# Matching arguments against a grammar

A grammar says which arguments of a macro call are code. `t` makes every argument code, zero and
nil none of them, and a list is matched element by element: a kind of argument, a list of elements
for an argument that is a list, a vector for a group of arguments, or the name of another grammar.
`&optional` lets what follows it be missing, `&rest` repeats it, `&or` takes the first alternative
that fits, `&not` demands that its element does not fit, and `&define` says nothing.

Matching yields a plan and touches nothing, so that alternatives can be tried and given up.
Elements may refer to grammars without end; a bound on the depth of nesting makes matching end.
-/

namespace LispNamespace.Grammar

/-- Grammars by name, the first of several for one name counting. -/
abbrev Grammars := List (Text × Tree)

/-- The grammar of the given name. An absent one counts as none. -/
def Grammars.find? (grammars : Grammars) (name : Text) : Option Tree :=
  match List.lookup name grammars with
  | some .absent => none
  | found => found

/-- What the names of grammars stand for. -/
abbrev Resolver := Text → Option Tree

/-- The deepest nesting of elements. -/
def depthLimit : Nat := 64

/-- The plans of the arguments that were matched, and the arguments after them. -/
abbrev Matched := Except Mismatch (List Plan × List Tree)

/-- Matches one element, at a depth counted from the sequence that it stands in. -/
abbrev Matcher := Nat → Tree → List Tree → Matched

/-! ## Sequences of elements -/

/-- Matches a group as often as it fits and consumes arguments. -/
def matchRepeated (group : List Tree → Matched) (args : List Tree) : List Plan × List Tree :=
  match group args with
  | .error _ => ([], args)
  | .ok (plans, remaining) =>
      -- a round that consumes nothing could be repeated for ever
      if remaining.length < args.length then
        let (more, rest) := matchRepeated group remaining
        (plans ++ more, rest)
      else ([], args)
termination_by args.length

/-- Matches the first alternative that fits. -/
def matchAny (one : Matcher) (depth : Nat) (args : List Tree) :
    List Tree → Option (List Plan × List Tree)
  | [] => none
  | alternative :: others =>
      match one depth alternative args with
      | .ok found => some found
      | .error _ => matchAny one depth args others

/-- Stops matching where an optional element does not fit, and refuses the arguments where it is
not optional. -/
def giveUp (isOptional : Bool) (args : List Tree) (why : Mismatch) : Matched :=
  if isOptional then .ok ([], args) else .error why

/-- Matches the elements of a sequence from left to right. The depth grows with each repetition
that the elements stand in. -/
def matchSequence (one : Matcher) (isOptional : Bool) (depth : Nat) :
    List Tree → List Tree → Matched
  | [], args => .ok ([], args)
  | element :: elements, args =>
      let single := fun (_ : Unit) =>
        if isOptional && args.isEmpty then .ok ([], args)
        else
          match one depth element args with
          | .error why => giveUp isOptional args why
          | .ok (plans, rest) =>
              (matchSequence one isOptional depth elements rest).map fun found =>
                (plans ++ found.1, found.2)
      match mark? element with
      | some .define => matchSequence one isOptional depth elements args
      | some .optional => matchSequence one true depth elements args
      | some .rest => .ok (matchRepeated (matchSequence one false (depth + 1) elements) args)
      -- all elements that are left are alternatives, and nothing of the sequence comes after them
      | some .or =>
          match matchAny one depth args elements with
          | some found => .ok found
          | none => giveUp isOptional args .noAlternative
      | some .not =>
          match elements with
          | [] => .error .emptyNegation
          | negated :: others =>
              match one depth negated args with
              | .ok _ => giveUp isOptional args (.negated negated)
              | .error _ => matchSequence one isOptional depth others args
      | none => single ()

/-! ## Single elements -/

/-- Matches an element that takes one argument by the kind it names, and leaves the other names
to `otherwise`. -/
def matchNamed (name : Text) (arg : Tree) (rest : List Tree) (otherwise : Unit → Matched) :
    Matched :=
  if isCodeElement name then .ok ([.code], rest)
  else if name == "lambda-expr" then
    if arg.isHeadedBy "lambda" then .ok ([.code], rest) else .error (.notALambda arg)
  else
    match dataKind? name with
    | some kind => if kind arg then .ok ([.data], rest) else .error (.notOfKind name arg)
    | none => otherwise ()

/-- Matches one element with the given room for further nesting. -/
def matchElement (resolver : Resolver) (room : Nat) (element : Tree) (args : List Tree) : Matched :=
  match room with
  | 0 => .error .tooDeep
  | room + 1 =>
      -- a list or a vector takes two levels, and each repetition inside it one more
      let inner := matchSequence (fun depth => matchElement resolver (room - 1 - depth)) false 0
      match element with
      | .vec elements => inner elements args
      | element =>
          if element.symbol?.any isBodyElement then .ok (Plan.uniform .code args, [])
          else
            match args with
            | [] => .error (.missing element)
            | arg :: rest =>
                match element with
                | .list elements =>
                    match arg.properList? with
                    | none => .error (.notAList element arg)
                    | some items =>
                        match inner elements items with
                        | .error why => .error why
                        | .ok (plans, []) => .ok ([.nested plans], rest)
                        | .ok (_, _ :: _) => .error (.extraElements arg)
                | .lit _ _ | .str _ =>
                    let name := element.plain
                    if arg.isSym name then .ok ([.data], rest)
                    else .error (.notTheSymbol name arg)
                | .sym name =>
                    matchNamed name arg rest fun _ =>
                      match resolver name with
                      -- the grammar that is named stands in the place of its name
                      | some spec => matchElement resolver room spec args
                      | none => .error (.unknownElement name)
                | element =>
                    if element.isZero then .ok (Plan.uniform .data args, [])
                    else .error (.notAnElement element)
termination_by room

/-! ## Whole grammars -/

/-- Follows a grammar that is the bare name of another one to its definition, taking at most the
given number of steps. -/
def resolve (resolver : Resolver) : Nat → Tree → Except Fault Tree
  | steps, .sym name =>
      if name == "t" then .ok (.sym name)
      else
        match steps, resolver name with
        | _, none => .error (.mismatch (.unknownElement name))
        | 0, some _ => .error (.endlessGrammar name)
        | steps + 1, some spec => resolve resolver steps spec
  | _, spec => .ok spec

section Resolve

variable {resolver : Resolver} {name : Text} {spec : Tree}

/-- The name of the grammar that makes every argument code is followed no further. -/
theorem resolve_t (resolver : Resolver) (steps : Nat) :
    resolve resolver steps (.sym "t") = .ok (.sym "t") := by
  unfold resolve
  rw [if_pos (by simp)]

/-- Only symbols name other grammars. -/
theorem resolve_of_symbol?_eq_none (resolver : Resolver) (steps : Nat) (h : spec.symbol? = none) :
    resolve resolver steps spec = .ok spec := by
  unfold resolve
  cases spec with
  | sym name => cases h
  | _ => rfl

/-- A name that is not known ends the resolution. -/
theorem resolve_unknown (hname : name ≠ "t") (hnone : resolver name = none) (steps : Nat) :
    resolve resolver steps (.sym name) = .error (.mismatch (.unknownElement name)) := by
  unfold resolve
  rw [if_neg (by simpa using hname), hnone]

/-- Where no steps are left, one more name is too many. -/
theorem resolve_zero (hname : name ≠ "t") (hspec : resolver name = some spec) :
    resolve resolver 0 (.sym name) = .error (.endlessGrammar name) := by
  unfold resolve
  rw [if_neg (by simpa using hname), hspec]

/-- A name is resolved to what it stands for, in one step. -/
theorem resolve_succ (hname : name ≠ "t") (hspec : resolver name = some spec) (steps : Nat) :
    resolve resolver (steps + 1) (.sym name) = resolve resolver steps spec := by
  rw [resolve.eq_def resolver (steps + 1)]
  dsimp only
  rw [if_neg (by simpa using hname), hspec]

/-- A grammar is followed no further, is a name that is unknown, or a name that leads on. -/
theorem resolve_cases (resolver : Resolver) (spec : Tree) :
    (∀ steps, resolve resolver steps spec = .ok spec) ∨
      (∃ name, ∀ steps, resolve resolver steps spec = .error (.mismatch (.unknownElement name))) ∨
      ∃ name next, spec = .sym name ∧ name ≠ "t" ∧ resolver name = some next := by
  cases hspec : spec.symbol? with
  | none => exact .inl fun steps => resolve_of_symbol?_eq_none resolver steps hspec
  | some name =>
      obtain rfl : spec = .sym name := by
        cases spec <;> cases hspec
        rfl
      by_cases hname : name = "t"
      · subst hname
        exact .inl (resolve_t resolver)
      · cases hnext : resolver name with
        | none => exact .inr (.inl ⟨name, resolve_unknown hname hnext⟩)
        | some next => exact .inr (.inr ⟨name, next, rfl, hname, hnext⟩)

end Resolve

/-- The plan for the arguments of a call by its grammar, where a chain of names is followed for at most
the given number of steps. -/
def classifyBy (resolver : Resolver) (steps : Nat) (spec : Tree) (args : List Tree) :
    Except Fault (List Plan) :=
  match resolve resolver steps spec with
  | .error fault => .error fault
  | .ok spec =>
      if spec.isSym "t" then .ok (Plan.uniform .code args)
      else if spec.isZero || spec.isNil then .ok (Plan.uniform .data args)
      else
        match spec.elements? with
        | none => .error (.mismatch (.notAGrammar spec))
        | some elements =>
            let one : Matcher := fun depth => matchElement resolver (depthLimit - depth)
            match matchSequence one false 0 elements args with
            | .error why => .error (.mismatch why)
            | .ok (plans, []) => .ok plans
            | .ok (_, rest) => .error (.mismatch (.leftOver rest.length))

/-- The plan for the arguments of a call by its grammar, among the grammars that are known. A chain of
names that is longer than the number of grammars runs in a circle. -/
def classify (grammars : Grammars) (spec : Tree) (args : List Tree) : Except Fault (List Plan) :=
  classifyBy grammars.find? grammars.length spec args

end LispNamespace.Grammar
