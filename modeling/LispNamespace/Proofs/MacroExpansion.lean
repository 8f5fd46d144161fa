import LispNamespace.Convert
import LispNamespace.Proofs.Parts

/-!
# What becomes of a macro definition

A macro definition is converted in two parts. Its name is taken in and what is known about the macro
is recorded; then the form that binds the name is converted, and the forms that come from
declarations are put behind it.
-/

namespace LispNamespace

open Rewrite

/-! ## The form that binds the name -/

namespace Definition

/-- Splitting a body into declarations and code loses nothing. -/
theorem splitDeclarations_append (body : List Tree) :
    (splitDeclarations body).1 ++ (splitDeclarations body).2 = body := by
  have hdocumentation : (splitDocumentation body).1 ++ (splitDocumentation body).2 = body := by
    unfold splitDocumentation
    split
    · split <;> rfl
    · rfl
  unfold splitDeclarations
  dsimp only
  rw [List.append_assoc, List.takeWhile_append_dropWhile]
  exact hdocumentation

theorem mem_of_mem_splitDeclarations {body : List Tree} {form : Tree}
    (h : form ∈ (splitDeclarations body).2) : form ∈ body := by
  rw [← splitDeclarations_append body]
  exact List.mem_append_right _ h

/-- What a macro is made of: its parameters and the body of its definition, with the documentation
but without the declarations. -/
def expander (params : Tree) (definition : List Tree) : Tree :=
  Tree.call "cons"
    [Tree.quote (.sym "macro"),
     Tree.call "function"
       [Tree.call "lambda"
         (params :: ((splitDeclarations definition).1.filter Tree.isText ++
           (splitDeclarations definition).2))]]

/-- The form that binds the name of a macro to its expander, from the parameters of the macro and
what follows them in its definition. -/
def boundForm (name params : Tree) (definition : List Tree) : Tree :=
  bindingForm name params
    ((splitDeclarations definition).1.filter Tree.isText ++ (splitDeclarations definition).2)

/-- The form that binds the name of a macro quotes the name and has the expander after it. -/
theorem boundForm_eq (name params : Tree) (definition : List Tree) :
    boundForm name params definition =
      Tree.call "defalias" [Tree.quote name, expander params definition] := rfl

/-- The heads of the lists that an expander is made of, around the parts of the definition. -/
def expanderHeads : List Text := ["cons", "function", "lambda"]

/-- The heads of the lists that the form that binds the name is made of. -/
def boundHeads : List Text := "defalias" :: "quote" :: expanderHeads

section Parts

variable {P : Tree → Prop} {params : Tree} {definition : List Tree}
  (hsym : ∀ symbol, P (.sym symbol)) (hparams : params.AllParts P)
  (hdefinition : ∀ form ∈ definition, form.AllParts P)

include hsym

/-- A list has a property in all its parts if it has it itself and its items do. -/
theorem allParts_call {head : Text} {items : List Tree} (hlist : P (Tree.call head items))
    (hitems : ∀ item ∈ items, item.AllParts P) : (Tree.call head items).AllParts P := by
  have hhead : (Tree.sym head).AllParts P :=
    Tree.allParts_of_children (hsym head) fun _ h => nomatch h
  exact Tree.allParts_of_children hlist (List.forall_mem_cons.2 ⟨hhead, hitems⟩)

theorem allParts_quoteSym {symbol : Text} (hquote : P (Tree.quote (.sym symbol))) :
    (Tree.quote (.sym symbol)).AllParts P := by
  refine allParts_call hsym hquote (List.forall_mem_singleton.2 ?_)
  exact Tree.allParts_of_children (hsym symbol) fun _ h => nomatch h

include hparams hdefinition

/-- Apart from a few lists and symbols of its own, the expander of a macro has only parts that the
definition has, too. -/
theorem allParts_expander (hquote : P (Tree.quote (.sym "macro")))
    (hlist : ∀ head ∈ expanderHeads, ∀ items, P (Tree.call head items)) :
    (expander params definition).AllParts P := by
  have hcall : ∀ head ∈ expanderHeads, ∀ items : List Tree,
      (∀ item ∈ items, item.AllParts P) → (Tree.call head items).AllParts P :=
    fun head hhead items => allParts_call hsym (hlist head hhead items)
  -- of the declarations, only the documentation is kept
  have hbody : ∀ form ∈ (splitDeclarations definition).1.filter Tree.isText ++
      (splitDeclarations definition).2, form.AllParts P := by
    intro form hform
    refine hdefinition form ?_
    rw [← splitDeclarations_append definition]
    exact List.mem_append.2 ((List.mem_append.1 hform).imp_left fun h => (List.mem_filter.1 h).1)
  have hlambda := hcall "lambda" (by decide) _ (List.forall_mem_cons.2 ⟨hparams, hbody⟩)
  have hfunction := hcall "function" (by decide) _ (List.forall_mem_singleton.2 hlambda)
  exact hcall "cons" (by decide) _
    (List.forall_mem_cons.2 ⟨allParts_quoteSym hsym hquote, List.forall_mem_singleton.2 hfunction⟩)

/-- So has the form that binds the name of the macro. -/
theorem allParts_boundForm (hlist : ∀ head ∈ boundHeads, ∀ items, P (Tree.call head items))
    {name : Text} : (boundForm (.sym name) params definition).AllParts P := by
  have hquote : ∀ symbol : Text, P (Tree.quote (.sym symbol)) :=
    fun symbol => hlist "quote" (by decide) [.sym symbol]
  have hexpander := allParts_expander hsym hparams hdefinition (hquote "macro") fun head hhead =>
    hlist head (List.mem_cons_of_mem _ (List.mem_cons_of_mem _ hhead))
  rw [boundForm_eq]
  exact allParts_call hsym (hlist "defalias" (by decide) _)
    (List.forall_mem_cons.2 ⟨allParts_quoteSym hsym (hquote name), List.forall_mem_singleton.2 hexpander⟩)

end Parts

/-- The form that binds the name of a macro, with the forms of its declarations behind it. -/
def withDeclared (name : Tree) (definition : List Tree) (bound : Tree) : Tree :=
  let declared := declarationForms name (splitDeclarations definition).1
  if declared.isEmpty then bound else Tree.call "prog1" (bound :: declared)

/-- A macro definition of the right shape is always expanded. Its declarations are put in front or
reported, and its body stands in the expander. -/
theorem expand_eq (name params : Tree) (definition : List Tree) :
    expand (name :: params :: definition) =
      .ok (withDeclared name definition (boundForm name params definition),
        declarationNotes name (splitDeclarations definition).1) := rfl

/-- A macro definition cannot be expanded only if the host does not expand its head. -/
theorem of_expandOrFail_error {host : Host} {head : Text} {name params : Tree}
    {definition : List Tree} {fault : Fault}
    (h : expandOrFail host (Tree.call head (name :: params :: definition)) = .error fault) :
    host.expandsDefinition head = false ∧ fault = .notExpandable (Tree.sym head).display := by
  unfold expandOrFail expandWith? at h
  by_cases hexpands : host.expandsDefinition head = true
  · simp only [Tree.call, Tree.uncons?, if_pos hexpands, expand_eq] at h
    cases h
  · simp only [Tree.call, Tree.uncons?, if_neg hexpands] at h
    cases h
    exact ⟨Bool.eq_false_iff.2 hexpands, rfl⟩

end Definition

/-! ## The two parts of the conversion -/

/-- Two steps that run alike from every session are the same. -/
theorem Rewrite.ext {α : Type} {step other : Rewrite α}
    (h : ∀ s, step.runFrom s = other.runFrom s) : step = other := funext h

namespace Forms

/-- Takes in the name of a macro that is being defined and records what is known about it. Gives the
final name. The definition that comes next carries that name. -/
def prepareMacro (head name : Text) (params : Tree) (definition : List Tree) : Rewrite Text := do
  let name ← convertMacroName name
  let spec := Definition.declaredGrammar? definition
  declareMacroGrammar name spec
  announceMacro name spec
  let _ ← expandDefinition (Tree.call head (.sym name :: params :: definition))
  modify fun s => { s with nameIsFinal := true }
  return name

/-- The expansion of a definition, where there is one, has the form that binds the name. -/
theorem expandDefinition_bind {α : Type} (head name : Text) (params : Tree)
    (definition : List Tree) (next : Tree → Rewrite α) :
    (expandDefinition (Tree.call head (.sym name :: params :: definition)) >>= next) =
      expandDefinition (Tree.call head (.sym name :: params :: definition)) >>= fun _ =>
        next (Definition.withDeclared (.sym name) definition
          (Definition.boundForm (.sym name) params definition)) := by
  refine Rewrite.ext fun s => ?_
  rw [runFrom_bind, runFrom_bind]
  unfold expandDefinition
  rw [runFrom_bind, runFrom_get]
  dsimp only
  unfold Definition.expandOrFail Definition.expandWith?
  -- the host expands the form or not; only in the first case there is a next step
  by_cases hexpands : s.host.expandsDefinition head = true
  · simp only [Tree.call, Tree.uncons?, if_pos hexpands, Definition.expand_eq]
    rfl
  · simp only [Tree.call, Tree.uncons?, if_neg hexpands]
    rfl

/-- Whether or not forms of declarations come with it, it is the binding form that is converted. -/
theorem walk_withDeclared (walk : Walk) (name params : Tree) (definition : List Tree) :
    (match Definition.withDeclared name definition (Definition.boundForm name params definition) with
      | .list (first :: binding :: declared) =>
          if first.isSym "prog1" then do return Tree.call "prog1" ((← walk binding) :: declared)
          else walk (Definition.withDeclared name definition
            (Definition.boundForm name params definition))
      | expansion => walk expansion) =
    walk (Definition.boundForm name params definition) >>= fun bound =>
      return Definition.withDeclared name definition bound := by
  unfold Definition.withDeclared
  dsimp only
  by_cases hdeclared :
      (Definition.declarationForms name (Definition.splitDeclarations definition).1).isEmpty = true
  · simp only [if_pos hdeclared, bind_pure]
    rfl
  · simp only [if_neg hdeclared]
    rfl

/-- A macro definition is converted by converting the form that binds the name. -/
theorem convertMacro_eq (walk : Walk) (head name : Text) (params : Tree) (definition : List Tree) :
    convertMacro walk head (.sym name :: params :: definition) =
      prepareMacro head name params definition >>= fun name =>
        walk (Definition.boundForm (.sym name) params definition) >>= fun bound =>
          return Definition.withDeclared (.sym name) definition bound := by
  unfold convertMacro prepareMacro
  simp only [expandDefinition_bind, bind_assoc, pure_bind]
  -- both sides take the name in by the same five steps
  iterate 5 refine bind_congr fun _ => ?_
  exact walk_withDeclared walk _ params definition

/-- What has no name or no parameters is left as it is. -/
theorem convertMacro_shapeless (walk : Walk) (head : Text) {tail : List Tree}
    (h : ¬∃ name params definition, tail = .sym name :: params :: definition) :
    convertMacro walk head tail = pure (Tree.call head tail) := by
  unfold convertMacro
  split
  · exact absurd ⟨_, _, _, rfl⟩ h
  · rfl

end Forms

end LispNamespace
