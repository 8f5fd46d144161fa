import LispNamespace.Proofs.DefinedNames
import LispNamespace.Proofs.MacroExpansion

/-!
# Weights

A form that is converted inside another one weighs less, also where a macro definition is expanded.
-/

namespace LispNamespace

theorem weight_le_weights {form : Tree} {forms : List Tree} (h : form ∈ forms) :
    weight form ≤ weights forms := by
  induction forms with
  | nil => cases h
  | cons first rest ih =>
      rw [weights]
      rcases List.mem_cons.1 h with rfl | hrest
      · omega
      · have hle := ih hrest
        omega

theorem weights_append (forms others : List Tree) :
    weights (forms ++ others) = weights forms + weights others := by
  induction forms with
  | nil => rw [List.nil_append, weights, Nat.zero_add]
  | cons form rest ih => rw [List.cons_append, weights, weights, ih, Nat.add_assoc]

theorem weights_filter_le (test : Tree → Bool) (forms : List Tree) :
    weights (forms.filter test) ≤ weights forms := by
  induction forms with
  | nil => exact Nat.le_refl _
  | cons form rest ih =>
      rw [List.filter_cons, weights]
      split
      · rw [weights]
        omega
      · omega

/-- A part weighs less than the whole. -/
theorem weight_lt_of_mem_children {t child : Tree} (h : child ∈ t.children) :
    weight child < weight t := by
  cases t with
  | list items =>
      have hle : weight child ≤ weights items := weight_le_weights h
      rw [weight.eq_1]
      omega
  | vec items =>
      have hle : weight child ≤ weights items := weight_le_weights h
      rw [weight.eq_2]
      omega
  | dot items tail =>
      rw [weight.eq_3]
      rcases List.mem_append.1 h with hitem | htail
      · have hle := weight_le_weights hitem
        omega
      · rw [List.mem_singleton.1 htail]
        omega
  | _ => cases h

/-- A list that begins with a symbol weighs two more than what follows the symbol, unless it defines a
macro. -/
theorem weight_call {head : Text} {items : List Tree}
    (h : FormRule.ofHead? head ≠ some .macroDefinition) :
    weight (Tree.call head items) = weights items + 2 := by
  have hhead : headWeight (.sym head :: items) = 0 := if_neg fun heq => h (eq_of_beq heq)
  have hsymbol : weight (.sym head) = 1 := rfl
  unfold Tree.call
  rw [weight.eq_1, weights, hhead, hsymbol]
  omega

/-- A macro definition weighs more than the expander of the macro, with room for the form around
it. -/
theorem weight_expander {head name : Text} {params : Tree} {definition : List Tree}
    (h : FormRule.ofHead? head = some .macroDefinition) :
    weight (Definition.expander params definition) + 6 ≤
      weight (Tree.call head (.sym name :: params :: definition)) := by
  -- of the definition, the expander holds some forms only
  have hbody : weights ((Definition.splitDeclarations definition).1.filter Tree.isText ++
      (Definition.splitDeclarations definition).2) ≤ weights definition := by
    have hsplit := congrArg weights (Definition.splitDeclarations_append definition)
    have hkept := weights_filter_le Tree.isText (Definition.splitDeclarations definition).1
    rw [weights_append] at hsplit ⊢
    omega
  have hmacro : weight (Tree.call head (.sym name :: params :: definition)) =
      weight params + weights definition + 15 := by
    have hhead : headWeight (.sym head :: .sym name :: params :: definition) = 12 :=
      if_pos (beq_iff_eq.2 h)
    have hsymbol : ∀ symbol, weight (.sym symbol) = 1 := fun _ => rfl
    unfold Tree.call
    rw [weight.eq_1, weights, weights, weights, hhead, hsymbol, hsymbol]
    omega
  have hexpander : weight (Definition.expander params definition) =
      weight params + weights ((Definition.splitDeclarations definition).1.filter Tree.isText ++
        (Definition.splitDeclarations definition).2) + 9 := by
    have hquote : weight (Tree.quote (.sym "macro")) = 3 := by decide
    have hone : ∀ form, weights [form] = weight form := fun _ => Nat.add_zero _
    unfold Definition.expander
    rw [weight_call (by decide), weights, hone, hquote, weight_call (by decide), hone,
      weight_call (by decide), weights]
    omega
  omega

/-- A macro definition weighs more than the form that binds its name. -/
theorem weight_boundForm {head name final : Text} {params : Tree} {definition : List Tree}
    (h : FormRule.ofHead? head = some .macroDefinition) :
    weight (Definition.boundForm (.sym final) params definition) <
      weight (Tree.call head (.sym name :: params :: definition)) := by
  have hexpander : weight (Definition.expander params definition) + 6 ≤
      weight (Tree.call head (.sym name :: params :: definition)) := weight_expander h
  have hbound : weight (Definition.boundForm (.sym final) params definition) =
      weight (Definition.expander params definition) + 5 := by
    have hcall : Tree.quote (.sym final) = Tree.call "quote" [.sym final] := rfl
    have hquote : weight (Tree.quote (.sym final)) = 3 := by
      rw [hcall, weight_call (by decide)]
      rfl
    rw [Definition.boundForm_eq, weight_call (by decide), weights, weights, weights, hquote]
    omega
  omega

end LispNamespace
