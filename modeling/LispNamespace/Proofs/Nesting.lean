import LispNamespace.Proofs.Approach
import LispNamespace.Proofs.Weights

/-!
# Enough steps

The conversion of a form is given as many steps as the form weighs. More would make no difference:
the forms that are walked in turn weigh less, also where a macro definition is expanded. So the
conversion of a form is one step of conversion whose walk is the conversion itself.
-/

namespace LispNamespace

open Rewrite

/-- A macro definition is converted alike by two walks that agree on the form that binds the name. -/
theorem Forms.convertMacro_congr {walk other : Walk} {head : Text} {tail : List Tree}
    (h : ∀ name params definition final, tail = .sym name :: params :: definition →
      walk (Definition.boundForm (.sym final) params definition) =
        other (Definition.boundForm (.sym final) params definition)) :
    convertMacro walk head tail = convertMacro other head tail := by
  by_cases hshape : ∃ name params definition, tail = .sym name :: params :: definition
  · rcases hshape with ⟨name, params, definition, rfl⟩
    rw [convertMacro_eq, convertMacro_eq]
    refine bind_congr fun final => ?_
    rw [h name params definition final rfl]
  · rw [convertMacro_shapeless walk head hshape, convertMacro_shapeless other head hshape]

/-- Walks that agree on all lighter forms do the same with a form. -/
theorem convertNode_congr {walk other : Walk} {form : Tree}
    (h : ∀ inner, weight inner < weight form → walk inner = other inner) :
    convertNode walk form = convertNode other form := by
  -- to walk the parts of the form it is enough to walk the forms lighter than it
  have hagree : Walk.AgreeOn (weight · < weight form) walk other :=
    ⟨fun ht hchild => Nat.lt_trans (weight_lt_of_mem_children hchild) ht, fun hinner => h _ hinner⟩
  unfold convertNode
  split
  · rfl
  · next head tail =>
    have hitems : ∀ t ∈ head :: tail, weight t < weight (.list (head :: tail)) :=
      fun t ht => weight_lt_of_mem_children ht
    by_cases hhead : ∃ name, head = .sym name
    · rcases hhead with ⟨name, rfl⟩
      refine Rewrite.ext fun s => ?_
      by_cases hkind : s.approach name = .rule .macroDefinition
      -- a macro definition is the one form whose walk leaves its parts
      · have hmacro := Session.ofHead?_of_approach hkind
        have hconvert : Forms.convertMacro walk name tail = Forms.convertMacro other name tail := by
          refine Forms.convertMacro_congr ?_
          rintro macroName params definition final rfl
          exact h _ (weight_boundForm hmacro)
        rw [runFrom_convertHeaded, runFrom_convertHeaded, hkind]
        dsimp only [FormRule.convert]
        rw [hconvert]
      · exact hagree.runFrom_convertHeaded (List.forall_mem_cons.1 hitems).2 hkind
    · exact hagree.convertCompound (fun name heq => hhead ⟨name, heq⟩) hitems
  · rfl

/-- With as many steps as the form weighs, no more would make a difference. -/
theorem convertWithin_eq_convert {steps : Nat} {form : Tree} (h : weight form ≤ steps) :
    convertWithin steps form = convert form := by
  have hsame : ∀ n m form, weight form ≤ n → weight form ≤ m →
      convertWithin n form = convertWithin m form := by
    intro n
    induction n with
    | zero => exact fun m form hn _ => absurd (weight_pos form) (by omega)
    | succ n ih =>
        intro m form hn hm
        cases m with
        | zero => exact absurd (weight_pos form) (by omega)
        | succ m => exact convertNode_congr fun inner hinner => ih m inner (by omega) (by omega)
  exact hsame steps (weight form) form h (Nat.le_refl _)

/-- The conversion of a form is one step, in which the forms inside it are converted. -/
theorem convert_eq (form : Tree) : convert form = convertNode convert form := by
  have hstep : convert form = convertWithin (weight form + 1) form :=
    (convertWithin_eq_convert (Nat.le_succ _)).symm
  rw [hstep]
  refine convertNode_congr fun inner hinner => ?_
  exact convertWithin_eq_convert (Nat.le_of_lt hinner)

end LispNamespace
