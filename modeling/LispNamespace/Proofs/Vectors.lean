import LispNamespace.Expander
import LispNamespace.Proofs.Comparison.Convert
import LispNamespace.Proofs.Nesting

/-!
# Vectors are data

A vector evaluates to itself, so a conversion leaves it where it stands, with all that is in it.
There are three exceptions, and a fourth one in texts. A function is recognized by its first
element, and so is the interactive specification of a body and the quoted name of an alias; a vector
that begins with the symbol in question is taken for the list. In a text, a vector that begins like
a namespace form is expanded as one.

The statement is about every position. A vector stands there again as it is, or it is one of those
three and a list with the same first element stands there.
-/

namespace LispNamespace

namespace Tree

/-! ## Vectors at their positions -/

/-- Whether the tree is a vector that some rule takes for the list of its elements. -/
def takenForList (t : Tree) : Bool := t.isVectorHeadedBy ["lambda", "interactive", "quote"]

/-- Every vector of the first tree stands at the same position of the second one, except that those
which some rule takes for a list may stand there as a list with the same first element. -/
def KeepsVectors (t t' : Tree) : Prop :=
  ∀ path items, t.at? path = some (.vec items) →
    t'.at? path = some (.vec items) ∨
      ((vec items).takenForList = true ∧
        ∃ items', t'.at? path = some (.list items') ∧ items'.head? = items.head?)

/-- As many trees, and each one keeps its vectors. -/
inductive KeepsAllVectors : List Tree → List Tree → Prop where
  | nil : KeepsAllVectors [] []
  | cons {t t' : Tree} {rest rest' : List Tree} (first : t.KeepsVectors t')
      (others : KeepsAllVectors rest rest') : KeepsAllVectors (t :: rest) (t' :: rest')

theorem keepsVectors_self (t : Tree) : t.KeepsVectors t := fun _ _ h => .inl h

theorem KeepsAllVectors.getElem? {items items' : List Tree} (h : KeepsAllVectors items items')
    {i : Nat} {t : Tree} (ht : items[i]? = some t) :
    ∃ t', items'[i]? = some t' ∧ t.KeepsVectors t' := by
  induction h generalizing i with
  | nil => cases ht
  | cons first others ih =>
      cases i with
      | zero =>
          cases ht
          exact ⟨_, rfl, first⟩
      | succ i => exact ih ht

theorem KeepsAllVectors.append {items items' others others' : List Tree}
    (h : KeepsAllVectors items items') (h' : KeepsAllVectors others others') :
    KeepsAllVectors (items ++ others) (items' ++ others') := by
  induction h with
  | nil => exact h'
  | cons first _ ih => exact .cons first ih

/-- A tree that keeps the vectors in its children keeps its vectors, if it is none itself or is one
that may become a list. -/
theorem keepsVectors_of_children {t t' : Tree}
    (hroot : ∀ items, t = .vec items → t.takenForList = true ∧
      ∃ items', t' = .list items' ∧ items'.head? = items.head?)
    (h : KeepsAllVectors t.children t'.children) : t.KeepsVectors t' := by
  intro path items hpath
  cases path with
  | nil =>
      rcases hroot items (Option.some.inj hpath) with ⟨htaken, items', rfl, hhead⟩
      exact .inr ⟨Option.some.inj hpath ▸ htaken, items', rfl, hhead⟩
  | cons i path =>
      rcases Option.bind_eq_some_iff.1 hpath with ⟨child, hchild, hinner⟩
      rcases h.getElem? hchild with ⟨child', hchild', hkept⟩
      rcases hkept path items hinner with hsame | ⟨htaken, items', hlist, hhead⟩
      · exact .inl (at?_of_child hchild' hsame)
      · exact .inr ⟨htaken, items', at?_of_child hchild' hlist, hhead⟩

theorem keepsVectors_list {items items' : List Tree} (h : KeepsAllVectors items items') :
    (list items).KeepsVectors (.list items') :=
  keepsVectors_of_children (fun _ heq => nomatch heq) h

/-- A symbol has no vectors in it. -/
theorem keepsVectors_sym (name : Text) (t : Tree) : (sym name).KeepsVectors t := by
  intro path items hpath
  cases path with
  | nil => cases hpath
  | cons i path => cases hpath

/-- What is taken apart after its head symbol keeps its vectors when the elements do, and comes out
as a list. -/
theorem keepsVectors_tailOf? {t : Tree} {name : Text} {parts parts' : List Tree}
    (hname : name ∈ (["lambda", "interactive", "quote"] : List Text))
    (hparts : t.tailOf? name = some parts) (h : KeepsAllVectors parts parts') :
    t.KeepsVectors (.call name parts') := by
  have hall : KeepsAllVectors (.sym name :: parts) (.sym name :: parts') :=
    .cons (keepsVectors_self _) h
  rcases eq_of_tailOf? hparts with rfl | rfl
  · exact keepsVectors_list hall
  · refine keepsVectors_of_children ?_ hall
    intro items heq
    cases heq
    exact ⟨List.contains_iff_mem.2 hname, _, rfl, rfl⟩

/-- Whether the root of the tree is one that the reader makes and no macro definition. -/
def isReadWithoutMacros (t : Tree) : Bool := t.isReaderNode && t.definesNoMacro

end Tree

/-! ## The comparison of a run with itself -/

namespace Comparison

open LispNamespace.Tree

/-- A run is compared with itself, but for what is reported, and every form keeps its vectors. -/
def ofVectors : Comparison where
  Related s t := ∃ journal, t = { s with journal := journal }
  Counts _ := True
  Form form := form.everywhere isReadWithoutMacros = true
  Result form a b := b = a ∧ form.KeepsVectors a
  Names ns ms := ms = ns

/-- Both runs give the same results, each of which keeps the vectors of its form. -/
theorem keepsAllVectors_of_pointwise {items ys zs : List Tree}
    (h : Pointwise ofVectors.Result items ys zs) : zs = ys ∧ KeepsAllVectors items ys := by
  induction h with
  | nil => exact ⟨rfl, .nil⟩
  | cons first _ ih =>
      rcases first with ⟨rfl, hfirst⟩
      rcases ih with ⟨rfl, hrest⟩
      exact ⟨rfl, .cons hfirst hrest⟩

theorem isReaderNode_of_form {t : Tree} (h : ofVectors.Form t) : t.isReaderNode = true :=
  (Bool.and_eq_true_iff.1 (test_of_everywhere h)).1

/-- Each rule puts what it converts in the place of the form, and leaves alone what it does not. -/
theorem lawful_ofVectors : ofVectors.Lawful where
  context := by
    rintro s _ ⟨_, rfl⟩
    rfl
  journal := by
    rintro s _ j k ⟨_, rfl⟩
    exact ⟨k, rfl⟩
  pushFrame := by
    rintro s _ ns _ ⟨k, rfl⟩ rfl
    exact ⟨k, rfl⟩
  popFrame := by
    rintro s _ s' _ ns ms - - - ⟨k, rfl⟩
    exact ⟨k, rfl⟩
  growFrame := by
    rintro s _ _ ns ⟨k, rfl⟩ rfl
    refine ⟨k, ?_⟩
    unfold Session.growFrame
    cases hframes : s.frames <;> simp only [hframes]
  counts _ _ := trivial
  counts_frames _ _ := trivial
  names_same _ := rfl
  names_append := by
    rintro ns _ ns' _ rfl rfl
    rfl
  names_result := by
    rintro t a _ ⟨rfl, -⟩
    rfl
  form_children := everywhere_children
  approach := by
    rintro s _ name _ - ⟨_, rfl⟩ -
    rfl
  macroTreatment := by
    rintro s _ name ⟨_, rfl⟩
    rfl
  classify := by
    rintro s _ spec args ⟨_, rfl⟩ -
    rfl
  result_same t := ⟨rfl, keepsVectors_self t⟩
  result_list h := by
    rcases keepsAllVectors_of_pointwise h with ⟨rfl, hall⟩
    exact ⟨rfl, keepsVectors_list hall⟩
  result_ofList := by
    intro t items ys zs ht hitems h
    rcases keepsAllVectors_of_pointwise h with ⟨rfl, hall⟩
    have hnode := isReaderNode_of_form ht
    refine ⟨rfl, ?_⟩
    -- a list that reads as nil stays nil, and no other list comes out empty
    unfold properList? at hitems
    split at hitems
    · cases hitems
      cases hall
      exact keepsVectors_self _
    · cases hnode
    · cases hitems
      cases hall with
      | nil => cases hnode
      | cons first others => exact keepsVectors_list (.cons first others)
    · cases hitems
  result_call := by
    intro t name parts ys zs _ hname hparts h
    rcases keepsAllVectors_of_pointwise h with ⟨rfl, hall⟩
    refine ⟨rfl, keepsVectors_tailOf? ?_ hparts hall⟩
    rcases hname with rfl | rfl
    · exact List.mem_cons_self
    · exact List.mem_cons_of_mem _ List.mem_cons_self
  result_dot h := by
    rcases keepsAllVectors_of_pointwise h with ⟨rfl, hall⟩
    refine ⟨rfl, keepsVectors_of_children (fun _ heq => nomatch heq) ?_⟩
    exact hall.append (.cons (keepsVectors_self _) .nil)
  result_dotAbsent h := by
    -- no tree of the reader lacks its tail
    have htail := everywhere_children h (List.mem_append_right _ (List.mem_singleton.2 rfl))
    cases isReaderNode_of_form htail
  result_variable := by
    rintro s _ name ⟨_, rfl⟩ -
    exact ⟨rfl, keepsVectors_sym name _⟩
  result_function := by
    rintro s _ name ⟨_, rfl⟩ -
    exact ⟨rfl, keepsVectors_sym name _⟩

/-- A definition changes its name only, which is a symbol. -/
theorem defining_ofVectors : ofVectors.Defining where
  nameIsFinal := by
    rintro s _ ⟨_, rfl⟩
    rfl
  clear := by
    rintro s _ ⟨k, rfl⟩
    exact ⟨k, rfl⟩
  learn := by
    rintro s _ addition ⟨k, rfl⟩ -
    exact ⟨k, rfl⟩
  result_defined := by
    rintro s _ name ⟨_, rfl⟩ - - -
    exact ⟨rfl, keepsVectors_sym name _⟩
  result_quote := by
    rintro t x y _ - hquoted ⟨rfl, hkept⟩
    refine ⟨rfl, ?_⟩
    unfold Tree.quoted? at hquoted
    split at hquoted
    · next hparts =>
      cases hquoted
      exact keepsVectors_tailOf? (by simp) hparts (.cons hkept .nil)
    · cases hquoted

/-- No macro is defined in the forms that are compared, so nothing is expanded. -/
theorem admits_ofVectors : ofVectors.AdmitsForms :=
  admitsForms_of_noMacros defining_ofVectors fun _ h =>
    (Bool.and_eq_true_iff.1 (test_of_everywhere h)).2

end Comparison

/-! ## Main result -/

/-- Conversion leaves vectors alone. In every session, a form in which no macro is defined comes
back with each of its vectors unchanged at the position where it stood, whatever stands around it;
only a vector that begins with `lambda`, `interactive` or `quote` may have become a list there. No
vector is one of them where it is itself the form that is converted: it is returned as it is. So is
a vector at the top of a text, unless it begins like a namespace form. -/
theorem convert_keeps_vectors (form : Tree) :
    (form.everywhere Tree.isReadWithoutMacros = true → ∀ {s s' : Session} {result : Tree},
      (convert form).runFrom s = (.ok result, s') → form.KeepsVectors result) ∧
    ∀ items : List Tree, form = .vec items → convert form = pure form ∧
      (form.isVectorHeadedBy ["define-namespace"] = false →
        ∀ x : Expander, x.expand form = pure form) := by
  constructor
  · intro hform s s' result hrun
    have hrelated : Comparison.ofVectors.Related s s := ⟨s.journal, rfl⟩
    rcases Comparison.follows_convert Comparison.lawful_ofVectors Comparison.admits_ofVectors form
      hform s s hrelated trivial result s' hrun trivial with ⟨_, _, -, ⟨-, hkept⟩, -⟩
    exact hkept
  · rintro items rfl
    have hself : convert (.vec items) = pure (.vec items) := by
      rw [convert_eq]
      rfl
    refine ⟨hself, fun hhead x => ?_⟩
    have hnone : (Tree.vec items).tailOf? "define-namespace" = none := by
      refine Option.eq_none_iff_forall_ne_some.2 fun args hargs => ?_
      rcases Tree.eq_of_tailOf? hargs with heq | heq
      · cases heq
      · rw [heq] at hhead
        cases hhead
    rw [Expander.expand, hnone]

/-- Vectors in the places of a name, of parameters and of a body, and at the top of a text. -/
theorem convert_keeps_vectors_definition :
    ∃ result s',
      (convert (.call "defun"
        [.vec [.sym "f"], .vec [.sym "x"], .vec [.sym "f", .sym "x"]])).runFrom (.unset "p-") =
          (.ok result, s') ∧
      (Tree.call "defun" [.vec [.sym "f"], .vec [.sym "x"],
        .vec [.sym "f", .sym "x"]]).KeepsVectors result ∧
      ({} : Expander).expand (.vec [.sym "f"]) = pure (.vec [.sym "f"]) := by
  have hrun : (convert (.call "defun"
        [.vec [.sym "f"], .vec [.sym "x"], .vec [.sym "f", .sym "x"]])).runFrom (.unset "p-") =
      (.ok (.call "defun" [.vec [.sym "f"], .vec [.sym "x"], .vec [.sym "f", .sym "x"]]),
        ((convert (.call "defun"
          [.vec [.sym "f"], .vec [.sym "x"], .vec [.sym "f", .sym "x"]])).runFrom
            (.unset "p-")).2) := rfl
  exact ⟨_, _, hrun, (convert_keeps_vectors _).1 (by decide) hrun,
    ((convert_keeps_vectors _).2 [.sym "f"] rfl).2 (by decide) {}⟩

/-- The four vectors that are taken for lists: at the head of a call, in front of a body, as the
name of an alias, and at the top of a text. -/
theorem convert_opens_vectors :
    (∃ t, (convert (.list [.vec [.sym "lambda", .nil, .int 1], .int 2])).runFrom (.unset "p-") =
        (.ok (.list [.list [.sym "lambda", .nil, .int 1], .int 2]), t)) ∧
      (∃ t, (convert (.call "defun"
          [.sym "f", .nil, .vec [.sym "interactive", .sym "x"]])).runFrom (.unset "p-") =
        (.ok (.call "defun" [.sym "p-f", .nil, .list [.sym "interactive", .sym "x"]]), t)) ∧
      (∃ t, (convert (.call "defalias" [.vec [.sym "quote", .sym "g"], .sym "h"])).runFrom
          (.unset "p-") =
        (.ok (.call "defalias" [.list [.sym "quote", .sym "p-g"], .sym "h"]), t)) ∧
      ∃ w, (({} : Expander).expand (.vec [.sym "define-namespace", .sym "p-"])).runFrom
          ⟨.empty, none, []⟩ = (.ok (.list [.sym "progn"]), w) :=
  ⟨⟨_, rfl⟩, ⟨_, rfl⟩, ⟨_, rfl⟩, ⟨_, rfl⟩⟩

end LispNamespace
