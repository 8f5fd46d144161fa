import LispNamespace.Tree.Basic

/-!
# Parts of trees

The trees inside a tree are reached by positions. A test can be made of a tree and of all trees
inside it, and a tree is a renaming of another one when the two have the same shape and differ in
symbols at most.
-/

namespace LispNamespace.Tree

/-! ## Positions -/

/-- The trees directly inside a tree, from left to right. -/
def children : Tree → List Tree
  | .list items | .vec items => items
  | .dot items tail => items ++ [tail]
  | _ => []

/-- The tree at a position, given by the numbers of the children that lead to it. -/
def at? (t : Tree) : List Nat → Option Tree
  | [] => some t
  | i :: path => t.children[i]?.bind (·.at? path)

/-- A position inside a child is one inside the tree. -/
theorem at?_of_child {t child part : Tree} {i : Nat} {position : List Nat}
    (h : t.children[i]? = some child) (hpart : child.at? position = some part) :
    t.at? (i :: position) = some part := by
  show t.children[i]?.bind (·.at? position) = some part
  rw [h]
  exact hpart

theorem at?_ofList (items : List Tree) (i : Nat) (position : List Nat) :
    (ofList items).at? (i :: position) = items[i]?.bind (·.at? position) := by
  cases items <;> rfl

theorem children_of_properList? {t : Tree} {items : List Tree} (h : t.properList? = some items) :
    ∀ item ∈ items, item ∈ t.children := by
  intro item hitem
  unfold properList? at h
  split at h
  · cases h
    cases hitem
  · cases h
    cases hitem
  · cases h
    exact hitem
  · cases h

/-- Only a list or a vector has a tail after a head. -/
theorem eq_of_tailOf? {t : Tree} {name : Text} {parts : List Tree}
    (h : t.tailOf? name = some parts) :
    t = .list (.sym name :: parts) ∨ t = .vec (.sym name :: parts) := by
  have hhead : ∀ first : Tree, first.isSym name = true → first = .sym name := by
    intro first hfirst
    unfold isSym at hfirst
    split at hfirst
    · rw [eq_of_beq hfirst]
    · cases hfirst
  unfold tailOf? uncons? at h
  split at h
  · next first rest huncons =>
    split at h
    · next hfirst =>
      cases h
      rw [hhead first hfirst] at huncons
      split at huncons
      · cases huncons
        exact .inl rfl
      · cases huncons
        exact .inr rfl
      · cases huncons
    · cases h
  · cases h

theorem children_of_tailOf? {t : Tree} {name : Text} {parts : List Tree}
    (h : t.tailOf? name = some parts) : ∀ part ∈ parts, part ∈ t.children := by
  intro part hpart
  rcases eq_of_tailOf? h with rfl | rfl
  · exact List.mem_cons_of_mem _ hpart
  · exact List.mem_cons_of_mem _ hpart

/-! ## Kinds of trees -/

/-- Whether the root of the tree is one that the reader makes: lists have elements, dotted lists
have items before the dot, and neither missing values nor truth values occur. -/
def isReaderNode : Tree → Bool
  | .absent | .bool _ | .list [] | .dot [] _ => false
  | _ => true

/-- Whether the tree is a list that begins with a symbol of one of the given names. -/
def isListHeadedBy (t : Tree) (names : List Text) : Bool :=
  match t with
  | .list (.sym name :: _) => names.contains name
  | _ => false

/-- Whether the tree is a vector that begins with a symbol of one of the given names. -/
def isVectorHeadedBy (t : Tree) (names : List Text) : Bool :=
  match t with
  | .vec (.sym name :: _) => names.contains name
  | _ => false

theorem isVectorHeadedBy_mono {t : Tree} {names more : List Text} (h : names ⊆ more)
    (ht : t.isVectorHeadedBy more = false) : t.isVectorHeadedBy names = false := by
  unfold isVectorHeadedBy at ht ⊢
  split
  · refine Bool.eq_false_iff.2 fun hname => Bool.eq_false_iff.1 ht ?_
    exact List.contains_iff_mem.2 (h (List.contains_iff_mem.1 hname))
  · rfl

/-! ## Tests of all parts -/

mutual

/-- Whether a tree and all trees inside it pass a test. -/
def everywhere (test : Tree → Bool) : Tree → Bool
  | .list items => test (.list items) && everywhereIn test items
  | .vec items => test (.vec items) && everywhereIn test items
  | .dot items tail =>
      test (.dot items tail) && everywhereIn test items && everywhere test tail
  | t => test t

/-- Whether several trees and all trees inside them pass a test. -/
def everywhereIn (test : Tree → Bool) : List Tree → Bool
  | [] => true
  | t :: rest => everywhere test t && everywhereIn test rest

end

theorem everywhereIn_iff {test : Tree → Bool} {items : List Tree} :
    everywhereIn test items = true ↔ ∀ item ∈ items, item.everywhere test = true := by
  induction items with
  | nil => simp [everywhereIn]
  | cons item items ih => simp [everywhereIn, ih]

/-- What passes a test everywhere passes it at the root. -/
theorem test_of_everywhere {test : Tree → Bool} {t : Tree} (h : t.everywhere test = true) :
    test t = true := by
  unfold everywhere at h
  split at h
  · exact (Bool.and_eq_true_iff.1 h).1
  · exact (Bool.and_eq_true_iff.1 h).1
  · exact (Bool.and_eq_true_iff.1 (Bool.and_eq_true_iff.1 h).1).1
  · exact h

/-- What passes a test everywhere has children that do. -/
theorem everywhere_children {test : Tree → Bool} {t child : Tree} (h : t.everywhere test = true)
    (hchild : child ∈ t.children) : child.everywhere test = true := by
  unfold children at hchild
  split at hchild
  · unfold everywhere at h
    exact everywhereIn_iff.1 (Bool.and_eq_true_iff.1 h).2 child hchild
  · unfold everywhere at h
    exact everywhereIn_iff.1 (Bool.and_eq_true_iff.1 h).2 child hchild
  · unfold everywhere at h
    rcases Bool.and_eq_true_iff.1 h with ⟨hfront, htail⟩
    rcases List.mem_append.1 hchild with hmem | hmem
    · exact everywhereIn_iff.1 (Bool.and_eq_true_iff.1 hfront).2 child hmem
    · rwa [List.mem_singleton.1 hmem]
  · cases hchild

/-- What passes a test at the root and has children that pass it everywhere passes it everywhere. -/
theorem everywhere_of_children {test : Tree → Bool} {t : Tree} (h : test t = true)
    (hchildren : ∀ child ∈ t.children, child.everywhere test = true) :
    t.everywhere test = true := by
  unfold everywhere
  split
  · exact Bool.and_eq_true_iff.2 ⟨h, everywhereIn_iff.2 hchildren⟩
  · exact Bool.and_eq_true_iff.2 ⟨h, everywhereIn_iff.2 hchildren⟩
  · next items tail =>
    have hitems : everywhereIn test items = true :=
      everywhereIn_iff.2 fun item hitem => hchildren item (List.mem_append_left _ hitem)
    have htail : tail.everywhere test = true :=
      hchildren tail (List.mem_append_right _ (List.mem_singleton_self tail))
    exact Bool.and_eq_true_iff.2 ⟨Bool.and_eq_true_iff.2 ⟨h, hitems⟩, htail⟩
  · exact h

/-- Induction on trees: what holds of a tree whenever it holds of its children holds of all trees. -/
theorem induction_on_children {motive : Tree → Prop}
    (h : ∀ t : Tree, (∀ child ∈ t.children, motive child) → motive t) (t : Tree) : motive t := by
  refine h t fun child hchild => ?_
  -- the recursion is well-founded because children are smaller
  have hsmaller : sizeOf child < sizeOf t := by
    unfold children at hchild
    split at hchild
    · have hitem := List.sizeOf_lt_of_mem hchild
      rw [Tree.list.sizeOf_spec]
      omega
    · have hitem := List.sizeOf_lt_of_mem hchild
      rw [Tree.vec.sizeOf_spec]
      omega
    · rw [Tree.dot.sizeOf_spec]
      rcases List.mem_append.1 hchild with hmem | hmem
      · have hitem := List.sizeOf_lt_of_mem hmem
        omega
      · rw [List.mem_singleton.1 hmem]
        omega
    · cases hchild
  exact induction_on_children h child
termination_by sizeOf t

/-- A test that is weaker at the root is weaker everywhere. -/
theorem everywhere_mono {test other : Tree → Bool} (h : ∀ t, test t = true → other t = true) {t : Tree}
    (ht : t.everywhere test = true) : t.everywhere other = true := by
  induction t using induction_on_children with
  | h t ih =>
      refine everywhere_of_children (h t (test_of_everywhere ht)) fun child hchild => ?_
      exact ih child hchild (everywhere_children ht hchild)

/-! ## Parts at positions -/

/-- The second tree stands at some position inside the first one. -/
def HasPart (t part : Tree) : Prop := ∃ path, t.at? path = some part

/-- What stands inside a tree is the tree itself or stands inside one of its children. -/
theorem hasPart_iff {t part : Tree} :
    t.HasPart part ↔ part = t ∨ ∃ child ∈ t.children, child.HasPart part := by
  constructor
  · rintro ⟨path, hpath⟩
    cases path with
    | nil => exact .inl (Option.some.inj hpath).symm
    | cons i path =>
        rcases Option.bind_eq_some_iff.1 hpath with ⟨child, hchild, hinner⟩
        exact .inr ⟨child, List.mem_of_getElem? hchild, path, hinner⟩
  · rintro (rfl | ⟨child, hchild, path, hpath⟩)
    · exact ⟨[], rfl⟩
    · rcases List.getElem?_of_mem hchild with ⟨i, hi⟩
      refine ⟨i :: path, ?_⟩
      exact Option.bind_eq_some_iff.2 ⟨child, hi, hpath⟩

theorem hasPart_self (t : Tree) : t.HasPart t := ⟨[], rfl⟩

theorem HasPart.of_child {t child part : Tree} (hchild : child ∈ t.children)
    (h : child.HasPart part) : t.HasPart part :=
  hasPart_iff.2 (.inr ⟨child, hchild, h⟩)

/-- The parts of a part are parts of the tree. -/
theorem HasPart.trans {t part inner : Tree} (h : t.HasPart part) (hinner : part.HasPart inner) :
    t.HasPart inner := by
  rcases h with ⟨path, hpath⟩
  induction path generalizing t with
  | nil =>
      cases hpath
      exact hinner
  | cons i path ih =>
      rcases Option.bind_eq_some_iff.1 hpath with ⟨child, hchild, hrest⟩
      exact .of_child (List.mem_of_getElem? hchild) (ih hrest)

/-- A property of a tree and of everything that stands inside it. -/
def AllParts (P : Tree → Prop) (t : Tree) : Prop := ∀ part, t.HasPart part → P part

/-- What passes a test everywhere has only parts that pass it. -/
theorem allParts_of_everywhere {test : Tree → Bool} {t : Tree} (h : t.everywhere test = true) :
    t.AllParts fun part => test part = true := by
  rintro part ⟨path, hpath⟩
  induction path generalizing t with
  | nil =>
      cases hpath
      exact test_of_everywhere h
  | cons i path ih =>
      rcases Option.bind_eq_some_iff.1 hpath with ⟨child, hchild, hinner⟩
      exact ih (everywhere_children h (List.mem_of_getElem? hchild)) hinner

theorem AllParts.self {P : Tree → Prop} {t : Tree} (h : t.AllParts P) : P t := h t (hasPart_self t)

theorem AllParts.child {P : Tree → Prop} {t child : Tree} (h : t.AllParts P)
    (hchild : child ∈ t.children) : child.AllParts P :=
  fun part hpart => h part (hpart.of_child hchild)

/-- What holds of a tree and of all parts of its children holds of all parts. -/
theorem allParts_of_children {P : Tree → Prop} {t : Tree} (h : P t)
    (hchildren : ∀ child ∈ t.children, child.AllParts P) : t.AllParts P := by
  intro part hpart
  rcases hasPart_iff.1 hpart with rfl | ⟨child, hchild, hinner⟩
  · exact h
  · exact hchildren child hchild part hinner

/-! ## Renamings -/

/-- Whether the tree has no parts and is no symbol. -/
def isConstant : Tree → Bool
  | .sym _ | .list _ | .vec _ | .dot _ _ => false
  | _ => true

mutual

/-- The second tree has the shape of the first one, with every symbol replaced by a related one and
everything else kept. -/
inductive Renamed (R : Text → Text → Prop) : Tree → Tree → Prop where
  | sym {name name' : Text} (h : R name name') : Renamed R (.sym name) (.sym name')
  | constant {t : Tree} (h : t.isConstant = true) : Renamed R t t
  | list {items items' : List Tree} (h : RenamedAll R items items') :
      Renamed R (.list items) (.list items')
  | vec {items items' : List Tree} (h : RenamedAll R items items') :
      Renamed R (.vec items) (.vec items')
  | dot {items items' : List Tree} {tail tail' : Tree} (h : RenamedAll R items items')
      (htail : Renamed R tail tail') : Renamed R (.dot items tail) (.dot items' tail')

/-- As many trees, and each one is a renaming of the one at its place. -/
inductive RenamedAll (R : Text → Text → Prop) : List Tree → List Tree → Prop where
  | nil : RenamedAll R [] []
  | cons {t t' : Tree} {rest rest' : List Tree} (first : Renamed R t t')
      (others : RenamedAll R rest rest') : RenamedAll R (t :: rest) (t' :: rest')

end

section Renamings

variable {R : Text → Text → Prop}

mutual

/-- A tree is a renaming of itself when every symbol may stay. -/
theorem Renamed.same (hR : ∀ name, R name name) : ∀ t, Renamed R t t
  | .sym name => .sym (hR name)
  | .list items => .list (RenamedAll.same hR items)
  | .vec items => .vec (RenamedAll.same hR items)
  | .dot items tail => .dot (RenamedAll.same hR items) (Renamed.same hR tail)
  | .nil | .absent | .bool _ | .lit _ _ | .str _ | .char _ _ | .int _ | .float _ => .constant rfl

theorem RenamedAll.same (hR : ∀ name, R name name) : ∀ items, RenamedAll R items items
  | [] => .nil
  | t :: rest => .cons (Renamed.same hR t) (RenamedAll.same hR rest)

end

mutual

theorem Renamed.mono {R' : Text → Text → Prop} (hR : ∀ name name', R name name' → R' name name')
    {t t' : Tree} (h : Renamed R t t') : Renamed R' t t' := by
  cases h with
  | sym h => exact .sym (hR _ _ h)
  | constant h => exact .constant h
  | list h => exact .list (RenamedAll.mono hR h)
  | vec h => exact .vec (RenamedAll.mono hR h)
  | dot h htail => exact .dot (RenamedAll.mono hR h) (Renamed.mono hR htail)

theorem RenamedAll.mono {R' : Text → Text → Prop}
    (hR : ∀ name name', R name name' → R' name name') {items items' : List Tree}
    (h : RenamedAll R items items') : RenamedAll R' items items' := by
  cases h with
  | nil => exact .nil
  | cons first others => exact .cons (Renamed.mono hR first) (RenamedAll.mono hR others)

end

theorem RenamedAll.append {items items' others others' : List Tree}
    (h : RenamedAll R items items') (h' : RenamedAll R others others') :
    RenamedAll R (items ++ others) (items' ++ others') := by
  induction items generalizing items' with
  | nil =>
      cases h
      exact h'
  | cons item items ih =>
      cases h with
      | cons first rest => exact .cons first (ih rest)

theorem RenamedAll.getElem? {items items' : List Tree} (h : RenamedAll R items items') {i : Nat}
    {t : Tree} (ht : items[i]? = some t) : ∃ t', items'[i]? = some t' ∧ Renamed R t t' := by
  induction items generalizing items' i with
  | nil => cases ht
  | cons item items ih =>
      cases h with
      | @cons _ item' _ rest' first others =>
          cases i with
          | zero =>
              cases ht
              exact ⟨item', rfl, first⟩
          | succ i => exact ih others ht

theorem Renamed.children {t t' : Tree} (h : Renamed R t t') :
    RenamedAll R t.children t'.children := by
  cases h with
  | sym h => exact .nil
  | constant h =>
      have hnone : t.children = [] := by
        cases t <;> first | rfl | cases h
      rw [hnone]
      exact .nil
  | list h => exact h
  | vec h => exact h
  | dot h htail => exact h.append (.cons htail .nil)

/-- In a renaming, every position of the tree holds a renaming of what it held. -/
theorem Renamed.at? {t t' : Tree} (h : Renamed R t t') {path : List Nat} {part : Tree}
    (hpart : t.at? path = some part) : ∃ part', t'.at? path = some part' ∧ Renamed R part part' := by
  induction path generalizing t t' with
  | nil =>
      cases hpart
      exact ⟨t', rfl, h⟩
  | cons i path ih =>
      rcases Option.bind_eq_some_iff.1 hpart with ⟨child, hchild, hinner⟩
      rcases h.children.getElem? hchild with ⟨child', hchild', hrenamed⟩
      rcases ih hrenamed hinner with ⟨part', hpart', hresult⟩
      refine ⟨part', ?_, hresult⟩
      exact Option.bind_eq_some_iff.2 ⟨child', hchild', hpart'⟩

end Renamings

end LispNamespace.Tree
