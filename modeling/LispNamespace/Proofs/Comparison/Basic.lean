import LispNamespace.Proofs.Approach
import LispNamespace.Proofs.MacroRecords

/-!
# Comparing two runs

Two runs of the same rules from two sessions are compared step by step. A comparison says which
sessions correspond, what a form may become in the two runs, and which names the runs may bind at
the same place. When a comparison obeys a few laws about single names and single steps, the runs
stay together through every rule: where the first one yields a result, so does the second, and the
two results are related to the form in the way the comparison says.

A property of one run is the special case in which the corresponding sessions are equal.
-/

namespace LispNamespace

open Rewrite

/-! ## Lists side by side -/

/-- Three lists are equally long, and the items at each place are related. -/
inductive Pointwise {α β γ : Type} (R : α → β → γ → Prop) : List α → List β → List γ → Prop where
  | nil : Pointwise R [] [] []
  | cons {a : α} {b : β} {c : γ} {as : List α} {bs : List β} {cs : List γ}
      (first : R a b c) (rest : Pointwise R as bs cs) : Pointwise R (a :: as) (b :: bs) (c :: cs)

namespace Pointwise

variable {α β γ : Type} {R : α → β → γ → Prop}

theorem one {a : α} {b : β} {c : γ} (h : R a b c) : Pointwise R [a] [b] [c] := .cons h .nil

theorem append {as as' : List α} {bs bs' : List β} {cs cs' : List γ} (h : Pointwise R as bs cs)
    (h' : Pointwise R as' bs' cs') : Pointwise R (as ++ as') (bs ++ bs') (cs ++ cs') := by
  induction h with
  | nil => exact h'
  | cons first _ ih => exact .cons first ih

/-- Items that are related to themselves make lists that are. -/
theorem same {R : α → α → α → Prop} (h : ∀ a, R a a a) (as : List α) : Pointwise R as as as := by
  induction as with
  | nil => exact .nil
  | cons a as ih => exact .cons (h a) ih

/-- What is related through a part of the items is related through that part. -/
theorem map {β' γ' : Type} {R' : α → β' → γ' → Prop} {f : β → β'} {g : γ → γ'}
    (hR : ∀ a b c, R a b c → R' a (f b) (g c)) {as : List α} {bs : List β} {cs : List γ}
    (h : Pointwise R as bs cs) : Pointwise R' as (bs.map f) (cs.map g) := by
  induction h with
  | nil => exact .nil
  | cons first _ ih => exact .cons (hR _ _ _ first) ih

/-- Items that are equal make lists that are. -/
theorem eq {as : List α} {bs cs : List β} (h : Pointwise (fun _ b c => c = b) as bs cs) : cs = bs := by
  induction h with
  | nil => rfl
  | cons first _ ih => rw [first, ih]

end Pointwise

/-! ## Comparisons -/

/-- How two runs are compared. -/
structure Comparison where
  /-- Sessions of the two runs that correspond. -/
  Related : Session → Session → Prop
  /-- Sessions at which the first run counts as ended. -/
  Counts : Session → Prop
  /-- The forms that are compared. -/
  Form : Tree → Prop
  /-- What a form becomes in the one and in the other run. -/
  Result : Tree → Tree → Tree → Prop
  /-- What the one and the other run bind at the same place. -/
  Names : List Text → List Text → Prop

namespace Comparison

/-- What a comparison has to obey for the rules of all forms but definitions. -/
structure Lawful (C : Comparison) : Prop where
  /-- The contexts differ at most in whether the host is asked. -/
  context : ∀ {s t}, C.Related s t → t.context =
    { s.context with options :=
      { s.context.options with globalLookup := t.context.options.globalLookup } }
  journal : ∀ {s t} (j k : Journal), C.Related s t →
    C.Related { s with journal := j } { t with journal := k }
  pushFrame : ∀ {s t ns ms}, C.Related s t → C.Names ns ms →
    C.Related (s.pushFrame ns) (t.pushFrame ms)
  popFrame : ∀ {s t s' t' ns ms}, C.Related s t → (s.pushFrame ns).GrowsTo s' →
    (t.pushFrame ms).GrowsTo t' → C.Related s' t' → C.Related s'.popFrame t'.popFrame
  growFrame : ∀ {s t ns ms}, C.Related s t → C.Names ns ms →
    C.Related (s.growFrame ns) (t.growFrame ms)
  counts : ∀ {s t}, s.GrowsTo t → C.Counts t → C.Counts s
  counts_frames : ∀ {s} (frames : List (List Text)), C.Counts s →
    C.Counts { s with frames := frames }
  names_same : ∀ ns, C.Names ns ns
  names_append : ∀ {ns ms ns' ms'}, C.Names ns ms → C.Names ns' ms' →
    C.Names (ns ++ ns') (ms ++ ms')
  names_result : ∀ {t a b}, C.Result t a b → C.Names a.symbol?.toList b.symbol?.toList
  form_children : ∀ {t child}, C.Form t → child ∈ t.children → C.Form child
  /-- The runs do the same with a form that begins with a symbol. -/
  approach : ∀ {s t name tail}, C.Form (Tree.call name tail) → C.Related s t → C.Counts s →
    s.approach name = t.approach name
  /-- The runs do the same with a form that lacks the shape its rule needs. -/
  macroTreatment : ∀ {s t} (name : Text), C.Related s t →
    s.macroTreatment name name = t.macroTreatment name name
  /-- Arguments are classified alike, unless the first run ends because grammars are names of each
  other. -/
  classify : ∀ {s t} (spec : Tree) (args : List Tree), C.Related s t →
    (∀ last, Grammar.classify s.grammars spec args ≠ .error (.endlessGrammar last)) →
    Grammar.classify t.grammars spec args = Grammar.classify s.grammars spec args
  result_same : ∀ t, C.Result t t t
  result_list : ∀ {items ys zs}, Pointwise C.Result items ys zs →
    C.Result (.list items) (.list ys) (.list zs)
  result_ofList : ∀ {t items ys zs}, C.Form t → t.properList? = some items →
    Pointwise C.Result items ys zs → C.Result t (Tree.ofList ys) (Tree.ofList zs)
  /-- A lambda expression or an interactive specification may come out of a vector. -/
  result_call : ∀ {t name parts ys zs}, C.Form t → name = "lambda" ∨ name = "interactive" →
    t.tailOf? name = some parts → Pointwise C.Result parts ys zs →
    C.Result t (Tree.call name ys) (Tree.call name zs)
  result_dot : ∀ {items tail ys zs}, Pointwise C.Result items ys zs →
    C.Result (.dot items tail) (.dot ys tail) (.dot zs tail)
  result_dotAbsent : ∀ {items ys zs}, C.Form (.dot items .absent) → Pointwise C.Result items ys zs →
    C.Result (.dot items .absent) (.list ys) (.list zs)
  result_variable : ∀ {s t} (name : Text), C.Related s t → C.Counts s →
    C.Result (.sym name) (.sym (Forms.variableReference s name))
      (.sym (Forms.variableReference t name))
  result_function : ∀ {s t} (name : Text), C.Related s t → C.Counts s →
    C.Result (.sym name) (.sym (Forms.functionReference s name))
      (.sym (Forms.functionReference t name))

/-- What a comparison has to obey for the rules of definitions, too. -/
structure Defining (C : Comparison) : Prop where
  nameIsFinal : ∀ {s t}, C.Related s t → t.nameIsFinal = s.nameIsFinal
  clear : ∀ {s t}, C.Related s t →
    C.Related { s with nameIsFinal := false } { t with nameIsFinal := false }
  learn : ∀ {s t} (addition : Addition), C.Related s t → C.Counts (s.learn addition) →
    C.Related (s.learn addition) (t.learn addition)
  /-- A name that has been taken in is qualified where it is defined. -/
  result_defined : ∀ {s t name}, C.Related s t → C.Counts s → s.isEscaped name = false →
    name ∈ s.tables.variableNames ∨ name ∈ s.tables.functionNames →
    C.Result (.sym name) (.sym (s.qualified name)) (.sym (t.qualified name))
  result_quote : ∀ {t x y z}, C.Form t → t.quoted? = some x → C.Result x y z →
    C.Result t (Tree.quote y) (Tree.quote z)

/-- What a comparison has to obey for macro definitions, too. -/
structure Expanding (C : Comparison) : Prop where
  macroName : ∀ {s t} (name : Text), C.Related s t → t.macroName name = s.macroName name
  /-- Macros are recorded alike, and then the definition that binds the name is awaited. -/
  recordMacro : ∀ {s t} (name : Text) (definition : List Tree), C.Related s t →
    C.Counts { s.recordMacro name definition with nameIsFinal := true } →
    C.Related { s.recordMacro name definition with nameIsFinal := true }
      { t.recordMacro name definition with nameIsFinal := true }
  expands : ∀ {s t} (head : Text), C.Related s t →
    t.host.expandsDefinition head = s.host.expandsDefinition head
  form_bound : ∀ {head name params definition},
    C.Form (Tree.call head (.sym name :: params :: definition)) →
    FormRule.ofHead? head = some .macroDefinition →
    ∀ final : Text, C.Form (Definition.boundForm (.sym final) params definition)
  result_bound : ∀ {head name params definition} {final : Text} {a b},
    C.Result (Definition.boundForm (.sym final) params definition) a b →
    C.Result (Tree.call head (.sym name :: params :: definition))
      (Definition.withDeclared (.sym final) definition a)
      (Definition.withDeclared (.sym final) definition b)

/-! ## Runs that stay together -/

variable {α β α' β' : Type} {C : Comparison}

/-- If the first step, run from `s`, yields a result and ends where it counts, the second one, run
from `t`, yields a related result and ends in a corresponding session. -/
def Agree (C : Comparison) (s t : Session) (x : Rewrite α) (y : Rewrite β)
    (post : α → β → Prop) : Prop :=
  ∀ a s', x.runFrom s = (.ok a, s') → C.Counts s' →
    ∃ b t', y.runFrom t = (.ok b, t') ∧ post a b ∧ C.Related s' t'

/-- The steps agree from all corresponding sessions. -/
def Follows (C : Comparison) (x : Rewrite α) (y : Rewrite β) (post : α → β → Prop) : Prop :=
  ∀ s t, C.Related s t → C.Counts s → C.Agree s t x y post

namespace Follows

variable {x : Rewrite α} {y : Rewrite β} {post : α → β → Prop} {post' : α' → β' → Prop}

theorem pure {a : α} {b : β} (h : post a b) : C.Follows (pure a) (pure b) post := by
  intro s t hst _ a' s' hrun _
  rw [runFrom_pure] at hrun
  cases hrun
  exact ⟨b, t, runFrom_pure b t, h, hst⟩

/-- A first run that ends with a fault has nothing to be followed by. -/
theorem throw (fault : Fault) : C.Follows (throw fault : Rewrite α) y post := by
  intro s t _ _ a s' hrun _
  rw [runFrom_throw] at hrun
  cases hrun

theorem mono {post' : α → β → Prop} (h : C.Follows x y post) (hpost : ∀ a b, post a b → post' a b) :
    C.Follows x y post' := by
  intro s t hst hs a s' hrun hs'
  rcases h s t hst hs a s' hrun hs' with ⟨b, t', hrun', hab, hst'⟩
  exact ⟨b, t', hrun', hpost a b hab, hst'⟩

/-- In a sequence, the session in between counts because the rest of the first run only makes it
grow. -/
theorem bind (hC : C.Lawful) {f : α → Rewrite α'} {g : β → Rewrite β'} [∀ a, Growing (f a)]
    (hx : C.Follows x y post) (hf : ∀ a b, post a b → C.Follows (f a) (g b) post') :
    C.Follows (x >>= f) (y >>= g) post' := by
  intro s t hst hs a' s'' hrun hs''
  rw [runFrom_bind] at hrun
  rcases hx₁ : x.runFrom s with ⟨_ | a, s'⟩
  · rw [hx₁] at hrun
    cases hrun
  · rw [hx₁] at hrun
    have hs' : C.Counts s' := hC.counts (Growing.of_run hrun) hs''
    rcases hx s t hst hs a s' hx₁ hs' with ⟨b, t', hy, hab, hst'⟩
    rcases hf a b hab s' t' hst' hs' a' s'' hrun hs'' with ⟨b', t'', hg, hab', hst''⟩
    refine ⟨b', t'', ?_, hab', hst''⟩
    rw [runFrom_bind, hy]
    exact hg

/-- A step that looks at its session may do so in both runs, as long as what follows agrees for
every related pair. -/
theorem get {f : Session → Rewrite α} {g : Session → Rewrite β}
    (h : ∀ s t, C.Related s t → C.Counts s → C.Agree s t (f s) (g t) post) :
    C.Follows (get >>= f) (get >>= g) post := by
  intro s t hst hs a s' hrun hs'
  rw [runFrom_bind, runFrom_get] at hrun
  rcases h s t hst hs a s' hrun hs' with ⟨b, t', hrun', hab, hst'⟩
  refine ⟨b, t', ?_, hab, hst'⟩
  rw [runFrom_bind, runFrom_get]
  exact hrun'

/-- The sessions that are read correspond, whatever the steps after the reading do. -/
theorem read {f : Session → Rewrite α} {g : Session → Rewrite β}
    (h : ∀ s t, C.Related s t → C.Counts s → C.Follows (f s) (g t) post) :
    C.Follows (MonadState.get >>= f) (MonadState.get >>= g) post :=
  get fun s t hst hs => h s t hst hs s t hst hs

/-- A change of the session is followed by a change that leads to a corresponding one. -/
theorem modify {f g : Session → Session} {post : Unit → Unit → Prop}
    (h : ∀ s t, C.Related s t → C.Counts (f s) → C.Related (f s) (g t)) (hpost : post () ()) :
    C.Follows (modify f) (modify g) post := by
  intro s t hst hs a s' hrun hs'
  rw [runFrom_modify] at hrun
  cases hrun
  exact ⟨(), g t, runFrom_modify g t, hpost, h s t hst hs'⟩

/-- Lists are walked together, item by item. -/
theorem mapM (hC : C.Lawful) {ι : Type} {items : List ι} {f : ι → Rewrite α} {g : ι → Rewrite β}
    (post : ι → α → β → Prop) [∀ item, Growing (f item)]
    (h : ∀ item ∈ items, C.Follows (f item) (g item) (post item)) :
    C.Follows (items.mapM f) (items.mapM g) (Pointwise post items) := by
  induction items with
  | nil =>
      rw [List.mapM_nil, List.mapM_nil]
      exact .pure .nil
  | cons item items ih =>
      rw [List.mapM_cons, List.mapM_cons]
      refine bind hC (h item (List.mem_cons_self ..)) fun a b hab => ?_
      -- the first item is related; the others follow by the induction hypothesis
      refine bind hC (ih fun other hother => h other (List.mem_cons_of_mem _ hother)) ?_
      intro as bs hrest
      exact .pure (.cons hab hrest)

/-- Steps that stay together inside a frame do so around it. -/
theorem withFrame (hC : C.Lawful) {ns ms : List Text} [Growing x] [Growing y] (hns : C.Names ns ms)
    (h : C.Follows x y post) : C.Follows (withFrame ns x) (withFrame ms y) post := by
  intro s t hst hs a s' hrun hs'
  rw [runFrom_withFrame] at hrun
  rcases hx : x.runFrom (s.pushFrame ns) with ⟨_ | a', s''⟩
  · rw [hx] at hrun
    cases hrun
  · rw [hx] at hrun
    cases hrun
    -- whether a session counts does not depend on its frames
    have hinner : C.Counts s'' := hC.counts_frames (s := s''.popFrame) s''.frames hs'
    obtain ⟨b, t'', hy, hab, hst''⟩ := h (s.pushFrame ns) (t.pushFrame ms)
      (hC.pushFrame hst hns) (hC.counts_frames _ hs) a s'' hx hinner
    refine ⟨b, t''.popFrame, ?_, hab, ?_⟩
    · rw [runFrom_withFrame, hy]
    · exact hC.popFrame hst (Growing.of_run hx) (Growing.of_run hy) hst''

theorem bindNames (hC : C.Lawful) {ns ms : List Text} (h : C.Names ns ms) :
    C.Follows (bindNames ns) (bindNames ms) fun _ _ => True :=
  modify (fun _ _ hst _ => hC.growFrame hst h) trivial

theorem trace (hC : C.Lawful) (note note' : Note) :
    C.Follows (trace note) (trace note') fun _ _ => True :=
  modify (fun _ _ hst _ => hC.journal _ _ hst) trivial

/-- Reports are of no account to a comparison. -/
theorem warn (hC : C.Lawful) (w w' : Warning) : C.Follows (warn w) (warn w') fun _ _ => True := by
  have hwarn : ∀ (s : Session) (w : Warning), ∃ j, s.warn w = { s with journal := j } := by
    intro s w
    unfold Session.warn
    split
    · exact ⟨_, rfl⟩
    · exact ⟨s.journal, rfl⟩
  refine modify (fun s t hst _ => ?_) trivial
  rcases hwarn s w with ⟨j, hj⟩
  rcases hwarn t w' with ⟨k, hk⟩
  rw [hj, hk]
  exact hC.journal j k hst

end Follows

end Comparison

end LispNamespace
