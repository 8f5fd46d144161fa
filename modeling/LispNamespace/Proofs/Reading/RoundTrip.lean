import LispNamespace.Tree.Equality
import LispNamespace.Proofs.Reading.Printing

/-!
# Reading a printed tree

The text of a tree is read as a tree that equals it, unless some part of the tree is one of three
shapes whose text means something else. That the other trees read back goes by induction on the
tree: every part has the tokens of its text in front of whatever the printer writes after it.

That a tree with such a part never reads back cannot be seen from the part alone, since a defect
might in principle be undone by another one further to the right. So the induction takes the row of
tokens that the printer made and asks where an equal form ends in it: as long as all parts so far
read back, that is where the printer ended them too.
-/

namespace LispNamespace.Tree

open Text Token

/-! ## Equality by kind -/

theorem eq_of_equal_list {result : Tree} {items : List Tree} (h : result.equal (.list items) = true) :
    ∃ results, result = .list results ∧ equalAll results items = true := by
  cases result with
  | list results => exact ⟨results, rfl, by rwa [equal] at h⟩
  | _ => cases h

theorem eq_of_equal_dot {result tail : Tree} {items : List Tree}
    (h : result.equal (.dot items tail) = true) :
    ∃ results end_, result = .dot results end_ ∧ equalAll results items = true ∧
      end_.equal tail = true := by
  cases result with
  | dot results end_ =>
      rw [equal, Bool.and_eq_true] at h
      exact ⟨results, end_, rfl, h.1, h.2⟩
  | _ => cases h

/-! ## Trees that read back -/

/-- Whether the root of the tree is none of the three shapes whose text means something else: a
symbol that has no text of its own, a hole whose form begins like the sign of a splice, and a
dotted list that is printed as a proper one. -/
def readsBack : Tree → Bool
  | .sym name => name != "nil" && !name.isEmpty
  | .list [.sym head, form] => !(head == "," && form.isSpliced)
  | .dot _ .nil => false
  | _ => true

/-- What stands between two brackets stands there as it does before the closing one. -/
theorem lexesTo_enclosed {first last : Nat} {kind kind' : TokenKind}
    (hfirst : singleKind? first = some kind) (hlast : singleKind? last = some kind') {text : Text}
    {ts : List Token} {rest : Text} (h : LexesTo text ts ([last] ++ rest)) :
    LexesTo (first :: text ++ [last]) (⟨kind, [first]⟩ :: (ts ++ [⟨kind', [last]⟩])) rest := by
  have hopen : LexesTo [first] [⟨kind, [first]⟩] (text ++ [last] ++ rest) := .single hfirst
  have hclose : LexesTo [last] [⟨kind', [last]⟩] rest := .single hlast
  exact hopen.append (h.append hclose)

variable [CharNames]

/-- In front of every delimited text, the text of the tree is that of a form equal to it. -/
def Reads (t : Tree) : Prop :=
  ∀ rest, Delimited rest → ∃ ts result, LexesTo t.source ts rest ∧ Spells ts result ∧
    beginsWithDot ts = false ∧ result.equal t = true

/-- A tree whose text is a single token reads as what the token denotes. -/
theorem reads_of_atom {t result : Tree} {kind : TokenKind}
    (hlexes : ∀ rest, Delimited rest → LexesTo t.source [⟨kind, t.source⟩] rest)
    (hatom : Atom.ofToken? ⟨kind, t.source⟩ = some (.ok result))
    (hdot : kind = .symbol → t.source ≠ ".") (hequal : result.equal t = true) : t.Reads := by
  intro rest hrest
  refine ⟨[⟨kind, t.source⟩], result, hlexes rest hrest, .atom hatom, ?_, hequal⟩
  refine Bool.eq_false_iff.2 fun hfirst => ?_
  simp only [beginsWithDot, List.head?_cons, Option.any_some, isDot, Bool.and_eq_true,
    beq_iff_eq] at hfirst
  exact hdot hfirst.1 hfirst.2

/-- The texts of several trees that read are those of forms equal to them. -/
theorem spellsAll_of_reads {items : List Tree} (h : ∀ item ∈ items, item.Reads) (inList : Bool)
    {rest : Text} (hrest : Delimited rest) :
    ∃ ts results, LexesTo (afterBlanks (sources items)) ts rest ∧
      SpellsAll inList ts results ∧ equalAll results items = true := by
  induction items with
  | nil => exact ⟨[], [], .nil, .nil, rfl⟩
  | cons item items ih =>
      obtain ⟨us, results, hothers, hresults, hall⟩ :=
        ih fun item hitem => h item (List.mem_cons_of_mem _ hitem)
      obtain ⟨ts, result, hitem, hresult, hdot, hequal⟩ :=
        h item List.mem_cons_self _ (delimited_afterBlanks hrest)
      have hblank : LexesTo [0x20] [] (item.source ++ afterBlanks (sources items) ++ rest) :=
        .blank rfl
      refine ⟨ts ++ us, result :: results, hblank.append (hitem.append hothers),
        .cons (fun _ => hdot) hresult hresults, ?_⟩
      rw [equalAll, hequal, hall]
      rfl

/-! ## Lists and vectors that read back -/

/-- A list that has a shorthand reads back with its form, unless an at sign makes another shorthand
of the comma. -/
theorem reads_of_shorthand {name short : Text} {form : Tree} (hname : shorthand? name = some short)
    (hsource : (list [.sym name, form]).source = short ++ form.source)
    (hform : form.Reads) (hreadable : form.isReadable = true)
    (hback : (list [.sym name, form]).readsBack = true) : (list [.sym name, form]).Reads := by
  intro rest hrest
  rcases hform rest hrest with ⟨ts, result, hlexes, hresult, -, hequal⟩
  -- the form begins with an at sign only if it is such a symbol
  have hcomma : name = "," → (form.source ++ rest).head? ≠ some atSign := by
    rintro rfl hhead
    rcases beginsPlainly_source (isVerbatim_of_isReadable hreadable) with ⟨c, cs, hcs, hat⟩
    rw [hcs] at hhead
    have hspliced := hat.1 (Option.some.inj hhead)
    simp [readsBack, hspliced] at hback
  rcases lexesTo_shorthand hname with ⟨t, ht, hlong, hlexesTo⟩
  have hshort := hlexesTo _ hcomma
  refine ⟨t :: ts, .list [.sym t.longHead, result], ?_, .shorthand ht hresult, ?_, ?_⟩
  · rw [hsource]
    exact hshort.append hlexes
  · rcases t with ⟨kind, text⟩
    cases kind <;> first | rfl | cases ht
  · rw [hlong, equal, equalAll, equalAll, hequal]
    simp [equal, equalAtoms, equalAll]

/-- A list that has no shorthand reads back with its elements. -/
theorem reads_of_items {head : Tree} {others : List Tree}
    (hshort : listShorthand? head (sources others).length = none)
    (h : ∀ item ∈ head :: others, item.Reads) : (list (head :: others)).Reads := by
  intro rest hrest
  have hclose : Delimited ([closeParen] ++ rest) := .inr (.inl rfl)
  rcases spellsAll_of_reads h true hclose with ⟨ts, results, hlexes, hresults, hequal⟩
  have hlist : Spells (⟨.openParen, [openParen]⟩ :: (ts ++ [⟨.closeParen, [closeParen]⟩]))
      (ofList results) := .list rfl hresults rfl
  refine ⟨_, _, ?_, hlist, rfl, ?_⟩
  · rw [source, sourceOfItems, listSource, hshort]
    exact lexesTo_enclosed rfl rfl (lexesTo_spaced hlexes)
  · cases results with
    | nil => cases hequal
    | cons result results => rwa [ofList, List.isEmpty_cons, if_neg Bool.false_ne_true, equal]

theorem reads_of_vec {items : List Tree} (h : ∀ item ∈ items, item.Reads) : (vec items).Reads := by
  intro rest hrest
  have hclose : Delimited ([closeBracket] ++ rest) := .inr (.inr (.inl rfl))
  rcases spellsAll_of_reads h false hclose with ⟨ts, results, hlexes, hresults, hequal⟩
  have hvec : Spells (⟨.openBracket, [openBracket]⟩ :: (ts ++ [⟨.closeBracket, [closeBracket]⟩]))
      (.vec results) := .vec rfl hresults rfl
  refine ⟨_, _, ?_, hvec, rfl, ?_⟩
  · rw [source]
    exact lexesTo_enclosed rfl rfl (lexesTo_spaced hlexes)
  · rwa [equal]

/-- Of the trees that count as nil, the reader understands one. -/
theorem isNil_of_isReadable {t : Tree} (h : t.isReadable = true) (hnil : t ≠ .nil) :
    t.isNil = false := by
  cases t with
  | nil => exact absurd rfl hnil
  | absent => cases h
  | list items =>
      cases items with
      | nil => cases h
      | cons first others => rfl
  | _ => rfl

theorem reads_of_dot {items : List Tree} {tail : Tree} (hnil : tail.isNil = false)
    (hne : items ≠ []) (h : ∀ item ∈ items, item.Reads) (htail : tail.Reads) :
    (dot items tail).Reads := by
  intro rest hrest
  have hclose : Delimited ([closeParen] ++ rest) := .inr (.inl rfl)
  rcases htail _ hclose with ⟨us, end_, hlexesTail, hend, -, hequalTail⟩
  have hpoint := lexesTo_dot (tail.source ++ ([closeParen] ++ rest))
  have hblank : Delimited ((" . " : Text) ++ (tail.source ++ ([closeParen] ++ rest))) := .inl rfl
  rcases spellsAll_of_reads h true hblank with ⟨ts, results, hlexes, hresults, hequal⟩
  have hresultsNe : results ≠ [] := by
    rintro rfl
    cases items with
    | nil => exact hne rfl
    | cons item items => cases hequal
  have hdot : Spells (⟨.openParen, [openParen]⟩ :: (ts ++ ⟨.symbol, "."⟩ :: (us ++
      [⟨.closeParen, [closeParen]⟩]))) (.dot results end_) :=
    .dot rfl hresults hresultsNe rfl hend rfl
  refine ⟨_, _, ?_, hdot, rfl, ?_⟩
  · have hafter : LexesTo (" . " ++ tail.source) (⟨.symbol, "."⟩ :: us) ([closeParen] ++ rest) :=
      hpoint.append hlexesTail
    -- the items stand before the dot as they would before the closing parenthesis
    have hbefore : LexesTo (spaced (sources items)) ts
        ((" . " ++ tail.source : Text) ++ ([closeParen] ++ rest)) := by
      rw [List.append_assoc]
      exact lexesTo_spaced hlexes
    have hopen : singleKind? openParen = some .openParen := rfl
    have henclosed := lexesTo_enclosed hopen rfl (hbefore.append hafter)
    rw [source, hnil]
    simpa using henclosed
  · rw [equal, hequal, hequalTail]
    rfl

/-- A tree in which every part reads back reads back. -/
theorem reads_of_readsBack {t : Tree} (hreadable : t.everywhere isReadable = true)
    (hback : t.everywhere readsBack = true) : t.Reads := by
  induction t using induction_on_children with
  | h t ih =>
    have hchildren : ∀ child ∈ t.children, child.Reads := fun child hchild =>
      ih child hchild (everywhere_children hreadable hchild) (everywhere_children hback hchild)
    have hroot := test_of_everywhere hreadable
    have hclean := test_of_everywhere hback
    -- an atom is one token that denotes it, and anything else is read through its children
    cases t with
    | nil =>
        refine reads_of_atom (fun rest hrest => lexesTo_symbolSource "nil" hrest) rfl ?_ rfl
        exact fun _ => symbolSource_ne_dot "nil"
    | absent => cases hroot
    | bool value => cases hroot
    | sym name =>
        simp only [readsBack, Bool.and_eq_true, bne_iff_ne, Bool.not_eq_true',
          List.isEmpty_eq_false_iff] at hclean
        have hatom : Atom.ofToken? ⟨.symbol, (sym name).source⟩ = some (.ok (.sym name)) :=
          congrArg (some ∘ Except.ok) (ofSymbolToken_symbolSource hclean.2 hclean.1)
        refine reads_of_atom (fun rest hrest => lexesTo_symbolSource name hrest) hatom ?_ ?_
        · exact fun _ => symbolSource_ne_dot name
        · simp [equal, equalAtoms]
    | lit value written =>
        have hread := readOne_of_isReadable_lit hroot
        have hatom : Atom.ofToken? ⟨.string, written⟩ = some (.ok (.lit value written)) := by
          rw [Atom.ofToken?, (eq_of_readOne_lit hread).1]
          rfl
        refine reads_of_atom (fun rest _ => lexesTo_of_readOne_lit hread rest) hatom
          (fun h => nomatch h) ?_
        simp [equal, equalAtoms, Tree.integer?, text?]
    | str value =>
        have hatom : Atom.ofToken? ⟨.string, stringSource value⟩ =
            some (.ok (.lit value (stringSource value))) := by
          rw [Atom.ofToken?, decodeString_stringSource]
          rfl
        refine reads_of_atom (fun rest _ => lexesTo_stringSource value rest) hatom
          (fun h => nomatch h) ?_
        simp [equal, equalAtoms, Tree.integer?, text?]
    | char code written =>
        have hread := readOne_of_isReadable_char hroot
        have hatom : Atom.ofToken? ⟨.char, written⟩ = some (.ok (.char code written)) := by
          rw [Atom.ofToken?, (eq_of_readOne_char hread).1]
          rfl
        refine reads_of_atom (fun rest hrest => lexesTo_of_readOne_char hread hrest) hatom
          (fun h => nomatch h) ?_
        simp [equal, equalAtoms, Tree.integer?]
    | int value =>
        have hatom : Atom.ofToken? ⟨.symbol, (int value).source⟩ = some (.ok (.int value)) :=
          congrArg (some ∘ Except.ok) (ofSymbolToken_toString value)
        refine reads_of_atom (fun rest hrest => lexesTo_toString value hrest) hatom ?_ ?_
        · intro _ hsource
          have hdot := Atom.integer?_toString value
          have hsource' : ofString (toString value) = "." := hsource
          rw [hsource'] at hdot
          cases hdot
        · simp [equal, equalAtoms, Tree.integer?]
    | float value => cases hroot
    | list items =>
        cases items with
        | nil => cases hroot
        | cons head others =>
            -- a quote form has the text of a shorthand, and every other list is written item by
            -- item
            cases hshort : listShorthand? head (sources others).length with
            | none => exact reads_of_items hshort hchildren
            | some short =>
                obtain ⟨name, form, rfl, rfl, hname, hsource⟩ :=
                  eq_of_listShorthand?_sources hshort
                have hmem : form ∈ [sym name, form] :=
                  List.mem_cons_of_mem _ (List.mem_singleton_self form)
                have hform := test_of_everywhere (everywhere_children hreadable hmem)
                exact reads_of_shorthand hname hsource (hchildren form hmem) hform hclean
    | vec items => exact reads_of_vec hchildren
    | dot items tail =>
        have hitems : ∀ item ∈ items, item.Reads :=
          fun item hitem => hchildren item (List.mem_append_left _ hitem)
        have hmem : tail ∈ (dot items tail).children :=
          List.mem_append_right _ (List.mem_singleton_self tail)
        have htail := test_of_everywhere (everywhere_children hreadable hmem)
        -- with `nil` at its end it would be written as a plain list
        have hnil : tail.isNil = false := isNil_of_isReadable htail (by rintro rfl; cases hclean)
        have hne : items ≠ [] := by simpa [isReadable] using hroot
        exact reads_of_dot hnil hne hitems (hchildren tail hmem)

/-! ## Where an equal form ends -/

/-- The tokens of a form in front of others begin with its first one. -/
theorem Spells.cons_of_append {us more ts : List Token} {result : Tree} {t : Token}
    (h : Spells us result) (heq : t :: ts = us ++ more) :
    ∃ others, us = t :: others ∧ ts = others ++ more := by
  rcases h.eq_cons with ⟨first, others, rfl, -⟩
  rcases List.cons.inj heq with ⟨rfl, hts⟩
  exact ⟨others, rfl, hts⟩

/-- Where a tree that reads back stands, every form that is read ends where its text does. -/
theorem Reads.more_eq {t : Tree} (h : t.Reads) {rest : Text} (hrest : Delimited rest)
    {us more : List Token} {result : Tree}
    (htokens : (lex (t.source ++ rest)).tokens = us ++ more) (hresult : Spells us result) :
    more = (lex rest).tokens := by
  rcases h rest hrest with ⟨ts, own, hlexes, hown, -⟩
  rw [hlexes.tokens] at htokens
  exact ((hown.unique hresult htokens).2).symm

/-- A form equal to the tree is read where its text stands only if every part of the tree reads
back. -/
def ReadsOnlyBack (t : Tree) : Prop :=
  ∀ rest us more result, Delimited rest → (lex (t.source ++ rest)).tokens = us ++ more →
    Spells us result → result.equal t = true → t.everywhere readsBack = true

/-- Forms equal to several trees are read where their texts stand only if every part of the trees
reads back, and then the forms end where the texts do. -/
theorem readsBack_of_spellsAll {items : List Tree}
    (hreadable : ∀ item ∈ items, item.everywhere isReadable = true)
    (h : ∀ item ∈ items, item.ReadsOnlyBack) {inList : Bool} {rest : Text} (hrest : Delimited rest)
    {us more : List Token} {results : List Tree}
    (htokens : (lex (afterBlanks (sources items) ++ rest)).tokens = us ++ more)
    (hresults : SpellsAll inList us results) (hequal : equalAll results items = true) :
    (∀ item ∈ items, item.everywhere readsBack = true) ∧ more = (lex rest).tokens := by
  induction items generalizing us results with
  | nil =>
      cases results with
      | nil =>
          cases hresults
          exact ⟨(fun item hitem => nomatch hitem), htokens.symm⟩
      | cons result results => cases hequal
  | cons item items ih =>
      cases results with
      | nil => cases hequal
      | cons result results =>
          rw [equalAll, Bool.and_eq_true] at hequal
          cases hresults with
          | @cons _ ts us _ _ hdot hresult hresults =>
              have hafter : Delimited (afterBlanks (sources items) ++ rest) :=
                delimited_afterBlanks hrest
              have hitem : (lex (item.source ++ (afterBlanks (sources items) ++ rest))).tokens =
                  ts ++ (us ++ more) := by
                rw [← lex_afterBlanks_cons, htokens, List.append_assoc]
              have hback := h item List.mem_cons_self _ _ _ _ hafter hitem hresult hequal.1
              -- the first form ends where its text does, so the others begin where theirs begin
              have hreads := reads_of_readsBack (hreadable item List.mem_cons_self) hback
              have hothers := hreads.more_eq hafter hitem hresult
              obtain ⟨hitems, hmore⟩ :=
                ih (fun other hother => hreadable other (List.mem_cons_of_mem _ hother))
                  (fun other hother => h other (List.mem_cons_of_mem _ hother)) hothers.symm
                  hresults hequal.2
              exact ⟨List.forall_mem_cons.2 ⟨hback, hitems⟩, hmore⟩

/-! ## Lists and vectors that do not read back -/

/-- What is read at a shorthand is the list of its long form and the form after it. -/
theorem Spells.of_shorthand_append {t : Token} {ts us more : List Token} {result : Tree}
    (h : Spells us result) (ht : t.isShorthand = true) (htokens : t :: ts = us ++ more) :
    ∃ inner form, result = .list [.sym t.longHead, form] ∧ Spells inner form ∧
      ts = inner ++ more := by
  rcases h.cons_of_append htokens with ⟨inner, rfl, hts⟩
  rcases h.of_shorthand ht with ⟨form, hform, rfl⟩
  exact ⟨inner, form, rfl, hform, hts⟩

/-- The text of a list that has a shorthand begins with a shorthand. If it is that of the list, the
text of the form follows it, and no at sign has made another one of the comma. -/
theorem lex_shorthand {name short : Text} {form : Tree} (hname : shorthand? name = some short)
    (hreadable : form.isReadable = true) (rest : Text) :
    ∃ t text, t.isShorthand = true ∧
      (lex (short ++ form.source ++ rest)).tokens = t :: (lex text).tokens ∧
      (t.longHead = name →
        text = form.source ++ rest ∧ (name == "," && form.isSpliced) = false) := by
  rcases beginsPlainly_source (isVerbatim_of_isReadable hreadable) with ⟨c, cs, hcs, hat⟩
  rw [List.append_assoc]
  by_cases hsplice : name = "," ∧ form.isSpliced = true
  -- the at sign of the form goes with the comma
  · rcases hsplice with ⟨rfl, hspliced⟩
    obtain rfl : "," = short := Option.some.inj hname
    have hat' : shorthand? (",@" : Text) = some (",@" : Text) := rfl
    rcases lexesTo_shorthand hat' with ⟨t, ht, hlong, hlexes⟩
    have hshort := hlexes (cs ++ rest) fun h => nomatch h
    refine ⟨t, cs ++ rest, ht, ?_, fun h => ?_⟩
    · rw [hcs, hat.2 hspliced]
      exact hshort.tokens
    · rw [hlong] at h
      cases h
  · have hcomma : name = "," → (form.source ++ rest).head? ≠ some atSign := by
      intro hname' hhead
      rw [hcs] at hhead
      exact hsplice ⟨hname', hat.1 (Option.some.inj hhead)⟩
    rcases lexesTo_shorthand hname with ⟨t, ht, -, hlexes⟩
    refine ⟨t, form.source ++ rest, ht, (hlexes _ hcomma).tokens, fun _ => ⟨rfl, ?_⟩⟩
    refine Bool.eq_false_iff.2 fun h => hsplice ?_
    simpa using h

/-- A form with a shorthand reads back if the form after it does. -/
theorem readsOnlyBack_of_shorthand {name short : Text} {form : Tree}
    (hname : shorthand? name = some short)
    (hsource : (list [.sym name, form]).source = short ++ form.source)
    (hreadable : form.isReadable = true) (hform : form.ReadsOnlyBack) :
    (list [.sym name, form]).ReadsOnlyBack := by
  intro rest us more result hrest htokens hresult hequal
  rcases lex_shorthand hname hreadable rest with ⟨t, text, ht, hlex, htext⟩
  rw [hsource, hlex] at htokens
  rcases hresult.of_shorthand_append ht htokens with ⟨inner, other, rfl, hother, hinner⟩
  simp only [equal, equalAll, equalAtoms, Bool.and_true, Bool.and_eq_true, beq_iff_eq] at hequal
  -- the long form of the shorthand is the head, so the shorthand is the one that was printed
  rcases htext hequal.1 with ⟨rfl, hcomma⟩
  have hback := hform _ _ _ _ hrest hinner hother hequal.2
  refine everywhere_of_children ?_ (List.forall_mem_cons.2 ⟨?_, List.forall_mem_singleton.2 hback⟩)
  · rw [readsBack, hcomma]
    rfl
  · rcases shorthand?_cases hname with h | h | h | h | h <;> obtain ⟨rfl, -⟩ := h <;> decide

/-- What is read at an opening parenthesis where the text of elements follows: a list or a dotted
list, with the elements that are read. -/
theorem readsBack_of_openParen {items : List Tree}
    (hreadable : ∀ item ∈ items, item.everywhere isReadable = true)
    (h : ∀ item ∈ items, item.ReadsOnlyBack) {after rest : Text} (hafter : Delimited (after ++ rest))
    {us more : List Token} {result : Tree}
    (htokens : (lex (openParen :: spaced (sources items) ++ after ++ rest)).tokens = us ++ more)
    (hresult : Spells us result) :
    (∀ results, result = .list results → equalAll results items = true →
        ∀ item ∈ items, item.everywhere readsBack = true) ∧
      ∀ results end_, result = .dot results end_ → equalAll results items = true →
        (∀ item ∈ items, item.everywhere readsBack = true) ∧
          ∃ point vs others, (lex (after ++ rest)).tokens = point :: (vs ++ others) ∧
            point.isDot = true ∧ Spells vs end_ := by
  have hopen : singleKind? openParen = some .openParen := rfl
  rw [lex_enclosed hopen] at htokens
  rcases hresult.cons_of_append htokens with ⟨others, rfl, hothers⟩
  rcases hresult.of_openParen rfl with hlist | hdot
  · rcases hlist with ⟨inner, last, results, rfl, hresults, -, rfl⟩
    constructor
    · intro results' heq hall
      have hresultsEq : results' = results := by
        cases results with
        | nil => cases heq
        | cons first results => cases heq; rfl
      subst hresultsEq
      rw [List.append_assoc] at hothers
      exact (readsBack_of_spellsAll hreadable h hafter hothers hresults hall).1
    -- a proper list is no dotted one
    · intro results' end_ heq
      cases results <;> cases heq
  · rcases hdot with ⟨inner, point, vs, last, results, tail, rfl, hresults, hpoint, htail, rfl⟩
    constructor
    · intro results' heq
      cases heq
    · intro results' end_ heq hall
      cases heq
      rw [List.append_assoc] at hothers
      rcases readsBack_of_spellsAll hreadable h hafter hothers hresults hall with ⟨hitems, hmore⟩
      refine ⟨hitems, point, vs, [last] ++ more, ?_, hpoint, htail⟩
      rw [← hmore]
      simp

/-- Two symbols are equal if their names are. So no other name is read for the symbol, and it reads
back if it is read at all. -/
theorem readsOnlyBack_of_sym (name : Text) : (sym name).ReadsOnlyBack := by
  intro rest us more result hrest htokens hresult hequal
  have hown : Spells [⟨.symbol, symbolSource name⟩] (Atom.ofSymbolToken (symbolSource name)) :=
    .atom rfl
  have hlexes := (lexesTo_symbolSource name hrest).tokens
  rw [source, hlexes] at htokens
  rcases hown.unique hresult htokens with ⟨rfl, -⟩
  have hnil : name ≠ "nil" := by
    rintro rfl
    cases hequal
  have hne : name ≠ [] := by
    rintro rfl
    cases hequal
  simp [everywhere, readsBack, hnil, hne]

/-- The items of a list end where their texts do, so that each is read where it stands. -/
theorem readsOnlyBack_of_items {head : Tree} {others : List Tree}
    (hshort : listShorthand? head (sources others).length = none)
    (hreadable : ∀ item ∈ head :: others, item.everywhere isReadable = true)
    (h : ∀ item ∈ head :: others, item.ReadsOnlyBack) :
    (list (head :: others)).ReadsOnlyBack := by
  intro rest us more result hrest htokens hresult hequal
  rw [source, sourceOfItems, listSource, hshort] at htokens
  have hafter : Delimited ([closeParen] ++ rest) := .inr (.inl rfl)
  rcases eq_of_equal_list hequal with ⟨results, rfl, hall⟩
  have hitems := (readsBack_of_openParen hreadable h hafter htokens hresult).1 results rfl hall
  refine everywhere_of_children ?_ hitems
  -- a list of a comma and one form would have a shorthand
  unfold readsBack
  split
  · next heq => cases heq
  · next name form heq =>
    cases heq
    have hcomma : name ≠ "," := by
      rintro rfl
      cases hshort
    simp [hcomma]
  · next heq => cases heq
  · rfl

/-- So do those of a vector. -/
theorem readsOnlyBack_of_vec {items : List Tree}
    (hreadable : ∀ item ∈ items, item.everywhere isReadable = true)
    (h : ∀ item ∈ items, item.ReadsOnlyBack) : (vec items).ReadsOnlyBack := by
  intro rest us more result hrest htokens hresult hequal
  have hopen : singleKind? openBracket = some .openBracket := rfl
  have hafter : Delimited ([closeBracket] ++ rest) := .inr (.inr (.inl rfl))
  rw [source, lex_enclosed hopen] at htokens
  rcases hresult.cons_of_append htokens with ⟨others, rfl, hothers⟩
  rcases hresult.of_openBracket rfl with ⟨inner, last, results, rfl, hresults, rfl⟩
  rw [List.append_assoc] at hothers
  rw [equal] at hequal
  exact everywhere_of_children rfl
    (readsBack_of_spellsAll hreadable h hafter hothers hresults hequal).1

/-- A dotted list with a tail that is nil is printed as a proper one, which no dotted list equals. -/
theorem readsOnlyBack_of_dot_nil {items : List Tree} (hne : items ≠ [])
    (hreadable : ∀ item ∈ items, item.everywhere isReadable = true)
    (h : ∀ item ∈ items, item.ReadsOnlyBack) : (dot items .nil).ReadsOnlyBack := by
  intro rest us more result hrest htokens hresult hequal
  exfalso
  rcases eq_of_equal_dot hequal with ⟨results, end_, rfl, hall, -⟩
  rw [source, isNil, if_pos rfl] at htokens
  cases items with
  | nil => exact hne rfl
  | cons head others =>
      cases hshort : listShorthand? head (sources others).length with
      | some short =>
          rcases eq_of_listShorthand?_sources hshort with ⟨name, form, rfl, rfl, hname, hsource⟩
          have hform := hreadable form (List.mem_cons_of_mem _ (List.mem_singleton_self form))
          rcases lex_shorthand hname (test_of_everywhere hform) rest with ⟨t, text, ht, hlex, -⟩
          rw [hsource, hlex] at htokens
          -- what a shorthand begins is a list, and not a dotted one
          rcases hresult.of_shorthand_append ht htokens with ⟨inner, other, heq, -⟩
          cases heq
      | none =>
          rw [sourceOfItems, listSource, hshort] at htokens
          have hafter : Delimited ([closeParen] ++ rest) := .inr (.inl rfl)
          obtain ⟨-, point, vs, more', hpoint, hdot, -⟩ :=
            (readsBack_of_openParen hreadable h hafter htokens hresult).2 results end_ rfl hall
          -- where the dot would have to stand, there is the closing parenthesis
          have hclose : LexesTo [closeParen] [⟨.closeParen, [closeParen]⟩] rest := .single rfl
          rw [hclose.tokens] at hpoint
          cases (List.cons.inj hpoint).1
          cases hdot

/-- In a dotted list the dot is a token of its own, behind which the end stands. -/
theorem readsOnlyBack_of_dot {items : List Tree} {tail : Tree} (hnil : tail.isNil = false)
    (hreadable : ∀ item ∈ items, item.everywhere isReadable = true)
    (h : ∀ item ∈ items, item.ReadsOnlyBack) (htail : tail.ReadsOnlyBack) :
    (dot items tail).ReadsOnlyBack := by
  intro rest us more result hrest htokens hresult hequal
  rcases eq_of_equal_dot hequal with ⟨results, end_, rfl, hall, hend⟩
  have hsource : (dot items tail).source =
      openParen :: spaced (sources items) ++ (" . " ++ (tail.source ++ [closeParen])) := by
    rw [source, hnil]
    simp
  rw [hsource] at htokens
  have hafter : Delimited ((" . " ++ (tail.source ++ [closeParen]) : Text) ++ rest) := .inl rfl
  obtain ⟨hitems, point, vs, more', hpoint, -, hvs⟩ :=
    (readsBack_of_openParen hreadable h hafter htokens hresult).2 results end_ rfl hall
  -- the dot between blanks is a token, so the end is read from behind it
  have hdot := (lexesTo_dot (tail.source ++ ([closeParen] ++ rest))).tokens
  rw [List.append_assoc, List.append_assoc, hdot] at hpoint
  have hclose : Delimited ([closeParen] ++ rest) := .inr (.inl rfl)
  have hback := htail _ _ _ _ hclose (List.cons.inj hpoint).2 hvs hend
  refine everywhere_of_children ?_ ?_
  · unfold readsBack
    split
    · next heq => cases heq
    · next heq => cases heq
    · next heq =>
      cases heq
      cases hnil
    · rfl
  · intro child hchild
    rcases List.mem_append.1 hchild with hmem | hmem
    · exact hitems child hmem
    · rwa [List.mem_singleton.1 hmem]

/-- Every tree that the reader understands is read only if it reads back. -/
theorem readsOnlyBack {t : Tree} (hreadable : t.everywhere isReadable = true) :
    t.ReadsOnlyBack := by
  induction t using induction_on_children with
  | h t ih =>
    have hparts : ∀ child ∈ t.children, child.everywhere isReadable = true :=
      fun child hchild => everywhere_children hreadable hchild
    have hchildren : ∀ child ∈ t.children, child.ReadsOnlyBack :=
      fun child hchild => ih child hchild (hparts child hchild)
    have hroot := test_of_everywhere hreadable
    cases t with
    | absent => cases hroot
    | bool value => cases hroot
    | float value => cases hroot
    | sym name => exact readsOnlyBack_of_sym name
    | list items =>
        cases items with
        | nil => cases hroot
        | cons head others =>
            cases hshort : listShorthand? head (sources others).length with
            | none => exact readsOnlyBack_of_items hshort hparts hchildren
            | some short =>
                obtain ⟨name, form, rfl, rfl, hname, hsource⟩ :=
                  eq_of_listShorthand?_sources hshort
                have hmem : form ∈ [sym name, form] :=
                  List.mem_cons_of_mem _ (List.mem_singleton_self form)
                exact readsOnlyBack_of_shorthand hname hsource
                  (test_of_everywhere (hparts form hmem)) (hchildren form hmem)
    | vec items => exact readsOnlyBack_of_vec hparts hchildren
    | dot items tail =>
        have hmem : tail ∈ (dot items tail).children :=
          List.mem_append_right _ (List.mem_singleton_self tail)
        have hitems : ∀ item ∈ items, item ∈ (dot items tail).children :=
          fun item hitem => List.mem_append_left _ hitem
        have hitemParts := fun item hitem => hparts item (hitems item hitem)
        have hitemChildren := fun item hitem => hchildren item (hitems item hitem)
        have hne : items ≠ [] := by simpa [isReadable] using hroot
        by_cases hnil : tail = .nil
        · subst hnil
          exact readsOnlyBack_of_dot_nil hne hitemParts hitemChildren
        · have htail := isNil_of_isReadable (test_of_everywhere (hparts tail hmem)) hnil
          exact readsOnlyBack_of_dot htail hitemParts hitemChildren (hchildren tail hmem)
    -- the other trees have nothing in them that does not read back
    | _ => exact fun _ _ _ _ _ _ _ _ => rfl

/-- A tree is read from its own text, up to the difference between a string that the program made
and one that was read, exactly if no part of it is a symbol with the name `nil` or none, a hole
whose form is a symbol that begins with an at sign, or a dotted list with a tail that is nil. -/
theorem readOne_source_iff {t : Tree} (hreadable : t.everywhere isReadable = true) :
    (∃ result, readOne t.source = .ok result ∧ result.equal t = true) ↔
      t.everywhere readsBack = true := by
  constructor
  · rintro ⟨result, hread, hequal⟩
    rcases readOne_eq_ok_iff.1 hread with ⟨-, hresult⟩
    have hrest : Delimited [] := trivial
    have htokens : (lex (t.source ++ [])).tokens = (lex t.source).tokens ++ [] := by
      rw [List.append_nil, List.append_nil]
    exact readsOnlyBack hreadable _ _ _ _ hrest htokens hresult hequal
  · intro hback
    obtain ⟨ts, result, hlexes, hresult, -, hequal⟩ := reads_of_readsBack hreadable hback [] trivial
    have htokens := hlexes.tokens
    have hfailure := hlexes.failure
    rw [List.append_nil, lex_nil, List.append_nil] at htokens
    rw [List.append_nil, lex_nil] at hfailure
    refine ⟨result, readOne_eq_ok_iff.2 ⟨hfailure.2 rfl, ?_⟩, hequal⟩
    rwa [htokens]

omit [CharNames] in
/-- Literals read back, also one that is given by name, and so does a symbol that is written like a
number. -/
theorem readOne_source_literals :
    ∃ result,
      @readOne .few (list [.sym "1", .lit "a" "\x22a\x22", .char 0x2603 "?\\N\x7bsnowman\x7d",
        .dot [.int (-3)] (.str "b")]).source = .ok result ∧
      result.equal (list [.sym "1", .lit "a" "\x22a\x22", .char 0x2603 "?\\N\x7bsnowman\x7d",
        .dot [.int (-3)] (.str "b")]) = true := by
  have hlit : @isReadable .few (.lit "a" "\x22a\x22") = true := by cbv
  have hchar : @isReadable .few (.char 0x2603 "?\\N\x7bsnowman\x7d") = true := by decide +kernel
  refine (@readOne_source_iff .few _ ?_).2 (by decide)
  simp only [everywhere, everywhereIn, hlit, hchar]
  rfl

end LispNamespace.Tree
