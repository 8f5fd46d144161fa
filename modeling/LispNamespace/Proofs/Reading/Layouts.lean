import LispNamespace.Tree.Layout
import LispNamespace.Proofs.Reading.Splices

/-!
# Layouts keep the tokens

A layout differs from the text of a tree on one line in blanks only, and no token reaches over the
places where they differ. So both have the same tokens, at every width, level and qualifier, and the
layouts of several forms have the tokens of one after those of the other: whatever the width, the
same forms are read from the text. Colours are no blanks, and literals have to be ones that the
reader made, since they are printed as they were written.
-/

namespace LispNamespace.Tree

open Text Token

/-! ## One line and several -/

theorem sources_eq_map (items : List Tree) : sources items = items.map source := by
  induction items with
  | nil => rfl
  | cons item items ih => rw [sources, List.map_cons, ih]

theorem layouts_eq_map (style : Style) (indent : Int) (quoted : Bool) (items : List Tree) :
    layouts style indent quoted items = items.map (layout style indent quoted) := by
  induction items with
  | nil => rfl
  | cons item items ih => rw [layouts, List.map_cons, ih]

theorem isSpacing_space : IsSpacing " " := by decide

theorem isSpacing_newline_margin (indent : Int) : IsSpacing (newline :: margin indent) := by
  refine ⟨List.cons_ne_nil _ _, List.forall_mem_cons.2 ⟨.inr rfl, fun c hc => .inl ?_⟩⟩
  exact List.eq_of_mem_replicate hc

/-- Over several lines, the parts are separated by line ends and margins. -/
theorem overLines_eq (indent : Int) (first : Text) (others : List Text) :
    overLines indent first others =
      openParen :: ((newline :: margin indent).intercalate (first :: others) ++ [closeParen]) := by
  refine congrArg (openParen :: ·) ?_
  induction others generalizing first with
  | nil => rw [List.intercalate_singleton, List.foldr_nil]
  | cons next others ih =>
      rw [List.foldr_cons, ih next, List.intercalate_cons_cons]
      simp

/-- On one line or over several, blanks separate the elements of a list. -/
theorem exists_enclose_eq (style : Style) (indent : Int) (first : Text) (others : List Text) :
    ∃ gap, IsSpacing gap ∧ enclose style indent first others =
      openParen :: (gap.intercalate (first :: others) ++ [closeParen]) := by
  unfold enclose
  split
  · exact ⟨" ", isSpacing_space, rfl⟩
  · exact ⟨newline :: margin indent, isSpacing_newline_margin indent,
      overLines_eq indent first others⟩

/-- A list without a shorthand is put together from the layouts of its elements. -/
theorem layout_list (style : Style) (indent : Int) (quoted : Bool) {head : Tree}
    {others : List Tree} (hshort : listShorthand? head (sources others).length = none) :
    layout style indent quoted (.list (head :: others)) =
      enclose style indent (layout style (indent + 1) quoted head)
        (layouts style (indent + 1) quoted others) := by
  rw [sources_length] at hshort
  cases others with
  | nil => rw [layout]; simp
  | cons next others =>
      cases others with
      | nil =>
          have hone : listShorthand? head 1 = none := hshort
          rw [layout, hone]
          rfl
      | cons third others => rw [layout]; simp

/-- A list without a shorthand is laid out as its elements between parentheses. -/
theorem exists_layout_list_eq (style : Style) (indent : Int) (quoted : Bool) {head : Tree}
    {others : List Tree} (hshort : listShorthand? head (sources others).length = none) :
    ∃ gap, IsSpacing gap ∧ layout style indent quoted (.list (head :: others)) =
      openParen ::
        (gap.intercalate ((head :: others).map (layout style (indent + 1) quoted)) ++
          [closeParen]) := by
  rw [layout_list style indent quoted hshort, layouts_eq_map, List.map_cons]
  exact exists_enclose_eq style indent _ _

/-- A list with a shorthand is laid out as the shorthand in front of its form. -/
theorem layout_shorthand (style : Style) (indent : Int) (quoted : Bool) {name short : Text}
    {form : Tree} (hname : shorthand? name = some short) :
    layout style indent quoted (.list [.sym name, form]) =
      short ++ layout style indent (quoted || quotes short) form := by
  have hone : listShorthand? (.sym name) 1 = some short := hname
  rw [layout, hone]

/-! ## Where layouts begin -/

theorem BeginsPlainly.head?_ne {text : Text} (h : BeginsPlainly text false) (rest : Text) :
    (text ++ rest).head? ≠ some atSign := by
  rcases h with ⟨c, cs, rfl, hat⟩
  intro hhead
  cases hat.1 (Option.some.inj hhead)

/-- Without colours, a symbol is laid out as its source. -/
theorem layout_sym {style : Style} (hcolour : style.colour = false) (indent : Int) (quoted : Bool)
    (name : Text) : layout style indent quoted (.sym name) = symbolSource name := by
  rw [layout, colouredSymbol, hcolour]
  rfl

/-- The only texts that do are those of symbols with an at sign in front. -/
theorem eq_of_isSpliced {t : Tree} (h : t.isSpliced = true) : ∃ cs, t = .sym (atSign :: cs) := by
  unfold isSpliced at h
  split at h
  · next name =>
    rcases List.isPrefixOf_iff_prefix.1 h with ⟨cs, rfl⟩
    exact ⟨cs, rfl⟩
  · cases h

/-- The at sign in front of a name is not escaped. -/
theorem symbolSource_atSign (cs : Text) :
    symbolSource (atSign :: cs) = atSign :: escapeRest cs := by
  have hnumeral : Atom.isNumeral (atSign :: cs) = false := by
    refine Bool.eq_false_iff.2 fun hnumeral => ?_
    have hchar := Atom.isNumeralChar_of_isNumeral hnumeral atSign List.mem_cons_self
    revert hchar
    decide
  have hdot : ((atSign :: cs : Text) == ".") = false := beq_false_of_ne fun h => by cases h
  rw [symbolSource, hdot, hnumeral]
  rfl

/-- The layout of a tree begins with an at sign exactly if its text does. -/
theorem beginsPlainly_layout [CharNames] {style : Style} (hcolour : style.colour = false) (indent : Int)
    (quoted : Bool) {t : Tree} (ht : t.isVerbatim = true) :
    BeginsPlainly (t.layout style indent quoted) t.isSpliced := by
  -- lists may be broken into lines; everything else is laid out as its source
  cases t with
  | sym name =>
      rw [layout_sym hcolour]
      exact beginsPlainly_symbolSource name
  | list items =>
      cases items with
      | nil =>
          rw [layout]
          exact beginsPlainly_cons _ (by decide)
      | cons head others =>
          cases hshort : listShorthand? head (sources others).length with
          | some short =>
              rcases eq_of_listShorthand?_sources hshort with ⟨name, form, rfl, rfl, hname, -⟩
              rw [layout_shorthand style indent quoted hname]
              exact beginsPlainly_shorthand hname _
          | none =>
              rcases exists_layout_list_eq style indent quoted hshort with ⟨gap, -, heq⟩
              rw [heq]
              exact beginsPlainly_cons _ (by decide)
  | _ =>
      rw [layout]
      · exact beginsPlainly_source ht
      all_goals simp

/-! ## Trees -/

/-- A shorthand in front of the text of a form and in front of its layout. Where an at sign has made
a splice of the comma, the form is a symbol, which is laid out as it stands. -/
theorem sameTokens_shorthand [CharNames] {name short : Text}
    (hname : shorthand? name = some short) {form : Tree} (hform : form.isVerbatim = true)
    {text : Text} (htext : BeginsPlainly text form.isSpliced)
    (hsym : ∀ name, form = .sym name → text = symbolSource name)
    (h : SameTokens form.source text) : SameTokens (short ++ form.source) (short ++ text) := by
  by_cases hsplice : name = "," ∧ form.isSpliced = true
  · rcases hsplice with ⟨rfl, hspliced⟩
    obtain rfl : "," = short := Option.some.inj hname
    obtain ⟨cs, rfl⟩ : ∃ cs, form = .sym (atSign :: cs) := eq_of_isSpliced hspliced
    rw [hsym _ rfl, source, symbolSource_atSign]
    have hlong : shorthand? (",@" : Text) = some (",@" : Text) := rfl
    have hcomma : (",@" : Text) ≠ "," := by decide
    -- the at sign goes with the comma
    have hafter : SameTokens ((",@" : Text) ++ escapeRest cs) ((",@" : Text) ++ escapeRest cs) :=
      (sameTokens_escapeRest cs).shorthand hlong (fun _ h => (hcomma h).elim)
        fun _ h => (hcomma h).elim
    exact hafter
  · have hplain : name = "," → form.isSpliced = false :=
      fun hcomma => Bool.eq_false_iff.2 fun hspliced => hsplice ⟨hcomma, hspliced⟩
    refine h.shorthand hname (fun rest hcomma => ?_) fun rest hcomma => ?_
    · have hbegins := beginsPlainly_source hform
      rw [hplain hcomma] at hbegins
      exact hbegins.head?_ne rest
    · rw [hplain hcomma] at htext
      exact htext.head?_ne rest

/-- The elements of a list without a shorthand, with blanks between them in two ways. -/
theorem sameTokens_elements {items : List Tree} {f g : Tree → Text}
    (h : ∀ item ∈ items, SameTokens (f item) (g item)) {gap gap' : Text} (hgap : IsSpacing gap)
    (hgap' : IsSpacing gap') :
    SameTokens (openParen :: (gap.intercalate (items.map f) ++ [closeParen]))
      (openParen :: (gap'.intercalate (items.map g) ++ [closeParen])) := by
  have hopen : singleKind? openParen = some .openParen := rfl
  exact (SameTokens.intercalate h hgap hgap').enclosed hopen (.inl rfl)

/-- A list without shorthand has its items between parentheses. -/
theorem sourceOfItems_eq {head : Tree} {others : List Tree}
    (hshort : listShorthand? head (sources others).length = none) :
    sourceOfItems (head :: others) =
      openParen :: ((" " : Text).intercalate ((head :: others).map source) ++ [closeParen]) := by
  rw [sourceOfItems, listSource, hshort, sources_eq_map]
  rfl

/-- A symbol has the same tokens in front of blanks and of closing brackets. -/
theorem sameTokens_symbolSource (name : Text) :
    SameTokens (symbolSource name) (symbolSource name) :=
  .of_lexesTo fun _ hrest => lexesTo_symbolSource name hrest

/-- What is printed as the empty list. -/
theorem sameTokens_nil : SameTokens "nil" "nil" := by
  have hsource : symbolSource "nil" = "nil" := by decide
  have hsymbol := sameTokens_symbolSource "nil"
  rwa [hsource] at hsymbol

variable [CharNames]

/-- So has a list whose items have. -/
theorem sameTokens_sourceOfItems {items : List Tree}
    (hitems : ∀ item ∈ items, item.everywhere isVerbatim = true)
    (h : ∀ item ∈ items, SameTokens item.source item.source) :
    SameTokens (sourceOfItems items) (sourceOfItems items) := by
  cases items with
  | nil => exact sameTokens_nil
  | cons head others =>
      cases hshort : listShorthand? head (sources others).length with
      | some short =>
          rcases eq_of_listShorthand?_sources hshort with ⟨name, form, rfl, rfl, hname, hsource⟩
          have hmem : form ∈ [sym name, form] :=
            List.mem_cons_of_mem _ (List.mem_singleton_self form)
          have hform := test_of_everywhere (hitems form hmem)
          rw [hsource]
          refine sameTokens_shorthand hname hform (beginsPlainly_source hform) ?_ (h form hmem)
          rintro name rfl
          rw [source]
      | none =>
          rw [sourceOfItems_eq hshort]
          exact sameTokens_elements h isSpacing_space isSpacing_space

/-- The text of a tree has its tokens whatever the blanks around it. -/
theorem sameTokens_source {t : Tree} (ht : t.everywhere isVerbatim = true) :
    SameTokens t.source t.source := by
  induction t using induction_on_children with
  | h t ih =>
    have hparts : ∀ child ∈ t.children, child.everywhere isVerbatim = true :=
      fun child hchild => everywhere_children ht hchild
    have hchildren : ∀ child ∈ t.children, SameTokens child.source child.source :=
      fun child hchild => ih child hchild (hparts child hchild)
    have hroot := test_of_everywhere ht
    -- atoms have their tokens in front of any delimited text, lists have them item by item
    cases t with
    | nil => exact sameTokens_nil
    | absent => exact sameTokens_nil
    | bool value =>
        cases value with
        | false => exact sameTokens_nil
        | true =>
            have hsource : symbolSource "t" = "t" := by decide
            have hsymbol := sameTokens_symbolSource "t"
            rwa [hsource] at hsymbol
    | sym name => exact sameTokens_symbolSource name
    | lit value written =>
        exact .of_lexesTo fun rest _ =>
          lexesTo_of_readOne_lit (readOne_of_isReadable_lit hroot) rest
    | str value => exact .of_lexesTo fun rest _ => lexesTo_stringSource value rest
    | char code written =>
        exact .of_lexesTo fun _ hrest =>
          lexesTo_of_readOne_char (readOne_of_isReadable_char hroot) hrest
    | int value => exact .of_lexesTo fun _ hrest => lexesTo_toString value hrest
    | float value => exact .of_lexesTo fun _ hrest => Number.lexesTo_display value hrest
    | list items => exact sameTokens_sourceOfItems hparts hchildren
    | vec items =>
        have hopen : singleKind? openBracket = some .openBracket := rfl
        have hitems := SameTokens.intercalate hchildren isSpacing_space isSpacing_space
        rw [source, sources_eq_map]
        exact hitems.enclosed hopen (.inr rfl)
    | dot items tail =>
        have hitem : ∀ item ∈ items, item ∈ (dot items tail).children :=
          fun item hitem => List.mem_append_left _ hitem
        have htail : tail ∈ (dot items tail).children :=
          List.mem_append_right _ (List.mem_singleton_self tail)
        rw [source]
        split
        · exact sameTokens_sourceOfItems (fun item h => hparts item (hitem item h))
            fun item h => hchildren item (hitem item h)
        · have hopen : singleKind? openParen = some .openParen := rfl
          have hitems := SameTokens.intercalate (fun item h => hchildren item (hitem item h))
            isSpacing_space isSpacing_space
          have hinside := (hitems.dotted (hchildren tail htail)).enclosed hopen (.inl rfl)
          rw [sources_eq_map, spaced]
          simpa using hinside

/-- The text of a tree and its layout have the same tokens. -/
theorem sameTokens_layout {style : Style} (hcolour : style.colour = false) {t : Tree}
    (ht : t.everywhere isVerbatim = true) (indent : Int) (quoted : Bool) :
    SameTokens t.source (t.layout style indent quoted) := by
  induction t using induction_on_children generalizing indent quoted with
  | h t ih =>
    have hparts : ∀ child ∈ t.children, child.everywhere isVerbatim = true :=
      fun child hchild => everywhere_children ht hchild
    cases t with
    | sym name =>
        rw [layout_sym hcolour]
        exact sameTokens_source ht
    | list items =>
        cases items with
        | nil => exact sameTokens_source ht
        | cons head others =>
            cases hshort : listShorthand? head (sources others).length with
            | some short =>
                rcases eq_of_listShorthand?_sources hshort with
                  ⟨name, form, rfl, rfl, hname, hsource⟩
                have hmem : form ∈ (list [sym name, form]).children :=
                  List.mem_cons_of_mem _ (List.mem_singleton_self form)
                have hform := test_of_everywhere (hparts form hmem)
                rw [source, hsource, layout_shorthand style indent quoted hname]
                refine sameTokens_shorthand hname hform
                  (beginsPlainly_layout hcolour indent _ hform) ?_
                  (ih form hmem (hparts form hmem) indent _)
                rintro name rfl
                exact layout_sym hcolour indent _ name
            | none =>
                rcases exists_layout_list_eq style indent quoted hshort with ⟨gap, hgap, heq⟩
                rw [source, sourceOfItems_eq hshort, heq]
                exact sameTokens_elements
                  (fun item hitem => ih item hitem (hparts item hitem) (indent + 1) quoted)
                  isSpacing_space hgap
    -- any other tree is laid out as its text
    | _ =>
        rw [layout]
        · exact sameTokens_source ht
        all_goals simp

/-! ## Layouts -/

/-- The tokens of a text of several forms are those of one form after the other. -/
theorem lex_layoutForms {style : Style} (hcolour : style.colour = false) {forms : List Tree}
    (hforms : ∀ form ∈ forms, form.everywhere isVerbatim = true) :
    lex (layoutForms style forms) = ⟨forms.flatMap fun form => (lex form.source).tokens, none⟩ := by
  have hend : IsSpacing [newline] := by decide
  have hbetween : IsSpacing "\n\n" := by decide
  rw [layoutForms, layouts_eq_map]
  induction forms with
  | nil =>
      have hlex := (hend.lexesTo []).lex_append lex_nil
      simpa using hlex
  | cons form forms ih =>
      have hform := sameTokens_layout hcolour (hforms form List.mem_cons_self) 0 false
      have hothers := ih fun other hother => hforms other (List.mem_cons_of_mem form hother)
      cases forms with
      | nil => simpa using hform.lex_gap_append hend lex_nil
      | cons next forms =>
          have hlex := hform.lex_gap_append hbetween hothers
          rw [List.map_cons, List.map_cons, List.intercalate_cons_cons, List.flatMap_cons,
            List.append_assoc, List.append_assoc]
          exact hlex

/-- The reader sees a text through its tokens only. -/
theorem readAll_eq_of_lex_eq {a b : Text} (h : lex a = lex b) : readAll a = readAll b := by
  rw [readAll, readAll, TokenStream.ofSource, TokenStream.ofSource, h]

/-- Without colours, a layout has the tokens of the text on one line, for all trees whose literals
the reader made, and the layouts of several forms have the tokens of each in their order. So what is
read from them does not depend on the style. -/
theorem layout_keeps_tokens {style : Style} (hcolour : style.colour = false) :
    (∀ t : Tree, t.everywhere isVerbatim = true →
      ∀ indent quoted, lex (t.layout style indent quoted) = lex t.source) ∧
    ∀ forms : List Tree, (∀ form ∈ forms, form.everywhere isVerbatim = true) →
      lex (layoutForms style forms) =
          ⟨forms.flatMap fun form => (lex form.source).tokens, none⟩ ∧
        ∀ other : Style, other.colour = false →
          readAll (layoutForms other forms) = readAll (layoutForms style forms) := by
  refine ⟨fun t ht indent quoted => ?_, fun forms hforms => ⟨?_, fun other hother => ?_⟩⟩
  · exact (sameTokens_layout hcolour ht indent quoted).lex_eq.symm
  · exact lex_layoutForms hcolour hforms
  · refine readAll_eq_of_lex_eq ?_
    rw [lex_layoutForms hother hforms, lex_layoutForms hcolour hforms]

omit [CharNames] in
/-- Between a character and a string, a hole that is read as a splice. -/
theorem layout_keeps_tokens_of_narrow :
    ∃ form : Tree, form.everywhere (@isVerbatim .few) = true ∧
      form.layout { width := -1 } 0 false =
        "(f\n  ?\\N\x7bSNOWMAN\x7d\n  ,@?\n  \x22a\x22)" ∧
      lex (form.layout { width := -1 } 0 false) = lex form.source ∧
      lex (layoutForms { width := -1 } [form, .nil]) =
        ⟨(lex form.source).tokens ++ (lex (source .nil)).tokens, none⟩ := by
  have hchar : @isVerbatim .few (.char 0x2603 "?\\N\x7bSNOWMAN\x7d") = true := by decide +kernel
  have hlit : @isVerbatim .few (.lit "a" "\x22a\x22") = true := by cbv
  have hform : (list [.sym "f", .char 0x2603 "?\\N\x7bSNOWMAN\x7d", list [.sym ",", .sym "@?"],
      .lit "a" "\x22a\x22"]).everywhere (@isVerbatim .few) = true := by
    simp only [everywhere, everywhereIn, hchar, hlit]
    rfl
  have hforms : ∀ form ∈ [list [.sym "f", .char 0x2603 "?\\N\x7bSNOWMAN\x7d",
      list [.sym ",", .sym "@?"], .lit "a" "\x22a\x22"], .nil],
      form.everywhere (@isVerbatim .few) = true :=
    List.forall_mem_cons.2 ⟨hform, List.forall_mem_singleton.2 rfl⟩
  rcases @layout_keeps_tokens .few { width := -1 } rfl with ⟨hone, hall⟩
  refine ⟨_, hform, by decide, hone _ hform 0 false, ?_⟩
  simpa using (hall _ hforms).1

end LispNamespace.Tree
