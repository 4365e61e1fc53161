import JsxEdit.Proofs.Made
import JsxEdit.Proofs.Upkeep

/-
Plain markup stays plain through every run of edits, so that every edited document can be read back.

Plain markup is a discipline. Markup is found in it only between tags, never below an attribute, so replacing markup
replaces one plain child by another. What edits write themselves is white space, texts in which the characters of markup
are escaped, and attribute strings between quotes that they do not contain.
-/
set_option autoImplicit false

namespace JsxEdit

/-- A document whose only child is plain markup. -/
inductive PlainDocument : Node → Prop where
  | document {source : Option String} {info : Info} {t : Node} (plain : Plain t) (markup : t.kind.isMarkup = true) :
    PlainDocument (.mk (.document source) info [] [t])

/-! ## Places in plain markup -/

/-- There is nothing below a node without attributes and children. -/
theorem Node.get?_leaf {k : Kind} {i : Info} {m : Node} {p : Path} (hk : k.isElement = false)
    (hm : (Node.mk k i [] []).get? p = some m) : m = .mk k i [] [] := by
  cases p with
  | nil => exact (Option.some.inj hm).symm
  | cons step p =>
    cases step with
    | child j =>
      rw [Node.get?_child] at hm
      cases hm
    | attributes =>
      rw [Node.get?_attributes, Node.kind_mk, hk] at hm
      cases hm

theorem PlainValue.no_markup {v m : Node} {p : Path} (h : PlainValue v) (hm : v.get? p = some m) :
    m.kind.isMarkup = false := by
  cases h with
  | string =>
    rw [Node.get?_leaf rfl hm]
    rfl
  | number =>
    cases p with
    | nil =>
      cases hm
      rfl
    | cons step p =>
      cases step with
      | child j =>
        obtain ⟨c, hc, hm⟩ := Option.bind_eq_some_iff.mp hm
        obtain rfl := List.mem_singleton.mp (List.mem_of_getElem? hc)
        rw [Node.get?_leaf rfl hm]
        rfl
      | attributes => cases hm

theorem PlainAttribute.no_markup {a m : Node} {p : Path} (h : PlainAttribute a) (hm : a.get? p = some m) :
    m.kind.isMarkup = false := by
  cases h with
  | attr isName blank spaced plain =>
    cases p with
    | nil =>
      cases hm
      rfl
    | cons step p =>
      cases step with
      | child j =>
        obtain ⟨c, hc, hm⟩ := Option.bind_eq_some_iff.mp hm
        exact (plain c (Option.mem_toList.mp (List.mem_of_getElem? hc))).no_markup hm
      | attributes => cases hm

namespace Plain

/-- The children of plain markup are plain. -/
theorem child {t c : Node} (h : Plain t) (hmarkup : t.kind.isMarkup = true) (hc : c ∈ t.children) : Plain c := by
  cases h with
  | element isName blank childless closing attributes children => exact children c hc
  | fragment children => exact children c hc
  | text => cases hmarkup
  | string => cases hmarkup

/-- Plain markup may be given other plain children, if it has some. -/
theorem withChildren {t : Node} {cs : List Node} (h : Plain t) (hmarkup : t.kind.isMarkup = true)
    (hempty : t.children = [] → cs = []) (hcs : ∀ c ∈ cs, Plain c) : Plain (t.withChildren cs) := by
  cases h with
  | element isName blank childless closing attributes children =>
    exact .element isName blank (fun hself => hempty (childless hself)) closing attributes hcs
  | fragment children => exact .fragment hcs
  | text => cases hmarkup
  | string => cases hmarkup

/-- Markup in plain markup is plain, and may be replaced by other plain markup. -/
theorem get_set {t m : Node} {p : Path} (h : Plain t) (hm : t.get? p = some m) (hmarkup : m.kind.isMarkup = true) :
    Plain m ∧ ∀ m', Plain m' → Plain (t.set p m') := by
  induction p generalizing t with
  | nil =>
    cases hm
    exact ⟨h, fun m' hm' => hm'⟩
  | cons step p ih =>
    cases step with
    | child i =>
      obtain ⟨c, hc, hm⟩ := Option.bind_eq_some_iff.mp hm
      have hmem : c ∈ t.children := List.mem_of_getElem? hc
      have hkind : t.kind.isMarkup = true := by
        cases h with
        | element => rfl
        | fragment => rfl
        | text => cases hmem
        | string =>
          obtain rfl := List.mem_singleton.mp hmem
          rw [Node.get?_leaf rfl hm] at hmarkup
          cases hmarkup
      obtain ⟨hplain, hset⟩ := ih (h.child hkind hmem) hm
      refine ⟨hplain, fun m' hm' => ?_⟩
      rw [Node.set, Node.modify_child]
      refine h.withChildren hkind (fun hempty => ?_) (Discipline.listModify (fun c hc => h.child hkind hc) hc fun _ => ?_)
      · rw [hempty] at hmem
        cases hmem
      · exact hset m' hm'
    | attributes =>
      -- below an attribute there is no markup
      exfalso
      cases h with
      | element isName blank childless closing attributes children =>
        replace hm : (Node.new .attributes _).get? p = some m := hm
        cases p with
        | nil =>
          cases hm
          cases hmarkup
        | cons step p =>
          cases step with
          | child j =>
            obtain ⟨a, ha, hm⟩ := Option.bind_eq_some_iff.mp hm
            rw [(attributes a (List.mem_of_getElem? ha)).no_markup hm] at hmarkup
            cases hmarkup
          | attributes => cases hm
      | fragment => cases hm
      | text => cases hm
      | string => cases hm

/-! ## What edits do to plain nodes -/

theorem blank {s : String} {info : Info} (h : Text.isBlank s = true) : Plain (.mk (.text s) info [] []) := by
  have hspace : ∀ c ∈ s.toList, Text.isSpace c = true := List.all_eq_true.mp h
  exact .text (fun hc => absurd (hspace _ hc) (by decide)) fun hc => absurd (hspace _ hc) (by decide)

theorem withMark {t : Node} {mark : Option Nat} (h : Plain t) : Plain (t.withMark mark) := by
  cases h with
  | element isName blank childless closing attributes children =>
    exact .element isName blank childless closing attributes children
  | fragment children => exact .fragment children
  | text angle brace => exact .text angle brace
  | string quote body => exact .string quote body

theorem opened {t : Node} {cs : List Node} (h : Plain t) (hmarkup : t.kind.isMarkup = true) (hcs : ∀ c ∈ cs, Plain c) :
    Plain (t.opened.withChildren cs) := by
  cases h with
  | @element name spaceEnd selfClosing closingName info as cs' isName blank childless closing attributes children =>
    cases selfClosing with
    | false => exact .element isName blank (fun hself => by cases hself) closing attributes hcs
    | true =>
      have hspace : Text.isBlank (if spaceEnd.toList.contains '\n' then spaceEnd else "") = true := by
        split
        · exact blank
        · rfl
      exact .element isName hspace (fun hself => by cases hself) closing attributes hcs
  | fragment children => exact .fragment hcs
  | text => cases hmarkup
  | string => cases hmarkup

theorem closed {t : Node} (h : Plain t) (hempty : t.children = []) : Plain t.closed := by
  cases h with
  | @element name spaceEnd selfClosing closingName info as cs isName blank childless closing attributes children =>
    obtain rfl : cs = [] := hempty
    cases selfClosing with
    | true => exact .element isName blank childless closing attributes children
    | false =>
      have hspace : Text.isBlank (if spaceEnd.isEmpty then " " else spaceEnd) = true := by
        split
        · rfl
        · exact blank
      exact .element isName hspace (fun _ => rfl) closing attributes children
  | fragment children => exact .fragment children
  | text angle brace => exact .text angle brace
  | string => cases hempty

theorem renamed {t : Node} {name : String} (h : Plain t) (hname : Text.IsFullName .tag name) :
    Plain (Edit.renamed name t) := by
  cases h with
  | element isName blank childless closing attributes children =>
    exact .element hname blank childless (.inl rfl) attributes children
  | fragment children => exact .fragment children
  | text angle brace => exact .text angle brace
  | string quote body => exact .string quote body

end Plain

theorem PlainValue.copy {v : Node} (h : PlainValue v) : PlainValue v.copy := by
  cases h with
  | string quote body => exact .string quote body
  | number before after => exact .number before after

theorem PlainAttribute.copy {a : Node} (h : PlainAttribute a) : PlainAttribute a.copy := by
  cases h with
  | @attr name space info value isName blank spaced plain =>
    have hcopy : (Node.mk (.attr name space) info [] value.toList).copy =
        .mk (.attr name space) {} [] (value.map Node.copy).toList := by
      cases value <;> rfl
    rw [hcopy]
    refine .attr isName blank spaced fun v hv => ?_
    obtain ⟨w, hw, rfl⟩ := Option.map_eq_some_iff.mp hv
    exact (plain w hw).copy

/-- There is no white space below an attribute. -/
theorem PlainAttribute.reindent {a : Node} (h : PlainAttribute a) (s : String) :
    (Indent.reindent s a).withKind (Indent.reindentKind s a.kind) = a := by
  cases h with
  | @attr name space info value isName blank spaced plain =>
    cases value with
    | none => rfl
    | some v =>
      cases plain v rfl with
      | string => rfl
      | number => rfl

namespace Plain

theorem copy {t : Node} (h : Plain t) : Plain t.copy := by
  induction h with
  | @element name spaceEnd selfClosing closingName info as cs isName blank childless closing attributes children ih =>
    rw [Node.copy, Node.copyAll_eq_map, Node.copyAll_eq_map]
    refine .element isName blank (fun hself => ?_) (.inl rfl) (List.forall_mem_map.mpr fun a ha => (attributes a ha).copy)
      (List.forall_mem_map.mpr ih)
    rw [childless (Bool.and_eq_true_iff.mp hself).1]
    rfl
  | fragment children ih =>
    rw [Node.copy, Node.copyAll_eq_map, Node.copyAll_eq_map]
    exact .fragment (List.forall_mem_map.mpr ih)
  | text angle brace => exact .text angle brace
  | string quote body => exact .string quote body

/-- Indenting what is below a node, and the node itself if it is white space. -/
theorem reindent_both {t : Node} {s : String} (h : Plain t) (hs : Text.isBlank s = true) :
    Plain (Indent.reindent s t) ∧ Plain ((Indent.reindent s t).withKind (Indent.reindentKind s t.kind)) := by
  induction h with
  | @element name spaceEnd selfClosing closingName info as cs isName blank childless closing attributes children ih =>
    have has : ∀ a ∈ Indent.reindentAll s as, PlainAttribute a := by
      rw [Indent.reindentAll_eq_map]
      refine List.forall_mem_map.mpr fun a ha => ?_
      rw [(attributes a ha).reindent]
      exact attributes a ha
    have hcs : ∀ c ∈ Indent.reindentAll s cs, Plain c := by
      rw [Indent.reindentAll_eq_map]
      exact List.forall_mem_map.mpr fun c hc => (ih c hc).2
    have hchildless : selfClosing = true → Indent.reindentAll s cs = [] := fun hself => by
      rw [childless hself]
      rfl
    exact ⟨.element isName blank hchildless closing has hcs, .element isName blank hchildless closing has hcs⟩
  | @fragment info cs children ih =>
    have hcs : ∀ c ∈ Indent.reindentAll s cs, Plain c := by
      rw [Indent.reindentAll_eq_map]
      exact List.forall_mem_map.mpr fun c hc => (ih c hc).2
    exact ⟨.fragment hcs, .fragment hcs⟩
  | @text s' info angle brace =>
    refine ⟨.text angle brace, ?_⟩
    have hkind : Indent.reindentKind s (.text s') = .text s' ∨
        ∃ s'', Indent.reindentKind s (.text s') = .text s'' ∧ Text.isBlank s'' = true := by
      rw [Indent.reindentKind]
      split
      · next hblank => exact .inr ⟨_, rfl, Text.isBlank_replace_feed (Bool.and_eq_true_iff.mp hblank).1 hs⟩
      · exact .inl rfl
    rw [Node.kind_mk]
    rcases hkind with hkind | ⟨s'', hkind, hblank⟩
    · rw [hkind]
      exact .text angle brace
    · rw [hkind]
      exact .blank hblank
  | string quote body => exact ⟨.string quote body, .string quote body⟩

/-- The nodes for a text with white space around it. -/
theorem textNodes (s : String) {lead trail : String} (hlead : Text.isBlank lead = true)
    (htrail : Text.isBlank trail = true) : ∀ c ∈ Edit.textNodes s lead trail, Plain c := by
  have hplain := (Build.text_plain s).1
  unfold Edit.textNodes
  dsimp only
  split
  · next htext =>
    -- the text has no characters of markup, and neither has the white space
    have hmarkup : s.toList.any Build.isMarkupChar = false := by
      unfold Build.text at htext
      split at htext
      · cases htext
      · next hnot => simpa using hnot
    have hspace : ∀ t, Text.isBlank t = true → ∀ c, Build.isMarkupChar c = true → c ∉ t.toList := by
      intro t ht c hc hmem
      have hblank : Text.isSpace c = true := List.all_eq_true.mp ht c hmem
      simp only [Build.isMarkupChar, Bool.or_eq_true, beq_iff_eq] at hc
      rcases hc with ((rfl | rfl) | rfl) | rfl <;> revert hblank <;> decide
    have hnone : ∀ c, Build.isMarkupChar c = true → c ∉ (lead ++ s ++ trail).toList := by
      intro c hc hmem
      rw [String.toList_append, String.toList_append, List.mem_append, List.mem_append] at hmem
      rcases hmem with (hmem | hmem) | hmem
      · exact hspace lead hlead c hc hmem
      · rw [List.any_eq_false] at hmarkup
        exact hmarkup c hmem hc
      · exact hspace trail htrail c hc hmem
    exact List.forall_mem_singleton.mpr (.text (hnone _ rfl) (hnone _ rfl))
  · rw [List.forall_mem_append, List.forall_mem_cons]
    refine ⟨?_, hplain, ?_⟩
    · split
      · exact List.forall_mem_nil _
      · exact List.forall_mem_singleton.mpr (.blank hlead)
    · split
      · exact List.forall_mem_nil _
      · exact List.forall_mem_singleton.mpr (.blank htrail)

theorem replaceText {n : Node} {s old : String} {new : List Node} (h : Plain n)
    (hr : Edit.replaceText s n = .ok (some (new, old))) : ∀ c ∈ new, Plain c := by
  cases h with
  | element => cases hr
  | fragment => cases hr
  | text =>
    unfold Edit.replaceText at hr
    dsimp only [Node.kind_mk] at hr
    split at hr
    · cases hr
    · cases hr
      exact textNodes s (Text.isBlank_lead _) (Text.isBlank_trail _)
  | @string raw q info inner quote body =>
    cases hr
    exact List.forall_mem_singleton.mpr (.string quote (Literal.isBody_rawString quote s))

end Plain

/-! ## The discipline -/

/-- Plain markup as a discipline. Styles are objects, which are not plain. -/
def plainDiscipline : Discipline where
  Whole := PlainDocument
  Child := Plain
  Attr := PlainAttribute
  Value := PlainValue
  TagName := Text.IsFullName .tag
  AttrName := Text.IsFullName .attr
  Styled := False
  child_at {tree m p} h hm hmarkup := by
    cases h with
    | document plain markup =>
      cases p with
      | nil =>
        cases hm
        cases hmarkup
      | cons step p =>
        cases step with
        | child i =>
          obtain ⟨c, hc, hget⟩ := Option.bind_eq_some_iff.mp hm
          obtain rfl := List.mem_singleton.mp (List.mem_of_getElem? hc)
          exact (plain.get_set hget hmarkup).1
        | attributes => cases hm
  whole_set {tree m m' p} h hm hmarkup hm' hmarkup' := by
    cases h with
    | @document source info t plain markup =>
      cases p with
      | nil =>
        cases hm
        cases hmarkup
      | cons step p =>
        cases step with
        | child i =>
          obtain ⟨c, hc, hget⟩ := Option.bind_eq_some_iff.mp hm
          obtain rfl := List.mem_singleton.mp (List.mem_of_getElem? hc)
          obtain rfl : i = 0 := by
            have hi := (List.getElem?_eq_some_iff.mp hc).1
            simpa using hi
          refine .document ((plain.get_set hget hmarkup).2 m' hm') ?_
          cases p with
          | nil => exact hmarkup'
          | cons step p =>
            rw [Node.kind_modify _ (List.cons_ne_nil step p)]
            exact markup
        | attributes => cases hm
  child_of h hmarkup hc := h.child hmarkup hc
  withChildren h hmarkup hempty hcs := h.withChildren hmarkup hempty hcs
  adopted h hmarkup hcs := h.opened hmarkup hcs
  closed h _ hempty := h.closed hempty
  renamed h hname := h.renamed hname
  blank h := .blank h
  reblanked {n s t} h hk ht := by
    cases h with
    | element => cases hk
    | fragment => cases hk
    | text => exact .blank ht
    | string => cases hk
  text s := (Build.text_plain s).1
  retexted h hr := h.replaceText hr
  copied h := h.copy
  withMark h := h.withMark
  reindented h hs := (h.reindent_both hs).1
  attr_of {n a} h hk ha := by
    cases h with
    | element isName blank childless closing attributes children => exact attributes a ha
    | fragment => cases hk
    | text => cases hk
    | string => cases hk
  withAttributes {n as} h hk has := by
    cases h with
    | element isName blank childless closing attributes children =>
      exact .element isName blank childless closing has children
    | fragment => cases hk
    | text => cases hk
    | string => cases hk
  attr_new hname hv := .attr hname rfl (by decide) hv
  attr_value {a name v} h _ hv := by
    cases h with
    | attr isName blank spaced plain => exact .attr isName blank spaced hv
  className := rfl
  quoted h := (Literal.attributeString_plain h).1
  styled h := h.elim

/-! ## Runs -/

namespace Edit.Command

/-- What a command brings into the tree is plain: elements and fragments, names that are read in full, texts, whole
numbers and truth values. Styles are left alone. -/
def IsPlain : Command → Prop
  | .insert _ _ request => ∃ n, request.spec = .node n ∧ Plain n ∧ n.kind.isMarkup = true
  | .insertAtRoot _ _ request => ∃ n, request.spec = .node n ∧ Plain n ∧ n.kind.isMarkup = true
  | .updateAttribute _ name value => ∃ s, name = .str s ∧ Text.IsFullName .attr s ∧ Build.IsSimple value
  | .updateAttributes _ values => ∀ e ∈ values, Text.IsFullName .attr e.1 ∧ Build.IsSimple e.2
  | .updateTagName _ name => ∃ s, name = .str s ∧ Text.IsFullName .tag s
  | .replaceChildren _ children => ∃ vs, Template.items children = .ok vs ∧
      ∀ v ∈ vs, (∃ s, v = .str s) ∨ ∃ n, v = .node n ∧ Plain n
  | .updateStyles .. | .setSpacing .. | .setMargin .. | .setPadding .. => False
  | _ => True

/-- Values that stand for leaving an attribute out give no node. -/
theorem gives_simple {v : Value Node} (h : Build.IsSimple v) : plainDiscipline.Gives v := by
  intro w hw x hx
  cases habsent : Build.isAbsent v with
  | false => exact (Build.attributeValue_plain h habsent hw).1 x hx
  | true =>
    cases v with
    | null => cases hw
    | bool b =>
      cases b with
      | false => cases hw
      | true => cases habsent
    | int n => cases habsent
    | str s => cases habsent
    | float d => cases habsent
    | list items => cases habsent
    | dict entries => cases habsent
    | node n => cases habsent

theorem serves_plain {r : Request} (h : ∃ n, r.spec = .node n ∧ Plain n ∧ n.kind.isMarkup = true) :
    plainDiscipline.Serves r := by
  obtain ⟨n, hspec, hplain, -⟩ := h
  intro m log hm
  rw [hspec] at hm
  cases hm
  exact hplain

theorem IsPlain.respects {c : Command} (h : c.IsPlain) : plainDiscipline.Respects c := by
  cases c with
  | insert id position request => exact serves_plain h
  | insertAtRoot position component request => exact serves_plain h
  | updateAttribute id name value =>
    obtain ⟨s, rfl, hname, hvalue⟩ := h
    refine ⟨fun s' hs' _ => ?_, gives_simple hvalue⟩
    cases hs'
    exact hname
  | updateAttributes id values => exact fun e he => ⟨fun _ => (h e he).1, gives_simple (h e he).2⟩
  | updateTagName id name =>
    obtain ⟨s, rfl, hname⟩ := h
    intro s' hs' _
    cases hs'
    exact hname
  | replaceChildren id children =>
    obtain ⟨vs, hvs, hall⟩ := h
    intro vs' hvs' n hn
    obtain rfl := Except.ok.inj (hvs.symm.trans hvs')
    rcases hall _ hn with ⟨s, hs⟩ | ⟨m, hm, hplain⟩
    · cases hs
    · cases hm
      exact hplain
  | updateStyles => exact h
  | setSpacing => exact h
  | setMargin => exact h
  | setPadding => exact h
  | _ => trivial

end Edit.Command

/-- The document is written and read back: there is one node in what is read, which is the only child of the document
with its texts joined, as far as its references can be read. -/
def ReadsBackWhole (tree : Node) : Prop :=
  ∃ t text c, tree.children = [t] ∧ tree.generate true = .ok text ∧
    Source.parse text = .ok (.new (.document (some text)) [c]) ∧
    c.equals t.joined = if t.isReadable then .ok true else .error .badNumber

theorem PlainDocument.readsBack {tree : Node} (h : PlainDocument tree) : ReadsBackWhole tree := by
  cases h with
  | @document source info t plain markup =>
    obtain ⟨text, c, hgenerate, hparse, hequals⟩ := plain.readsBack markup
    obtain rfl : t.write = text := Except.ok.inj (plain.generate_document.symm.trans hgenerate)
    exact ⟨t, t.write, c, rfl, plain.generate_document, hparse, hequals⟩

namespace Edit.Command

/-- After every step of a run of plain edits the document has one child, which is plain markup, and can be read back. -/
theorem runAll_plain (tree : Node) (h : PlainDocument tree) (commands : List Command) (hc : ∀ c ∈ commands, c.IsPlain)
    (steps : List Command) (hsteps : steps <+: commands) :
    PlainDocument (runAll tree steps) ∧ ReadsBackWhole (runAll tree steps) := by
  have hplain : PlainDocument (runAll tree steps) :=
    plainDiscipline.runAll h fun c hmem => (hc c (hsteps.subset hmem)).respects
  exact ⟨hplain, hplain.readsBack⟩

/-- A page with a text. -/
def plainPage : Node := .new (.document none) [identified "main" "page" [.text " Hello "]]

/-- A text with quotes, a backslash, characters of markup and a line feed, a new element, an attribute with both quotes,
a class name, a new tag name, and other children. -/
def plainChanges : List Command :=
  [.updateText "page" "1 < 2\\ \"it's\"\n",
    .insert "page" "last_child" ⟨.node (identified "p" "item" []), [], [], 4, none⟩,
    .updateAttribute "page" (.str "title") (.str "say \"it's\""),
    .addClassName "page" "wide",
    .updateTagName "page" (.str "My.Page"),
    .replaceChildren "item" (.list [.str "a", .str "\x7bb\x7d", .node (.element "br" [] [])])]

theorem plain_identified {tag id : String} {children : List Node} (hname : Text.IsFullName .tag tag)
    (hid : '"' ∉ id.toList) (hc : ∀ c ∈ children, Plain c) : Plain (identified tag id children) := by
  have hspace : Text.isBlank (if children.isEmpty then " " else "") = true := by
    split <;> rfl
  refine .element hname hspace (fun hempty => List.isEmpty_iff.mp hempty) (.inl rfl) ?_ hc
  refine List.forall_mem_singleton.mpr (.attr rfl rfl (by decide) fun v hv => ?_)
  obtain rfl := Option.mem_some.mp hv
  exact .string (q := '"') (.inl rfl) hid

theorem plain_plainChanges : ∀ c ∈ plainChanges, c.IsPlain := by
  have hbreak : Plain (.element "br" [] []) :=
    .element rfl rfl (fun _ => rfl) (.inl rfl) (List.forall_mem_nil _) (List.forall_mem_nil _)
  have hitem : Plain (identified "p" "item" []) := plain_identified rfl (by decide) (List.forall_mem_nil _)
  simp only [plainChanges, List.forall_mem_cons]
  refine ⟨trivial, ⟨_, rfl, hitem, rfl⟩, ⟨_, rfl, rfl, trivial⟩, trivial, ⟨_, rfl, rfl⟩, ⟨_, rfl, ?_⟩,
    List.forall_mem_nil _⟩
  simp only [List.forall_mem_cons]
  exact ⟨.inl ⟨_, rfl⟩, .inl ⟨_, rfl⟩, .inr ⟨_, rfl, hbreak⟩, List.forall_mem_nil _⟩

theorem runAll_plain_changes :
    PlainDocument plainPage ∧ (∀ c ∈ plainChanges, c.IsPlain) ∧
      (runAll plainPage plainChanges).write =
        "<My.Page data-editable=\"page\" title=\"say &quot;it's&quot;\" className=\"wide\"> " ++
          "\x7b'1 < 2\\\\ \"it\\'s\"\\n'\x7d\n    <p data-editable=\"item\">a\x7b'\x7bb\x7d'\x7d<br /></p>\n</My.Page>" ∧
      PlainDocument (runAll plainPage plainChanges) ∧ ReadsBackWhole (runAll plainPage plainChanges) := by
  have hpage : PlainDocument plainPage :=
    .document (plain_identified rfl (by decide) (List.forall_mem_singleton.mpr (.text (by decide) (by decide)))) rfl
  exact ⟨hpage, plain_plainChanges, by decide +kernel,
    runAll_plain plainPage hpage plainChanges plain_plainChanges plainChanges List.prefix_rfl⟩

end Edit.Command
end JsxEdit
