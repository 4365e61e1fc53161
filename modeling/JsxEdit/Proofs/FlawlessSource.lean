import JsxEdit.Proofs.Faithful
import JsxEdit.Proofs.FlawlessTree
import JsxEdit.Proofs.Plain

/-
What is read from a source text has no flaw, unless it is marked as invalid.

The rules of an opening tag see to this: its name is one from the first to the last character, and so are the names of
attributes; an attribute takes a value only while it has none; an element that closes itself has no children, and the
closing tag of any other has its name. All other nodes may have what children they like, or are slots with one expression
at most.
-/
set_option autoImplicit false

namespace JsxEdit

/-- A tree that has no flaw if all of it could be read as markup. -/
def Node.Fair (n : Node) : Prop := n.isValid = true → n.Flawless

namespace Node

theorem fair_mk {k : Kind} {i : Info} {as cs : List Node} (hk : k.Permits cs.length) (has : ∀ a ∈ as, a.Fair)
    (hcs : ∀ c ∈ cs, c.Fair) : (mk k i as cs).Fair := by
  intro hvalid
  rw [isValid, Bool.and_eq_true, Bool.and_eq_true, allValid_iff, allValid_iff] at hvalid
  exact flawless_mk.mpr ⟨hk, fun a ha => has a ha (hvalid.1.2 a ha), fun c hc => hcs c hc (hvalid.2 c hc)⟩

theorem fair_new {k : Kind} {cs : List Node} (hk : k.Permits cs.length) (hcs : ∀ c ∈ cs, c.Fair) : (new k cs).Fair :=
  fair_mk hk (List.forall_mem_nil _) hcs

theorem fair_leaf {k : Kind} {i : Info} (hk : k.Permits 0) : (mk k i [] []).Fair :=
  fair_mk hk (List.forall_mem_nil _) (List.forall_mem_nil _)

theorem Flawless.fair {n : Node} (h : n.Flawless) : n.Fair := fun _ => h

/-- Places that are no markup are marked as invalid. -/
theorem fair_invalid (reason : String) (t : Token) : (Markup.invalid reason t).Fair := by
  intro hvalid
  rw [Tag.invalid_isValid] at hvalid
  cases hvalid

end Node

/-! ## Parts of expressions -/

/-- Nodes among the tokens are fair. -/
def Leaf.Fair : Leaf → Prop
  | .token _ => True
  | .node n => n.Fair

/-- All nodes that may be taken from a group are fair. -/
structure Group.Fair (g : Group) : Prop where
  inside : ∀ l ∈ g.inside, l.Fair
  reading : ∀ n ∈ g.reading.node, n.Fair
  object : ∀ n ∈ g.object, n.Fair

/-- All nodes that may be taken from a part are fair. -/
def Part.Fair : Part → Prop
  | .leaf l => l.Fair
  | .group g => g.Fair
  | .content nodes _ => ∀ n ∈ nodes, n.Fair

theorem Leaf.fair_code {pending : List Token} {leaves : List Leaf} (h : ∀ l ∈ leaves, l.Fair) :
    ∀ n ∈ codeFrom pending leaves, n.Fair := by
  have hcode : ∀ tokens, (codeNode tokens).Fair := fun tokens => Node.fair_leaf trivial
  induction leaves generalizing pending with
  | nil =>
    rw [codeFrom]
    split
    · exact List.forall_mem_nil _
    · exact List.forall_mem_singleton.mpr (hcode _)
  | cons l leaves ih =>
    rw [List.forall_mem_cons] at h
    cases l with
    | token t => exact ih h.2
    | node n =>
      rw [codeFrom]
      split
      · exact List.forall_mem_cons.mpr ⟨h.1, ih h.2⟩
      · exact List.forall_mem_cons.mpr ⟨hcode _, List.forall_mem_cons.mpr ⟨h.1, ih h.2⟩⟩

namespace Part

variable {parts : List Part}

theorem fair_leaves {p : Part} (h : p.Fair) : ∀ l ∈ p.leaves, l.Fair := by
  cases p with
  | leaf l => exact List.forall_mem_singleton.mpr h
  | content nodes close => exact fun l hl => nomatch hl
  | group g =>
    intro l hl
    rcases List.mem_append.mp hl with hl | hl
    · rcases List.mem_cons.mp hl with rfl | hl
      · trivial
      · exact h.inside l hl
    · obtain ⟨t, -, rfl⟩ := Option.map_eq_some_iff.mp (Option.mem_toList.mp hl)
      trivial

theorem fair_allLeaves (h : ∀ p ∈ parts, p.Fair) : ∀ l ∈ allLeaves parts, l.Fair := by
  intro l hl
  obtain ⟨p, hp, hl⟩ := List.mem_flatMap.mp hl
  exact fair_leaves (h p hp) l hl

theorem fair_object? (h : ∀ p ∈ parts, p.Fair) : ∀ n ∈ object? parts, n.Fair := by
  intro n hn
  unfold object? at hn
  split at hn
  · next g hg =>
    split at hn
    · have hmem : Part.group g ∈ parts := (List.mem_filter.mp (hg ▸ List.mem_cons_self)).1
      exact Group.Fair.object (h _ hmem) n hn
    · cases hn
  · cases hn

theorem fair_reading (h : ∀ p ∈ parts, p.Fair) : ∀ n ∈ (reading parts).node, n.Fair := by
  intro n hn
  rw [reading] at hn
  cases htext : Leaf.tokenText? (allLeaves parts) with
  | none =>
    rw [htext] at hn
    obtain rfl : Node.new .script _ = n := Option.some.inj hn
    exact Node.fair_new trivial (Leaf.fair_code (fair_allLeaves h))
  | some text =>
    rw [htext] at hn
    dsimp only at hn
    split at hn
    · cases hn
    · rw [← Option.some.inj hn]
      cases hobject : object? parts with
      | none =>
        rw [Option.getD_none]
        exact (Expression.flawless_ofText text).fair
      | some o =>
        rw [Option.getD_some]
        exact fair_object? h o hobject

theorem mem_of_splitOn {p : Part → Bool} {item : List Part} (h : item ∈ splitOn p parts) : ∀ x ∈ item, x ∈ parts := by
  induction parts generalizing item with
  | nil =>
    obtain rfl := List.mem_singleton.mp h
    exact fun x hx => nomatch hx
  | cons y parts ih =>
    rw [splitOn] at h
    have hrest : ∀ {item}, item ∈ splitOn p parts → ∀ x ∈ item, x ∈ y :: parts :=
      fun hitem x hx => List.mem_cons_of_mem y (ih hitem x hx)
    split at h
    · rcases List.mem_cons.mp h with rfl | h
      · exact fun x hx => nomatch hx
      · exact hrest h
    · split at h
      · obtain rfl := List.mem_singleton.mp h
        exact List.forall_mem_singleton.mpr List.mem_cons_self
      · next first rest hsplit =>
        rw [hsplit] at hrest
        rcases List.mem_cons.mp h with rfl | h
        · exact List.forall_mem_cons.mpr ⟨List.mem_cons_self, hrest List.mem_cons_self⟩
        · exact hrest (List.mem_cons_of_mem first h)

theorem fair_property? {node : Node} {trail : String} (h : ∀ p ∈ parts, p.Fair)
    (hp : property? parts = some (node, trail)) : node.Fair := by
  unfold property? at hp
  obtain ⟨colon, -, hp⟩ := Option.bind_eq_some_iff.mp hp
  obtain ⟨tokens, -, hp⟩ := Option.bind_eq_some_iff.mp hp
  dsimp only at hp
  split at hp
  · cases hp
  · obtain ⟨value, hvalue, hp⟩ := Option.bind_eq_some_iff.mp hp
    cases hp
    have hfair := fair_reading (fun p hp => h p (List.mem_of_mem_drop hp)) value hvalue
    exact Node.fair_new trivial (List.forall_mem_singleton.mpr hfair)

theorem fair_properties {items : List (List Part)} {found : List (Node × String)}
    (h : ∀ item ∈ items, ∀ p ∈ item, p.Fair) (hf : items.mapM property? = some found) : ∀ e ∈ found, e.1.Fair := by
  induction items generalizing found with
  | nil =>
    cases hf
    exact fun e he => nomatch he
  | cons item items ih =>
    rw [List.forall_mem_cons] at h
    rw [List.mapM_cons] at hf
    obtain ⟨first, hfirst, hf⟩ := Option.bind_eq_some_iff.mp hf
    obtain ⟨rest, hrest, hf⟩ := Option.bind_eq_some_iff.mp hf
    cases hf
    exact List.forall_mem_cons.mpr ⟨fair_property? h.1 hfirst, ih h.2 hrest⟩

theorem fair_asObject (h : ∀ p ∈ parts, p.Fair) : ∀ n ∈ asObject parts, n.Fair := by
  intro n hn
  unfold asObject at hn
  dsimp only at hn
  obtain ⟨properties, hproperties, hn⟩ := Option.bind_eq_some_iff.mp hn
  cases hn
  have hitems : ∀ item ∈ splitOn (isSeparator ",") parts, ∀ p ∈ item, p.Fair :=
    fun item hitem p hp => h p (mem_of_splitOn hitem p hp)
  refine Node.fair_new trivial (List.forall_mem_map.mpr (fair_properties ?_ hproperties))
  split
  · exact fun item hitem => hitems item (List.dropLast_subset _ hitem)
  · exact hitems

theorem fair_asGroup (closers : List String) (h : ∀ p ∈ parts, p.Fair) : (asGroup closers parts).Fair := by
  have hinside : ∀ found : Bool, ∀ p ∈ if found then (parts.drop 1).dropLast else parts.drop 1, p.Fair := by
    intro found p hp
    cases found with
    | true => exact h p (List.mem_of_mem_drop (List.dropLast_subset _ hp))
    | false => exact h p (List.mem_of_mem_drop hp)
  exact ⟨fair_allLeaves (hinside _), fair_reading (hinside _), fair_asObject (hinside _)⟩

end Part

/-! ## Opening tags -/

namespace Markup

theorem fair_slot {g : Group} (h : g.Fair) : (slot g).Fair := by
  unfold slot
  split
  · exact Node.fair_invalid _ _
  · refine Node.fair_mk ?_ (List.forall_mem_nil _) fun n hn => h.reading n (Option.mem_toList.mp hn)
    show g.reading.node.toList.length ≤ 1
    cases g.reading.node <;> simp

theorem fair_spread {space : String} {g : Group} (h : g.Fair) :
    (∀ n, spread space g = .error n → n.Fair) ∧ ∀ n, spread space g = .ok n → n.Fair := by
  unfold spread
  split
  · exact ⟨fun n hn => by cases hn; exact Node.fair_invalid _ _, fun n hn => by cases hn⟩
  · dsimp only
    split
    · refine ⟨fun n hn => (by cases hn), fun n hn => ?_⟩
      rw [← Except.ok.inj hn]
      have hscript : ∀ text, (Expression.script text).Fair := fun text =>
        Node.fair_new trivial (List.forall_mem_singleton.mpr (Node.fair_leaf trivial))
      refine Node.fair_mk trivial (List.forall_mem_nil _) (List.forall_mem_singleton.mpr ?_)
      split
      · next m hm =>
        split
        · exact h.reading m hm
        · exact hscript _
      · exact hscript _
    · exact ⟨fun n hn => by cases hn; exact Node.fair_invalid _ _, fun n hn => by cases hn⟩

/-- What is known of an opening tag: its attributes are fair, and one that waits for its value has none yet. -/
structure Opening.Fair (o : Opening) : Prop where
  attributes : ∀ a ∈ o.attributes, a.Fair
  waiting : o.waiting = true → ∃ name space info as rest, o.attributes = .mk (.attr name space) info as [] :: rest

namespace Opening.Fair

variable {o : Opening} (h : o.Fair)
include h

theorem giveValue {value : Node} (hw : o.waiting = true) (hv : value.Fair) : (o.giveValue value).Fair := by
  obtain ⟨name, space, info, as, rest, hattributes⟩ := h.waiting hw
  have hrest := h.attributes
  rw [hattributes, List.forall_mem_cons] at hrest
  unfold Opening.giveValue
  rw [hattributes]
  refine ⟨List.forall_mem_cons.mpr ⟨fun hvalid => ?_, hrest.2⟩, fun hwaiting => nomatch hwaiting⟩
  -- the attribute was valid before it got its value, so that its name is one
  have hparts : Node.allValid as = true ∧ value.isValid = true := by
    simpa [Node.withChildren, Node.isValid, Node.allValid, Kind.isInvalid] using hvalid
  have hbare : (Node.mk (.attr name space) info as []).Flawless := hrest.1 (by
    simpa [Node.isValid, Node.allValid, Kind.isInvalid] using hparts.1)
  exact hbare.withChildren ⟨hbare.permits.1, Nat.le_refl 1⟩ (List.forall_mem_singleton.mpr (hv hparts.2))

theorem takesValue (ht : o.takesValue = true) : ({ o with waiting := true } : Opening).Fair := by
  refine ⟨h.attributes, fun _ => ?_⟩
  unfold Opening.takesValue at ht
  split at ht
  · cases ht
  · next a rest hattributes =>
    split at ht
    · next name space hk =>
      rw [Bool.and_eq_true, List.isEmpty_iff] at ht
      cases a with
      | mk k info as cs =>
        obtain rfl : k = .attr name space := hk
        obtain rfl : cs = [] := ht.1
        exact ⟨name, space, info, as, rest, hattributes⟩
    · cases ht

/-- A new attribute, when none waits for its value. -/
theorem add {a : Node} {space : String} (ha : a.Fair) (hw : o.waiting = false) :
    ({ o with attributes := a :: o.attributes, space := space } : Opening).Fair := by
  refine ⟨List.forall_mem_cons.mpr ⟨ha, h.attributes⟩, fun hwaiting => ?_⟩
  rw [show o.waiting = true from hwaiting] at hw
  cases hw

theorem readToken {t : Token} (ht : t.kind = .attrName → isAttrName t.text = true) {o' : Opening}
    (hread : readToken o t = .ok o') : o'.Fair := by
  unfold Markup.readToken at hread
  split at hread
  · cases hread
    exact ⟨h.attributes, h.waiting⟩
  · cases hread
    exact ⟨h.attributes, h.waiting⟩
  · next hkind =>
    split at hread
    · cases hread
    · next hw =>
      cases hread
      exact h.add (Node.fair_leaf ⟨ht hkind, Nat.zero_le 1⟩) (by simpa using hw)
  · split at hread
    · next htakes =>
      cases hread
      exact h.takesValue htakes
    · cases hread
  · split at hread
    · next hw =>
      cases hread
      exact h.giveValue hw (Node.fair_leaf trivial)
    · cases hread
  · split at hread
    · next hw =>
      cases hread
      exact h.giveValue hw (Node.fair_leaf trivial)
    · cases hread
  · split at hread
    · split at hread
      · cases hread
      · cases hread
        exact h
    · cases hread

end Opening.Fair

/-- Tokens that cannot be read in an opening tag leave a mark. -/
theorem fair_of_readToken {o : Opening} {t : Token} {n : Node} (h : readToken o t = .error n) : n.Fair := by
  unfold readToken at h
  repeat' split at h
  all_goals first | (cases h; exact Node.fair_invalid _ _) | cases h

/-- The parts of an element after its name. -/
theorem fair_elementFrom {angle name : Token} {o : Opening} {parts : List Part} (hname : isTagName name.text = true)
    (hparts : ∀ p ∈ parts, p.Fair)
    (hnames : ∀ t, .leaf (.token t) ∈ parts → t.kind = .attrName → isAttrName t.text = true) (ho : o.Fair) :
    (elementFrom angle name o parts).Fair := by
  have hreverse : ∀ {o : Opening}, o.Fair → ∀ a ∈ o.attributes.reverse, a.Fair :=
    fun ho a ha => ho.attributes a (List.mem_reverse.mp ha)
  induction parts generalizing o with
  | nil => exact Node.fair_invalid _ _
  | cons p parts ih =>
    rw [List.forall_mem_cons] at hparts
    replace ih := fun {o} => ih (o := o) hparts.2 fun t ht => hnames t (List.mem_cons_of_mem p ht)
    cases p with
    | leaf l =>
      cases l with
      | node n =>
        rw [elementFrom]
        exact ih ho
      | token t =>
        rw [elementFrom]
        split
        · next hread => exact fair_of_readToken hread
        · next hread =>
          have ho := ho.readToken (hnames t List.mem_cons_self) hread
          split
          · exact Node.fair_mk ⟨hname, .inl rfl, fun _ => rfl⟩ (hreverse ho) (List.forall_mem_nil _)
          · exact ih ho
    | group g =>
      rw [elementFrom]
      split
      · next hw => exact ih (ho.giveValue hw (fair_slot hparts.1))
      · next hw =>
        split
        · next hspread => exact (fair_spread hparts.1).1 _ hspread
        · next hspread => exact ih (ho.add ((fair_spread hparts.1).2 _ hspread) (by simpa using hw))
    | content nodes close =>
      unfold elementFrom
      split
      · exact Node.fair_invalid _ _
      · split
        · exact Node.fair_mk ⟨hname, .inr rfl, fun hself => by cases hself⟩ (hreverse ho) hparts.1
        · exact Node.fair_invalid _ _

/-! ## Pieces of a source -/

theorem fair_contentNode {p : Part} (h : p.Fair) : ∀ n ∈ contentNode p, n.Fair := by
  cases p with
  | leaf l =>
    cases l with
    | token t =>
      rw [contentNode]
      split
      · exact List.forall_mem_singleton.mpr (Node.fair_leaf trivial)
      · exact List.forall_mem_singleton.mpr (Node.fair_invalid _ _)
    | node n => exact List.forall_mem_singleton.mpr h
  | group g => exact List.forall_mem_singleton.mpr (fair_slot h)
  | content nodes close => exact List.forall_mem_nil _

theorem fair_content {parts : List Part} (h : ∀ p ∈ parts, p.Fair) : ∀ n ∈ (content parts).1, n.Fair := by
  intro n hn
  unfold content at hn
  split at hn
  all_goals
    obtain ⟨p, hp, hn⟩ := List.mem_flatMap.mp hn
    exact fair_contentNode (h p (by first | exact List.dropLast_subset _ hp | exact hp)) n hn

theorem fair_fragment {parts : List Part} (h : ∀ p ∈ parts, p.Fair) : (fragment parts).Fair := by
  unfold fragment
  split
  · next head parts =>
    rw [List.forall_mem_cons] at h
    split
    · exact Node.fair_invalid _ _
    · next nodes close hcontent =>
      have hnodes : ∀ n ∈ nodes, n.Fair := by
        have hall := fair_content h.2
        rw [hcontent] at hall
        exact hall
      split
      · exact Node.fair_mk trivial (List.forall_mem_nil _) hnodes
      · exact Node.fair_invalid _ _
  · intro hvalid
    rw [Node.isValid_new] at hvalid
    cases hvalid

theorem mem_allParts {x : Part} {ps : List Piece} (h : x ∈ allParts ps) : ∃ p ∈ ps, part p = x := by
  induction ps with
  | nil => cases h
  | cons p ps ih =>
    rcases List.mem_cons.mp h with rfl | h
    · exact ⟨p, List.mem_cons_self, rfl⟩
    · obtain ⟨q, hq, rfl⟩ := ih h
      exact ⟨q, List.mem_cons_of_mem p hq, rfl⟩

/-- Only tokens become tokens. -/
theorem eq_token_of_part {p : Piece} {t : Token} (h : part p = .leaf (.token t)) : p = .token t := by
  cases p with
  | token t' =>
    cases h
    rfl
  | stretch mode items => cases mode <;> cases h

/-- Every well-formed piece is read without a flaw. -/
theorem fair_part {p : Piece} (h : Piece.Formed p) : (part p).Fair := by
  induction h with
  | token t => trivial
  | @stretch mode first items last opens ends accepted inner outer ihinner ihouter =>
    have hitems : ∀ p ∈ allParts (items ++ last), p.Fair := by
      intro x hx
      obtain ⟨p, hp, rfl⟩ := mem_allParts hx
      rcases List.mem_append.mp hp with hp | hp
      · exact ihinner p hp
      · exact ihouter p hp
    have hgroup : ∀ t : Token, ∀ p ∈ allParts (.token t :: items ++ last), p.Fair := fun t =>
      List.forall_mem_cons.mpr ⟨trivial, hitems⟩
    rw [part]
    cases opens with
    | @tag angle name text isName =>
      have hopening : (⟨[], "", false⟩ : Opening).Fair := ⟨fun a ha => (nomatch ha), fun hw => (nomatch hw)⟩
      refine fair_elementFrom (Text.IsFullName.isName isName) hitems (fun t ht hkind => ?_) hopening
      obtain ⟨p, hp, hpart⟩ := mem_allParts ht
      obtain rfl := eq_token_of_part hpart
      rcases List.mem_append.mp hp with hp | hp
      · have hfits : Scan.Fits .tag t.kind t.text.toList := accepted _ hp
        rw [hkind] at hfits
        exact Text.IsFullName.isName hfits
      · -- an opening tag ends with delimiters only
        exfalso
        cases ends with
        | none => cases hp
        | selfClosing kind =>
          cases List.mem_singleton.mp hp
          rw [kind] at hkind
          cases hkind
        | opened kind =>
          cases List.mem_singleton.mp hp
          rw [kind] at hkind
          cases hkind
        | content kind =>
          rcases List.mem_cons.mp hp with heq | hp
          · cases heq
            rw [kind] at hkind
            cases hkind
          · cases List.mem_singleton.mp hp
    | content => exact fair_content hitems
    | fragment text => exact fair_fragment (hgroup _)
    | braces => exact Part.fair_asGroup _ (hgroup _)
    | group text => exact Part.fair_asGroup _ (hgroup _)
    | template text => exact Part.fair_asGroup _ (hgroup _)

/-- What is read from a text has no flaw unless it is marked as invalid. -/
theorem fair_nodes (text : String) : ∀ n ∈ nodes text, n.Fair := by
  refine Leaf.fair_code (Part.fair_allLeaves fun x hx => ?_)
  obtain ⟨p, hp, rfl⟩ := mem_allParts hx
  exact fair_part (Piece.ofText_formed text p hp).2

end Markup

/-! ## Documents and snippets -/

namespace Node

mutual

theorem isValid_withoutOrigin : (n : Node) → n.withoutOrigin.isValid = n.isValid
  | .mk k i as cs => by
    rw [withoutOrigin, isValid, isValid, allValid_withoutOrigin as, allValid_withoutOrigin cs]

theorem allValid_withoutOrigin : (ns : List Node) → allValid (allWithoutOrigin ns) = allValid ns
  | [] => rfl
  | n :: ns => by rw [allWithoutOrigin, allValid, allValid, isValid_withoutOrigin n, allValid_withoutOrigin ns]

end

theorem length_allWithoutOrigin (ns : List Node) : (allWithoutOrigin ns).length = ns.length := by
  induction ns with
  | nil => rfl
  | cons n ns ih => rw [allWithoutOrigin, List.length_cons, List.length_cons, ih]

mutual

theorem flawless_withoutOrigin : (n : Node) → n.Flawless → n.withoutOrigin.Flawless
  | .mk k i as cs, h => by
    obtain ⟨hk, has, hcs⟩ := flawless_mk.mp h
    rw [withoutOrigin, flawless_mk, length_allWithoutOrigin]
    exact ⟨hk, flawless_allWithoutOrigin as has, flawless_allWithoutOrigin cs hcs⟩

theorem flawless_allWithoutOrigin : (ns : List Node) → (∀ n ∈ ns, n.Flawless) →
    ∀ n ∈ allWithoutOrigin ns, n.Flawless
  | [], h => h
  | n :: ns, h => by
    rw [List.forall_mem_cons] at h
    rw [allWithoutOrigin, List.forall_mem_cons]
    exact ⟨flawless_withoutOrigin n h.1, flawless_allWithoutOrigin ns h.2⟩

end

end Node

namespace Source

theorem fair_document (text : String) : (document text).Fair := Node.fair_new trivial (Markup.fair_nodes text)

/-- A document without an error is valid. -/
theorem isValid_of_error? {text : String} {offset : Nat} {tree : Node} (hkind : tree.kind.isInvalid = false)
    (h : error? text offset tree = none) : tree.isValid = true := by
  refine Node.isValid_of_visits [] tree hkind fun v hv => ?_
  have hnone := List.findSome?_eq_none_iff.mp h v.node (List.mem_map_of_mem hv)
  cases hk : v.node.kind with
  | invalid reason position =>
    rw [hk] at hnone
    cases hnone
  | _ => rfl

/-- Documents that are read have no flaw. -/
theorem flawless_parse {text : String} {tree : Node} (h : parse text = .ok tree) : tree.Flawless := by
  unfold parse at h
  split at h
  · cases h
  · next herror =>
    cases h
    exact (fair_document text (isValid_of_error? rfl herror)).withKind trivial

/-- Snippets that are read have no flaw. -/
theorem flawless_snippet {text : String} {n : Node} (h : snippet text = .ok n) : n.Flawless := by
  unfold snippet at h
  dsimp only at h
  split at h
  · cases h
  · next herror =>
    have htree : (plainDocument ("(<>" ++ text ++ "</>)")).Flawless := by
      have hvalid := isValid_of_error? rfl herror
      rw [plainDocument, Node.isValid_withoutOrigin] at hvalid
      exact Node.flawless_withoutOrigin _ (fair_document _ hvalid)
    split at h
    · next a b c hchildren =>
      split at h
      · next f hfragment =>
        have hf : f.Flawless := by
          have hmem : f ∈ [a, b, c] := (List.mem_filter.mp (hfragment ▸ List.mem_cons_self)).1
          exact htree.child (hchildren ▸ hmem)
        unfold singleRoot at h
        split at h
        · cases h
        · next root hroot =>
          split at h
          · cases h
            exact hf.child (List.mem_filter.mp (hroot ▸ List.mem_cons_self)).1
          · cases h
        · cases h
      · cases h
    · cases h

end Source
end JsxEdit
