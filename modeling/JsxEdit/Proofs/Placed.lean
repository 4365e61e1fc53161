import JsxEdit.Proofs.Bracket

/-
Elements and fragments in the places where they were read.

An opening tag is read attribute by attribute, and what is between tags node by node, so the nodes stand as the pieces do
that they are read from: an element starts with its angle and ends with its last tag, its children lie between the tags,
and all markup below it is in the order of the pieces.
-/
set_option autoImplicit false

namespace JsxEdit

namespace Node

variable {text : String}

theorem AllSeated.below {k : Kind} {i : Info} {as cs : List Node} (h : AllSeated text [mk k i as cs]) :
    AllSeated text as ∧ AllSeated text cs := by
  have hmem : ∀ n ∈ within as ++ within cs, n.Seated text := by
    intro n hn
    refine h n ?_
    rw [within_singleton, under]
    exact List.mem_cons_of_mem _ hn
  exact ⟨fun n hn => hmem n (List.mem_append_left _ hn), fun n hn => hmem n (List.mem_append_right _ hn)⟩

theorem AllSeated.of_mem {n : Node} {ns : List Node} (h : AllSeated text ns) (hn : n ∈ ns) : AllSeated text [n] :=
  fun m hm => h m (mem_within hn hm)

theorem AllSeated.reverse {ns : List Node} (h : AllSeated text ns) : AllSeated text ns.reverse :=
  allSeated_of_forall fun _ hn => h.of_mem (List.mem_reverse.mp hn)

end Node

namespace Markup

variable {text : String}

/-! ## Opening tags -/

/-- What was read of an opening tag: its attributes are no markup themselves, what is in them is in its place, and one is
there to wait for a value. -/
structure Opening.Placed (text : String) (o : Opening) : Prop where
  kinds : ∀ a ∈ o.attributes, a.kind.isSource = false ∧ a.kind.isMarkup = false
  seated : Node.AllSeated text o.attributes
  waiting : o.waiting = true → o.attributes ≠ []

/-- The elements and fragments in the attributes read so far, in order. -/
def Opening.markups (o : Opening) : List Node := Node.markups o.attributes.reverse

namespace Opening.Placed

variable {o : Opening} (h : o.Placed text)
include h

/-- A value brings its markup to the attribute before it. -/
theorem giveValue {value : Node} (hw : o.waiting = true) (hvalue : Node.AllSeated text [value]) :
    (o.giveValue value).Placed text ∧ (o.giveValue value).markups = o.markups ++ Node.markups [value] := by
  obtain ⟨a, as, hattributes⟩ := List.exists_cons_of_ne_nil (h.waiting hw)
  have hkinds := h.kinds
  have hseated := h.seated
  rw [hattributes] at hkinds hseated
  obtain ⟨k, i, bs, cs⟩ := a
  obtain ⟨hkind, hkinds'⟩ := List.forall_mem_cons.mp hkinds
  have hbelow := (hseated.of_mem List.mem_cons_self).below
  have hrest : Node.AllSeated text as := Node.allSeated_of_forall fun n hn => hseated.of_mem (List.mem_cons_of_mem _ hn)
  have hnew : o.giveValue value = { o with attributes := .mk k i bs (cs ++ [value]) :: as, waiting := false } := by
    unfold Opening.giveValue
    rw [hattributes]
    rfl
  rw [hnew]
  refine ⟨⟨List.forall_mem_cons.mpr ⟨hkind, hkinds'⟩, ?_, fun hwaiting => nomatch hwaiting⟩, ?_⟩
  · rw [← List.singleton_append]
    exact (Node.allSeated_other hkind hbelow.1 (hbelow.2.append hvalue)).append hrest
  · have hnone : k.isMarkup = false := hkind.2
    rw [Opening.markups, Opening.markups, hattributes, List.reverse_cons, List.reverse_cons, Node.markups_append,
      Node.markups_append, Node.markups_other hnone, Node.markups_other hnone, Node.markups_append]
    simp only [List.append_assoc]

/-- A new attribute brings its markup. -/
theorem add {a : Node} (space : String) (ha : a.kind.isSource = false ∧ a.kind.isMarkup = false)
    (hseated : Node.AllSeated text [a]) :
    ({ o with attributes := a :: o.attributes, space := space } : Opening).Placed text ∧
      ({ o with attributes := a :: o.attributes, space := space } : Opening).markups =
        o.markups ++ Node.markups [a] := by
  refine ⟨⟨List.forall_mem_cons.mpr ⟨ha, h.kinds⟩, ?_, fun _ => List.cons_ne_nil _ _⟩, ?_⟩
  · rw [← List.singleton_append]
    exact hseated.append h.seated
  · rw [Opening.markups, List.reverse_cons, Node.markups_append]
    rfl

/-- The tokens of an opening tag bring no markup. -/
theorem readToken {t : Token} {o' : Opening} (hread : readToken o t = .ok o') :
    o'.Placed text ∧ o'.markups = o.markups := by
  have hstring : ∀ {t : Token}, o.waiting = true →
      (o.giveValue (stringValue t)).Placed text ∧ (o.giveValue (stringValue t)).markups = o.markups := by
    intro t hw
    have hvalue : Node.AllSeated text [stringValue t] := Node.allSeated_other ⟨rfl, rfl⟩ .nil .nil
    obtain ⟨hplaced, hmarkups⟩ := h.giveValue hw hvalue
    exact ⟨hplaced, hmarkups.trans (List.append_nil _)⟩
  unfold Markup.readToken at hread
  split at hread
  · cases hread
    exact ⟨⟨h.kinds, h.seated, h.waiting⟩, rfl⟩
  · cases hread
    exact ⟨⟨h.kinds, h.seated, h.waiting⟩, rfl⟩
  · split at hread
    · cases hread
    · cases hread
      have hattr : Node.AllSeated text [.mk (.attr t.text o.space) { head := some (spanOf t t) } [] []] :=
        Node.allSeated_other ⟨rfl, rfl⟩ .nil .nil
      obtain ⟨hplaced, hmarkups⟩ := h.add "" ⟨rfl, rfl⟩ hattr
      exact ⟨hplaced, hmarkups.trans (List.append_nil _)⟩
  · split at hread
    · next htakes =>
      cases hread
      refine ⟨⟨h.kinds, h.seated, fun _ hnil => ?_⟩, rfl⟩
      have hnil : o.attributes = [] := hnil
      rw [Opening.takesValue, hnil] at htakes
      cases htakes
    · cases hread
  · split at hread
    · next hw =>
      cases hread
      exact hstring hw
    · cases hread
  · split at hread
    · next hw =>
      cases hread
      exact hstring hw
    · cases hread
  · split at hread
    · split at hread
      · cases hread
      · cases hread
        exact ⟨h, rfl⟩
    · cases hread

end Opening.Placed

/-- Parts of an opening tag before its end. -/
def InTag (p : Part) : Prop := (∃ t, p = .leaf (.token t) ∧ t.kind ≠ .delimiter) ∨ ∃ g, p = .group g

/-- The parts of an opening tag are read one after the other, up to those that end it. -/
theorem elementFrom_items {angle name : Token} {ps rest : List Part} {o : Opening}
    (hps : ∀ p ∈ ps, InTag p ∧ p.Reads ∧ (p.Valid → ∃ a b, p.Placed text a b)) (ho : o.Placed text)
    (hvalid : (elementFrom angle name o (ps ++ rest)).isValid = true) :
    (∀ p ∈ ps, p.Valid) ∧ ∃ o', o'.Placed text ∧
      elementFrom angle name o (ps ++ rest) = elementFrom angle name o' rest ∧
      o'.markups = o.markups ++ ps.flatMap Part.markups := by
  induction ps generalizing o with
  | nil => exact ⟨fun _ hp => (nomatch hp), o, ho, rfl, (List.append_nil _).symm⟩
  | cons p ps ih =>
    obtain ⟨⟨hin, hreads, hplaced⟩, hps⟩ := List.forall_mem_cons.mp hps
    -- the rest of the parts, after what the first one brings
    have hnext : ∀ {o' : Opening}, o'.Placed text → p.Valid → o'.markups = o.markups ++ p.markups →
        elementFrom angle name o (p :: ps ++ rest) = elementFrom angle name o' (ps ++ rest) →
        (∀ q ∈ p :: ps, q.Valid) ∧ ∃ o', o'.Placed text ∧
          elementFrom angle name o (p :: ps ++ rest) = elementFrom angle name o' rest ∧
          o'.markups = o.markups ++ (p :: ps).flatMap Part.markups := by
      intro o₁ ho₁ hp hmarkups heq
      rw [heq] at hvalid
      obtain ⟨hall, o₂, ho₂, heq₂, hmarkups₂⟩ := ih hps ho₁ hvalid
      refine ⟨List.forall_mem_cons.mpr ⟨hp, hall⟩, o₂, ho₂, heq.trans heq₂, ?_⟩
      rw [hmarkups₂, hmarkups, List.flatMap_cons, List.append_assoc]
    rcases hin with ⟨t, rfl, hkind⟩ | ⟨g, rfl⟩
    · rw [List.cons_append, elementFrom] at hvalid
      split at hvalid
      · next hread =>
        rw [Tag.isValid_of_readToken hread] at hvalid
        cases hvalid
      · next o₁ hread =>
        obtain ⟨ho₁, hmarkups⟩ := ho.readToken hread
        have hends : (t.kind == .delimiter && t.text == "/>") = false := by simp [hkind]
        refine hnext ho₁ rfl (hmarkups.trans (List.append_nil _).symm) ?_
        rw [List.cons_append, elementFrom, hread]
        dsimp only
        rw [hends]
        rfl
    · rw [List.cons_append, elementFrom] at hvalid
      cases hw : o.waiting with
      | true =>
        rw [hw, if_pos rfl] at hvalid
        have hslot := (Tag.valid_of_giveValue (Tag.valid_of_elementFrom hvalid)).2 (ho.waiting hw)
        obtain ⟨htail, hg⟩ := slot_valid hreads hslot
        obtain ⟨a, b, hplaced⟩ := hplaced hg
        obtain ⟨-, hseated, hmarkups⟩ := slot_placed hplaced hreads htail
        obtain ⟨ho₁, hmarkups₁⟩ := ho.giveValue hw hseated
        refine hnext ho₁ hg (hmarkups₁.trans (congrArg _ hmarkups)) ?_
        rw [List.cons_append, elementFrom, hw, if_pos rfl]
      | false =>
        rw [hw, if_neg (by decide)] at hvalid
        cases hspread : spread o.space g with
        | error n =>
          rw [hspread] at hvalid
          rw [Tag.isValid_of_spread hspread] at hvalid
          cases hvalid
        | ok attr =>
          rw [hspread] at hvalid
          have hattr := Tag.valid_of_elementFrom hvalid attr List.mem_cons_self
          have hg := spread_valid hreads hspread hattr
          obtain ⟨a, b, hplaced⟩ := hplaced hg
          obtain ⟨hkinds, hseated, hmarkups⟩ := spread_placed hplaced hreads hspread
          obtain ⟨ho₁, hmarkups₁⟩ := ho.add "" hkinds hseated
          refine hnext ho₁ hg (hmarkups₁.trans (congrArg _ hmarkups)) ?_
          rw [List.cons_append, elementFrom, hw, if_neg (by decide), hspread, ← hw]

/-- The last angle of an opening tag. -/
theorem elementFrom_angle {angle name t : Token} {o : Opening} {rest : List Part} (hkind : t.kind = .delimiter)
    (htext : t.text = "/>" ∨ t.text = ">") (hvalid : (elementFrom angle name o (.leaf (.token t) :: rest)).isValid = true) :
    elementFrom angle name o (.leaf (.token t) :: rest) =
      if t.text == "/>" then
        .mk (.element name.text true o.space none) ⟨some (spanOf angle name), some (spanOf t t), none⟩
          o.attributes.reverse []
      else elementFrom angle name o rest := by
  rw [elementFrom] at hvalid
  rw [elementFrom]
  have hends : (t.text == "/>" || t.text == ">") = true := by rcases htext with h | h <;> rw [h] <;> decide
  have hread : readToken o t = if o.waiting then .error (invalid "Expected attribute value" t) else .ok o := by
    unfold readToken
    rw [hkind]
    dsimp only
    rw [if_pos hends]
  cases hw : o.waiting with
  | true =>
    rw [hread, hw, if_pos rfl] at hvalid
    dsimp only at hvalid
    rw [Tag.invalid_isValid] at hvalid
    cases hvalid
  | false =>
    rw [hread, hw, if_neg (by decide), hkind]
    rfl

/-- After the opening tag, an element is what stands up to its closing tag. -/
theorem elementFrom_content {angle name : Token} {o : Opening} {nodes : List Node} {close : Option Token}
    {rest : List Part} (hvalid : (elementFrom angle name o (.content nodes close :: rest)).isValid = true) :
    Node.allValid nodes = true ∧ ∃ t, close = some t ∧ closingName t.text = name.text ∧
      elementFrom angle name o (.content nodes close :: rest) =
        .mk (.element name.text false o.space (some name.text)) ⟨some (spanOf angle name), some (spanOf t t), none⟩
          o.attributes.reverse nodes := by
  cases close with
  | none =>
    rw [elementFrom, Tag.invalid_isValid] at hvalid
    cases hvalid
  | some t =>
    rw [elementFrom] at hvalid
    split at hvalid
    · next hname =>
      rw [Node.isValid, Bool.and_eq_true] at hvalid
      refine ⟨hvalid.2, t, rfl, eq_of_beq hname, ?_⟩
      rw [elementFrom]
      exact if_pos hname
    · rw [Tag.invalid_isValid] at hvalid
      cases hvalid

/-! ## Between tags -/

/-- The nodes between tags stand as the parts do. -/
theorem contentNode_placed {a b : Nat} {p : Part} (hp : p.Placed text a b) (hinline : p.IsInline) (hreads : p.Reads)
    (hvalid : Node.allValid (contentNode p) = true) : Node.Tiles a (contentNode p) b ∧
      Node.AllSeated text (contentNode p) ∧ Node.markups (contentNode p) = p.markups := by
  rcases p with (t | n) | g | ⟨nodes, close⟩
  · rw [contentNode] at hvalid ⊢
    split
    · obtain ⟨hpos, hstop, hlt, htext⟩ := Token.Tiles.singleton.mp hp.1
      subst hpos hstop
      have hspans : (Node.mk (.text t.text) { head := some (spanOf t t) } [] []).Spans t.pos t.stop :=
        Node.spans_head hlt
      refine ⟨.singleton hspans, Node.allSeated_mk ⟨fun _ _ => ⟨t.pos, t.stop, hspans, ?_⟩, ?_⟩ .nil .nil, rfl⟩
      · rw [← htext]
        rfl
      · intro hm
        cases hm
    · next hkind =>
      rw [if_neg hkind, Node.allValid, Tag.invalid_isValid] at hvalid
      cases hvalid
  · exact ⟨.singleton hp.1, hp.2, rfl⟩
  · rw [contentNode, Node.allValid, Node.allValid, Bool.and_true] at hvalid
    obtain ⟨hspans, hseated, hmarkups⟩ := slot_placed hp hreads (slot_valid hreads hvalid).1
    exact ⟨.singleton hspans, hseated, hmarkups⟩
  · cases hinline

theorem contentNodes_placed {a b : Nat} {ps : List Part} (h : Part.Tiles text a ps b)
    (hps : ∀ p ∈ ps, p.IsInline ∧ p.Reads) (hvalid : Node.allValid (ps.flatMap contentNode) = true) :
    Node.Tiles a (ps.flatMap contentNode) b ∧ Node.AllSeated text (ps.flatMap contentNode) ∧
      Node.markups (ps.flatMap contentNode) = ps.flatMap Part.markups := by
  induction ps generalizing a with
  | nil => exact ⟨h, .nil, rfl⟩
  | cons p ps ih =>
    obtain ⟨c, hp, hrest⟩ := h
    rw [List.forall_mem_cons] at hps
    rw [List.flatMap_cons, Node.allValid_iff, List.forall_mem_append, ← Node.allValid_iff, ← Node.allValid_iff] at hvalid
    obtain ⟨htiles, hseated, hmarkups⟩ := contentNode_placed hp hps.1.1 hps.1.2 hvalid.1
    obtain ⟨htiles', hseated', hmarkups'⟩ := ih hrest hps.2 hvalid.2
    rw [List.flatMap_cons, List.flatMap_cons, Node.markups_append, hmarkups, hmarkups']
    exact ⟨htiles.append htiles', hseated.append hseated', rfl⟩

/-- Between tags, parts are valid if their nodes are. -/
theorem valid_of_contentNode {p : Part} (hinline : p.IsInline) (hreads : p.Reads)
    (hvalid : Node.allValid (contentNode p) = true) : p.Valid := by
  rcases p with (t | n) | g | ⟨nodes, close⟩
  · rfl
  · rw [contentNode, Node.allValid, Bool.and_eq_true] at hvalid
    exact hvalid.1
  · rw [contentNode, Node.allValid, Bool.and_eq_true] at hvalid
    exact (slot_valid hreads hvalid.1).2
  · cases hinline

/-- Markup with two tags is in its place if its children fill the place between them. -/
theorem closed_placed {k : Kind} {a b c d : Nat} {close : Token} {as nodes : List Node} (hkind : k.isSource = false)
    (hopen : a < c) (hchildren : Node.Tiles c nodes close.pos) (hclose : Token.Tiles text close.pos [close] b)
    (hname : closingName close.text = k.tagName) (has : Node.AllSeated text as) (hnodes : Node.AllSeated text nodes) :
    (Node.mk k ⟨some ⟨a, d⟩, some (spanOf close close), none⟩ as nodes).Spans a b ∧
      Node.AllSeated text [.mk k ⟨some ⟨a, d⟩, some (spanOf close close), none⟩ as nodes] := by
  obtain ⟨-, rfl, hlt, htext⟩ := Token.Tiles.singleton.mp hclose
  have hle := hchildren.le
  have hspans : (Node.mk k ⟨some ⟨a, d⟩, some (spanOf close close), none⟩ as nodes).Spans a close.stop :=
    Node.spans_tail (by omega)
  refine ⟨hspans, Node.allSeated_mk ⟨?_, ?_⟩ has hnodes⟩
  · intro hsource
    rw [Node.kind, hkind] at hsource
    cases hsource
  · intro _ _
    refine ⟨a, c, close.pos, close.stop, hspans, hopen, hchildren, hlt, rfl, ?_⟩
    rw [← htext]
    exact hname

/-! ## Pieces in their places -/

/-- What is read from the piece stands where its tokens do, and the elements and fragments in the piece are those read, in
order. -/
def Holds (text : String) (p : Piece) : Prop := ∀ a b, Token.Tiles text a p.tokens b → (part p).Valid →
  (part p).Placed text a b ∧ p.markups.map part = (part p).markups.map fun n => .leaf (.node n)

theorem holds_token (t : Token) : Holds text (.token t) := fun _ _ ht _ => ⟨⟨ht, trivial⟩, rfl⟩

theorem exists_tiles {a b : Nat} {ps : List Piece} {p : Piece} (h : Token.Tiles text a (Piece.allTokens ps) b)
    (hp : p ∈ ps) : ∃ c d, Token.Tiles text c p.tokens d := by
  obtain ⟨before, after, rfl⟩ := List.append_of_mem hp
  rw [Piece.allTokens_append, Piece.allTokens] at h
  obtain ⟨c, -, h⟩ := Token.Tiles.append_iff.mp h
  obtain ⟨d, h, -⟩ := Token.Tiles.append_iff.mp h
  exact ⟨c, d, h⟩

theorem holds_all {a b : Nat} {ps : List Piece} (h : ∀ p ∈ ps, Holds text p)
    (ht : Token.Tiles text a (Piece.allTokens ps) b) (hvalid : ∀ p ∈ ps, (part p).Valid) :
    Part.Tiles text a (allParts ps) b ∧
      (Piece.allMarkups ps).map part = ((allParts ps).flatMap Part.markups).map fun n => .leaf (.node n) := by
  induction ps generalizing a with
  | nil => exact ⟨ht, rfl⟩
  | cons p ps ih =>
    rw [List.forall_mem_cons] at h hvalid
    obtain ⟨c, hp, hrest⟩ := Token.Tiles.append_iff.mp ht
    obtain ⟨hplaced, hmarkups⟩ := h.1 a c hp hvalid.1
    obtain ⟨htiles, hmarkups'⟩ := ih h.2 hrest hvalid.2
    refine ⟨⟨c, hplaced, htiles⟩, ?_⟩
    rw [Piece.allMarkups, List.map_append, hmarkups, hmarkups', allParts, List.flatMap_cons, List.map_append]

/-- What is accepted in a stretch is a token, markup or a group. -/
theorem inline_of_accepts {mode : Mode} {p : Piece} (h : Piece.Accepts mode p) : (part p).IsInline := by
  cases p with
  | token t => trivial
  | stretch inner items =>
    have hplace : inner ≠ .content ∧ inner ≠ .script ∧ inner ≠ .markup := by
      cases mode with
      | tag =>
        rw [h.1]
        decide
      | content => rcases h with rfl | rfl | ⟨rfl, -⟩ <;> decide
      | fragment => rcases h with rfl | rfl | ⟨rfl, -⟩ <;> decide
      | _ => exact h
    rw [part]
    cases inner with
    | content => exact absurd rfl hplace.1
    | script => exact absurd rfl hplace.2.1
    | markup => exact absurd rfl hplace.2.2
    | _ => trivial

theorem inTag_of_accepts {p : Piece} (h : Piece.Accepts .tag p) : InTag (part p) := by
  cases p with
  | token t =>
    refine .inl ⟨t, rfl, ?_⟩
    have hfits : Scan.Fits .tag t.kind t.text.toList := h
    intro hkind
    rw [hkind] at hfits
    exact hfits
  | stretch mode items =>
    obtain ⟨rfl, -⟩ := h
    exact .inr ⟨_, rfl⟩

/-- How an element ends: with its opening tag, or after its content. -/
theorem end_holds {angle name : Token} {o : Opening} {last : List Piece} {c b : Nat} (ho : o.Placed text)
    (ends : Piece.Ends .tag last) (outer : ∀ p ∈ last, Holds text p) (hopen : angle.pos < c)
    (ht : Token.Tiles text c (Piece.allTokens last) b)
    (hvalid : (elementFrom angle name o (allParts last)).isValid = true) :
    (elementFrom angle name o (allParts last)).Spans angle.pos b ∧
      Node.AllSeated text [elementFrom angle name o (allParts last)] ∧
      .leaf (.node (elementFrom angle name o (allParts last))) ::
          (o.markups.map (fun n => .leaf (.node n)) ++ (Piece.allMarkups last).map part) =
        (Node.markups [elementFrom angle name o (allParts last)]).map fun n => .leaf (.node n) := by
  cases ends with
  | none =>
    rw [show allParts [] = [] from rfl, elementFrom, Tag.invalid_isValid] at hvalid
    cases hvalid
  | @selfClosing t kind htext =>
    obtain ⟨rfl, rfl, hlt, -⟩ := Token.Tiles.singleton.mp (show Token.Tiles text c [t] b from ht)
    have hallParts : allParts [.token t] = [.leaf (.token t)] := rfl
    rw [hallParts] at hvalid ⊢
    rw [elementFrom_angle kind (.inl htext) hvalid, htext, if_pos (beq_self_eq_true _)]
    refine ⟨Node.spans_tail (by omega), Node.allSeated_mk ⟨?_, ?_⟩ ho.seated.reverse .nil, ?_⟩
    · intro hsource
      cases hsource
    · intro _ hself
      cases hself
    · rw [Node.markups_mk]
      simp [Opening.markups, Kind.isMarkup, Piece.allMarkups, Piece.markups]
  | @opened t kind htext =>
    have hallParts : allParts [.token t] = [.leaf (.token t)] := rfl
    rw [hallParts] at hvalid
    rw [elementFrom_angle kind (.inr htext) hvalid, htext, if_neg (by decide), elementFrom, Tag.invalid_isValid] at hvalid
    cases hvalid
  | @content t inner kind htext =>
    have hallParts : allParts [.token t, .stretch .content inner] =
        [.leaf (.token t), part (.stretch .content inner)] := rfl
    have hmarkups : Piece.allMarkups [.token t, .stretch .content inner] =
        Piece.markups (.stretch .content inner) := List.append_nil _
    rw [hallParts] at hvalid
    rw [hallParts, hmarkups]
    have hangle := elementFrom_angle kind (.inr htext) hvalid
    rw [htext, if_neg (by decide)] at hangle
    rw [hangle] at hvalid ⊢
    obtain ⟨e, htoken, hcontent⟩ := Token.Tiles.cons_split ht
    rw [Piece.allTokens_singleton] at hcontent
    obtain ⟨rfl, rfl, hlt, -⟩ := Token.Tiles.singleton.mp htoken
    have hholds := outer _ (List.mem_cons_of_mem _ List.mem_cons_self) t.stop b hcontent
    rw [part, assemble] at hvalid hholds ⊢
    generalize content (allParts inner) = found at hvalid hholds ⊢
    obtain ⟨nodes, close⟩ := found
    obtain ⟨hnodes, close, rfl, hname, heq⟩ := elementFrom_content hvalid
    rw [heq]
    obtain ⟨hplaced, hbelow⟩ := hholds ⟨hnodes, rfl⟩
    obtain ⟨htiles, hclose, hseated⟩ := hplaced close rfl
    obtain ⟨hspans, hall⟩ := closed_placed (k := .element name.text false o.space (some name.text)) rfl
      (Nat.lt_trans hopen hlt) htiles hclose hname ho.seated.reverse hseated
    refine ⟨hspans, hall, ?_⟩
    rw [Node.markups_mk, hbelow]
    simp [Opening.markups, Kind.isMarkup, Part.markups]

section Items

variable {mode : Mode} {items : List Piece} (accepted : ∀ p ∈ items, Piece.Accepts mode p)
  (holds : ∀ p ∈ items, Holds text p)
include accepted holds

/-- A bracketed part of an expression stands where its brackets and its inside stand. -/
theorem group_holds {t : Token} {closers : List String} {a b : Nat}
    (ht : Token.Tiles text a (t :: Piece.allTokens items) b)
    (hvalid : (Part.asGroup closers (.leaf (.token t) :: allParts items)).Valid) :
    (Part.asGroup closers (.leaf (.token t) :: allParts items)).Placed text a b ∧ (Piece.allMarkups items).map part =
      (Part.asGroup closers (.leaf (.token t) :: allParts items)).markups.map fun n => .leaf (.node n) := by
  have hinline : ∀ p ∈ allParts items, p.IsInline := by
    intro x hx
    obtain ⟨p, hp, rfl⟩ := mem_allParts hx
    exact inline_of_accepts (accepted p hp)
  have hparts : ∀ p ∈ items, (part p).Valid := by
    intro p hp
    obtain ⟨inside, tail, heq, hsplit⟩ := Part.asGroup_cases closers t (allParts items)
    rw [heq] at hvalid
    have hmem : part p ∈ inside ++ (tail.map fun close => Part.leaf (.token close)).toList := by
      rw [← hsplit, allParts_eq_map]
      exact List.mem_map_of_mem hp
    rcases List.mem_append.mp hmem with hmem | hmem
    · exact Part.valid_of_leaves (inline_of_accepts (accepted p hp)) fun l hl =>
        hvalid l (List.mem_flatMap.mpr ⟨part p, hmem, hl⟩)
    · obtain ⟨close, -, hclose⟩ := Option.map_eq_some_iff.mp (Option.mem_toList.mp hmem)
      rw [← hclose]
      rfl
  obtain ⟨c, htoken, hrest⟩ := ht.cons_split
  obtain ⟨htiles, hmarkups⟩ := holds_all holds hrest hparts
  obtain ⟨hplaced, hinside⟩ := Part.placed_asGroup closers ⟨c, ⟨htoken, trivial⟩, htiles⟩ hinline
  exact ⟨hplaced, by rw [hmarkups, hinside]⟩

variable (formed : ∀ p ∈ items, Piece.Formed p)
include formed

/-- What is between two tags, up to the closing one. -/
theorem content_placed {nodes : List Node} {close : Token} {a b : Nat}
    (ht : Token.Tiles text a (Piece.allTokens items) b) (hcontent : content (allParts items) = (nodes, some close))
    (hvalid : Node.allValid nodes = true) : Node.Tiles a nodes close.pos ∧ Token.Tiles text close.pos [close] b ∧
      Node.AllSeated text nodes ∧ (Piece.allMarkups items).map part = (Node.markups nodes).map fun n => .leaf (.node n) := by
  unfold content at hcontent
  cases hclose : closeTag? (allParts items) with
  | none =>
    rw [hclose] at hcontent
    cases hcontent
  | some t =>
    rw [hclose] at hcontent
    cases hcontent
    -- the last piece is the closing tag
    obtain ⟨hlast, -⟩ := Option.filter_eq_some_iff.mp hclose
    obtain ⟨x, hx, htoken⟩ := Option.bind_eq_some_iff.mp hlast
    obtain ⟨init, hinit⟩ := List.getLast?_eq_some_iff.mp hx
    rw [allParts_eq_map] at hinit
    obtain ⟨qs, last, rfl, rfl, hlastp⟩ := List.map_eq_append_iff.mp hinit
    obtain ⟨p, rfl, rfl⟩ := List.map_eq_singleton_iff.mp hlastp
    have hp : part p = .leaf (.token close) := by
      generalize part p = y at htoken
      rcases y with (t | n) | g | ⟨nodes, c⟩ <;> cases htoken
      rfl
    obtain rfl := eq_token_of_part hp
    rw [List.forall_mem_append] at accepted formed holds
    rw [Piece.allTokens_append, Piece.allTokens_singleton] at ht
    obtain ⟨c, hqs, hend⟩ := Token.Tiles.append_iff.mp ht
    have hnodes : (allParts (qs ++ [Piece.token close])).dropLast = allParts qs := by
      rw [allParts_eq_map, allParts_eq_map, List.map_append, List.map_singleton, List.dropLast_concat]
    rw [hnodes] at hvalid ⊢
    have hinside : ∀ x ∈ allParts qs, x.IsInline ∧ x.Reads := by
      intro x hx
      obtain ⟨p, hp, rfl⟩ := mem_allParts hx
      exact ⟨inline_of_accepts (accepted.1 p hp), reads_part (formed.1 p hp)⟩
    have hparts : ∀ p ∈ qs, (part p).Valid := by
      intro p hp
      refine valid_of_contentNode (inline_of_accepts (accepted.1 p hp)) (reads_part (formed.1 p hp)) ?_
      rw [Node.allValid_iff] at hvalid ⊢
      refine fun n hn => hvalid n (List.mem_flatMap.mpr ⟨part p, ?_, hn⟩)
      rw [allParts_eq_map]
      exact List.mem_map_of_mem hp
    obtain ⟨htiles, hmarkups⟩ := holds_all holds.1 hqs hparts
    obtain ⟨hnodes', hseated, hinner⟩ := contentNodes_placed htiles hinside hvalid
    obtain rfl : close.pos = c := (Token.Tiles.singleton.mp hend).1
    refine ⟨hnodes', hend, hseated, ?_⟩
    rw [hinner, ← hmarkups, Piece.allMarkups_append]
    exact congrArg _ (List.append_nil _)

/-- A fragment stands where its tokens stand, and its children between its tags. -/
theorem fragment_holds {t : Token} {a b : Nat} (ht : Token.Tiles text a (t :: Piece.allTokens items) b)
    (hvalid : (fragment (.leaf (.token t) :: allParts items)).isValid = true) :
    (fragment (.leaf (.token t) :: allParts items)).Spans a b ∧
      Node.AllSeated text [fragment (.leaf (.token t) :: allParts items)] ∧
      .leaf (.node (fragment (.leaf (.token t) :: allParts items))) :: (Piece.allMarkups items).map part =
        (Node.markups [fragment (.leaf (.token t) :: allParts items)]).map fun n => .leaf (.node n) := by
  obtain ⟨c, htoken, hrest⟩ := ht.cons_split
  obtain ⟨rfl, rfl, hlt, -⟩ := Token.Tiles.singleton.mp htoken
  rw [fragment] at hvalid
  rcases hcontent : content (allParts items) with ⟨nodes, - | close⟩
  · rw [hcontent] at hvalid
    rw [Tag.invalid_isValid] at hvalid
    cases hvalid
  · rw [hcontent] at hvalid
    dsimp only at hvalid
    split at hvalid
    · next hname =>
      rw [Node.isValid, Bool.and_eq_true] at hvalid
      obtain ⟨htiles, hclose, hseated, hmarkups⟩ := content_placed accepted holds formed hrest hcontent hvalid.2
      have heq : fragment (.leaf (.token t) :: allParts items) =
          .mk .fragment ⟨some (spanOf t t), some (spanOf close close), none⟩ [] nodes := by
        rw [fragment, hcontent]
        dsimp only
        rw [if_pos hname]
      rw [heq]
      obtain ⟨hspans, hall⟩ := closed_placed (k := .fragment) rfl hlt htiles hclose (eq_of_beq hname) .nil hseated
      refine ⟨hspans, hall, ?_⟩
      rw [Node.markups_mk, hmarkups]
      rfl
    · rw [Tag.invalid_isValid] at hvalid
      cases hvalid

/-- The attributes of an element have the markup that is read in the opening tag. -/
theorem attributes_placed {angle name : Token} {rest : List Part} {a b : Nat} (hmode : mode = .tag)
    (ht : Token.Tiles text a (Piece.allTokens items) b)
    (hvalid : (elementFrom angle name ⟨[], "", false⟩ (allParts items ++ rest)).isValid = true) :
    ∃ o, o.Placed text ∧
      elementFrom angle name ⟨[], "", false⟩ (allParts items ++ rest) = elementFrom angle name o rest ∧
      (Piece.allMarkups items).map part = o.markups.map fun n => .leaf (.node n) := by
  subst hmode
  have hinside : ∀ x ∈ allParts items, InTag x ∧ x.Reads ∧ (x.Valid → ∃ a b, x.Placed text a b) := by
    intro x hx
    obtain ⟨p, hp, rfl⟩ := mem_allParts hx
    obtain ⟨c, d, htiles⟩ := exists_tiles ht hp
    exact ⟨inTag_of_accepts (accepted p hp), reads_part (formed p hp), fun hx => ⟨c, d, (holds p hp c d htiles hx).1⟩⟩
  have hstart : Opening.Placed text ⟨[], "", false⟩ := ⟨List.forall_mem_nil _, .nil, fun hw => (nomatch hw)⟩
  obtain ⟨hparts, o, ho, heq, hmarkups⟩ := elementFrom_items hinside hstart hvalid
  have hpieces : ∀ p ∈ items, (part p).Valid := by
    intro p hp
    refine hparts _ ?_
    rw [allParts_eq_map]
    exact List.mem_map_of_mem hp
  obtain ⟨-, hinner⟩ := holds_all holds ht hpieces
  refine ⟨o, ho, heq, ?_⟩
  rw [hinner, hmarkups]
  rfl

/-- An element stands where its tokens stand: its attributes in the opening tag, and its children between its tags. -/
theorem element_holds {angle name : Token} {last : List Piece} {a b : Nat} (hmode : mode = .tag)
    (ends : Piece.Ends .tag last) (outer : ∀ p ∈ last, Holds text p)
    (ht : Token.Tiles text a (angle :: name :: (Piece.allTokens items ++ Piece.allTokens last)) b)
    (hvalid : (elementFrom angle name ⟨[], "", false⟩ (allParts items ++ allParts last)).isValid = true) :
    (elementFrom angle name ⟨[], "", false⟩ (allParts items ++ allParts last)).Spans a b ∧
      Node.AllSeated text [elementFrom angle name ⟨[], "", false⟩ (allParts items ++ allParts last)] ∧
      .leaf (.node (elementFrom angle name ⟨[], "", false⟩ (allParts items ++ allParts last))) ::
          (Piece.allMarkups items ++ Piece.allMarkups last).map part =
        (Node.markups [elementFrom angle name ⟨[], "", false⟩ (allParts items ++ allParts last)]).map
          fun n => .leaf (.node n) := by
  obtain ⟨c, hangle, hrest⟩ := Token.Tiles.cons_split ht
  obtain ⟨rfl, rfl, hlt, -⟩ := Token.Tiles.singleton.mp hangle
  obtain ⟨d, hname, hrest⟩ := Token.Tiles.cons_split hrest
  obtain ⟨-, rfl, hlt', -⟩ := Token.Tiles.singleton.mp hname
  obtain ⟨e, hitems, hlast⟩ := Token.Tiles.append_iff.mp hrest
  have hle := hname.le
  have hle' := hitems.le
  obtain ⟨o, ho, heq, hattributes⟩ := attributes_placed accepted holds formed hmode hitems hvalid
  rw [heq] at hvalid ⊢
  rw [List.map_append, hattributes]
  exact end_holds ho ends outer (by omega) hlast hvalid

end Items

/-- Every well-formed piece that could be read stands where its tokens do. -/
theorem holds_of_formed {p : Piece} (h : Piece.Formed p) : Holds text p := by
  induction h with
  | token t => exact holds_token t
  | @stretch mode first items last opens ends accepted inner outer ihinner ihouter =>
    intro a b ht hvalid
    -- a stretch is no element or fragment of its own unless its mode is one of markup
    have hbracket : ∀ {t : Token} {closers : List String}, last = [] →
        Token.Tiles text a (Piece.allTokens ([.token t] ++ items ++ last)) b →
        (Part.asGroup closers (allParts ([.token t] ++ items ++ last))).Valid →
        (Part.asGroup closers (allParts ([.token t] ++ items ++ last))).Placed text a b ∧
          (Piece.allMarkups ([.token t] ++ items ++ last)).map part =
            (Part.asGroup closers (allParts ([.token t] ++ items ++ last))).markups.map fun n => .leaf (.node n) := by
      rintro t closers rfl ht hvalid
      rw [List.append_nil] at ht hvalid ⊢
      exact group_holds accepted ihinner ht hvalid
    rw [part] at hvalid ⊢
    rw [Piece.markups]
    cases opens with
    | @tag angle name text isName =>
      have hparts : allParts ([.token angle, .token name] ++ items ++ last) =
          .leaf (.token angle) :: .leaf (.token name) :: (allParts items ++ allParts last) := by
        rw [allParts_eq_map, allParts_eq_map, allParts_eq_map, List.append_assoc, List.map_append, List.map_append]
        rfl
      have htokens : Piece.tokens (.stretch .tag ([.token angle, .token name] ++ items ++ last)) =
          angle :: name :: (Piece.allTokens items ++ Piece.allTokens last) := by
        rw [Piece.tokens, List.append_assoc, Piece.allTokens_append, Piece.allTokens_append]
        rfl
      have hmarkups : Piece.allMarkups ([.token angle, .token name] ++ items ++ last) =
          Piece.allMarkups items ++ Piece.allMarkups last := by
        rw [List.append_assoc, Piece.allMarkups_append, Piece.allMarkups_append]
        rfl
      rw [htokens] at ht
      rw [assemble, hparts, element] at hvalid ⊢
      obtain ⟨hspans, hseated, hall⟩ := element_holds accepted ihinner inner rfl ends ihouter ht hvalid
      refine ⟨⟨hspans, hseated⟩, ?_⟩
      rw [Part.markups, Leaf.markups, ← hall, hmarkups, List.map_append, Piece.opensMarkup, if_pos rfl, List.map_singleton,
        part, assemble, hparts, element]
      rfl
    | content =>
      obtain rfl : last = [] := by
        cases ends
        rfl
      rw [List.nil_append, List.append_nil, assemble] at hvalid ⊢
      rw [Piece.tokens, List.nil_append, List.append_nil] at ht
      rcases hcontent : content (allParts items) with ⟨nodes, close⟩
      rw [hcontent] at hvalid
      obtain ⟨hnodes, hclose⟩ := hvalid
      obtain ⟨close, rfl⟩ := Option.isSome_iff_exists.mp hclose
      obtain ⟨htiles, hend, hseated, hall⟩ := content_placed accepted ihinner inner ht hcontent hnodes
      refine ⟨?_, hall⟩
      intro t hclose
      obtain rfl := Option.some.inj hclose
      exact ⟨htiles, hend, hseated⟩
    | @fragment t text =>
      obtain rfl : last = [] := by
        cases ends
        rfl
      rw [List.append_nil, List.singleton_append, assemble, allParts, part] at hvalid ⊢
      rw [Piece.tokens, List.append_nil, List.singleton_append] at ht
      obtain ⟨hspans, hseated, hall⟩ := fragment_holds accepted ihinner inner ht hvalid
      refine ⟨⟨hspans, hseated⟩, ?_⟩
      rw [Part.markups, Leaf.markups, ← hall, Piece.opensMarkup, if_pos rfl, List.map_append, List.map_singleton, part,
        assemble, allParts, part]
      rfl
    | braces =>
      cases ends
      exact hbracket rfl ht hvalid
    | group =>
      cases ends
      exact hbracket rfl ht hvalid
    | template =>
      cases ends
      exact hbracket rfl ht hvalid

end Markup
end JsxEdit
