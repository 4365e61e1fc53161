import JsxEdit.Proofs.Seat

/-
Expressions between brackets, and the nodes that they become.

With markup in it, an expression is a script of its code and nodes, each in the place where it was read. Without, the node
is made up for the text and has no place. So all markup that is read inside the brackets is below the node, in order.
-/
set_option autoImplicit false

namespace JsxEdit

open Node (Unplaced unplaced_new)

/-! ## The node of an expression -/

/-- The expression is the one of these tokens and nodes: without nodes it has no place, or it is their script. -/
def Reading.Of (leaves : List Leaf) (r : Reading) : Prop :=
  (Leaf.AllTokens leaves ∧ ∀ n ∈ r.node, n.Unplaced) ∨ r.node = some (.new .script (Leaf.code leaves))

/-- The expressions of a group are those of its inside. -/
structure Group.Reads (g : Group) : Prop where
  reading : g.reading.Of g.inside
  object : Leaf.AllTokens g.inside → ∀ n ∈ g.object, n.Unplaced

namespace Part

/-- The expressions of a part are those of its inside. -/
def Reads : Part → Prop
  | .group g => g.Reads
  | _ => True

variable {ps : List Part}

theorem tokens_of_sublist {qs : List Part} (h : Leaf.AllTokens (allLeaves ps)) (hqs : ∀ q ∈ qs, q ∈ ps) :
    Leaf.AllTokens (allLeaves qs) := by
  intro l hl
  obtain ⟨q, hq, hl⟩ := List.mem_flatMap.mp hl
  exact h l (List.mem_flatMap.mpr ⟨q, hqs q hq, hl⟩)

theorem tokens_inside {g : Group} (h : Leaf.AllTokens (allLeaves ps)) (hg : Part.group g ∈ ps) :
    Leaf.AllTokens g.inside := by
  intro l hl
  refine h l (List.mem_flatMap.mpr ⟨_, hg, ?_⟩)
  exact List.mem_append_left _ (List.mem_cons_of_mem _ hl)

theorem unplaced_object? (h : ∀ p ∈ ps, p.Reads) (ht : Leaf.AllTokens (allLeaves ps)) :
    ∀ n ∈ object? ps, n.Unplaced := by
  intro n hn
  unfold object? at hn
  split at hn
  · next g hg =>
    split at hn
    · have hmem : Part.group g ∈ ps := (List.mem_filter.mp (hg ▸ List.mem_cons_self)).1
      exact Group.Reads.object (h _ hmem) (tokens_inside ht hmem) n hn
    · cases hn
  · cases hn

/-- An expression of tokens has no place. -/
theorem unplaced_reading (h : ∀ p ∈ ps, p.Reads) (ht : Leaf.AllTokens (allLeaves ps)) :
    ∀ n ∈ (reading ps).node, n.Unplaced := by
  intro n hn
  rw [reading, Leaf.tokenText?_of_allTokens ht] at hn
  dsimp only at hn
  split at hn
  · cases hn
  · rw [← Option.some.inj hn]
    cases hobject : object? ps with
    | none =>
      rw [Option.getD_none]
      exact Expression.unplaced_ofText _
    | some o =>
      rw [Option.getD_some]
      exact unplaced_object? h ht o hobject

theorem reading_of (h : ∀ p ∈ ps, p.Reads) : (reading ps).Of (allLeaves ps) := by
  cases htext : Leaf.tokenText? (allLeaves ps) with
  | none =>
    right
    rw [reading, htext]
  | some text =>
    have ht := (Leaf.tokenText?_eq_some htext).1
    exact .inl ⟨ht, unplaced_reading h ht⟩

theorem unplaced_property? {node : Node} {trail : String} (h : ∀ p ∈ ps, p.Reads)
    (ht : Leaf.AllTokens (allLeaves ps)) (hp : property? ps = some (node, trail)) : node.Unplaced := by
  unfold property? at hp
  obtain ⟨colon, -, hp⟩ := Option.bind_eq_some_iff.mp hp
  obtain ⟨tokens, -, hp⟩ := Option.bind_eq_some_iff.mp hp
  dsimp only at hp
  split at hp
  · cases hp
  · obtain ⟨value, hvalue, hp⟩ := Option.bind_eq_some_iff.mp hp
    cases hp
    have hdrop : ∀ p ∈ ps.drop (colon + 1), p ∈ ps := fun p hp => List.mem_of_mem_drop hp
    have hplain := unplaced_reading (fun p hp => h p (hdrop p hp)) (tokens_of_sublist ht hdrop) value hvalue
    exact unplaced_new rfl (List.forall_mem_singleton.mpr hplain)

theorem unplaced_properties {items : List (List Part)} {found : List (Node × String)}
    (h : ∀ item ∈ items, (∀ p ∈ item, p.Reads) ∧ Leaf.AllTokens (allLeaves item))
    (hf : items.mapM property? = some found) : ∀ e ∈ found, e.1.Unplaced := by
  induction items generalizing found with
  | nil =>
    cases hf
    exact fun e he => nomatch he
  | cons item items ih =>
    rw [List.forall_mem_cons] at h
    rw [List.mapM_cons] at hf
    obtain ⟨first, hfirst, hf⟩ := Option.bind_eq_some_iff.mp hf
    obtain ⟨rest, hrest, hf⟩ := Option.bind_eq_some_iff.mp hf
    cases hf
    exact List.forall_mem_cons.mpr ⟨unplaced_property? h.1.1 h.1.2 hfirst, ih h.2 hrest⟩

theorem unplaced_asObject (h : ∀ p ∈ ps, p.Reads) (ht : Leaf.AllTokens (allLeaves ps)) :
    ∀ n ∈ asObject ps, n.Unplaced := by
  intro n hn
  unfold asObject at hn
  dsimp only at hn
  obtain ⟨properties, hproperties, hn⟩ := Option.bind_eq_some_iff.mp hn
  cases hn
  have hitems : ∀ item ∈ splitOn (isSeparator ",") ps, (∀ p ∈ item, p.Reads) ∧ Leaf.AllTokens (allLeaves item) := by
    intro item hitem
    have hmem := mem_of_splitOn hitem
    exact ⟨fun p hp => h p (hmem p hp), tokens_of_sublist ht hmem⟩
  refine unplaced_new rfl (List.forall_mem_map.mpr (unplaced_properties ?_ hproperties))
  split
  · exact fun item hitem => hitems item (List.dropLast_subset _ hitem)
  · exact hitems

/-- The parts of a group: the bracket, the inside, and the closing bracket if there is one. -/
theorem asGroup_cases (closers : List String) (t : Token) (ps : List Part) : ∃ inside tail,
    asGroup closers (.leaf (.token t) :: ps) =
      .group ⟨t, allLeaves inside, tail, reading inside, asObject inside⟩ ∧
    ps = inside ++ (tail.map fun close => Part.leaf (.token close)).toList := by
  rcases List.eq_nil_or_concat ps with rfl | ⟨qs, q, rfl⟩
  · exact ⟨[], none, rfl, rfl⟩
  · rw [List.concat_eq_append]
    have hlength : 1 < (Part.leaf (.token t) :: (qs ++ [q])).length := by simp
    have hlast : (Part.leaf (.token t) :: (qs ++ [q])).getLast? = some q := by
      rw [← List.cons_append, List.getLast?_concat]
    unfold asGroup
    dsimp only
    rw [if_pos hlength, hlast, Option.bind_some]
    cases htail : q.token?.filter (closers.contains ·.text) with
    | none => exact ⟨qs ++ [q], none, rfl, (List.append_nil _).symm⟩
    | some close =>
      refine ⟨qs, some close, ?_, ?_⟩
      · simp [Part.token?, Leaf.token?]
      · obtain ⟨htoken, -⟩ := Option.filter_eq_some_iff.mp htail
        rcases q with (t' | n) | g | ⟨nodes, c⟩
        · cases htoken
          rfl
        · cases htoken
        · cases htoken
        · cases htoken

theorem reads_asGroup (closers : List String) (t : Token) (h : ∀ p ∈ ps, p.Reads) :
    (asGroup closers (.leaf (.token t) :: ps)).Reads := by
  obtain ⟨inside, tail, heq, hps⟩ := asGroup_cases closers t ps
  have hinside : ∀ p ∈ inside, p.Reads := fun p hp => h p (hps ▸ List.mem_append_left _ hp)
  rw [heq]
  exact ⟨reading_of hinside, unplaced_asObject hinside⟩

end Part

/-- The expressions of every part are those of its inside. -/
theorem Markup.reads_part {p : Piece} (h : Piece.Formed p) : (part p).Reads := by
  induction h with
  | token t => trivial
  | @stretch mode first items last opens ends accepted inner outer ihinner ihouter =>
    have hitems : ∀ p ∈ allParts (items ++ last), p.Reads := by
      intro x hx
      obtain ⟨p, hp, rfl⟩ := mem_allParts hx
      rcases List.mem_append.mp hp with hp | hp
      · exact ihinner p hp
      · exact ihouter p hp
    rw [List.append_assoc, part]
    cases opens with
    | tag => trivial
    | content => trivial
    | fragment => trivial
    | braces => exact Part.reads_asGroup _ _ hitems
    | group => exact Part.reads_asGroup _ _ hitems
    | template => exact Part.reads_asGroup _ _ hitems

/-! ## Parts in their places -/

/-- The parts of a group stand one after the other, and what is read inside is in its place. -/
structure Group.Placed (text : String) (a : Nat) (g : Group) (b : Nat) : Prop where
  leaves : Leaf.Tiles text a g.leaves b
  seated : ∀ l ∈ g.inside, l.Seated text

namespace Part

/-- The part stands between the positions, and what is read in it is in its place. Of what is between the tags of an
element, the closing tag is the end. -/
def Placed (text : String) (a : Nat) : Part → Nat → Prop
  | .leaf l, b => l.Sits text a b ∧ l.Seated text
  | .group g, b => g.Placed text a b
  | .content nodes close, b => ∀ t ∈ close, Node.Tiles a nodes t.pos ∧ Token.Tiles text t.pos [t] b ∧
      Node.AllSeated text nodes

/-- The parts stand one after the other from one position to another. -/
def Tiles (text : String) : Nat → List Part → Nat → Prop
  | a, [], b => a = b
  | a, p :: ps, b => ∃ c, p.Placed text a c ∧ Tiles text c ps b

/-- The elements and fragments in the part, in order. -/
def markups : Part → List Node
  | .leaf l => l.markups
  | .group g => g.inside.flatMap Leaf.markups
  | .content nodes _ => Node.markups nodes

/-- Whether all of the part could be read. -/
def Valid : Part → Prop
  | .leaf l => l.isValid = true
  | .group g => ∀ l ∈ g.inside, l.isValid = true
  | .content nodes close => Node.allValid nodes = true ∧ close.isSome = true

/-- Parts of expressions: what is between tags cannot be among them. -/
def IsInline : Part → Prop
  | .content .. => False
  | _ => True

/-- Parts of expressions are valid if all their tokens and nodes are. -/
theorem valid_of_leaves {p : Part} (hp : p.IsInline) (h : ∀ l ∈ p.leaves, l.isValid = true) : p.Valid := by
  cases p with
  | leaf l => exact h l List.mem_cons_self
  | group g => exact fun l hl => h l (List.mem_append_left _ (List.mem_cons_of_mem _ hl))
  | content => cases hp

variable {text : String} {a b c : Nat} {ps qs : List Part}

theorem Tiles.append_iff : Tiles text a (ps ++ qs) c ↔ ∃ b, Tiles text a ps b ∧ Tiles text b qs c := by
  induction ps generalizing a with
  | nil =>
    constructor
    · exact fun h => ⟨a, rfl, h⟩
    · rintro ⟨b, rfl, h⟩
      exact h
  | cons p ps ih =>
    rw [List.cons_append, Tiles]
    constructor
    · rintro ⟨d, hp, h⟩
      obtain ⟨b, h, h'⟩ := ih.mp h
      exact ⟨b, ⟨d, hp, h⟩, h'⟩
    · rintro ⟨b, ⟨d, hp, h⟩, h'⟩
      exact ⟨d, hp, ih.mpr ⟨b, h, h'⟩⟩

theorem Placed.leaves_tile {p : Part} (h : p.Placed text a b) (hp : p.IsInline) : Leaf.Tiles text a p.leaves b := by
  cases p with
  | leaf l => exact ⟨b, h.1, rfl⟩
  | group g => exact Group.Placed.leaves h
  | content => cases hp

/-- The tokens and nodes of parts stand one after the other, as the parts do. -/
theorem Tiles.leaves_tile (h : Tiles text a ps b) (hps : ∀ p ∈ ps, p.IsInline) : Leaf.Tiles text a (allLeaves ps) b := by
  induction ps generalizing a with
  | nil => exact h
  | cons p ps ih =>
    obtain ⟨c, hp, hrest⟩ := h
    rw [List.forall_mem_cons] at hps
    rw [allLeaves, List.flatMap_cons]
    exact Leaf.Tiles.append_iff.mpr ⟨c, hp.leaves_tile hps.1, ih hrest hps.2⟩

theorem Placed.leaves_seated {p : Part} (h : p.Placed text a b) : ∀ l ∈ p.leaves, l.Seated text := by
  cases p with
  | leaf l => exact List.forall_mem_singleton.mpr h.2
  | content => exact fun l hl => nomatch hl
  | group g =>
    intro l hl
    rcases List.mem_append.mp hl with hl | hl
    · rcases List.mem_cons.mp hl with rfl | hl
      · trivial
      · exact Group.Placed.seated h l hl
    · obtain ⟨t, -, rfl⟩ := Option.map_eq_some_iff.mp (Option.mem_toList.mp hl)
      trivial

theorem Tiles.leaves_seated (h : Tiles text a ps b) : ∀ l ∈ allLeaves ps, l.Seated text := by
  induction ps generalizing a with
  | nil => exact fun l hl => nomatch hl
  | cons p ps ih =>
    obtain ⟨c, hp, hrest⟩ := h
    rw [allLeaves, List.flatMap_cons, List.forall_mem_append]
    exact ⟨hp.leaves_seated, ih hrest⟩

/-- The brackets of a group are no markup. -/
theorem markups_leaves {p : Part} (hp : p.IsInline) : p.leaves.flatMap Leaf.markups = p.markups := by
  cases p with
  | leaf l => exact List.append_nil _
  | content => cases hp
  | group g =>
    rw [leaves, Group.leaves, List.flatMap_append, List.flatMap_cons, Leaf.markups, List.nil_append]
    cases g.tail <;> exact List.append_nil _

theorem markups_allLeaves (hps : ∀ p ∈ ps, p.IsInline) : (allLeaves ps).flatMap Leaf.markups = ps.flatMap markups := by
  rw [allLeaves, List.flatMap_assoc]
  exact List.flatMap_congr fun p hp => markups_leaves (hps p hp)

/-- A group stands where its brackets and what is between them stand. -/
theorem placed_asGroup (closers : List String) {t : Token} (h : Tiles text a (.leaf (.token t) :: ps) b)
    (hps : ∀ p ∈ ps, p.IsInline) : (asGroup closers (.leaf (.token t) :: ps)).Placed text a b ∧
      (asGroup closers (.leaf (.token t) :: ps)).markups = ps.flatMap markups := by
  obtain ⟨inside, tail, heq, hsplit⟩ := asGroup_cases closers t ps
  have hinside : ∀ p ∈ inside, p.IsInline := fun p hp => hps p (hsplit ▸ List.mem_append_left _ hp)
  have hleaves : allLeaves (.leaf (.token t) :: ps) =
      (Group.mk t (allLeaves inside) tail (reading inside) (asObject inside)).leaves := by
    rw [hsplit, allLeaves, List.flatMap_cons, List.flatMap_append]
    cases tail <;> rfl
  have hall := h.leaves_tile (List.forall_mem_cons.mpr ⟨trivial, hps⟩)
  obtain ⟨c, -, hrest⟩ := h
  rw [hsplit] at hrest
  obtain ⟨d, hrest, -⟩ := Tiles.append_iff.mp hrest
  rw [heq]
  refine ⟨⟨hleaves ▸ hall, hrest.leaves_seated⟩, ?_⟩
  rw [markups, markups_allLeaves hinside, hsplit, List.flatMap_append]
  cases tail <;> exact (List.append_nil _).symm

end Part

/-! ## Slots and spread attributes -/

namespace Group

variable {text : String} {a b : Nat} {g : Group}

/-- What is inside a group lies between its brackets. -/
theorem Placed.inside (h : g.Placed text a b) : g.head.pos = a ∧ ∃ c d, a < c ∧ Leaf.Tiles text c g.inside d ∧
    (∀ t ∈ g.tail, d < b ∧ t.stop = b) := by
  obtain ⟨d, ⟨c, hhead, hinside⟩, htail⟩ := Leaf.Tiles.append_iff.mp (show Leaf.Tiles text a
    ((.token g.head :: g.inside) ++ (g.tail.map Leaf.token).toList) b from h.leaves)
  obtain ⟨hpos, hstop, hlt, -⟩ := Token.Tiles.singleton.mp hhead
  refine ⟨hpos, c, d, by omega, hinside, ?_⟩
  intro t ht
  rw [Option.mem_def.mp ht] at htail
  obtain ⟨e, ht, rfl⟩ := htail
  obtain ⟨hpos, hstop, hlt, -⟩ := Token.Tiles.singleton.mp ht
  exact ⟨by omega, hstop⟩

/-- The expression of a group holds all that is read inside. -/
theorem Placed.node (h : g.Placed text a b) (hr : g.Reads) : Node.AllSeated text g.reading.node.toList ∧
    Node.markups g.reading.node.toList = g.inside.flatMap Leaf.markups := by
  obtain ⟨-, c, d, -, hinside, -⟩ := h.inside
  rcases hr.reading with ⟨htokens, hplain⟩ | hscript
  · rw [Leaf.markups_tokens htokens]
    cases hnode : g.reading.node with
    | none => exact ⟨.nil, rfl⟩
    | some n =>
      have hn := hplain n hnode
      exact ⟨hn.allSeated, hn.markups⟩
  · obtain ⟨-, hseated, hmarkups⟩ := Leaf.code_tiles hinside h.seated
    rw [hscript]
    refine ⟨Node.allSeated_other ⟨rfl, rfl⟩ .nil hseated, ?_⟩
    exact (Node.markups_other rfl _ _ _).trans hmarkups

/-- If the expression of a group could be read, all inside could. -/
theorem valid_of_node (hr : g.Reads) (h : Node.allValid g.reading.node.toList = true) : (Part.group g).Valid := by
  rcases hr.reading with ⟨htokens, -⟩ | hscript
  · exact htokens.isValid
  · rw [hscript] at h
    rw [Option.toList_some, Node.allValid, Bool.and_eq_true, Node.isValid_new] at h
    exact Leaf.isValid_of_codeFrom [] _ h.1

end Group

namespace Markup

variable {text : String} {a b : Nat} {g : Group}

theorem slot_some {tail : Token} (h : g.tail = some tail) : slot g = .mk (.slot g.reading.lead g.reading.trail)
    ⟨some (spanOf g.head g.head), some (spanOf tail tail), none⟩ [] g.reading.node.toList := by
  rw [slot, h]

theorem slot_valid (hr : g.Reads) (h : (slot g).isValid = true) : g.tail.isSome = true ∧ (Part.group g).Valid := by
  cases htail : g.tail with
  | none =>
    rw [slot, htail] at h
    rw [Tag.invalid_isValid] at h
    cases h
  | some tail =>
    rw [slot_some htail, Node.isValid, Bool.and_eq_true] at h
    exact ⟨rfl, Group.valid_of_node hr h.2⟩

/-- A slot stands where its group stands, and holds what is read there. -/
theorem slot_placed (h : g.Placed text a b) (hr : g.Reads) (htail : g.tail.isSome = true) :
    (slot g).Spans a b ∧ Node.AllSeated text [slot g] ∧ Node.markups [slot g] = (Part.group g).markups := by
  obtain ⟨tail, htail⟩ := Option.isSome_iff_exists.mp htail
  obtain ⟨hseated, hmarkups⟩ := h.node hr
  obtain ⟨rfl, c, d, hlt, hinside, hclose⟩ := h.inside
  obtain ⟨hlt', rfl⟩ := hclose tail htail
  have hle : c ≤ d := hinside.le
  rw [slot_some htail]
  refine ⟨Node.spans_tail (by omega), Node.allSeated_other ⟨rfl, rfl⟩ .nil hseated, ?_⟩
  rw [Node.markups_other rfl, hmarkups]
  rfl

/-- A spread attribute holds what is read in its group. -/
theorem spread_placed {space : String} {attr : Node} (h : g.Placed text a b) (hr : g.Reads)
    (hspread : spread space g = .ok attr) : (attr.kind.isSource = false ∧ attr.kind.isMarkup = false) ∧
      Node.AllSeated text [attr] ∧ Node.markups [attr] = (Part.group g).markups := by
  obtain ⟨hseated, hmarkups⟩ := h.node hr
  unfold spread at hspread
  split at hspread
  · cases hspread
  · dsimp only at hspread
    split at hspread
    · cases hspread
      refine ⟨⟨rfl, rfl⟩, ?_⟩
      rw [Node.markups_other rfl, Node.markups_nil, List.nil_append]
      show Node.AllSeated text [_] ∧ _ = g.inside.flatMap Leaf.markups
      -- the script is the node, or it is made up for the text of a node without markup
      cases hnode : g.reading.node with
      | none =>
        rw [hnode] at hmarkups
        have hscript := Expression.unplaced_script ((Option.map Node.write none).getD "")
        exact ⟨Node.allSeated_other ⟨rfl, rfl⟩ .nil hscript.allSeated, hscript.markups.trans hmarkups⟩
      | some n =>
        rw [hnode] at hmarkups hseated
        dsimp only
        split
        · exact ⟨Node.allSeated_other ⟨rfl, rfl⟩ .nil hseated, hmarkups⟩
        · next hname =>
          have hplain : n.Unplaced := by
            rcases hr.reading with ⟨-, hplain⟩ | hscript
            · exact hplain n hnode
            · rw [hnode] at hscript
              cases hscript
              exact absurd rfl hname
          rw [Option.toList_some, hplain.markups] at hmarkups
          have hscript := Expression.unplaced_script ((Option.map Node.write (some n)).getD "")
          exact ⟨Node.allSeated_other ⟨rfl, rfl⟩ .nil hscript.allSeated, hscript.markups.trans hmarkups⟩
    · cases hspread

theorem spread_valid {space : String} {attr : Node} (hr : g.Reads) (hspread : spread space g = .ok attr)
    (hvalid : attr.isValid = true) : (Part.group g).Valid := by
  unfold spread at hspread
  split at hspread
  · cases hspread
  · dsimp only at hspread
    split at hspread
    · cases hspread
      rcases hr.reading with ⟨htokens, -⟩ | hscript
      · exact htokens.isValid
      · refine Group.valid_of_node hr ?_
        rw [hscript] at hvalid ⊢
        dsimp only at hvalid
        have hname : ((Node.new .script (Leaf.code g.inside)).kind.name == "Script") = true := rfl
        rw [if_pos hname, Node.isValid, Bool.and_eq_true] at hvalid
        exact hvalid.2
    · cases hspread

end Markup
end JsxEdit
