import JsxEdit.Proofs.ElementText

/-
The value of an attribute, exchanged for another.

The braces around an expression that is the value of an attribute come right after an equals sign. Other braces in their
place are read as the value of the same attribute.
-/
set_option autoImplicit false

namespace JsxEdit

open Piece (allEvents)
open Scan (Begins)
open Scan.Stand (InTag)
open Markup (part allParts elementFrom Through)
open List (Forall₂)

/-! ## The value among the pieces -/

/-- The braces that are the value of an attribute, with what is read of the tag before them. -/
structure SlotAt (items : List Piece) (left : List Node) (a : Node) (I its J : List Piece) (g : Group) (o : Markup.Opening)
    (b : Node) : Prop where
  items : items = I ++ .stretch .braces its :: J
  braces : part (.stretch .braces its) = .group g
  through : Through ⟨[], "", false⟩ (allParts I) o
  waiting : o.waiting = true
  attributes : o.attributes = b :: left.reverse
  unset : b.children = []
  value : a = b.withChildren [Markup.slot g]

theorem part_of_ends {last : List Piece} (h : Piece.Ends .tag last) : ∀ p ∈ last, ∀ g, part p ≠ .group g := by
  intro p hp g hg
  cases h with
  | none => cases hp
  | selfClosing | opened =>
    obtain rfl := List.mem_singleton.mp hp
    cases hg
  | content =>
    rcases List.mem_cons.mp hp with rfl | hp
    · cases hg
    · obtain rfl := List.mem_singleton.mp hp
      cases hg

section

variable {text : String} {angle name : Token} {items last : List Piece} {e a s : Node} {left right rest : List Node}

theorem Drawn.exists_slot (h : Drawn text angle name items last e) (hsplit : e.attributes = left ++ a :: right)
    (hattr : ∃ name space, a.kind = .attr name space) (hs : a.children = s :: rest)
    (hslot : ∃ lead trail, s.kind = .slot lead trail) : ∃ I its J g o b, SlotAt items left a I its J g o b := by
  have hvalid := h.valid
  have hnode := h.tagged.node
  rw [hnode] at hvalid hsplit
  obtain ⟨A, g, B, o, b, hparts, hthrough, hwaiting, has, hunset, ha⟩ :=
    Markup.exists_value hvalid hsplit hattr hs hslot (.inl (Nat.zero_le _))
  rw [Markup.allParts_eq_map] at hparts
  obtain ⟨I, K, hitems, rfl, hK⟩ := List.map_eq_append_iff.mp hparts
  obtain ⟨p, K', rfl, hp, -⟩ := List.map_eq_cons_iff.mp hK
  -- the braces are not what the tag ends with
  obtain ⟨J, rfl⟩ : ∃ J, items = I ++ p :: J := by
    rcases List.append_eq_append_iff.mp hitems with ⟨c, rfl, hlast⟩ | ⟨c, rfl, hlast⟩
    · exact absurd hp (part_of_ends h.tagged.ends p (by rw [hlast]; exact List.mem_append_right _ List.mem_cons_self) g)
    · cases c with
      | nil => exact absurd hp (part_of_ends h.tagged.ends p (by rw [← List.nil_append last, ← hlast]; exact List.mem_cons_self) g)
      | cons d c =>
        obtain ⟨rfl, -⟩ := List.cons.inj hlast
        exact ⟨c, rfl⟩
  obtain ⟨haccepts, -⟩ := h.tagged.inner p (List.mem_append_right _ List.mem_cons_self)
  cases p with
  | token t => cases hp
  | stretch mode its =>
    obtain ⟨rfl, -⟩ := haccepts
    rw [← Markup.allParts_eq_map] at hthrough
    exact ⟨I, its, J, g, o, b, rfl, hp, hthrough, hwaiting, has, hunset, ha⟩

variable {I its J : List Piece} {g : Group} {o : Markup.Opening} {b : Node}

/-- What a value in braces is made of. -/
theorem SlotAt.slot_spec (h : SlotAt items left a I its J g o b) (hs : a.children = s :: rest) {lead trail : String}
    (hslot : s.kind = .slot lead trail) {n : Node} {rest' : List Node} (hn : s.children = n :: rest') :
    s = Markup.slot g ∧ rest = [] ∧ rest' = [] ∧ g.tail.isSome = true ∧ g.reading = ⟨lead, some n, trail⟩ ∧ s.attributes = [] := by
  rw [h.value, Node.children_withChildren] at hs
  obtain ⟨rfl, rfl⟩ := List.cons.inj hs
  cases htail : g.tail with
  | none =>
    rw [Markup.slot, htail] at hslot
    cases hslot
  | some t =>
    have heq : Markup.slot g = .mk (.slot g.reading.lead g.reading.trail)
        ⟨some (Markup.spanOf g.head g.head), some (Markup.spanOf t t), none⟩ [] g.reading.node.toList := by
      rw [Markup.slot, htail]
    rw [heq] at hslot hn
    obtain ⟨rfl, rfl⟩ := Kind.slot.inj hslot
    cases hnode : g.reading.node with
    | none =>
      rw [hnode] at hn
      cases hn
    | some m =>
      rw [hnode] at hn
      obtain ⟨rfl, rfl⟩ := List.cons.inj hn
      refine ⟨rfl, rfl, rfl, rfl, ?_, by rw [heq]; rfl⟩
      rw [← hnode]

theorem SlotAt.split (h : SlotAt items left a I its J g o b) (last : List Piece) :
    items ++ last = I ++ .stretch .braces its :: (J ++ last) := by
  rw [h.items, List.append_assoc]
  rfl

theorem SlotAt.split_three (h : SlotAt items left a I its J g o b) (last : List Piece) :
    items ++ last = I ++ [.stretch .braces its] ++ (J ++ last) := by
  rw [h.split last, List.append_assoc]
  rfl

/-- What is read of a tag with braces as the value. -/
theorem SlotAt.read (h : SlotAt items left a I its J g o b) (angle name : Token) {P : Piece} {g' : Group}
    (hg : part P = .group g') (ps : List Piece) : elementFrom angle name ⟨[], "", false⟩ (allParts (I ++ P :: ps)) =
      elementFrom angle name ⟨b.withChildren [Markup.slot g'] :: left.reverse, o.space, false⟩ (allParts ps) := by
  have hgive : o.giveValue (Markup.slot g') = ⟨b.withChildren [Markup.slot g'] :: left.reverse, o.space, false⟩ := by
    rw [Markup.Opening.giveValue, h.attributes]
    dsimp only
    rw [h.unset]
    rfl
  rw [Markup.allParts_append, h.through.eq, allParts, hg, (Markup.Passes.value (g := g') h.waiting).eq, hgive]

theorem settled_value (b v : Node) (as : List Node) : Markup.Settled (b.withChildren [v] :: as) := by
  intro x hx
  obtain rfl := Option.some.inj hx
  rw [Node.children_withChildren]
  exact List.cons_ne_nil _ _

/-- Another value of the attribute is all that is different in an element if the tag goes on in the same way. -/
theorem SlotAt.exists_tail (h : SlotAt items left a I its J g o b) (hdrawn : Drawn text angle name items last e)
    (hsplit : e.attributes = left ++ a :: right) : ∃ k i cs, k.isElement = true ∧ e = .mk k i (left ++ a :: right) cs ∧
      ∀ v, elementFrom angle name ⟨b.withChildren [v] :: left.reverse, o.space, false⟩ (allParts (J ++ last)) =
        .mk k i (left ++ b.withChildren [v] :: right) cs := by
  have hnode := hdrawn.tagged.node
  rw [h.split last, h.read angle name h.braces, ← h.value] at hnode
  have hframe := hdrawn.valid
  rw [hnode] at hframe
  obtain ⟨k, i, more, cs, hk, hmore⟩ := @Markup.elementFrom_frame _ _ [] _ _ _ _ hframe
    fun _ => ⟨rfl, by rw [h.value]; exact settled_value _ _ _⟩
  have he (v : Node) : elementFrom angle name ⟨b.withChildren [v] :: left.reverse, o.space, false⟩ (allParts (J ++ last)) =
      .mk k i (left ++ b.withChildren [v] :: more) cs := by
    have heq := hmore (b.withChildren [v] :: left.reverse) fun _ => settled_value _ _ _
    rwa [List.reverse_cons, List.reverse_reverse, List.append_assoc] at heq
  rw [h.value, he, ← h.value] at hnode
  rw [hnode, Node.attributes_mk] at hsplit
  obtain rfl := (List.cons.inj (List.append_cancel_left hsplit)).2
  exact ⟨k, i, cs, hk, hnode, he⟩

/-! ## The value in the text -/

theorem SlotAt.isEquals (h : SlotAt items left a I its J g o b) (hdrawn : Drawn text angle name items last e) :
    Markup.endsInEquals false (judgeAll I) = true := by
  have hitems := hdrawn.tagged.inner
  have hkept := hdrawn.kept
  rw [h.items] at hitems hkept
  rw [List.append_assoc, Judged.judgeAll_append, Markup.keepsTag_append, Bool.and_eq_true] at hkept
  have hthrough := h.through
  rw [← Judged.parts_judgeAll] at hthrough
  have htight := hthrough.tight (judgeAll_inTag fun p hp => hitems p (List.mem_append_left _ hp)) (Markup.tight_of_free rfl false)
    hkept.1
  exact (htight h.waiting).1

/-- The braces stand in the text right after an equals sign. -/
theorem SlotAt.exists_stands (h : SlotAt items left a I its J g o b) (hdrawn : Drawn text angle name items last e)
    (hunread : Scan.unread text = []) : ∃ x S Z around es₁ es₂,
      Stands text angle name I [.stretch .braces its] (J ++ last) x S Z around es₁ es₂ ∧ x.getLast? = some '=' ∧
      S.head? = some '\x7b' ∧ Scan.endsInLine (.token name :: allEvents I) = false := by
  have hinner := hdrawn.tagged.inner
  rw [h.items] at hinner
  obtain ⟨hI, hinner⟩ := List.forall_mem_append.mp hinner
  obtain ⟨hslot, hJ⟩ := List.forall_mem_cons.mp hinner
  -- the tag goes on after the braces
  have hnode := hdrawn.tagged.node
  have hvalid := hdrawn.valid
  rw [hnode, h.split last, h.read angle name h.braces] at hvalid
  obtain ⟨f, fs, hrest, hf⟩ := begins_rest hJ hdrawn.tagged.ends hvalid
  obtain ⟨x, r, around, es₁, es₂, htext, hbefore, hin, hrun⟩ := hdrawn.exists_place (h.split last) hI h.through
    (exists_begins hslot.2 (fun its' heq => by cases heq) (fun t ht => by cases ht) _)
  have hgoes : (Scan.Stand.start.after r x).run r =
      allEvents [.stretch .braces its] ++ f :: (fs ++ .leave :: es₂) := by
    rw [hrun, allEvents, hrest, allEvents, allEvents, List.append_nil, List.append_assoc, List.cons_append]
  obtain ⟨S, Z, rfl, -, hparts, hafter, hgoes⟩ := hin.exists_stop hgoes hf fun p hp t ht => by
    obtain rfl := List.mem_singleton.mp hp
    cases ht
  have hstands : Stands text angle name I [.stretch .braces its] (J ++ last) x S Z around es₁ es₂ :=
    ⟨htext, hbefore, hin, hparts, hafter, by rw [hgoes, hrest, List.cons_append]⟩
  -- what stands before them is an equals sign
  obtain ⟨I', t, rfl, hkind⟩ : ∃ I' t, I = I' ++ [.token t] ∧ t.kind = .equals := by
    have hequals := h.isEquals hdrawn
    cases I using List.reverseRecOn with
    | nil => cases hequals
    | append_singleton I' p =>
      rw [Judged.judgeAll_append, Markup.endsInEquals, judgeAll, judgeAll, List.getLast?_concat] at hequals
      obtain ⟨t, ht, hkind⟩ := (Option.any_eq_true _ _).mp hequals
      rw [Judged.part_judge] at ht
      exact ⟨I', t, by rw [token_of_part ht], beq_iff_eq.mp hkind⟩
  have hfits : Scan.Fits .tag t.kind t.text.toList := (hI _ (List.mem_append_right _ List.mem_cons_self)).1
  rw [hkind] at hfits
  have hevents : allEvents (I' ++ [.token t]) = allEvents I' ++ [.token t] := by
    rw [Piece.allEvents_append]
    rfl
  refine ⟨x, S, Z, around, es₁, es₂, hstands, ?_, ?_, ?_⟩
  · rw [hevents] at hbefore
    refine @getLast?_place _ _ _ _ hunread htext hin (es₁ ++ .enter .tag :: .token angle :: .token name :: allEvents I')
      [.token t] ?_ [] _ ?_
    · rw [hbefore, List.append_assoc]
      rfl
    · exact (List.append_nil _).trans hfits
  · obtain ⟨-, u, us, rfl, hu⟩ := hslot.1
    rw [← hstands.covers hunread]
    have hsource := Piece.allText_allEvents [.stretch .braces (.token u :: us)]
    rw [hsource]
    simp [Piece.allSource, Piece.source, hu]
  · rw [hevents, ← List.cons_append, Scan.endsInLine, List.getLast?_concat]
    simp [Scan.isLineComment, hkind]

/-! ## Another value -/

theorem Drawn.formed (h : Drawn text angle name items last e) : ∀ p ∈ items ++ last, p.Formed :=
  List.forall_mem_append.mpr ⟨fun p hp => (h.tagged.inner p hp).2, h.tagged.outer⟩

/-- Other braces are kept as the value if what is read of them is. -/
theorem SlotAt.keepsTag (h : SlotAt items left a I its J g o b) (hdrawn : Drawn text angle name items last e)
    {its' : List Piece} {g' : Group} (hpart : part (.stretch .braces its') = .group g')
    (hreading : (judge (.stretch .braces its')).reading = true) {B' : List Piece}
    (hB : Forall₂ (Likeness.elsewhere.Pieces fun _ _ => False) (J ++ last) B') (hformed : ∀ p ∈ J ++ last, p.Formed) :
    Judged.keepsTag name.text false (judgeAll (I ++ .stretch .braces its' :: B')) = true := by
  have hkept := hdrawn.kept
  rw [h.split last, Judged.judgeAll_append, Markup.keepsTag_append, h.isEquals hdrawn, judgeAll, Judged.keepsTag,
    Bool.and_eq_true, Bool.and_eq_true] at hkept
  obtain ⟨hbefore, -, hafter⟩ := hkept
  have hslot : (judge (.stretch .braces its')).keepsInTag name.text true = true := by
    rw [Judged.keepsInTag, Judged.part_judge, hpart]
    dsimp only
    rw [hreading]
    rfl
  have hequals {ps : List Piece} {g : Group} (hg : part (.stretch .braces ps) = .group g) :
      (judge (.stretch .braces ps)).isEquals = false := by
    rw [Judged.isEquals, Judged.part_judge, hg]
    rfl
  rw [Judged.judgeAll_append, Markup.keepsTag_append, h.isEquals hdrawn, judgeAll, Judged.keepsTag,
    Likeness.keepsTag_eq _ _ (judgeAll_elsewhere hB hformed), hbefore, hslot, hequals hpart]
  rw [hequals h.braces] at hafter
  exact hafter

/-- Other braces that are kept as a value are the value of the same attribute. -/
theorem SlotAt.exchanges (h : SlotAt items left a I its J g o b) (hdrawn : Drawn text angle name items last e)
    (hsplit : e.attributes = left ++ a :: right) {its' : List Piece} {g' : Group} (hpart : part (.stretch .braces its') = .group g')
    (hreading : (judge (.stretch .braces its')).reading = true) {a' : Node}
    (ha' : a'.blind = (a.withChildren [Markup.slot g']).blind)
    (hvalid : (e.withAttributes (left ++ a' :: right)).isValid = true) :
    Exchanges angle name I [.stretch .braces its'] (J ++ last) (e.withAttributes (left ++ a' :: right)).blind := by
  have hformed : ∀ p ∈ J ++ last, p.Formed := fun p hp => hdrawn.formed p (by
    rw [h.split last]
    exact List.mem_append_right _ (List.mem_cons_of_mem _ hp))
  have hinner : ∀ x ∈ b.withChildren [Markup.slot g'] :: left.reverse, x.kind.IsInner := by
    have hall := h.through.inner (List.forall_mem_nil _)
    rw [h.attributes, List.forall_mem_cons] at hall
    exact List.forall_mem_cons.mpr ⟨by rw [Node.kind_withChildren]; exact hall.1, hall.2⟩
  obtain ⟨k, i, cs, hk, rfl, htail⟩ := h.exists_tail hdrawn hsplit
  refine ⟨?_, ?_, fun B' hB => ?_, fun B' hB => ?_⟩
  · rw [Node.kind_blind]
    show k.blind.isElement = true
    cases k <;> first | rfl | cases hk
  · rw [Node.isValid_blind]
    exact hvalid
  · rw [List.append_assoc, List.singleton_append, h.read angle name hpart, elementFrom_elsewhere hB hformed hinner, htail]
    rw [h.value, Node.withChildren_withChildren] at ha'
    show Node.blind (.mk k i (left ++ b.withChildren [Markup.slot g'] :: right) cs) = Node.blind (.mk k i (left ++ a' :: right) cs)
    rw [Node.blind_mk, Node.blind_mk, List.map_append, List.map_append, List.map_cons, List.map_cons, ha']
  · rw [List.append_assoc, List.singleton_append]
    exact h.keepsTag hdrawn hpart hreading hB hformed

/-! ## Object literals -/

theorem SlotAt.formed (h : SlotAt items left a I its J g o b) (hdrawn : Drawn text angle name items last e) :
    Piece.Formed (.stretch .braces its) :=
  hdrawn.formed _ (by
    rw [h.split last]
    exact List.mem_append_right _ List.mem_cons_self)

theorem SlotAt.blank (h : SlotAt items left a I its J g o b) (hdrawn : Drawn text angle name items last e)
    (htail : g.tail.isSome = true) : Text.isBlank g.reading.lead = true ∧ Text.isBlank g.reading.trail = true := by
  obtain ⟨head, mid, t, rfl, ht, -⟩ := exists_closed (h.formed hdrawn) h.braces htail
  obtain ⟨hpart, -, -⟩ := judge_braces ht head mid
  rw [Judged.part_judge, h.braces] at hpart
  obtain rfl := Part.group.inj hpart
  exact ⟨Judged.isBlank_lead_reading _, Judged.isBlank_trail_reading _⟩

theorem SlotAt.reading (h : SlotAt items left a I its J g o b) (hdrawn : Drawn text angle name items last e) :
    (judge (.stretch .braces its)).reading = true := by
  have hkept := hdrawn.kept
  rw [h.split last, Judged.judgeAll_append, Markup.keepsTag_append, judgeAll, Judged.keepsTag,
    Bool.and_eq_true, Bool.and_eq_true] at hkept
  have hslot := hkept.2.1
  rw [Judged.keepsInTag, Judged.part_judge, h.braces] at hslot
  exact (Bool.and_eq_true_iff.mp hslot).1

open Edit (Listed EndsComments) in
/-- The properties of an object literal in a tag can be read elsewhere. -/
theorem SlotAt.listed (h : SlotAt items left a I its J g o b) (hdrawn : Drawn text angle name items last e)
    (hunread : Scan.unread text = []) (hclear : e.StandsClear text) (htail : g.tail.isSome = true) {object : Node}
    {trailing : String} (hobject : object.kind = .object trailing) (hnode : g.reading.node = some object)
    (hcomments : EndsComments object) : Listed object trailing := by
  obtain ⟨x, S, Z, around, es₁, es₂, hstands, -⟩ := h.exists_stands hdrawn hunread
  have hrun : (Scan.Stand.start.after (S ++ Z) x).run (S ++ Z) = (Piece.stretch .braces its).events ++
      (allEvents (J ++ last) ++ .leave :: es₂) := by
    rw [Scan.Stand.run_append, hstands.parts, hstands.rest, allEvents, allEvents, List.append_nil]
  obtain ⟨a, b, hspans, hcloses⟩ := hclear
  obtain ⟨ha, hb⟩ := hstands.bounds hdrawn (h.split_three last) hunread hspans
  have hpos : (Scan.Stand.start.after (S ++ Z) x).pos = x.length := (Scan.Stand.pos_after _ _ _).trans (Nat.zero_add _)
  have htext : Event.allText (Piece.stretch .braces its).events = S := by
    rw [← Piece.allEvents_singleton]
    exact hstands.covers hunread
  obtain ⟨s', cs', ps, t, es', hat, hread, hkept⟩ := exists_atItem hstands.inTag hrun (hstands.unread hunread)
    (hstands.closes hcloses) (by rwa [hpos]) (by rwa [hpos, htext]) (h.formed hdrawn) h.braces htail hobject hnode
    (h.reading hdrawn)
  obtain ⟨trailing', ns, rfl⟩ : ∃ trailing' ns, object = .new (.object trailing') ns := by
    rcases Judged.asObject_spec hread with ⟨_, _, _, _, -, -, -, -, heq⟩ | ⟨_, -, heq⟩ <;> exact ⟨_, _, heq⟩
  obtain rfl := Kind.object.inj hobject
  obtain ⟨hclauses, hends⟩ := hat.clauses hread hkept (hcomments.of_asObject hread)
  exact ⟨rfl, rfl, hclauses, hends.imp_right fun hends => hends.2⟩

/-! ## The text with another value -/

theorem fences_brace {c : Char} (w : List Char) : Scan.Fences c ('\x7b' :: w) where
  head d hd := by
    obtain rfl := Option.some.inj hd
    decide
  pair _ d hd := by
    obtain rfl := Option.some.inj hd
    decide
  markup := rfl

/-- An equals sign is read in the same way before any braces. -/
theorem alike_brace (w w' : List Char) : Scan.Alike '=' ('\x7b' :: w) ('\x7b' :: w') where
  solid := by decide
  goesOn := List.cons_ne_nil _ _
  left := fences_brace w
  right := fences_brace w'
  closing := .of_outside (b := []) List.not_mem_nil ⟨⟨by decide, by decide, by decide, by decide⟩, by decide, by decide⟩
    (by decide) w'
  brace _ := .inr rfl
  brace' _ := rfl

/-- Two pairs of braces in a tag are written as the slot that they are read as. -/
theorem source_of_slot {its : List Piece} {g : Group} (hstarts : Piece.StartsWithBrace its)
    (hformed : Piece.Formed (.stretch .braces its)) (hpart : part (.stretch .braces its) = .group g)
    (hreading : (judge (.stretch .braces its)).reading = true) (hvalid : (Markup.slot g).isValid = true) :
    (Piece.stretch .braces its).source = (Markup.slot g).write := by
  obtain ⟨g', middle, hgroup, hkept, hhead⟩ := Judged.braces_group hstarts (Judged.judge_sound hformed)
  rw [Judged.part_judge, hpart] at hgroup
  obtain rfl := Part.group.inj hgroup
  have hagrees := (Tag.slot_agrees hkept hhead hvalid).1
  rw [← Judged.source_judge]
  exact (hagrees.iff.mpr hreading).symm

/-- Where a value in braces gives its place to an object literal, the text is read with that. -/
theorem SlotAt.exists_text (h : SlotAt items left a I its J g o b) (hdrawn : Drawn text angle name items last e)
    (hsplit : e.attributes = left ++ a :: right) (htail : g.tail.isSome = true) {tree : Node}
    (hparse : Source.parse text = .ok tree) (hkept : keeps text = true) (hclear : e.StandsClear text) {written : String}
    {n : Node} (hcontents : Contents written (Yields n)) (hwrite : n.write = "\x7b" ++ written ++ "\x7d") {a' : Node}
    (ha' : a'.blind = (a.withChildren [.new (.slot g.reading.lead g.reading.trail) [n]]).blind)
    (hvalid : (e.withAttributes (left ++ a' :: right)).isValid = true) (hn : n.isValid = true) :
    ∃ text' tree', Source.parse text' = .ok tree' ∧ tree'.write = text' ∧
      (tree'.withKind tree.kind).blind = Node.swap (· == angle.pos) (e.withAttributes (left ++ a' :: right)).blind tree := by
  have hunread : Scan.unread text = [] := by
    rw [keeps, Bool.and_eq_true] at hkept
    exact List.isEmpty_iff.mp hkept.1
  obtain ⟨x, S, Z, around, es₁, es₂, hstands, hlast, hhead, hline⟩ := h.exists_stands hdrawn hunread
  obtain ⟨hlead, htrail⟩ := h.blank hdrawn htail
  obtain ⟨its', g', hbrings, hafter, hstarts, hpart, hreading, hslot⟩ := slot_reads hcontents hstands.inTag hlead htrail Z
  set S' := ("\x7b" ++ g.reading.lead ++ ("\x7b" ++ written ++ "\x7d") ++ g.reading.trail ++ "\x7d").toList with hS'
  have hslotValid : (Markup.slot g').isValid = true := by
    rw [← Node.isValid_blind, hslot, Node.isValid_blind]
    simp [Node.new, Node.isValid, Node.allValid, hn, Kind.isInvalid]
  have hslotWrite : (Markup.slot g').write.toList = S' := by
    rw [← Node.write_blind, hslot, Node.write_blind, hS', ← hwrite]
    simp [Node.new, Node.write, Node.writeAll, Kind.opening, Kind.closing]
  have halike : Scan.Alike '=' (S ++ Z) (S' ++ Z) := by
    obtain ⟨w, rfl⟩ := List.head?_eq_some_iff.mp hhead
    have hbrace : S' = '\x7b' ::
        (g.reading.lead.toList ++ ("\x7b" ++ written ++ "\x7d").toList ++ g.reading.trail.toList ++ ['\x7d']) := by
      rw [hS']
      simp
    rw [hbrace]
    exact alike_brace _ _
  have hattribute : a'.blind = (a.withChildren [Markup.slot g']).blind := by
    obtain ⟨k, i, as, cs⟩ := a
    refine ha'.trans ?_
    show Node.blind (.mk k i as [_]) = Node.blind (.mk k i as [_])
    rw [Node.blind_mk, Node.blind_mk, List.map_singleton, List.map_singleton, hslot]
  have hexchanges := h.exchanges hdrawn hsplit hpart hreading hattribute hvalid
  have hparts : allEvents [.stretch .braces its'] = (Piece.stretch .braces its').events := Piece.allEvents_singleton _
  obtain ⟨tree', hparse', hwritten, hblind⟩ :=
    hstands.exchanged hdrawn (h.split_three last) hparse hkept hclear hexchanges hlast halike hline
    ⟨hbrings.trans hparts.symm, hafter⟩ fun hformed => by
      have hsource := source_of_slot hstarts (hformed _ List.mem_cons_self) hpart hreading hslotValid
      rw [hparts, Piece.allText_events, hsource, hslotWrite]
  exact ⟨_, tree', hparse', hwritten, hblind⟩

end

end JsxEdit
