import JsxEdit.Proofs.Coverage
import JsxEdit.Proofs.Shape
import JsxEdit.Proofs.Tag

/-
A source text is written as it was read exactly if it is kept.

What is said of each piece of the source holds of it, by induction over the nesting: brackets, elements, what is between
tags, and fragments. Together with the characters that are in no token this decides for every text that is valid markup
whether it comes back.
-/
set_option autoImplicit false

namespace JsxEdit

open Tag (InTag Ending ofToken)

namespace Judged

/-! ## Parts and texts of pieces -/

theorem source_ofStretch (mode : Mode) (xs : List Judged) : (ofStretch mode xs).source = allSource xs := by
  cases mode <;> rfl

theorem part_ofStretch (mode : Mode) (xs : List Judged) : (ofStretch mode xs).part = Markup.assemble mode (parts xs) := by
  cases mode <;> rfl

mutual

theorem part_judge (p : Piece) : (judge p).part = Markup.part p := by
  cases p with
  | token t => rfl
  | stretch mode items => rw [judge, part_ofStretch, Markup.part, parts_judgeAll items]

theorem parts_judgeAll (ps : List Piece) : parts (judgeAll ps) = Markup.allParts ps := by
  cases ps with
  | nil => rfl
  | cons p ps => rw [judgeAll, parts, List.map_cons, part_judge p, ← parts, parts_judgeAll ps, Markup.allParts]

end

mutual

theorem source_judge (p : Piece) : (judge p).source = p.source := by
  cases p with
  | token t => rfl
  | stretch mode items => rw [judge, source_ofStretch, Piece.source, allSource_judgeAll items]

theorem allSource_judgeAll (ps : List Piece) : allSource (judgeAll ps) = Piece.allSource ps := by
  cases ps with
  | nil => rfl
  | cons p ps => rw [judgeAll, allSource, source_judge p, allSource_judgeAll ps, Piece.allSource]

end

theorem judgeAll_append (ps qs : List Piece) : judgeAll (ps ++ qs) = judgeAll ps ++ judgeAll qs := by
  induction ps with
  | nil => rfl
  | cons p ps ih => rw [List.cons_append, judgeAll, judgeAll, ih, List.cons_append]

theorem mem_judgeAll {ps : List Piece} {x : Judged} (h : x ∈ judgeAll ps) : ∃ p ∈ ps, x = judge p := by
  induction ps with
  | nil => cases h
  | cons p ps ih =>
    rcases List.mem_cons.mp h with rfl | h
    · exact ⟨p, List.mem_cons_self, rfl⟩
    · obtain ⟨q, hq, rfl⟩ := ih h
      exact ⟨q, List.mem_cons_of_mem _ hq, rfl⟩

/-! ## Brackets -/

/-- The closing bracket of a group, and what is between the brackets. -/
theorem asGroup_spec (closers : List String) (t : Token) (xs : List Judged) :
    ∃ tail, Part.asGroup closers (parts (ofToken t :: xs)) =
        .group ⟨t, Part.allLeaves (parts (inside closers (ofToken t :: xs))), tail,
          Part.reading (parts (inside closers (ofToken t :: xs))),
          Part.asObject (parts (inside closers (ofToken t :: xs)))⟩ ∧
      ((tail = none ∧ inside closers (ofToken t :: xs) = xs) ∨
        ∃ x close, xs = inside closers (ofToken t :: xs) ++ [x] ∧ tail = some close ∧ x.part.token? = some close ∧
          closers.contains close.text = true) := by
  rcases List.eq_nil_or_concat xs with rfl | ⟨ys, x, rfl⟩
  · exact ⟨none, rfl, .inl ⟨rfl, rfl⟩⟩
  · rw [List.concat_eq_append]
    have hlen : 1 < (ofToken t :: (ys ++ [x])).length := by simp
    have hlen' : 1 < (parts (ofToken t :: (ys ++ [x]))).length := by rw [parts, List.length_map]; exact hlen
    have hlast : (ofToken t :: (ys ++ [x])).getLast? = some x := by rw [← List.cons_append, List.getLast?_concat]
    have hlast' : (parts (ofToken t :: (ys ++ [x]))).getLast? = some x.part := by
      rw [parts, List.getLast?_map, hlast]
      rfl
    cases htail : x.part.token?.filter (closers.contains ·.text) with
    | none =>
      have hinside : inside closers (ofToken t :: (ys ++ [x])) = ys ++ [x] := by
        simp only [inside, hlen, hlast, Option.bind_some, htail, if_true]
        rfl
      refine ⟨none, ?_, .inl ⟨rfl, hinside⟩⟩
      rw [hinside]
      simp only [Part.asGroup, hlen', hlast', Option.bind_some, htail, if_true]
      rfl
    | some close =>
      have hinside : inside closers (ofToken t :: (ys ++ [x])) = ys := by
        simp only [inside, hlen, hlast, Option.bind_some, htail, if_true]
        exact List.dropLast_concat
      obtain ⟨htoken, hcloser⟩ := Option.filter_eq_some_iff.mp htail
      refine ⟨some close, ?_, .inr ⟨x, close, by rw [hinside], rfl, htoken, hcloser⟩⟩
      have hdrop : ((parts (ofToken t :: (ys ++ [x]))).drop 1).dropLast = parts ys := by
        rw [parts, List.map_cons, List.drop_succ_cons, List.drop_zero, List.map_append, List.map_singleton,
          List.dropLast_concat]
        rfl
      rw [hinside]
      simp only [Part.asGroup, hlen', hlast', Option.bind_some, htail, if_true, Option.isSome_some, hdrop]
      rfl

theorem markup_token {x : Judged} {t : Token} (h : x.Sound) (hx : x.part.token? = some t) : x.markup = true := by
  obtain ⟨part, source, markup, reading, object⟩ := x
  cases part with
  | leaf l =>
    cases l with
    | token t' => exact h.2
    | node n => cases hx
  | group g => cases hx
  | content nodes close => cases hx

/-- A group is written as it was read. -/
theorem group_sound {closers : List String} {t : Token} {xs : List Judged} (h : AllSound xs)
    (hclosers : t.text = "\x7b" → closers = ["\x7d"]) :
    (ofGroup (Part.asGroup closers (parts (ofToken t :: xs))) closers (ofToken t :: xs)).Sound := by
  obtain ⟨tail, hpart, hspec⟩ := asGroup_spec closers t xs
  rw [Sound, ofGroup, hpart]
  generalize inside closers (ofToken t :: xs) = middle at hspec
  refine ⟨allSource middle, ?_⟩
  rcases hspec with ⟨rfl, rfl⟩ | ⟨x, close, rfl, rfl, hclose, hcloser⟩
  · refine ⟨?_, fun _ _ ht => (nomatch ht), valid_of_reading, allSource_of_tokens h, allLeaves_agree h, reading_agrees h,
      fun htokens o ho => asObject_agrees h htokens ho⟩
    exact (String.append_empty).symm
  · have hsound := (h x (List.mem_append_right _ List.mem_cons_self)).1
    have hmiddle : AllSound middle := h.sublist (List.sublist_append_left _ _)
    refine ⟨?_, ?_, valid_of_reading, allSource_of_tokens hmiddle, ?_, reading_agrees hmiddle,
      fun htokens o ho => asObject_agrees hmiddle htokens ho⟩
    · rw [allSource, allSource_append, Tag.allSource_singleton, source_token hsound hclose, ← String.append_assoc]
      rfl
    · intro hhead u hu
      rw [hclosers hhead] at hcloser
      rw [← Option.some.inj hu]
      simpa using hcloser
    · have hall : ((ofToken t :: (middle ++ [x])).all (·.markup)) = middle.all (·.markup) := by
        rw [List.all_cons, List.all_append, List.all_cons, List.all_nil, markup_token hsound hclose, Bool.and_true,
          Bool.and_true]
        exact Bool.true_and _
      rw [hall]
      exact allLeaves_agree hmiddle

/-! ## Between tags -/

/-- What may stand between tags. -/
inductive InContent : Judged → Prop where
  | token {t : Token} (fits : t.kind = .delimiter → 3 ≤ t.text.length) : InContent (ofToken t)
  | node {x : Judged} {n : Node} (part : x.part = .leaf (.node n)) (sound : x.Sound) : InContent x
  | group {x : Judged} {g : Group} {middle : String} (part : x.part = .group g) (kept : g.Kept x middle)
      (head : g.head.text = "\x7b") : InContent x

/-- The nodes of a part between tags are written as it was read. -/
theorem contentNode_agrees {x : Judged} (h : InContent x) (hvalid : Node.allValid (Markup.contentNode x.part) = true) :
    Agrees (Node.writeAll (Markup.contentNode x.part)) x.source x.keepsInContent := by
  cases h with
  | @token t =>
    rw [show (ofToken t).part = .leaf (.token t) from rfl, Markup.contentNode] at hvalid ⊢
    split at hvalid
    · next hkind =>
      have hwrite : (Node.mk (.text t.text) { head := some (Markup.spanOf t t) } [] []).write = t.text := by
        simp [Node.write, Node.writeAll, Kind.opening, Kind.closing]
      rw [if_pos hkind, Node.writeAll_singleton, hwrite]
      exact .refl _
    · rw [Node.allValid, Tag.invalid_isValid] at hvalid
      cases hvalid
  | node part sound =>
    have hkeeps : x.keepsInContent = x.markup := by rw [keepsInContent, part]
    rw [Sound, part] at sound
    rw [part, Markup.contentNode, Node.allValid, Bool.and_eq_true] at hvalid
    rw [part, Markup.contentNode, Node.writeAll_singleton, hkeeps]
    exact sound hvalid.1
  | @group x g middle part kept head =>
    have hkeeps : x.keepsInContent = x.reading := by rw [keepsInContent, part]
    rw [part, Markup.contentNode, Node.allValid, Bool.and_eq_true] at hvalid
    rw [part, Markup.contentNode, Node.writeAll_singleton, hkeeps]
    exact (Tag.slot_agrees kept head hvalid.1).1

theorem contentNodes_agree {xs : List Judged} (h : ∀ x ∈ xs, InContent x)
    (hvalid : Node.allValid ((parts xs).flatMap Markup.contentNode) = true) :
    Agrees (Node.writeAll ((parts xs).flatMap Markup.contentNode)) (allSource xs) (xs.all keepsInContent) := by
  induction xs with
  | nil => exact .refl _
  | cons x xs ih =>
    obtain ⟨hx, hrest⟩ := List.forall_mem_cons.mp h
    rw [parts, List.map_cons, List.flatMap_cons, ← parts] at hvalid ⊢
    have hboth := (Node.allValid_iff _).mp hvalid
    rw [Node.writeAll_append, allSource, List.all_cons]
    exact (contentNode_agrees hx ((Node.allValid_iff _).mpr fun n hn => hboth n (List.mem_append_left _ hn))).append
      (ih hrest ((Node.allValid_iff _).mpr fun n hn => hboth n (List.mem_append_right _ hn)))

/-- What is between the tags is written as it was read, and the closing tag has room for its marks. -/
theorem content_spec {xs : List Judged} (h : ∀ x ∈ xs, InContent x) :
    ∃ middle, allSource xs = middle ++ ((Markup.content (parts xs)).2.map (·.text)).getD "" ∧
      (Node.allValid (Markup.content (parts xs)).1 = true →
        Agrees (Node.writeAll (Markup.content (parts xs)).1) middle (xs.all keepsInContent)) ∧
      ∀ t ∈ (Markup.content (parts xs)).2, 3 ≤ t.text.length := by
  cases hclose : Markup.closeTag? (parts xs) with
  | none =>
    have hcontent : Markup.content (parts xs) = ((parts xs).flatMap Markup.contentNode, none) := by
      rw [Markup.content, hclose]
    rw [hcontent]
    exact ⟨allSource xs, (String.append_empty).symm, contentNodes_agree h, fun _ ht => nomatch ht⟩
  | some t =>
    have hcontent : Markup.content (parts xs) = ((parts xs).dropLast.flatMap Markup.contentNode, some t) := by
      rw [Markup.content, hclose]
    rw [hcontent]
    obtain ⟨hlast, hkind⟩ := Option.filter_eq_some_iff.mp hclose
    obtain ⟨p, hp, htoken⟩ := Option.bind_eq_some_iff.mp hlast
    rw [parts, List.getLast?_map] at hp
    obtain ⟨x, hx, rfl⟩ := Option.map_eq_some_iff.mp hp
    obtain ⟨ys, rfl⟩ := List.getLast?_eq_some_iff.mp hx
    have hdrop : (parts (ys ++ [x])).dropLast = parts ys := by
      rw [parts, List.map_append, List.map_singleton, List.dropLast_concat]
      rfl
    rw [hdrop]
    cases h x (List.mem_append_right _ List.mem_cons_self) with
    | @token u fits =>
      obtain rfl : u = t := Option.some.inj htoken
      have hall : (ys ++ [ofToken u]).all keepsInContent = ys.all keepsInContent := by
        rw [List.all_append]
        exact Bool.and_true _
      refine ⟨allSource ys, ?_, ?_, ?_⟩
      · rw [allSource_append, Tag.allSource_singleton]
        rfl
      · rw [hall]
        exact contentNodes_agree fun y hy => h y (List.mem_append_left _ hy)
      · intro u hu
        obtain rfl := Option.some.inj hu
        exact fits (eq_of_beq hkind)
    | node part =>
      rw [part] at htoken
      cases htoken
    | group part =>
      rw [part] at htoken
      cases htoken

/-- What stands between tags is written as it was read. -/
theorem content_sound {xs : List Judged} (h : ∀ x ∈ xs, InContent x) : (ofStretch .content xs).Sound := by
  obtain ⟨middle, hsource, hnodes, hclose⟩ := content_spec h
  exact ⟨middle, hsource, hnodes, hclose⟩

/-- A fragment is written as it was read. -/
theorem fragment_sound {t : Token} {xs : List Judged} (text : t.text = "<>") (h : ∀ x ∈ xs, InContent x) :
    (ofStretch .fragment (ofToken t :: xs)).Sound := by
  obtain ⟨middle, hsource, hnodes, hclose⟩ := content_spec h
  intro hvalid
  show Agrees (Markup.fragment (.leaf (.token t) :: parts xs)).write (t.text ++ allSource xs)
    (keepsFragment (ofToken t :: xs))
  replace hvalid : (Markup.fragment (.leaf (.token t) :: parts xs)).isValid = true := hvalid
  have hkept : keepsFragment (ofToken t :: xs) =
      (xs.all keepsInContent && (Markup.closeTag? (parts xs)).all fun u => u.text == "</>") := by
    rw [keepsFragment, List.all_cons]
    exact congrArg (· && _) (Bool.true_and _)
  have htag : Markup.closeTag? (parts xs) = (Markup.content (parts xs)).2 := by
    unfold Markup.content
    cases Markup.closeTag? (parts xs) <;> rfl
  rw [hkept, htag, hsource, text]
  obtain ⟨nodes, close, hcontent⟩ : ∃ nodes close, Markup.content (parts xs) = (nodes, close) := ⟨_, _, rfl⟩
  unfold Markup.fragment at hvalid ⊢
  dsimp only at hvalid ⊢
  rw [hcontent] at hvalid hnodes hclose ⊢
  cases close with
  | none =>
    dsimp only at hvalid
    rw [Tag.invalid_isValid] at hvalid
    cases hvalid
  | some close =>
    dsimp only at hvalid ⊢
    cases hname : Markup.closingName close.text == "" with
    | false =>
      rw [hname, if_neg (by decide), Tag.invalid_isValid] at hvalid
      cases hvalid
    | true =>
      rw [hname, if_pos rfl, Node.isValid, Bool.and_eq_true] at hvalid
      have hwrite : (Node.mk .fragment ⟨some (Markup.spanOf t t), some (Markup.spanOf close close), none⟩ [] nodes).write =
          "<>" ++ (Node.writeAll nodes ++ "</>") := by
        simp [Node.write, Kind.opening, Kind.closing, String.append_assoc]
      rw [if_pos rfl, hwrite]
      have hend := Tag.closing_agrees (eq_of_beq hname) (hclose close rfl)
      exact ((hnodes hvalid.2).append hend).cons "<>"

/-- An element is written as it was read. -/
theorem element_sound {angle name : Token} {xs ending : List Judged} (text : angle.text = "<") (hxs : ∀ x ∈ xs, InTag x)
    (hending : Ending ending) : (ofStretch .tag (ofToken angle :: ofToken name :: (xs ++ ending))).Sound := by
  intro hvalid
  have hagree := Tag.elementFrom_agrees (.plain (.refl _)) hxs hending hvalid
  have hsource : (ofStretch .tag (ofToken angle :: ofToken name :: (xs ++ ending))).source =
      "<" ++ name.text ++ ("" ++ allSource (xs ++ ending)) := by
    rw [String.empty_append, ← text, String.append_assoc]
    rfl
  rw [hsource]
  exact hagree

/-! ## All pieces -/

/-- A stretch that starts with a brace is a group that does. -/
theorem braces_group {items : List Piece} (h : Piece.StartsWithBrace items)
    (sound : (judge (.stretch .braces items)).Sound) :
    ∃ g middle, (judge (.stretch .braces items)).part = .group g ∧ g.Kept (judge (.stretch .braces items)) middle ∧
      g.head.text = "\x7b" := by
  obtain ⟨t, rest, rfl, text⟩ := h
  obtain ⟨tail, hpart, -⟩ := asGroup_spec ["\x7d"] t (judgeAll rest)
  have hgroup : (judge (.stretch .braces (.token t :: rest))).part = _ := hpart
  obtain ⟨middle, hkept⟩ := group_kept sound hgroup
  exact ⟨_, middle, hgroup, hkept, text⟩

theorem inTag_of_accepts {p : Piece} (h : Piece.Accepts .tag p) (sound : (judge p).Sound) : InTag (judge p) := by
  cases p with
  | token t => exact .token h
  | stretch mode items =>
    obtain ⟨rfl, hbrace⟩ := h
    obtain ⟨g, middle, hpart, hkept, hhead⟩ := braces_group hbrace sound
    exact .group hpart hkept hhead

theorem inContent_of_accepts {mode : Mode} {p : Piece} (place : mode = .content ∨ mode = .fragment)
    (h : Piece.Accepts mode p) (sound : (judge p).Sound) : InContent (judge p) := by
  have h : Piece.Accepts .content p := by
    rcases place with rfl | rfl
    · exact h
    · cases p <;> exact h
  cases p with
  | token t => exact .token (String.length_toList ▸ h)
  | stretch inner items =>
    rcases h with rfl | rfl | ⟨rfl, hbrace⟩
    · exact .node rfl sound
    · exact .node rfl sound
    · obtain ⟨g, middle, hpart, hkept, hhead⟩ := braces_group hbrace sound
      exact .group hpart hkept hhead

/-- In expressions nothing stands that is between tags only. -/
theorem isInline_of_accepts {mode : Mode} {p : Piece}
    (place : mode = .script ∨ mode = .braces ∨ mode = .group ∨ mode = .template) (h : Piece.Accepts mode p) :
    (judge p).isInline := by
  cases p with
  | token t => exact fun nodes close heq => nomatch heq
  | stretch inner items =>
    have hinner : inner ≠ .content ∧ inner ≠ .script ∧ inner ≠ .markup := by
      rcases place with rfl | rfl | rfl | rfl <;> exact h
    intro nodes close heq
    rw [judge, part_ofStretch] at heq
    cases inner with
    | content => exact hinner.1 rfl
    | script => exact hinner.2.1 rfl
    | markup => exact hinner.2.2 rfl
    | _ => cases heq

/-- What is said of a well-formed piece holds of it. -/
theorem judge_sound {p : Piece} (h : Piece.Formed p) : (judge p).Sound := by
  induction h with
  | token t => exact ⟨rfl, rfl⟩
  | @stretch mode first items last opens ends accepted _ _ inner outer =>
    rw [judge, judgeAll_append, judgeAll_append]
    have hall : ∀ {mode}, (mode = .script ∨ mode = .braces ∨ mode = .group ∨ mode = .template) →
        (∀ x ∈ items, Piece.Accepts mode x) → AllSound (judgeAll items) := by
      intro mode place accepted x hx
      obtain ⟨p, hp, rfl⟩ := mem_judgeAll hx
      exact ⟨inner p hp, isInline_of_accepts place (accepted p hp)⟩
    have hcontent : ∀ {mode}, (mode = .content ∨ mode = .fragment) → (∀ x ∈ items, Piece.Accepts mode x) →
        ∀ x ∈ judgeAll items, InContent x := by
      intro mode place accepted x hx
      obtain ⟨p, hp, rfl⟩ := mem_judgeAll hx
      exact inContent_of_accepts place (accepted p hp) (inner p hp)
    cases opens with
    | tag text =>
      have hxs : ∀ x ∈ judgeAll items, InTag x := by
        intro x hx
        obtain ⟨p, hp, rfl⟩ := mem_judgeAll hx
        exact inTag_of_accepts (accepted p hp) (inner p hp)
      refine element_sound text hxs ?_
      cases ends with
      | none => exact .none
      | selfClosing kind text => exact .selfClosing kind text
      | opened kind text => exact .opened kind text
      | content kind text => exact .content kind text rfl (outer _ (List.mem_cons_of_mem _ List.mem_cons_self))
    | content =>
      cases ends
      show (ofStretch .content (judgeAll items ++ [])).Sound
      rw [List.append_nil]
      exact content_sound (hcontent (.inl rfl) accepted)
    | @fragment t text =>
      cases ends
      show (ofStretch .fragment (ofToken t :: judgeAll items ++ [])).Sound
      rw [List.append_nil]
      exact fragment_sound text (hcontent (.inr rfl) accepted)
    | @braces t =>
      cases ends
      show (ofStretch .braces (ofToken t :: judgeAll items ++ [])).Sound
      rw [List.append_nil]
      exact group_sound (hall (.inr (.inl rfl)) accepted) fun _ => rfl
    | @group t text =>
      cases ends
      show (ofStretch .group (ofToken t :: judgeAll items ++ [])).Sound
      rw [List.append_nil]
      exact group_sound (hall (.inr (.inr (.inl rfl))) accepted) fun ht => absurd ht text
    | @template t text =>
      cases ends
      show (ofStretch .template (ofToken t :: judgeAll items ++ [])).Sound
      rw [List.append_nil]
      exact group_sound (hall (.inr (.inr (.inr rfl))) accepted) fun ht => absurd ht text

end Judged

/-! ## Documents -/

namespace Node

mutual

/-- Without an invalid node among those below it, a node that is valid itself is valid. -/
theorem isValid_of_visits (path : Path) (n : Node) (hkind : n.kind.isInvalid = false)
    (h : ∀ v ∈ n.visitsAt path, v.node.kind.isInvalid = false) : n.isValid = true := by
  cases n with
  | mk k i as cs =>
    rw [visitsAt] at h
    obtain ⟨has, hcs⟩ := List.forall_mem_append.mp h
    rw [isValid, allValid_of_visits _ 0 as has, allValid_of_visits _ 0 cs hcs, show k.isInvalid = false from hkind]
    rfl

theorem allValid_of_visits (path : Path) (index : Nat) (ns : List Node)
    (h : ∀ v ∈ visitsIn path index ns, v.node.kind.isInvalid = false) : allValid ns = true := by
  cases ns with
  | nil => rfl
  | cons n ns =>
    rw [visitsIn, List.cons_append] at h
    obtain ⟨hn, hrest⟩ := List.forall_mem_cons.mp h
    obtain ⟨hbelow, hns⟩ := List.forall_mem_append.mp hrest
    rw [allValid, isValid_of_visits _ n hn hbelow, allValid_of_visits _ (index + 1) ns hns]
    rfl

end

end Node

namespace Source

/-- A document without an error has valid nodes only, and keeps its text. -/
theorem parse_eq_ok {text : String} {tree : Node} (h : parse text = .ok tree) :
    tree = (document text).withKind (.document (some text)) ∧ Node.allValid (Markup.nodes text) = true := by
  unfold parse at h
  split at h
  · cases h
  · next herror =>
    refine ⟨(Except.ok.inj h).symm, ?_⟩
    have hnone : ∀ n ∈ (document text).descendants, n.kind.isInvalid = false := by
      intro n hn
      have := List.findSome?_eq_none_iff.mp herror n hn
      cases hkind : n.kind <;> first | rfl | (rw [hkind] at this; cases this)
    refine Node.allValid_of_visits [] 0 _ fun v hv => hnone v.node (List.mem_map_of_mem ?_)
    exact hv

end Source

/-- The nodes of a valid document are written as the pieces of its text were read. -/
theorem nodes_agree {text : String} (h : Node.allValid (Markup.nodes text) = true) :
    Agrees (Node.writeAll (Markup.nodes text)) (Piece.allSource (Piece.ofText text))
      ((judgeAll (Piece.ofText text)).all (·.markup)) := by
  have hsound : Judged.AllSound (judgeAll (Piece.ofText text)) := by
    intro x hx
    obtain ⟨p, hp, rfl⟩ := Judged.mem_judgeAll hx
    obtain ⟨haccepted, hformed⟩ := Piece.ofText_formed text p hp
    exact ⟨Judged.judge_sound hformed, Judged.isInline_of_accepts (.inl rfl) haccepted⟩
  have hvalid := Leaf.isValid_of_codeFrom [] _ h
  rw [Markup.nodes, Leaf.writeAll_code, ← Judged.allSource_judgeAll]
  rw [← Judged.parts_judgeAll] at hvalid ⊢
  exact Judged.allLeaves_agree hsound hvalid

theorem write_document {text : String} :
    ((Source.document text).withKind (.document (some text))).write = Node.writeAll (Markup.nodes text) := by
  simp [Source.document, Node.new, Node.withKind, Node.write, Kind.opening, Kind.closing]

/-- A text is kept if its document is written as the text was read. -/
theorem keeps_of_write {text : String} {tree : Node} (h : Source.parse text = .ok tree) (hwrite : tree.write = text) :
    keeps text = true := by
  obtain ⟨rfl, hvalid⟩ := Source.parse_eq_ok h
  have hagree := nodes_agree hvalid
  have hlength := length_source_ofText text
  rw [write_document] at hwrite
  rw [keeps, Bool.and_eq_true, ← hagree.iff, List.isEmpty_iff]
  -- nothing written is more than was read, so nothing can be unread
  have hle := hagree.le
  rw [hwrite] at hle
  have hunread : Scan.unread text = [] := List.length_eq_zero_iff.mp (by omega)
  exact ⟨hunread, hwrite.trans (source_ofText hunread).symm⟩

/-- The document of a source text is written as the text was read exactly if the text is kept. -/
theorem write_eq_iff_keeps {text : String} {tree : Node} (h : Source.parse text = .ok tree) :
    tree.write = text ↔ keeps text = true := by
  refine ⟨keeps_of_write h, fun hkept => ?_⟩
  obtain ⟨rfl, hvalid⟩ := Source.parse_eq_ok h
  rw [keeps, Bool.and_eq_true, ← (nodes_agree hvalid).iff, List.isEmpty_iff] at hkept
  obtain ⟨hunread, heq⟩ := hkept
  rw [write_document, heq, source_ofText hunread]

theorem Source.exists_of_parse {text : String} (h : (parse text).toBool = true) : ∃ tree, parse text = .ok tree := by
  cases hparse : parse text with
  | error e =>
    rw [hparse] at h
    cases h
  | ok tree => exact ⟨tree, rfl⟩

/-- An attribute whose value is an object literal, as it comes back. -/
def tightComma : String := "<a b=\x7b\x7bc: 1, d: 2\x7d\x7d />"

/-- The same with white space before the comma. -/
def spacedComma : String := "<a b=\x7b\x7bc: 1 , d: 2\x7d\x7d />"

/-- Both are valid markup, and only the first one comes back. -/
theorem commas_write :
    (∃ tree, Source.parse tightComma = .ok tree ∧ tree.write = tightComma) ∧
      ∃ tree, Source.parse spacedComma = .ok tree ∧ tree.write ≠ spacedComma := by
  obtain ⟨tight, htight⟩ := Source.exists_of_parse (by decide +kernel : (Source.parse tightComma).toBool = true)
  obtain ⟨spaced, hspaced⟩ := Source.exists_of_parse (by decide +kernel : (Source.parse spacedComma).toBool = true)
  refine ⟨⟨tight, htight, (write_eq_iff_keeps htight).mpr (by decide +kernel)⟩, spaced, hspaced, fun heq => ?_⟩
  have hkept : keeps spacedComma = false := by decide +kernel
  rw [(write_eq_iff_keeps hspaced).mp heq] at hkept
  cases hkept

end JsxEdit
