import JsxEdit.Proofs.Fragment
import JsxEdit.Proofs.ReadBack

/-
What a text brings as the content of a fragment, node by node.

A snippet is read as the content of a fragment that is opened before it and closed after it. `Wraps` tells the nodes of
that fragment and those after it, for texts that are valid there. The text of the snippet can close the fragment on its
own; what follows then stands outside of it.
-/
set_option autoImplicit false

namespace JsxEdit

/-! ## Lists of nodes -/

namespace Node

theorem allValid_map_shift (d : Nat) (ns : List Node) : allValid (ns.map (shift d)) = allValid ns := by
  rw [← allShift_eq_map, allValid_shift]

theorem allWithoutOrigin_map_shift (d : Nat) {ns : List Node} (h : allValid ns = true) :
    allWithoutOrigin (ns.map (shift d)) = allWithoutOrigin ns := by
  rw [← allShift_eq_map, allWithoutOrigin_shift d ns h]

theorem allValid_append (ms ns : List Node) : allValid (ms ++ ns) = (allValid ms && allValid ns) := by
  rw [Bool.eq_iff_iff, Bool.and_eq_true, allValid_iff, allValid_iff, allValid_iff, List.forall_mem_append]

theorem allWithoutOrigin_eq_map (ns : List Node) : allWithoutOrigin ns = ns.map withoutOrigin := by
  induction ns with
  | nil => rfl
  | cons n ns ih => rw [allWithoutOrigin, List.map_cons, ih]

theorem kind_withoutOrigin (n : Node) : n.withoutOrigin.kind = n.kind := by
  cases n
  rfl

end Node

/-! ## Parts of a fragment, one after the other -/

namespace Markup

theorem closeTag?_cons {p : Part} {parts : List Part} (h : ¬ EndsIn .fragment p) :
    closeTag? (p :: parts) = closeTag? parts := by
  cases parts with
  | nil =>
    have hnone : closeTag? [p] = none := by
      rw [closeTag?, List.getLast?_singleton, Option.bind_some, Option.filter_eq_none_iff]
      intro t ht hkind
      exact h ⟨t, ht, eq_of_beq hkind⟩
    exact hnone
  | cons q parts => rw [closeTag?, closeTag?, List.getLast?_cons_cons]

/-- A part that does not close the fragment brings its nodes. -/
theorem content_cons {p : Part} {parts : List Part} (h : ¬ EndsIn .fragment p) :
    content (p :: parts) = (contentNode p ++ (content parts).1, (content parts).2) := by
  unfold content
  rw [closeTag?_cons h]
  cases hclose : closeTag? parts with
  | none => rfl
  | some t =>
    cases parts with
    | nil => cases hclose
    | cons q parts => rfl

theorem elementFrom_markup (angle name : Token) (o : Opening) (parts : List Part) :
    (elementFrom angle name o parts).kind.isMarkup = true ∨ (elementFrom angle name o parts).kind.isInvalid = true := by
  induction parts generalizing o with
  | nil => exact .inr rfl
  | cons p parts ih =>
    rcases p with (t | n) | g | ⟨nodes, close⟩
    · rw [elementFrom]
      split
      · next hread => exact .inr (isInvalid_of_readToken hread)
      · split
        · exact .inl rfl
        · exact ih _
    · exact ih o
    · rw [elementFrom]
      split
      · exact ih _
      · split
        · next hspread => exact .inr (isInvalid_of_spread hspread)
        · exact ih _
    · cases close with
      | none => exact .inr rfl
      | some close =>
        rw [elementFrom]
        split
        · exact .inl rfl
        · exact .inr rfl

/-- Markup is an element or a fragment, or invalid. -/
theorem part_markup {mode : Mode} (h : mode = .tag ∨ mode = .fragment) (items : List Piece) :
    ∃ n, part (.stretch mode items) = .leaf (.node n) ∧ (n.kind.isMarkup = true ∨ n.kind.isInvalid = true) := by
  rcases h with rfl | rfl
  · refine ⟨_, rfl, ?_⟩
    unfold element
    split
    · exact elementFrom_markup _ _ _ _
    · exact .inr rfl
  · refine ⟨_, rfl, ?_⟩
    unfold fragment
    split
    · split
      · exact .inr rfl
      · split
        · exact .inl rfl
        · exact .inr rfl
    · exact .inr rfl

end Markup

namespace Source

open Piece (Encloses CompleteBefore Unclosed shift)
open Markup (part allParts contentNode content closingName EndsIn)
open Node (allValid allWithoutOrigin allValid_append allValid_map_shift allWithoutOrigin_map_shift allWithoutOrigin_eq_map)
open Scan (content? closingTagLength? markup?)

/-- The nodes after a fragment that is followed by the pieces. -/
def codeAfter (tail : List Piece) : List Node := Leaf.code (Part.allLeaves (allParts tail))

/-- In a fragment that is opened before the text, all is valid up to the end of the text. The fragment gets the nodes, and
those of `after` follow it. -/
def Wraps (x : List Char) (nodes after : List Node) : Prop := ∃ qs tail ns close, Encloses x qs tail ∧
  content (allParts qs) = (ns, some close) ∧ closingName close.text = "" ∧ allValid ns = true ∧
  allValid (codeAfter tail) = true ∧ nodes = allWithoutOrigin ns ∧ after = allWithoutOrigin (codeAfter tail)

theorem codeAfter_shift (d : Nat) {tail : List Piece} (h : ∀ p ∈ tail, Piece.Formed p) :
    codeAfter (tail.map (shift d)) = (codeAfter tail).map (Node.shift d) := by
  rw [codeAfter, Markup.allParts_shift d h, Part.allLeaves_shift, Leaf.code_shift]
  rfl

/-- A piece that does not close the fragment brings its nodes, and the rest is as it would be without the piece. -/
theorem wraps_cons {v r : List Char} {p : Piece} {d : Nat} {nodes after : List Node} (hp : ¬ EndsIn .fragment (part p))
    (he : ∀ {qs tail}, Encloses r qs tail → Encloses (v ++ r) (p :: qs.map (shift d)) (tail.map (shift d))) :
    Wraps (v ++ r) nodes after ↔ ∃ rest, nodes = allWithoutOrigin (contentNode (part p)) ++ rest ∧
      allValid (contentNode (part p)) = true ∧ Wraps r rest after := by
  have hcontent : ∀ {qs : List Piece}, (∀ q ∈ qs, Piece.Formed q) → content (allParts (p :: qs.map (shift d))) =
      (contentNode (part p) ++ (content (allParts qs)).1.map (Node.shift d),
        (content (allParts qs)).2.map (Token.shift d)) := by
    intro qs hformed
    rw [allParts, Markup.content_cons hp, Markup.allParts_shift d hformed, Markup.content_shift]
  constructor
  · rintro ⟨qs', tail', ns', close', hx, hread, hname, hvalid, hafter, rfl, rfl⟩
    -- the pieces of the whole text are this piece and those of the rest, moved on
    obtain ⟨qs, tail, hr⟩ := Piece.exists_encloses r
    obtain ⟨rfl, rfl⟩ := hx.eq (he hr)
    obtain ⟨hqs, htail⟩ := hr.formed
    rw [codeAfter_shift d htail, allValid_map_shift] at hafter
    rw [hcontent hqs] at hread
    obtain ⟨hns, hclose⟩ := Prod.mk.inj hread
    obtain ⟨close, hsome, rfl⟩ := Option.map_eq_some_iff.mp hclose
    rw [← hns, allValid_append, Bool.and_eq_true, allValid_map_shift] at hvalid
    refine ⟨_, ?_, hvalid.1, qs, tail, (content (allParts qs)).1, close, hr, ?_, hname, hvalid.2, hafter, rfl, ?_⟩
    · rw [← hns, allWithoutOrigin_eq_map, List.map_append, ← allWithoutOrigin_eq_map, ← allWithoutOrigin_eq_map,
        allWithoutOrigin_map_shift d hvalid.2]
    · rw [← hsome]
    · rw [codeAfter_shift d htail, allWithoutOrigin_map_shift d hafter]
  · rintro ⟨rest, rfl, hfirst, qs, tail, ns, close, hr, hread, hname, hvalid, hafter, rfl, rfl⟩
    obtain ⟨hqs, htail⟩ := hr.formed
    have hread' := hcontent hqs
    rw [hread] at hread'
    refine ⟨_, _, _, _, he hr, hread', hname, ?_, ?_, ?_, ?_⟩
    · rw [allValid_append, allValid_map_shift, hfirst, hvalid]
      rfl
    · rw [codeAfter_shift d htail, allValid_map_shift, hafter]
    · rw [allWithoutOrigin_eq_map (_ ++ _), List.map_append, ← allWithoutOrigin_eq_map, ← allWithoutOrigin_eq_map,
        allWithoutOrigin_map_shift d hvalid]
    · rw [codeAfter_shift d htail, allWithoutOrigin_map_shift d hafter]

/-! ## What comes next in the fragment -/

/-- The closing tag ends the fragment. -/
theorem wraps_close {x : List Char} {n : Nat} {nodes after : List Node} (hx : closingTagLength? x = some n)
    (h : Wraps x nodes after) : nodes = [] := by
  obtain ⟨qs, tail, ns, close, he, hread, -, -, -, rfl, -⟩ := h
  obtain rfl := he.close hx
  cases hread
  rfl

/-- Text that goes on up to the next angle or brace is one node. -/
theorem wraps_text {w r : List Char} {nodes after : List Node} (hne : w ≠ [])
    (hm : content? 1 (w ++ r) = Scan.one .text w.length .stay) :
    Wraps (w ++ r) nodes after ↔ ∃ rest, nodes = .new (.text (.ofList w)) [] :: rest ∧ Wraps r rest after := by
  have hp : ¬ EndsIn .fragment (part (.token ⟨.text, 3, .ofList w⟩)) := Markup.not_endsIn_token (by simp)
  rw [wraps_cons hp (Encloses.token hne hm)]
  have hnode : allValid (contentNode (part (.token ⟨.text, 3, .ofList w⟩))) = true := rfl
  constructor
  · rintro ⟨rest, rfl, -, h⟩
    exact ⟨rest, rfl, h⟩
  · rintro ⟨rest, rfl, h⟩
    exact ⟨rest, rfl, hnode, h⟩

/-- An angle that opens nothing is invalid. -/
theorem not_wraps_angle {x : List Char} {nodes after : List Node} (hm : content? 1 ('<' :: x) = Scan.one .invalid 1 .stay) :
    ¬ Wraps ('<' :: x) nodes after := by
  intro h
  have hp : ¬ EndsIn .fragment (part (.token ⟨.invalid, 3, .ofList ['<']⟩)) := Markup.not_endsIn_token (by simp)
  obtain ⟨rest, -, hvalid, -⟩ := (wraps_cons hp (Encloses.token (w := ['<']) (r := x) (List.cons_ne_nil _ _) hm)).mp h
  cases hvalid

/-- An expression is a slot. -/
theorem wraps_braces {x : List Char} {nodes after : List Node} (h : Wraps ('\x7b' :: x) nodes after) :
    ∃ n ∈ nodes, n.isWhitespace = false ∧ n.kind.isMarkup = false := by
  obtain ⟨qs, tail, ns, close, he, hread, -, -, -, rfl, -⟩ := h
  obtain ⟨items, qs', rfl⟩ := he.braces
  have hgroup : ∃ g, part (.stretch .braces items) = .group g := ⟨_, rfl⟩
  obtain ⟨g, hg⟩ := hgroup
  rw [allParts, Markup.content_cons (Markup.not_endsIn_stretch (by decide)), hg] at hread
  obtain ⟨rfl, -⟩ := Prod.mk.inj hread
  refine ⟨(Markup.slot g).withoutOrigin, List.mem_cons_self, ?_⟩
  unfold Markup.slot
  split
  · exact ⟨rfl, rfl⟩
  · exact ⟨rfl, rfl⟩

/-- Markup that is not closed leaves the fragment open. -/
theorem not_wraps_unclosed {x : List Char} {nodes after : List Node} (hx : Unclosed x) : ¬ Wraps x nodes after := by
  rintro ⟨qs, tail, ns, close, he, hread, -⟩
  obtain ⟨p, n, rfl, hpart, -⟩ := hx.piece.2 he
  rw [allParts, hpart] at hread
  cases hread

/-- Complete markup is the node that it is alone. -/
theorem wraps_complete {v : List Char} (hv : CompleteBefore v []) :
    ∃ n, (n.kind.isMarkup = true ∨ n.kind.isInvalid = true) ∧ Markup.nodes (.ofList v) = [n] ∧
      ∀ {r nodes after}, CompleteBefore v r →
        (Wraps (v ++ r) nodes after ↔ n.isValid = true ∧ ∃ rest, nodes = n.withoutOrigin :: rest ∧ Wraps r rest after) := by
  obtain ⟨mode, items, place, halone, hinside⟩ := hv.piece
  obtain ⟨n, hpart, hn⟩ := Markup.part_markup place items
  obtain ⟨before, htext⟩ := halone hv
  rw [List.append_nil] at htext
  refine ⟨n, hn, ?_, ?_⟩
  · rw [Markup.nodes, htext]
    show Leaf.code (Part.allLeaves [part (.stretch mode items)]) = [n]
    rw [hpart]
    rfl
  · intro r nodes after hr
    have hformed : Piece.Formed (.stretch mode items) :=
      (Piece.ofText_formed (.ofList v) _ (htext ▸ List.mem_cons_self)).2
    have hp : part (shift 3 (.stretch mode items)) = .leaf (.node (n.shift 3)) := by
      rw [Markup.part_shift 3 hformed, hpart]
      rfl
    have hends : ¬ EndsIn .fragment (part (shift 3 (.stretch mode items))) := by
      rw [hp]
      rintro ⟨t, ht, -⟩
      cases ht
    rw [wraps_cons hends (hinside hr), hp]
    constructor
    · rintro ⟨rest, rfl, hvalid, h⟩
      rw [contentNode, allValid, Node.isValid_shift, allValid, Bool.and_true] at hvalid
      refine ⟨hvalid, rest, ?_, h⟩
      rw [contentNode, allWithoutOrigin, allWithoutOrigin, Node.withoutOrigin_shift 3 n hvalid]
      rfl
    · rintro ⟨hvalid, rest, rfl, h⟩
      refine ⟨rest, ?_, ?_, h⟩
      · rw [contentNode, allWithoutOrigin, allWithoutOrigin, Node.withoutOrigin_shift 3 n hvalid]
        rfl
      · rw [contentNode, allValid, Node.isValid_shift, allValid, Bool.and_true, hvalid]

/-! ## The fragment around a snippet -/

/-- The end of the text around a snippet. -/
def closer : List Char := ['<', '/', '>', ')']

/-- The nodes of the text around a snippet: the opening bracket, the fragment, and what follows it. -/
theorem nodes_wrapped {text : String} {qs tail : List Piece} (h : Encloses (text.toList ++ closer) qs tail) :
    Markup.nodes ("(<>" ++ text ++ "</>)") = Leaf.codeNode [⟨.delimiter, 0, "("⟩] ::
      Markup.fragment (.leaf (.token ⟨.delimiter, 1, "<>"⟩) :: allParts qs) :: codeAfter tail := by
  have htext : "(<>" ++ text ++ "</>)" = .ofList ('(' :: '<' :: '>' :: (text.toList ++ closer)) := by
    apply String.toList_inj.mp
    simp [closer]
  rw [Markup.nodes, htext, h.ofText]
  rfl

theorem children_plainDocument (text : String) :
    (plainDocument text).children = allWithoutOrigin (Markup.nodes text) := rfl

theorem isValid_plainDocument (text : String) : (plainDocument text).isValid = allValid (Markup.nodes text) := by
  rw [plainDocument, Node.isValid_withoutOrigin, document, Node.isValid_new]
  rfl

/-- A tree has no error if it is valid. -/
theorem error?_eq_none {tree : Node} (text : String) (offset : Nat) (h : tree.isValid = true) :
    error? text offset tree = none := by
  rw [error?, List.findSome?_eq_none_iff]
  intro n hn
  obtain ⟨v, hv, rfl⟩ := List.mem_map.mp hn
  have hkind := Node.visits_of_isValid [] tree h v hv
  cases hk : v.node.kind with
  | invalid reason position =>
    rw [hk] at hkind
    cases hkind
  | _ => rfl

/-- A valid fragment is closed, and holds what was read up to there. -/
theorem eq_of_isValid_fragment {head : Token} {parts : List Part}
    (h : (Markup.fragment (.leaf (.token head) :: parts)).isValid = true) :
    ∃ ns close info, content parts = (ns, some close) ∧ closingName close.text = "" ∧ allValid ns = true ∧
      Markup.fragment (.leaf (.token head) :: parts) = .mk .fragment info [] ns := by
  rw [Markup.fragment] at h ⊢
  generalize content parts = found at h ⊢
  rcases found with ⟨ns, - | close⟩
  · cases h
  · dsimp only at h ⊢
    split at h
    · next hname =>
      rw [if_pos hname]
      rw [Node.isValid, Bool.and_eq_true] at h
      exact ⟨ns, close, _, rfl, eq_of_beq hname, h.2, rfl⟩
    · cases h

theorem filter_fragment (a f c : Node) (ha : a.kind.name = "Code") (hf : f.kind.name = "Fragment") :
    ([a, f, c].filter fun n => n.kind.name == "Fragment") = f :: if c.kind.name = "Fragment" then [c] else [] := by
  by_cases hc : c.kind.name = "Fragment" <;> simp [ha, hf, hc]

/-- A snippet is read if the text around it is valid, with the fragment and one piece of code after it. -/
theorem snippet_eq_ok {text : String} {n : Node} (h : snippet text = .ok n) :
    ∃ nodes last, Wraps (text.toList ++ closer) nodes [last] ∧ last.kind.name ≠ "Fragment" ∧ singleRoot nodes = .ok n := by
  obtain ⟨qs, tail, he⟩ := Piece.exists_encloses (text.toList ++ closer)
  unfold snippet at h
  dsimp only at h
  split at h
  · cases h
  · next herror =>
    -- a valid fragment is closed, so it has nodes
    have hvalid := isValid_of_error? rfl herror
    rw [isValid_plainDocument, nodes_wrapped he, allValid, allValid, Bool.and_eq_true, Bool.and_eq_true] at hvalid
    obtain ⟨ns, close, info, hread, hname, hns, hfragment⟩ := eq_of_isValid_fragment hvalid.2.1
    rw [children_plainDocument, nodes_wrapped he, hfragment] at h
    split at h
    · next a b c hchildren =>
      -- the bracket, the fragment, and what follows it
      rw [allWithoutOrigin, allWithoutOrigin] at hchildren
      obtain ⟨rfl, hrest⟩ := List.cons.inj hchildren
      obtain ⟨rfl, hlast⟩ := List.cons.inj hrest
      have hfilter := filter_fragment (Leaf.codeNode [⟨.delimiter, 0, "("⟩]).withoutOrigin
        (Node.mk .fragment info [] ns).withoutOrigin c rfl rfl
      by_cases hc : c.kind.name = "Fragment"
      · rw [hfilter, if_pos hc] at h
        cases h
      · rw [hfilter, if_neg hc] at h
        exact ⟨_, c, ⟨qs, tail, ns, close, he, hread, hname, hns, hvalid.2.2, rfl, hlast.symm⟩, hc, h⟩
    · cases h

/-- The result is that for the nodes of the fragment. -/
theorem snippet_of_wraps {text : String} {nodes : List Node} {last : Node}
    (h : Wraps (text.toList ++ closer) nodes [last]) (hlast : last.kind.name ≠ "Fragment") :
    snippet text = singleRoot nodes := by
  obtain ⟨qs, tail, ns, close, he, hread, hname, hns, hafter, rfl, heq⟩ := h
  have hfragment : ∃ info, Markup.fragment (.leaf (.token ⟨.delimiter, 1, "<>"⟩) :: allParts qs) =
      .mk .fragment info [] ns := by
    rw [Markup.fragment, hread]
    dsimp only
    rw [if_pos (by simpa using hname)]
    exact ⟨_, rfl⟩
  obtain ⟨info, hfragment⟩ := hfragment
  have hnodes := nodes_wrapped he
  rw [hfragment] at hnodes
  have hvalid : (plainDocument ("(<>" ++ text ++ "</>)")).isValid = true := by
    rw [isValid_plainDocument, hnodes, allValid, allValid, Node.isValid, hafter, hns]
    rfl
  have hchildren : (plainDocument ("(<>" ++ text ++ "</>)")).children =
      [(Leaf.codeNode [⟨.delimiter, 0, "("⟩]).withoutOrigin, (Node.mk .fragment info [] ns).withoutOrigin, last] := by
    rw [children_plainDocument, hnodes, allWithoutOrigin, allWithoutOrigin, ← heq]
  have hfilter := filter_fragment (Leaf.codeNode [⟨.delimiter, 0, "("⟩]).withoutOrigin
    (Node.mk .fragment info [] ns).withoutOrigin last rfl rfl
  rw [if_neg hlast] at hfilter
  unfold snippet
  dsimp only
  rw [error?_eq_none text 3 hvalid, hchildren]
  dsimp only
  rw [hfilter]
  rfl

end Source
end JsxEdit
