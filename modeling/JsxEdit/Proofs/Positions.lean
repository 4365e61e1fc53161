import JsxEdit.Proofs.Placed
import JsxEdit.Proofs.Snippet

/-
The positions of the nodes of a document that was read without an error.

The children of the document cover the text, and the nodes between two tags cover what is between these. Every element or
fragment spans the very text from which it is read alone.
-/
set_option autoImplicit false

namespace JsxEdit

/-! ## Pieces of a text -/

namespace Markup

theorem formed_of_mem_markups {p q : Piece} (hp : Piece.Formed p) (hq : q ∈ p.markups) : Piece.Formed q := by
  induction hp with
  | token t => cases hq
  | @stretch mode first items last opens ends accepted inner outer ihinner ihouter =>
    rcases Piece.mem_markups_stretch hq with ⟨-, rfl⟩ | ⟨p, hp, hq⟩
    · exact .stretch opens ends accepted inner outer
    · rcases List.mem_append.mp hp with hp | hp
      · rcases List.mem_append.mp hp with hp | hp
        · have hnone := Piece.mem_allMarkups.mpr ⟨p, hp, hq⟩
          rw [Piece.allMarkups_opens opens] at hnone
          cases hnone
        · exact ihinner p hp hq
      · exact ihouter p hp hq

theorem formed_of_mem_allMarkups {text : String} {q : Piece} (h : q ∈ Piece.allMarkups (Piece.ofText text)) :
    Piece.Formed q := by
  obtain ⟨p, hp, hq⟩ := Piece.mem_allMarkups.mp h
  exact formed_of_mem_markups (Piece.ofText_formed text p hp).2 hq

theorem spans_of_tiles {text : String} {q : Piece} {n : Node} {a b : Nat} (hq : Piece.Formed q)
    (hpart : part q = .leaf (.node n)) (hvalid : n.isValid = true) (ht : Token.Tiles text a q.tokens b) : n.Spans a b := by
  have hholds := (holds_of_formed hq a b ht (by rw [hpart]; exact hvalid)).1
  rw [hpart] at hholds
  exact hholds.1

theorem exists_tiles_ofText (text : String) :
    ∃ b, Token.Tiles text 0 (Piece.allTokens (Piece.ofText text)) b ∧ (¬ Scan.EndsInBackslash text → b = text.length) := by
  rw [Piece.allTokens_ofText]
  by_cases h : Scan.EndsInBackslash text
  · obtain ⟨front, -, htiles⟩ := Scan.tiles_events_backslash h
    exact ⟨front.length, htiles, fun hnot => absurd h hnot⟩
  · exact ⟨text.length, Scan.tiles_events h, fun _ => rfl⟩

/-- The nodes read from a valid text stand where its pieces do, with the elements and fragments in the same order. -/
theorem nodes_placed {text : String} (hvalid : Node.allValid (nodes text) = true) :
    Node.AllSeated text (nodes text) ∧ (¬ Scan.EndsInBackslash text → Node.Tiles 0 (nodes text) text.length) ∧
      (Piece.allMarkups (Piece.ofText text)).map part = (Node.markups (nodes text)).map fun n => .leaf (.node n) := by
  obtain ⟨b, htiles, hb⟩ := exists_tiles_ofText text
  have hinline : ∀ p ∈ allParts (Piece.ofText text), p.IsInline := by
    intro x hx
    obtain ⟨p, hp, rfl⟩ := mem_allParts hx
    exact inline_of_accepts (Piece.ofText_formed text p hp).1
  have hleaves := Leaf.isValid_of_codeFrom [] _ hvalid
  have hparts : ∀ p ∈ Piece.ofText text, (part p).Valid := by
    intro p hp
    have hmem : part p ∈ allParts (Piece.ofText text) := by
      rw [allParts_eq_map]
      exact List.mem_map_of_mem hp
    exact Part.valid_of_leaves (hinline _ hmem) fun l hl => hleaves l (List.mem_flatMap.mpr ⟨part p, hmem, hl⟩)
  have hholds : ∀ p ∈ Piece.ofText text, Holds text p := fun p hp => holds_of_formed (Piece.ofText_formed text p hp).2
  obtain ⟨hplaced, hmarkups⟩ := holds_all hholds htiles hparts
  obtain ⟨hnodes, hseated, hall⟩ := Leaf.code_tiles (hplaced.leaves_tile hinline) hplaced.leaves_seated
  refine ⟨hseated, fun h => hb h ▸ hnodes, ?_⟩
  rw [hmarkups, ← Part.markups_allLeaves hinline, ← hall]
  rfl

end Markup

namespace Node

mutual

theorem isValid_of_mem_under : (n : Node) → n.isValid = true → ∀ m ∈ n.under, m.isValid = true
  | .mk k i as cs, h => by
    rw [isValid, Bool.and_eq_true, Bool.and_eq_true] at h
    rw [under, List.forall_mem_append]
    exact ⟨isValid_of_mem_within as h.1.2, isValid_of_mem_within cs h.2⟩

theorem isValid_of_mem_within : (ns : List Node) → allValid ns = true → ∀ m ∈ within ns, m.isValid = true
  | [], _ => fun _ hm => nomatch hm
  | n :: ns, h => by
    rw [allValid, Bool.and_eq_true] at h
    rw [within, List.cons_append, List.forall_mem_cons, List.forall_mem_append]
    exact ⟨h.1, isValid_of_mem_under n h.1, isValid_of_mem_within ns h.2⟩

end

end Node

namespace Source

open Markup (nodes part nodes_placed)

theorem descendants_document (text : String) (source : Option String) :
    ((document text).withKind (.document source)).descendants = Node.within (nodes text) := by
  rw [Node.descendants_eq_under]
  rfl

/-- An element or fragment of a valid text comes from a piece, which is the only one of the text that the node spans. -/
theorem exists_piece {text : String} (hvalid : Node.allValid (nodes text) = true) {n : Node}
    (hn : n ∈ Node.markups (nodes text)) : ∃ a b m, n.Spans a b ∧ b ≤ text.length ∧
      nodes (Text.slice text a b) = [m] ∧ n = m.shift a := by
  obtain ⟨-, -, hall⟩ := nodes_placed hvalid
  have hmem : Part.leaf (.node n) ∈ (Piece.allMarkups (Piece.ofText text)).map part := by
    rw [hall]
    exact List.mem_map_of_mem hn
  obtain ⟨q, hq, hpart⟩ := List.mem_map.mp hmem
  have hnvalid : n.isValid = true := Node.isValid_of_mem_within _ hvalid n (List.mem_filter.mp hn).1
  have hmarkup : n.kind.isMarkup = true := (List.mem_filter.mp hn).2
  rcases Piece.markup_alone hq with ⟨n', hpart', hinvalid⟩ | ⟨a, b, p, hb, htiles, halone, rfl⟩
  · rw [hpart] at hpart'
    cases hpart'
    rw [(Kind.plain_of_isMarkup hmarkup).1] at hinvalid
    cases hinvalid
  · have hspans := Markup.spans_of_tiles (Markup.formed_of_mem_allMarkups hq) hpart hnvalid htiles
    have hp : Piece.Formed p := (Piece.ofText_formed (Text.slice text a b) p (by rw [halone]; exact List.mem_cons_self)).2
    rw [Markup.part_shift a hp] at hpart
    rcases hpartp : part p with (t | m) | g | ⟨ns, close⟩
    all_goals
      rw [hpartp] at hpart
      cases hpart
    refine ⟨a, b, m, hspans, hb, ?_, rfl⟩
    rw [nodes, halone, Markup.allParts, hpartp]
    rfl

/-- Every element or fragment of a document can be read from the text that it spans alone: that text has just one node,
the same but for where it was read. -/
theorem markup_reads_alone {text : String} {tree n : Node} (h : parse text = .ok tree) (hn : n ∈ tree.descendants)
    (hmarkup : n.kind.isMarkup = true) : ∃ a b, a < b ∧ b ≤ text.length ∧ n.start = .ok (some a) ∧ n.stop = .ok (some b) ∧
      (plainDocument (Text.slice text a b)).children = [n.withoutOrigin] := by
  obtain ⟨rfl, hvalid⟩ := parse_eq_ok h
  rw [descendants_document] at hn
  obtain ⟨a, b, m, ⟨hlt, hstart, hstop⟩, hb, hnodes, rfl⟩ := exists_piece hvalid (List.mem_filter.mpr ⟨hn, hmarkup⟩)
  have hm : m.isValid = true := by
    rw [← Node.isValid_shift a m]
    exact Node.isValid_of_mem_within _ hvalid _ hn
  refine ⟨a, b, hlt, hb, hstart, hstop, ?_⟩
  rw [children_plainDocument, hnodes, Node.withoutOrigin_shift a m hm]
  rfl

/-- An element with text and an element between its tags, inside script. -/
def nestedMarkup : String := "x = <a>t<i/></a>;"

theorem nestedMarkup_reads_alone : ∃ tree n, parse nestedMarkup = .ok tree ∧ n ∈ tree.descendants ∧ n.write = "<i/>" ∧
    ∃ a b, a < b ∧ b ≤ nestedMarkup.length ∧ n.start = .ok (some a) ∧ n.stop = .ok (some b) ∧
      (plainDocument (Text.slice nestedMarkup a b)).children = [n.withoutOrigin] := by
  obtain ⟨tree, htree⟩ := exists_of_parse (by decide +kernel : (parse nestedMarkup).toBool = true)
  have hfound : (parse nestedMarkup).toOption.map (fun tree =>
      (tree.descendants.filter (·.kind.isMarkup)).map Node.write) = some ["<a>t<i/></a>", "<i/>"] := by
    decide +kernel
  rw [htree] at hfound
  obtain ⟨n, hn, hwrite⟩ := List.mem_map.mp ((Option.some.inj hfound).symm ▸ List.mem_cons_of_mem _ List.mem_cons_self)
  obtain ⟨hmem, hmarkup⟩ := List.mem_filter.mp hn
  exact ⟨tree, n, htree, hmem, hwrite, markup_reads_alone htree hmem hmarkup⟩

/-- The children of a document cover its text, unless that ends in a template literal that breaks off. The children of
every fragment, and of every element that does not close itself, stand one after the other between its tags, up to where
the closing tag starts. Texts and code with an origin are what stands there in the text. -/
theorem document_tiles {text : String} {tree : Node} (h : parse text = .ok tree) :
    (¬ Scan.EndsInBackslash text → Node.Tiles 0 tree.children text.length) ∧ ∀ n ∈ tree.descendants, n.Seated text := by
  obtain ⟨rfl, hvalid⟩ := parse_eq_ok h
  obtain ⟨hseated, htiles, -⟩ := nodes_placed hvalid
  rw [descendants_document]
  exact ⟨htiles, hseated⟩

theorem nestedMarkup_tiles : ∃ tree, parse nestedMarkup = .ok tree ∧
    Node.Tiles 0 tree.children nestedMarkup.length ∧ ∀ n ∈ tree.descendants, n.Seated nestedMarkup := by
  obtain ⟨tree, htree⟩ := exists_of_parse (by decide +kernel : (parse nestedMarkup).toBool = true)
  have hends : ¬ Scan.EndsInBackslash nestedMarkup := by
    intro h
    have hlast := h.getLast?
    revert hlast
    decide +kernel
  obtain ⟨htiles, hseated⟩ := document_tiles htree
  exact ⟨tree, htree, htiles hends, hseated⟩

end Source
end JsxEdit
