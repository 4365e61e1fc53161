import JsxEdit.Proofs.Wrapped

/-
Which snippets are read.

A text that is one element or fragment with white space around it is read as that element or fragment. There is one way
in which other texts are read too: after the element or fragment, the text goes on with a closing tag, and this closes
the fragment that the snippet is read in. What follows that tag is dropped.
-/
set_option autoImplicit false

namespace JsxEdit

/-! ## Elements and fragments among other nodes -/

theorem Kind.plain_of_isMarkup {k : Kind} (h : k.isMarkup = true) : k.isInvalid = false ∧ k.isWhitespace = false := by
  cases k <;> first | exact ⟨rfl, rfl⟩ | cases h

namespace Leaf

theorem codeFrom_pending {pending : List Token} (h : pending ≠ []) (leaves : List Leaf) :
    ∃ ts ns, codeFrom pending leaves = codeNode ts :: ns := by
  induction leaves generalizing pending with
  | nil =>
    rw [codeFrom, if_neg (by simpa using h)]
    exact ⟨_, _, rfl⟩
  | cons l leaves ih =>
    cases l with
    | token t => exact ih (List.cons_ne_nil t pending)
    | node n =>
      rw [codeFrom, if_neg (by simpa using h)]
      exact ⟨_, _, rfl⟩

/-- If all that comes of a text is one element or fragment, there are no tokens beside it. -/
theorem eq_of_code {leaves : List Leaf} {n : Node} (h : code leaves = [n]) (hn : n.kind.isMarkup = true) :
    leaves = [.node n] := by
  cases leaves with
  | nil => cases h
  | cons l leaves =>
    cases l with
    | token t =>
      obtain ⟨ts, ns, heq⟩ := codeFrom_pending (List.cons_ne_nil t []) leaves
      rw [code, codeFrom, heq] at h
      rw [← (List.cons.inj h).1] at hn
      cases hn
    | node m =>
      obtain ⟨rfl, hrest⟩ := List.cons.inj h
      cases leaves with
      | nil => rfl
      | cons l leaves =>
        cases l with
        | token t =>
          obtain ⟨ts, ns, heq⟩ := codeFrom_pending (List.cons_ne_nil t []) leaves
          rw [codeFrom, heq] at hrest
          cases hrest
        | node k => cases hrest

end Leaf

theorem Text.not_mem_of_isSpace {w : List Char} (hw : w.all isSpace = true) {c : Char} (hc : isSpace c = false) : c ∉ w := by
  intro hmem
  rw [List.all_eq_true.mp hw c hmem] at hc
  cases hc

namespace Source

open Piece (Encloses CompleteBefore Unclosed)
open Markup (part allParts)
open Node (allValid allWithoutOrigin)
open Scan (content? closingTagLength? markup? Stops)

/-! ## White space and text -/

/-- White space before a tag or an expression brings only white space. -/
theorem wraps_space {w x : List Char} (hw : w.all Text.isSpace = true) (hx : Stops x) :
    ∃ blank : List Node, (∀ n ∈ blank, n.isWhitespace = true) ∧
      ∀ {nodes after}, Wraps (w ++ x) nodes after ↔ ∃ rest, nodes = blank ++ rest ∧ Wraps x rest after := by
  by_cases hne : w = []
  · subst hne
    refine ⟨[], List.forall_mem_nil _, ?_⟩
    intro nodes after
    constructor
    · exact fun h => ⟨nodes, rfl, h⟩
    · rintro ⟨rest, rfl, h⟩
      exact h
  · have hm := @Scan.content?_text 1 w x hne (Text.not_mem_of_isSpace hw (by decide))
      (Text.not_mem_of_isSpace hw (by decide)) hx
    refine ⟨[.new (.text (.ofList w)) []], ?_, ?_⟩
    · intro n hn
      obtain rfl := List.mem_singleton.mp hn
      show Text.isBlank (.ofList w) = true
      rw [Text.isBlank, String.toList_ofList, hw]
    · intro nodes after
      exact wraps_text hne hm

theorem exists_stops {z : List Char} (h : '<' ∈ z) : ∃ t r, z = t ++ r ∧ '<' ∉ t ∧ '\x7b' ∉ t ∧ Stops r := by
  induction z with
  | nil => cases h
  | cons c z ih =>
    by_cases hc : c = '<' ∨ c = '\x7b'
    · exact ⟨[], c :: z, rfl, List.not_mem_nil, List.not_mem_nil, c, z, rfl, hc⟩
    · obtain ⟨hangle, hbrace⟩ := not_or.mp hc
      obtain ⟨t, r, rfl, ht, ht', hr⟩ := ih ((List.mem_cons.mp h).resolve_left (Ne.symm hangle))
      exact ⟨c :: t, r, rfl, List.not_mem_cons_of_ne_of_not_mem (Ne.symm hangle) ht,
        List.not_mem_cons_of_ne_of_not_mem (Ne.symm hbrace) ht', hr⟩

/-- Other characters bring a text that is not white space. -/
theorem wraps_solid {w y : List Char} {c : Char} {nodes after : List Node} (hw : w.all Text.isSpace = true)
    (hc : Text.isSpace c = false) (hother : ¬ (c = '<' ∨ c = '\x7b')) (h : Wraps (w ++ c :: y ++ closer) nodes after) :
    ∃ n ∈ nodes, n.isWhitespace = false ∧ n.kind.isMarkup = false := by
  obtain ⟨hangle, hbrace⟩ := not_or.mp hother
  obtain ⟨t, r, heq, ht, ht', hr⟩ := exists_stops (z := y ++ closer) (List.mem_append_right y List.mem_cons_self)
  have htext : w ++ c :: y ++ closer = (w ++ c :: t) ++ r := by
    rw [List.append_assoc, List.cons_append, heq, List.append_assoc, List.cons_append]
  have hne : w ++ c :: t ≠ [] := by simp
  have hangle' : '<' ∉ w ++ c :: t := by
    rw [List.mem_append, not_or]
    exact ⟨Text.not_mem_of_isSpace hw (by decide), List.not_mem_cons_of_ne_of_not_mem (Ne.symm hangle) ht⟩
  have hbrace' : '\x7b' ∉ w ++ c :: t := by
    rw [List.mem_append, not_or]
    exact ⟨Text.not_mem_of_isSpace hw (by decide), List.not_mem_cons_of_ne_of_not_mem (Ne.symm hbrace) ht'⟩
  rw [htext] at h
  obtain ⟨rest, rfl, -⟩ := (wraps_text hne (Scan.content?_text hne hangle' hbrace' hr)).mp h
  refine ⟨_, List.mem_cons_self, ?_, rfl⟩
  show Text.isBlank (.ofList (w ++ c :: t)) = false
  rw [Text.isBlank, String.toList_ofList, List.all_append, List.all_cons, hc, Bool.false_and, Bool.and_false]

/-! ## Tags at the end of a snippet -/

theorem not_wraps_bracket (nodes after : List Node) : ¬ Wraps [')'] nodes after := by
  rintro ⟨qs, tail, ns, close, he, hread, -⟩
  have hrun : Piece.nest [.token Piece.opening] [(.fragment, [])] (Scan.eventsFrom [.fragment, .markup] none 3 0 [] [')']) =
      [.stretch .fragment [.token Piece.opening, .token ⟨.text, 3, ")"⟩]] := rfl
  obtain ⟨rfl, -⟩ := he.unique hrun
  cases hread

theorem wraps_closer : ∃ last : Node, Wraps closer [] [last] ∧ last.kind.name ≠ "Fragment" := by
  obtain ⟨qs, tail, he⟩ := Piece.exists_encloses closer
  have hrun : Piece.nest [.token Piece.opening] [(.fragment, [])] (Scan.eventsFrom [.fragment, .markup] none 3 0 [] closer) =
      [.stretch .fragment [.token Piece.opening, .token ⟨.delimiter, 3, "</>"⟩], .token ⟨.text, 6, ")"⟩] := rfl
  obtain ⟨rfl, rfl⟩ := he.unique hrun
  exact ⟨_, ⟨_, _, _, _, he, rfl, by decide +kernel, rfl, rfl, rfl, rfl⟩, by decide⟩

/-- After a closing tag in the snippet, the end of the text around it is script text. -/
theorem wraps_closed : ∃ last : Node, Wraps ("</>".toList ++ closer) [] [last] ∧ last.kind.name ≠ "Fragment" := by
  obtain ⟨qs, tail, he⟩ := Piece.exists_encloses ("</>".toList ++ closer)
  have hrun : Piece.nest [.token Piece.opening] [(.fragment, [])]
      (Scan.eventsFrom [.fragment, .markup] none 3 0 [] ("</>".toList ++ closer)) =
      [.stretch .fragment [.token Piece.opening, .token ⟨.delimiter, 3, "</>"⟩], .token ⟨.text, 6, "</>)"⟩] := rfl
  obtain ⟨rfl, rfl⟩ := he.unique hrun
  exact ⟨_, ⟨_, _, _, _, he, rfl, by decide +kernel, rfl, rfl, rfl, rfl⟩, by decide⟩

/-- A closing tag does not reach into the end of the text around the snippet. -/
theorem closingTag_within {y : List Char} {n : Nat} (h : closingTagLength? ('<' :: y ++ closer) = some n) :
    (closingTagLength? ('<' :: y)).isSome = true := by
  obtain ⟨body, hbody, hangle⟩ := Scan.closingTagLength?_text h
  by_cases hn : n ≤ ('<' :: y).length
  · have hends := Scan.closingTagLength?_endsAngle h
    rw [List.take_append_of_le_length hn] at hends
    have hlocal : ∀ r, closingTagLength? (('<' :: y).take n ++ r) = closingTagLength? (('<' :: y).take n) :=
      Scan.closingTagLength?_local hends
    have hsame : closingTagLength? ('<' :: y) = closingTagLength? ('<' :: y ++ closer) := by
      rw [← List.take_append_drop n ('<' :: y), hlocal, List.append_assoc, hlocal]
    rw [hsame, h]
    rfl
  · -- the angle that starts the end would stand inside the tag
    exfalso
    have hlt := Nat.lt_of_not_le hn
    obtain ⟨k, hk⟩ := Nat.exists_eq_add_of_lt hlt
    have hcloser : closer.take (n - ('<' :: y).length) = '<' :: ['/', '>', ')'].take k := by
      rw [hk, Nat.add_assoc, Nat.add_sub_cancel_left]
      rfl
    rw [List.take_append, List.take_of_length_le (Nat.le_of_lt hlt), hcloser, List.cons_append, List.cons_append] at hbody
    have hmem : '<' ∈ body ++ ['>'] := by
      rw [← (List.cons.inj hbody).2]
      exact List.mem_append_right y List.mem_cons_self
    rcases List.mem_append.mp hmem with hmem | hmem
    · exact hangle '<' Scan.outsideTags_angle hmem
    · exact absurd (List.mem_singleton.mp hmem) (by decide)

/-- Markup in the snippet ends with the snippet, or takes the closing tag after it. -/
theorem complete_within {u v r : List Char} (heq : u ++ closer = v ++ r) (hv : EndsAngle v) :
    (∃ q, u = v ++ q ∧ r = q ++ closer) ∨ r = [')'] := by
  rcases List.append_eq_append_iff.mp heq with ⟨as, rfl, has⟩ | ⟨bs, rfl, rfl⟩
  · -- of the beginnings of the end, only the closing tag has an angle as its last character
    have hlast : ∀ c, EndsAngle (u ++ as) → as.getLast? = some c → c = '>' := by
      intro c hends hc
      rw [EndsAngle, List.getLast?_append, hc] at hends
      exact Option.some.inj hends
    rcases as with - | ⟨a, - | ⟨b, - | ⟨c, - | ⟨d, as⟩⟩⟩⟩
    · exact .inl ⟨[], by rw [List.append_nil, List.append_nil], has.symm⟩
    · cases has
      exact absurd (hlast _ hv rfl) (by decide)
    · cases has
      exact absurd (hlast _ hv rfl) (by decide)
    · cases has
      exact .inr rfl
    · have hnil := (List.cons.inj (List.cons.inj (List.cons.inj (List.cons.inj has).2).2).2).2
      obtain ⟨rfl, rfl⟩ := List.append_eq_nil_iff.mp hnil.symm
      cases has
      exact absurd (hlast _ hv rfl) (by decide)
  · exact .inl ⟨bs, rfl, rfl⟩

/-! ## The next that comes of a snippet -/

/-- After an angle there is a closing tag or complete markup. -/
theorem wraps_angle {y : List Char} {nodes after : List Node} (h : Wraps ('<' :: y ++ closer) nodes after) :
    (nodes = [] ∧ (closingTagLength? ('<' :: y)).isSome = true) ∨
      ∃ v q, '<' :: y = v ++ q ∧ CompleteBefore v (q ++ closer) := by
  cases hclose : closingTagLength? ('<' :: y ++ closer) with
  | some n => exact .inl ⟨wraps_close hclose h, closingTag_within hclose⟩
  | none =>
    right
    cases hm : markup? ('<' :: y ++ closer) with
    | none =>
      rw [List.cons_append] at h hclose hm
      refine absurd h (not_wraps_angle ?_)
      rw [content?, hclose]
      dsimp only
      rw [hm]
      rfl
    | some m =>
      rcases Piece.complete_or_unclosed hm with ⟨v, r, heq, hv⟩ | hopen
      · rcases complete_within heq hv.endsAngle with ⟨q, hq, rfl⟩ | rfl
        · exact ⟨v, q, hq, hv⟩
        · -- the closing tag after the snippet was taken, and none is left
          obtain ⟨n, -, -, hwraps⟩ := wraps_complete hv.alone
          rw [heq] at h
          obtain ⟨-, rest, -, hrest⟩ := (hwraps hv).mp h
          exact absurd hrest (not_wraps_bracket _ _)
      · exact absurd h (not_wraps_unclosed hopen)

/-- What a text in the fragment starts with, apart from white space: nothing or a closing tag, complete markup, or
something else. -/
theorem wraps_cases {u : List Char} {nodes after : List Node} (h : Wraps (u ++ closer) nodes after) :
    ((∀ n ∈ nodes, n.isWhitespace = true) ∧
      (u.all Text.isSpace = true ∨ (closingTagLength? (u.dropWhile Text.isSpace)).isSome = true)) ∨
    (∃ w v q blank rest, u = w ++ v ++ q ∧ w.all Text.isSpace = true ∧ (∀ n ∈ blank, n.isWhitespace = true) ∧
      nodes = blank ++ rest ∧ CompleteBefore v (q ++ closer) ∧ Wraps (v ++ (q ++ closer)) rest after) ∨
    ∃ n ∈ nodes, n.isWhitespace = false ∧ n.kind.isMarkup = false := by
  cases hu : u.all Text.isSpace with
  | true =>
    have hcloser : Stops closer := ⟨'<', _, rfl, .inl rfl⟩
    obtain ⟨blank, hblank, hwraps⟩ := wraps_space hu hcloser
    obtain ⟨rest, rfl, hrest⟩ := hwraps.mp h
    obtain rfl := wraps_close (x := closer) (n := 3) rfl hrest
    refine .inl ⟨?_, .inl rfl⟩
    rw [List.append_nil]
    exact hblank
  | false =>
    obtain ⟨w, c, y, rfl, hw, hc⟩ := Text.exists_first hu
    -- the first character decides: a tag, an expression, or text together with the white space before it
    by_cases hstops : c = '<' ∨ c = '\x7b'
    · rw [List.append_assoc] at h
      obtain ⟨blank, hblank, hwraps⟩ := wraps_space (x := c :: y ++ closer) hw ⟨c, _, rfl, hstops⟩
      obtain ⟨rest, rfl, hrest⟩ := hwraps.mp h
      rcases hstops with rfl | rfl
      · rcases wraps_angle hrest with ⟨rfl, hclose⟩ | ⟨v, q, hq, hv⟩
        · refine .inl ⟨?_, .inr ?_⟩
          · rw [List.append_nil]
            exact hblank
          · rw [Text.dropWhile_isSpace y hw hc, hclose]
        · rw [hq, List.append_assoc] at hrest
          refine .inr (.inl ⟨w, v, q, blank, rest, ?_, hw, hblank, rfl, hv, hrest⟩)
          rw [hq, List.append_assoc]
      · obtain ⟨n, hn, hkind⟩ := wraps_braces hrest
        exact .inr (.inr ⟨n, List.mem_append_right blank hn, hkind⟩)
    · exact .inr (.inr (wraps_solid hw hc hstops h))

/-! ## Texts with one root -/

/-- The text, without the white space around it, is valid and has one element or fragment and nothing else. -/
structure IsRoot (text : String) (n : Node) : Prop where
  valid : (plainDocument (Text.trim text)).isValid = true
  single : (plainDocument (Text.trim text)).children = [n]
  markup : n.kind.isMarkup = true

theorem isRoot_of_nodes {text : String} {n : Node} (hnodes : Markup.nodes (Text.trim text) = [n]) (hvalid : n.isValid = true)
    (hn : n.kind.isMarkup = true) : IsRoot text n.withoutOrigin where
  valid := by rw [isValid_plainDocument, hnodes, allValid, hvalid]; rfl
  single := by rw [children_plainDocument, hnodes]; rfl
  markup := by rw [Node.kind_withoutOrigin, hn]

theorem nodes_of_isRoot {text : String} {n : Node} (h : IsRoot text n) :
    ∃ n₀, Markup.nodes (Text.trim text) = [n₀] ∧ n₀.isValid = true ∧ n₀.kind.isMarkup = true ∧ n = n₀.withoutOrigin := by
  have hvalid := h.valid
  have hsingle := h.single
  rw [isValid_plainDocument] at hvalid
  rw [children_plainDocument, Node.allWithoutOrigin_eq_map] at hsingle
  obtain ⟨n₀, hnodes, rfl⟩ := List.map_eq_singleton_iff.mp hsingle
  rw [hnodes, allValid, allValid, Bool.and_true] at hvalid
  refine ⟨n₀, hnodes, hvalid, ?_, rfl⟩
  rw [← Node.kind_withoutOrigin]
  exact h.markup

/-- A text that is one element or fragment is complete markup. -/
theorem complete_of_nodes {core : List Char} {n : Node} (hcore : ∃ c rest, core = c :: rest ∧ Text.isSpace c = false)
    (hnodes : Markup.nodes (.ofList core) = [n]) (hn : n.kind.isMarkup = true) : CompleteBefore core [] := by
  obtain ⟨c, cs, rfl, hc⟩ := hcore
  have hleaves : Part.allLeaves (allParts (Piece.ofText (.ofList (c :: cs)))) = [.node n] := Leaf.eq_of_code hnodes hn
  cases hm : markup? (c :: cs) with
  | none =>
    -- without markup at its start, the text starts with a token
    have hspace : Scan.spaceLength (c :: cs) = 0 := by
      rw [Scan.spaceLength, List.takeWhile_cons_of_neg (by rw [hc]; decide)]
      rfl
    have hmatch : Scan.match? .script (0 == 0) none (c :: cs) = (Scan.lead? none (c :: cs) <|> Scan.literal? (c :: cs)) := by
      simp [Scan.match?, Scan.firstMarkup?, hspace, hm]
    obtain ⟨p, ps, t, leaves, heq, hp⟩ := Piece.starts_token hmatch
    rw [Piece.ofText, Scan.events, String.toList_ofList, heq, allParts, Part.allLeaves, List.flatMap_cons, hp] at hleaves
    cases hleaves
  | some m =>
    rcases Piece.complete_or_unclosed hm with ⟨v, r, heq, hv⟩ | hopen
    · cases r with
      | nil =>
        rw [heq, List.append_nil]
        exact hv
      | cons d r =>
        -- what follows the markup is script text
        obtain ⟨mode, items, place, halone, -⟩ := hv.alone.piece
        obtain ⟨n', hpart, -⟩ := Markup.part_markup place items
        obtain ⟨before, htext⟩ := halone hv
        have hpos : (v.length == 0) = false := by
          rw [beq_eq_false_iff_ne]
          exact fun hzero => hv.endsAngle.ne_nil (List.length_eq_zero_iff.mp hzero)
        have hmatch : Scan.match? .script (v.length == 0) before (d :: r) =
            (Scan.lead? before (d :: r) <|> Scan.literal? (d :: r)) := by
          simp [Scan.match?, hpos]
        obtain ⟨p, ps, t, leaves, hrest, hp⟩ := Piece.starts_token hmatch
        rw [heq, htext, hrest, allParts, allParts, Part.allLeaves, List.flatMap_cons, List.flatMap_cons, hpart,
          hp] at hleaves
        cases hleaves
    · obtain ⟨p, n', htext, hpart, hinvalid⟩ := hopen.piece.1
      rw [htext, allParts, hpart] at hleaves
      cases hleaves
      rw [(Kind.plain_of_isMarkup hn).1] at hinvalid
      cases hinvalid

/-! ## Snippets -/

theorem singleRoot_eq_ok {nodes : List Node} {n : Node} :
    singleRoot nodes = .ok n ↔ (nodes.filter fun m => !m.isWhitespace) = [n] ∧ n.kind.isMarkup = true := by
  unfold singleRoot
  generalize (nodes.filter fun m => !m.isWhitespace) = roots
  rcases roots with - | ⟨m, - | ⟨k, roots⟩⟩
  · simp
  · dsimp only
    by_cases hm : m.kind.isMarkup = true
    · rw [if_pos hm]
      constructor
      · intro h
        obtain rfl := Except.ok.inj h
        exact ⟨rfl, hm⟩
      · rintro ⟨h, -⟩
        rw [(List.cons.inj h).1]
    · rw [if_neg hm]
      constructor
      · intro h
        cases h
      · rintro ⟨h, hn⟩
        rw [(List.cons.inj h).1] at hm
        exact absurd hn hm
  · simp

theorem filter_blank {blank : List Node} (h : ∀ n ∈ blank, n.isWhitespace = true) (rest : List Node) :
    ((blank ++ rest).filter fun n => !n.isWhitespace) = rest.filter fun n => !n.isWhitespace := by
  have hnone : (blank.filter fun n => !n.isWhitespace) = [] := List.filter_eq_nil_iff.mpr fun n hn => by simp [h n hn]
  rw [List.filter_append, hnone, List.nil_append]

/-- The text is one element or fragment with white space around it, followed by a closing tag that ends the fragment
around the snippet. With all that comes after the tag, it would be a snippet without markup. -/
def ClosesEarly (text : String) (n : Node) : Prop := ∃ root rest, text = root ++ rest ∧ IsRoot root n ∧
  (closingTagLength? (Text.trimStart rest).toList).isSome = true ∧
  snippet rest = .error ⟨"Snippet contains no markup", none⟩

theorem isQuiet_space {e x : List Char} (he : e.all Text.isSpace = true) (hx : Scan.IsQuiet x) : Scan.IsQuiet (e ++ x) := by
  have hspace : ∀ {c : Char}, Text.isSpace c = false → c ∉ x → c ∉ e ++ x := by
    intro c hc hmem
    rw [List.mem_append, not_or]
    exact ⟨Text.not_mem_of_isSpace he hc, hmem⟩
  refine ⟨hspace (by decide) hx.double, hspace (by decide) hx.single, hspace (by decide) hx.star, ?_⟩
  rw [List.dropWhile_append_of_pos (List.all_eq_true.mp he)]
  exact hx.markup

/-- The core of a text that is one root is complete markup. -/
theorem core_of_isRoot {text : String} {n : Node} (h : IsRoot text n) : ∃ b core e,
    text.toList = b ++ core ++ e ∧ b.all Text.isSpace = true ∧ e.all Text.isSpace = true ∧ Text.Solid core ∧
      CompleteBefore core [] := by
  obtain ⟨n₀, hnodes, -, hmarkup, -⟩ := nodes_of_isRoot h
  have hblank : text.toList.all Text.isSpace = false := by
    cases hb : text.toList.all Text.isSpace with
    | false => rfl
    | true =>
      rw [Text.trim_of_isBlank hb] at hnodes
      cases hnodes
  obtain ⟨b, core, e, htext, hb, he, hcore⟩ := Text.exists_core hblank
  rw [← String.ofList_toList (s := text), htext, Text.trim_of_solid hb he hcore] at hnodes
  exact ⟨b, core, e, htext, hb, he, hcore, complete_of_nodes hcore.starts hnodes hmarkup⟩

/-- A root is read before every quiet text that brings only white space to the fragment. -/
theorem snippet_append {text rest : String} {n last : Node} {blank : List Node} (h : IsRoot text n)
    (hquiet : Scan.IsQuiet (rest.toList ++ closer)) (hstops : Stops (rest.toList ++ closer))
    (hblank : ∀ m ∈ blank, m.isWhitespace = true) (hrest : Wraps (rest.toList ++ closer) blank [last])
    (hlast : last.kind.name ≠ "Fragment") : snippet (text ++ rest) = .ok n := by
  obtain ⟨b, core, e, htext, hb, he, hcore, hcomplete⟩ := core_of_isRoot h
  obtain ⟨n₀, hnodes, hvalid, hmarkup, rfl⟩ := nodes_of_isRoot h
  obtain ⟨n₁, -, hnodes', hwraps⟩ := wraps_complete hcomplete
  obtain rfl : n₀ = n₁ := by
    rw [← String.ofList_toList (s := text), htext, Text.trim_of_solid hb he hcore, hnodes'] at hnodes
    exact (List.cons.inj hnodes).1.symm
  -- the white space after the root, the root, and the white space before it
  obtain ⟨trail, htrail, hspace⟩ := wraps_space he hstops
  have hend := hspace.mpr ⟨blank, rfl, hrest⟩
  have hroot := (hwraps (hcomplete.before (isQuiet_space he hquiet))).mpr ⟨hvalid, _, rfl, hend⟩
  have hangle : Stops (core ++ (e ++ (rest.toList ++ closer))) := by
    obtain ⟨w, -, -, rfl, -⟩ := hcomplete
    exact ⟨'<', _, rfl, .inl rfl⟩
  obtain ⟨lead, hlead, hspace'⟩ := wraps_space hb hangle
  have hall := hspace'.mpr ⟨_, rfl, hroot⟩
  have hall' : (text ++ rest).toList ++ closer = b ++ (core ++ (e ++ (rest.toList ++ closer))) := by
    rw [String.toList_append, htext]
    simp only [List.append_assoc]
  rw [← hall'] at hall
  rw [snippet_of_wraps hall hlast, singleRoot_eq_ok, filter_blank hlead]
  have hsolid : n₀.withoutOrigin.isWhitespace = false := by
    rw [Node.isWhitespace, Node.kind_withoutOrigin, (Kind.plain_of_isMarkup hmarkup).2]
  refine ⟨?_, h.markup⟩
  rw [List.filter_cons_of_pos (by rw [hsolid]; rfl), filter_blank htrail, ← List.append_nil blank, filter_blank hblank]
  rfl

/-- One element or fragment with white space around it is read. -/
theorem snippet_of_isRoot {text : String} {n : Node} (h : IsRoot text n) : snippet text = .ok n := by
  obtain ⟨last, hcloser, hlast⟩ := wraps_closer
  have hquiet : Scan.IsQuiet closer := ⟨by decide, by decide, by decide, by decide⟩
  have hread : snippet (text ++ "") = .ok n :=
    snippet_append h hquiet ⟨'<', _, rfl, .inl rfl⟩ (List.forall_mem_nil _) hcloser hlast
  rwa [String.append_empty] at hread

/-- A root before a closing tag is read, too. -/
theorem snippet_closed {text : String} {n : Node} (h : IsRoot text n) : snippet (text ++ "</>") = .ok n := by
  obtain ⟨last, hclosed, hlast⟩ := wraps_closed
  have hquiet : Scan.IsQuiet ("</>".toList ++ closer) := ⟨by decide, by decide, by decide, by decide⟩
  exact snippet_append h hquiet ⟨'<', _, rfl, .inl rfl⟩ (List.forall_mem_nil _) hclosed hlast

/-- With a closing tag after it, a root is none any more. -/
theorem not_isRoot_closed {text : String} {n m : Node} (h : IsRoot text n) : ¬ IsRoot (text ++ "</>") m := by
  intro h'
  obtain ⟨b, core, e, htext, hb, he, hcore, hcomplete⟩ := core_of_isRoot h
  obtain ⟨m₀, hnodes, -, hmarkup, -⟩ := nodes_of_isRoot h'
  have hsolid : Text.Solid (core ++ (e ++ "</>".toList)) := by
    constructor
    · obtain ⟨c, rest, rfl, hc⟩ := hcore.starts
      exact ⟨c, rest ++ (e ++ "</>".toList), rfl, hc⟩
    · refine ⟨'>', core ++ (e ++ ['<', '/']), ?_, by decide⟩
      rw [List.append_assoc, List.append_assoc]
      rfl
  have htext' : text ++ "</>" = .ofList (b ++ (core ++ (e ++ "</>".toList)) ++ []) := by
    apply String.toList_inj.mp
    rw [String.toList_append, htext, List.append_nil]
    simp only [List.append_assoc, String.toList_ofList]
  rw [htext', Text.trim_of_solid hb rfl hsolid] at hnodes
  -- the markup would be complete both before the tag and with it
  have hquiet : Scan.IsQuiet "</>".toList := ⟨by decide, by decide, by decide, by decide⟩
  have hbefore : CompleteBefore core (e ++ "</>".toList) := hcomplete.before (isQuiet_space he hquiet)
  have hnil := hbefore.eq_nil (complete_of_nodes hsolid.starts hnodes hmarkup)
  cases (List.append_eq_nil_iff.mp hnil).2

/-- Complete markup with white space around it is one root. -/
theorem isRoot_of_complete {w v e r : List Char} {n : Node} (hv : CompleteBefore v r) (hw : w.all Text.isSpace = true)
    (he : e.all Text.isSpace = true) (hnodes : Markup.nodes (.ofList v) = [n]) (hvalid : n.isValid = true)
    (hn : n.kind.isMarkup = true) : IsRoot (.ofList (w ++ v ++ e)) n.withoutOrigin := by
  have hsolid : Text.Solid v := by
    constructor
    · obtain ⟨u, -, -, rfl, -⟩ := hv
      exact ⟨'<', u, rfl, by decide⟩
    · obtain ⟨u, rfl⟩ := List.getLast?_eq_some_iff.mp hv.endsAngle
      exact ⟨'>', u, rfl, by decide⟩
  refine isRoot_of_nodes ?_ hvalid hn
  rw [Text.trim_of_solid hw he hsolid, hnodes]

/-- The next node after markup that is complete in the fragment is that markup. -/
theorem wraps_root {v r : List Char} {nodes after : List Node} (hv : CompleteBefore v r) (h : Wraps (v ++ r) nodes after) :
    ∃ n rest, nodes = n :: rest ∧ Node.isWhitespace n = false ∧ Wraps r rest after ∧
      ∀ {w e}, w.all Text.isSpace = true → e.all Text.isSpace = true → IsRoot (.ofList (w ++ v ++ e)) n := by
  obtain ⟨n, hn, hnodes, hwraps⟩ := wraps_complete hv.alone
  obtain ⟨hvalid, rest, rfl, hrest⟩ := (hwraps hv).mp h
  have hmarkup : n.kind.isMarkup = true := by
    refine hn.resolve_right fun hinvalid => ?_
    cases n with
    | mk k i as cs =>
      rw [Node.isValid, show k.isInvalid = true from hinvalid] at hvalid
      cases hvalid
  refine ⟨n.withoutOrigin, rest, rfl, ?_, hrest, ?_⟩
  · rw [Node.isWhitespace, Node.kind_withoutOrigin, (Kind.plain_of_isMarkup hmarkup).2]
  · intro w e hw he
    exact isRoot_of_complete hv hw he hnodes hvalid hmarkup

/-- What is read is an element or fragment at the start, with white space after it or a closing tag. -/
theorem isRoot_of_snippet {text : String} {n : Node} (h : snippet text = .ok n) : IsRoot text n ∨ ClosesEarly text n := by
  obtain ⟨nodes, last, hwraps, hlast, hsingle⟩ := snippet_eq_ok h
  obtain ⟨hfilter, hmarkup⟩ := singleRoot_eq_ok.mp hsingle
  rcases wraps_cases hwraps with
    ⟨hblank, -⟩ | ⟨w, v, q, blank, nodes, htext, hw, hblank, rfl, hv, hnodes⟩ | ⟨m, hm, hspace, hkind⟩
  · rw [← List.append_nil nodes, filter_blank hblank] at hfilter
    cases hfilter
  · obtain ⟨n₀, rest, rfl, hsolid, hrest, hroot⟩ := wraps_root hv hnodes
    rw [filter_blank hblank, List.filter_cons_of_pos (by rw [hsolid]; rfl)] at hfilter
    obtain ⟨rfl, hnone⟩ := List.cons.inj hfilter
    have hspaces : ∀ m ∈ rest, m.isWhitespace = true := by
      intro m hm
      simpa using List.filter_eq_nil_iff.mp hnone m hm
    -- after the root there is white space only, up to the end or to a closing tag
    rcases wraps_cases hrest with
      ⟨-, hq | hq⟩ | ⟨w', v', q', blank', nodes, rfl, -, -, rfl, hv', hnodes'⟩ | ⟨m, hm, hspace, -⟩
    · left
      rw [← String.ofList_toList (s := text), htext]
      exact hroot hw hq
    · right
      refine ⟨.ofList (w ++ v), .ofList q, ?_, ?_, ?_, ?_⟩
      · rw [← String.ofList_append, ← htext, String.ofList_toList]
      · rw [← List.append_nil (w ++ v)]
        exact hroot hw rfl
      · rw [Text.trimStart, String.toList_ofList, String.toList_ofList, hq]
      · rw [← String.toList_ofList (l := q)] at hrest
        rw [snippet_of_wraps hrest hlast, singleRoot, hnone]
    · obtain ⟨n₁, more, rfl, hsolid', -⟩ := wraps_root hv' hnodes'
      rw [hspaces n₁ (List.mem_append_right blank' List.mem_cons_self)] at hsolid'
      cases hsolid'
    · rw [hspaces m hm] at hspace
      cases hspace
  · have hroot : m ∈ nodes.filter fun m => !m.isWhitespace := List.mem_filter.mpr ⟨hm, by rw [hspace]; rfl⟩
    rw [hfilter] at hroot
    rw [List.mem_singleton.mp hroot, hmarkup] at hkind
    cases hkind

/-- A text that is one root is read as this root. A text that is read is one root, or it closes the fragment around it
after the root. Every root with a closing tag after it is such a text. -/
theorem snippet_roots (text : String) (n : Node) :
    (IsRoot text n → snippet text = .ok n) ∧ (snippet text = .ok n → IsRoot text n ∨ ClosesEarly text n) ∧
      (IsRoot text n → snippet (text ++ "</>") = .ok n ∧ ¬ IsRoot (text ++ "</>") n) := by
  refine ⟨snippet_of_isRoot, isRoot_of_snippet, ?_⟩
  intro h
  exact ⟨snippet_closed h, not_isRoot_closed h⟩

/-- An element, a closing tag, and text that is dropped. -/
def droppedText : String := "<a/></> more text"

theorem droppedText_closes_early : ∃ n, snippet droppedText = .ok n ∧ n.write = "<a/>" ∧ ¬ IsRoot droppedText n ∧
    ClosesEarly droppedText n := by
  have hwrite : (snippet droppedText).toOption.map Node.write = some "<a/>" := by decide +kernel
  obtain ⟨n, hn, hn'⟩ := Option.map_eq_some_iff.mp hwrite
  have hread : snippet droppedText = .ok n := by
    cases hs : snippet droppedText with
    | error e =>
      rw [hs] at hn
      cases hn
    | ok m =>
      rw [hs] at hn
      exact congrArg Except.ok (Option.some.inj hn)
  have hnot : ¬ IsRoot droppedText n := by
    intro h
    have hlength : (plainDocument (Text.trim droppedText)).children.length = 2 := by decide +kernel
    rw [h.single] at hlength
    cases hlength
  exact ⟨n, hread, hn', hnot, ((snippet_roots droppedText n).2.1 hread).resolve_left hnot⟩

end Source
end JsxEdit
