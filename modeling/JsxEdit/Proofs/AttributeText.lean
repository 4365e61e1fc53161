import JsxEdit.Proofs.SlotText

/-
One more attribute in the text.

After the last attribute of a tag there comes white space, a comment or the end of the tag. An attribute that is written
there, with white space before it, is read as the last one, and all else in the tag as before.
-/
set_option autoImplicit false

namespace JsxEdit

open Piece (allEvents)
open Scan (Begins tag? one startsMarkup)
open Scan.Stand (InTag)
open Markup (part allParts elementFrom Through)
open List (Forall₂)

/-! ## What comes next in a tag -/

namespace Scan

theorem tag?_angle (w : List Char) : tag? ('<' :: w) = none := by
  simp [tag?, List.isPrefixOf, attrName?, Text.nameLength?, attributeString?, comment?, show Text.isSpace '<' = false by decide,
    show Text.isNameStart '<' = false by decide]

/-- White space, a comment or the end of a tag is known from its first character. -/
theorem tag?_first {c : Char} {w : List Char} {m : Match} (h : tag? (c :: w) = some m) {pos : Nat} {t : Token}
    {es : List Event} (hevents : m.events pos (c :: w) = .token t :: es)
    (hkind : t.kind = .space ∨ t.kind = .comment ∨ t.kind = .delimiter) :
    Text.isSpace c = true ∨ c = '/' ∨ c = '>' := by
  have hone {kind : TokenKind} {n : Nat} (h : one kind n .stay = some m) : t.kind = kind := by
    obtain rfl := one_eq h
    obtain ⟨ht, -⟩ := List.cons.inj hevents
    rw [← Event.token.inj ht]
  by_contra hnone
  rw [not_or, not_or] at hnone
  obtain ⟨hspace, hslash, hangle⟩ := hnone
  have hclose : "/>".toList.isPrefixOf (c :: w) = false := by simp [List.isPrefixOf, Ne.symm hslash]
  rw [tag?, if_neg hspace, hclose, if_neg Bool.false_ne_true, if_neg (by simpa using hangle)] at h
  split at h
  · rw [hone h] at hkind
    simp at hkind
  · split at h
    · obtain rfl := one_eq h
      cases hevents
    · rcases orElse_some h with hname | h
      · obtain ⟨n, -, hname⟩ := Option.bind_eq_some_iff.mp hname
        rw [hone hname] at hkind
        simp at hkind
      · rcases orElse_some h with hstring | hcomment
        · unfold attributeString? at hstring
          split at hstring
          · split at hstring
            · rw [hone hstring] at hkind
              simp at hkind
            · cases hstring
          · split at hstring
            · rw [hone hstring] at hkind
              simp at hkind
            · cases hstring
          · cases hstring
        · obtain ⟨-, rest, -, heq⟩ := comment?_spec hcomment
          exact hslash (List.cons.inj heq).1

namespace Stand

variable {around : List Mode} {s : Stand}

/-- Between the parts of a tag the run goes on with a match at once. -/
theorem InTag.exists_first (h : InTag around s) {r : List Char} {e : Event} {es : List Event} (hunread : s.unread r = [])
    (hrun : s.run r = e :: es) (he : Begins e) : ∃ c w m, r = c :: w ∧ tag? (c :: w) = some m ∧
      e :: es = m.events s.pos (c :: w) ++ (s.step c w).2.run w := by
  obtain ⟨x, c, w, m, rfl, hbrings, hin, hm, hevents⟩ := h.exists_match (show s.run _ = allEvents [] ++ e :: es from hrun) he
    (List.forall_mem_nil _)
  -- what brings nothing and is not kept back is nothing
  have hcovers := (brings_covers hunread hin.skip).1
  rw [hbrings, hin.pending, h.pending, h.skip] at hcovers
  obtain rfl : [] = x := hcovers
  exact ⟨c, w, m, rfl, hm, hevents⟩

/-- A token of a tag that the run passes over. -/
theorem InTag.passes (h : InTag around s) {w r : List Char} (hw : w ≠ []) {kind : TokenKind}
    (hm : tag? (w ++ r) = one kind w.length .stay) :
    ∃ t : Token, t.kind = kind ∧ t.text = .ofList w ∧ s.brings r w = [.token t] ∧ InTag around (s.after r w) := by
  obtain ⟨c, w, rfl⟩ := List.exists_cons_of_ne_nil hw
  have hsettle : settle (c :: (w ++ r)) s.stack = .tag :: around := by
    rw [h.stack]
    exact Piece.Opened.settle_eq _ (show Mode.tag ≠ .markup by decide)
  have hmatched : s.matched? (c :: (w ++ r)) = some ⟨[(kind, w.length + 1)], .stay⟩ := by
    rw [matched?, hsettle]
    exact hm
  have hstep := step_match h.skip hmatched
  obtain ⟨hnone, hstack, hskip, hpending⟩ := passes_skip (r := r) (s := (s.step c (w ++ r)).2) (x := w) (by rw [hstep]; rfl)
  refine ⟨⟨kind, s.pos, .ofList (c :: w)⟩, rfl, rfl, ?_, ?_, hskip, ?_, ?_⟩
  · show (s.step c (w ++ r)).1 ++ (s.step c (w ++ r)).2.brings r w = _
    rw [hnone, hstep, pends, hsettle, h.pending]
    simp [current, pendingToken, rest?, Match.events, tokens]
  · show ((s.step c (w ++ r)).2.after r w).stack = _
    rw [hstack, hstep, hsettle]
    rfl
  · show ((s.step c (w ++ r)).2.after r w).pending = _
    rw [hpending, hstep]
  · exact pos_after_ne h.inText _ _

end Stand
end Scan

/-- What comes after the last attribute of a tag. -/
structure IsTagEnd (Z last : List Piece) : Prop where
  spacing : ∀ p ∈ Z, Markup.IsSpacing (part p)
  ends : Piece.Ends .tag last
  closed : last ≠ []

section

variable {Z last : List Piece} {around : List Mode} {s : Scan.Stand} {r : List Char} {es : List Event}

theorem IsTagEnd.cases (h : IsTagEnd Z last) :
    (∃ t Z', Z = .token t :: Z' ∧ (t.kind = .space ∨ t.kind = .comment)) ∨
      Z = [] ∧ ∃ t ps, last = .token t :: ps ∧ t.kind = .delimiter := by
  cases Z with
  | nil =>
    right
    cases h.ends with
    | none => exact absurd rfl h.closed
    | selfClosing kind | opened kind | content kind => exact ⟨rfl, _, _, rfl, kind⟩
  | cons p Z =>
    obtain ⟨t, ht, hkind⟩ := h.spacing p List.mem_cons_self
    obtain rfl : p = .token t := token_of_part (by rw [ht]; rfl)
    exact .inl ⟨t, Z, rfl, hkind⟩

theorem IsTagEnd.exists_token (h : IsTagEnd Z last) : ∃ t fs, allEvents (Z ++ last) = .token t :: fs ∧
    (t.kind = .space ∨ t.kind = .comment ∨ t.kind = .delimiter) := by
  rcases h.cases with ⟨t, Z', rfl, hkind⟩ | ⟨rfl, t, ps, rfl, hkind⟩
  · exact ⟨t, _, rfl, hkind.imp_right .inl⟩
  · exact ⟨t, _, rfl, .inr (.inr hkind)⟩

theorem begins_token {t : Token} (h : t.kind = .space ∨ t.kind = .comment ∨ t.kind = .delimiter) : Begins (.token t) := by
  refine ⟨fun ⟨u, hu, hpending⟩ => ?_, nofun, nofun⟩
  obtain rfl := Event.token.inj hu
  rcases h with h | h | h <;> rw [h] at hpending <;> simp at hpending

variable (h : IsTagEnd Z last) (hin : InTag around s) (hunread : s.unread r = [])
  (hrun : s.run r = allEvents (Z ++ last) ++ es)
include h hin hunread hrun

theorem IsTagEnd.exists_first : ∃ c w m, r = c :: w ∧ tag? (c :: w) = some m ∧
    (Text.isSpace c = true ∨ c = '/' ∨ c = '>') := by
  obtain ⟨t, fs, hevents, hkind⟩ := h.exists_token
  rw [hevents, List.cons_append] at hrun
  obtain ⟨c, w, m, rfl, hm, heq⟩ := hin.exists_first hunread hrun (begins_token hkind)
  refine ⟨c, w, m, rfl, hm, ?_⟩
  cases hfirst : m.events s.pos (c :: w) with
  | nil => exact absurd hfirst ((Scan.tag?_rule hm).events_ne_nil _)
  | cons e fs' =>
    rw [hfirst] at heq
    obtain ⟨rfl, -⟩ := List.cons.inj heq
    exact Scan.tag?_first hm hfirst hkind

/-- No markup comes after the last attribute of a tag. -/
theorem IsTagEnd.not_markup : startsMarkup (r.dropWhile Text.isSpace) = false := by
  have hnot {c : Char} {w : List Char} {m : Scan.Match} (hm : tag? (c :: w) = some m) : startsMarkup (c :: w) = false := by
    unfold startsMarkup
    split
    · next heq =>
      rw [heq, Scan.tag?_angle] at hm
      cases hm
    · rfl
  obtain ⟨c, w, m, rfl, hm, -⟩ := h.exists_first hin hunread hrun
  cases hspace : Text.isSpace c with
  | false =>
    rw [List.dropWhile_cons_of_neg (by simp [hspace])]
    exact hnot hm
  | true =>
    -- all the white space is one token, and something else comes after it
    have hne : (c :: w).takeWhile Text.isSpace ≠ [] := by simp [hspace]
    have hsplit : (c :: w).takeWhile Text.isSpace ++ (c :: w).dropWhile Text.isSpace = c :: w := List.takeWhile_append_dropWhile
    have hspaces : tag? ((c :: w).takeWhile Text.isSpace ++ (c :: w).dropWhile Text.isSpace) =
        one .space ((c :: w).takeWhile Text.isSpace).length .stay := by
      rw [hsplit, tag?, if_pos hspace]
      rfl
    generalize (c :: w).takeWhile Text.isSpace = x at hne hsplit hspaces
    generalize (c :: w).dropWhile Text.isSpace = r' at hsplit hspaces ⊢
    rw [← hsplit] at hunread hrun
    obtain ⟨u, hu, -, hbrings, hin'⟩ := hin.passes hne hspaces
    rw [Scan.Stand.run_append, hbrings, List.singleton_append] at hrun
    rcases h.cases with ⟨t, Z', rfl, -⟩ | ⟨rfl, t, ps, rfl, hkind⟩
    · have h' : IsTagEnd Z' last := ⟨fun p hp => h.spacing p (List.mem_cons_of_mem _ hp), h.ends, h.closed⟩
      obtain ⟨c', w', m', rfl, hm', -⟩ := h'.exists_first hin' (Scan.Stand.brings_covers hunread hin'.skip).2
        (List.cons.inj hrun).2
      exact hnot hm'
    · obtain ⟨ht, -⟩ := List.cons.inj hrun
      rw [← Event.token.inj ht, hu] at hkind
      cases hkind

end

/-! ## A new attribute -/

/-- The pieces of an attribute with a value in braces. -/
structure NewAttribute (key : String) (n : Node) (space name equals : Token) (its : List Piece) (g : Group) : Prop where
  space : space.kind = .space ∧ space.text = " "
  name : name.kind = .attrName ∧ name.text = key
  equals : equals.kind = .equals ∧ equals.text = "="
  starts : Piece.StartsWithBrace its
  braces : part (.stretch .braces its) = .group g
  reading : (judge (.stretch .braces its)).reading = true
  slot : (Markup.slot g).blind = (Node.slot n).blind

theorem write_newAttribute (key : String) (n : Node) :
    (Node.attr key (some (.slot n))).write = " " ++ key ++ "=" ++ ("\x7b" ++ "" ++ n.write ++ "" ++ "\x7d") := by
  simp [Node.attr, Node.slot, Node.new, Node.write, Node.writeAll, Kind.opening, Kind.closing, String.append_assoc]

/-- A run over an attribute in a tag. -/
theorem newAttribute_reads {around : List Mode} {s : Scan.Stand} (h : InTag around s) {key : String}
    (hkey : Text.IsFullName .attr key) {written : String} {n : Node} (hcontents : Contents written (Yields n))
    (hwrite : n.write = "\x7b" ++ written ++ "\x7d") (r : List Char) : ∃ space name equals its g,
      NewAttribute key n space name equals its g ∧
      s.brings r (Node.attr key (some (.slot n))).write.toList =
        allEvents [.token space, .token name, .token equals, .stretch .braces its] ∧
      InTag around (s.after r (Node.attr key (some (.slot n))).write.toList) := by
  have htext : (Node.attr key (some (.slot n))).write.toList =
      [' '] ++ (key.toList ++ (['='] ++ ("\x7b" ++ "" ++ ("\x7b" ++ written ++ "\x7d") ++ "" ++ "\x7d").toList)) := by
    rw [write_newAttribute, hwrite]
    simp
  rw [htext]
  generalize hslot : ("\x7b" ++ "" ++ ("\x7b" ++ written ++ "\x7d") ++ "" ++ "\x7d").toList = v
  obtain ⟨c, w, hstarts, -, hspaces⟩ := hkey.starts
  have hsolid : Text.isSpace c = false := hspaces c List.mem_cons_self
  obtain ⟨space, hspace, hspaceText, hspaceBrings, h₁⟩ :=
    h.passes (r := key.toList ++ (['='] ++ v) ++ r) (List.cons_ne_nil ' ' []) (by
    rw [hstarts]
    exact Scan.tag?_space (List.cons_ne_nil _ _) (by decide) hsolid)
  obtain ⟨name, hname, hnameText, hnameBrings, h₂⟩ :=
    h₁.passes (w := key.toList) (r := ['='] ++ v ++ r) (by rw [hstarts]; exact List.cons_ne_nil _ _)
    (Scan.tag?_name hkey ⟨by decide, by decide, by decide, by decide⟩)
  obtain ⟨equals, hequals, hequalsText, hequalsBrings, h₃⟩ :=
    h₂.passes (r := v ++ r) (List.cons_ne_nil '=' []) (Scan.tag?_equals _)
  obtain ⟨its, g, hbrings, hafter, hbrace, hpart, hreading, hblind⟩ :=
    slot_reads hcontents h₃ (show Text.isBlank "" = true from rfl) (show Text.isBlank "" = true from rfl) r
  rw [hslot] at hbrings hafter
  refine ⟨space, name, equals, its, g, ⟨⟨hspace, hspaceText⟩, ⟨hname, hnameText.trans String.ofList_toList⟩,
    ⟨hequals, hequalsText⟩, hbrace, hpart, hreading, hblind⟩, ?_, ?_⟩
  · simp only [Scan.Stand.brings_append, List.append_assoc] at hspaceBrings hnameBrings hequalsBrings hbrings ⊢
    rw [hspaceBrings, hnameBrings, hequalsBrings, hbrings]
    rw [allEvents, allEvents, allEvents, Piece.allEvents_singleton]
    rfl
  · simp only [Scan.Stand.after_append, List.append_assoc] at hafter ⊢
    exact hafter

namespace NewAttribute

variable {key : String} {n : Node} {space name equals : Token} {its : List Piece} {g : Group}
  (h : NewAttribute key n space name equals its g)
include h

/-- An attribute is read after those that were read before. -/
theorem through (as : List Node) : ∃ a, a.blind = (Node.attr key (some (.slot n))).blind ∧ a.kind.IsInner ∧
    Through ⟨as, "", false⟩ (allParts [.token space, .token name, .token equals, .stretch .braces its])
      ⟨a :: as, "", false⟩ := by
  set b : Node := .mk (.attr name.text space.text) { head := some (Markup.spanOf name name) } [] [] with hb
  refine ⟨b.withChildren [Markup.slot g], ?_, ⟨rfl, rfl⟩, ?_⟩
  · rw [hb, Node.withChildren, Node.attr, Node.new, Node.blind_mk, Node.blind_mk, h.space.2, h.name.2, Option.toList_some,
      List.map_singleton, List.map_singleton, h.slot]
  · have htakes : Markup.Opening.takesValue ⟨b :: as, "", false⟩ = true := by
      rw [Markup.Opening.takesValue, hb]
      rfl
    have hspace : "" ++ space.text = space.text := String.empty_append
    refine .cons (.space (.inl h.space.1)) (.cons (.name h.name.1 rfl) (.cons (.equals h.equals.1 ?_) ?_))
    · dsimp only
      rw [hspace]
      exact htakes
    · dsimp only
      rw [hspace, allParts, h.braces]
      exact .cons (.value rfl) (.nil _)

theorem keeps (tag : String) (ps : List Piece) :
    Judged.keepsTag tag false (judgeAll ([.token space, .token name, .token equals, .stretch .braces its] ++ ps)) =
      Judged.keepsTag tag false (judgeAll ps) := by
  have htoken (t : Token) : (judge (.token t)).keepsInTag tag false = true := rfl
  have hequals (t : Token) : (judge (.token t)).isEquals = (t.kind == .equals) := rfl
  have hslot : (judge (.stretch .braces its)).keepsInTag tag true = true ∧ (judge (.stretch .braces its)).isEquals = false := by
    rw [Judged.keepsInTag, Judged.isEquals, Judged.part_judge, h.braces, h.reading]
    exact ⟨rfl, rfl⟩
  simp only [List.cons_append, List.nil_append, judgeAll, Judged.keepsTag, htoken, hequals, h.space.1, h.name.1, h.equals.1,
    hslot.1, hslot.2, beq_self_eq_true, Bool.true_and, show (TokenKind.space == .equals) = false from rfl,
    show (TokenKind.attrName == .equals) = false from rfl]

theorem source (hn : n.isValid = true) (hformed : Piece.Formed (.stretch .braces its)) :
    Event.allText (allEvents [.token space, .token name, .token equals, .stretch .braces its]) =
      (Node.attr key (some (.slot n))).write.toList := by
  have hslotValid : (Markup.slot g).isValid = true := by
    rw [← Node.isValid_blind, h.slot, Node.isValid_blind]
    simp [Node.slot, Node.new, Node.isValid, Node.allValid, hn, Kind.isInvalid]
  rw [Piece.allText_allEvents, Piece.allSource, Piece.allSource, Piece.allSource, Piece.allSource, Piece.allSource,
    source_of_slot h.starts hformed h.braces h.reading hslotValid, ← Node.write_blind, h.slot, Node.write_blind]
  simp [Piece.source, h.space.2, h.name.2, h.equals.2, Node.attr, Node.slot, Node.new, Node.write, Node.writeAll, Kind.opening,
    Kind.closing]

end NewAttribute

/-! ## After the last attribute -/

/-- The attributes of a tag, and what comes after them. -/
structure AttributesEnd (angle name : Token) (items last Y Z : List Piece) (as : List Node) (k : Kind) (i : Info)
    (cs : List Node) : Prop where
  items : items = Y ++ Z
  through : Through ⟨[], "", false⟩ (allParts Y) ⟨as, "", false⟩
  firm : Y = [] ∨ ∃ front y, Y = front ++ [y] ∧ Markup.IsFirm (part y)
  ends : IsTagEnd Z last
  kind : k.isElement = true
  rest : ∀ as, elementFrom angle name ⟨as, "", false⟩ (allParts (Z ++ last)) = .mk k i as.reverse cs

section

variable {text : String} {angle name : Token} {items last : List Piece} {e : Node}

theorem Drawn.exists_attributesEnd (h : Drawn text angle name items last e) :
    ∃ Y Z as k i cs, AttributesEnd angle name items last Y Z as k i cs := by
  have hinner := judgeAll_inTag h.tagged.inner
  have hending := judgeAll_ending h.tagged.ends h.tagged.outer
  have hvalid := h.valid
  rw [h.tagged.node, Markup.allParts_append, ← Judged.parts_judgeAll] at hvalid
  have hkept := h.kept
  rw [Judged.judgeAll_append, Markup.keepsTag_append, Bool.and_eq_true] at hkept
  obtain ⟨ys, zs, ⟨as, space, waiting⟩, hitems, hthrough, hspacing, hfirm⟩ :=
    Markup.exists_spacing hinner hvalid (Markup.tight_of_free rfl false) hkept.1
  rw [Likeness.judgeAll_eq_map] at hitems
  obtain ⟨Y, Z, rfl, rfl, rfl⟩ := List.map_eq_append_iff.mp hitems
  rw [← Likeness.judgeAll_eq_map, Judged.parts_judgeAll] at hthrough
  have hspacing : ∀ p ∈ Z, Markup.IsSpacing (Markup.part p) := fun p hp => by
    rw [← Judged.part_judge]
    exact hspacing _ (List.mem_map_of_mem hp)
  rw [Judged.parts_judgeAll, Markup.allParts_append, List.append_assoc, hthrough.eq, ← Judged.parts_judgeAll last] at hvalid
  obtain ⟨hne, hfree, k, i, cs, hk, hrest⟩ := Markup.elementFrom_spacing (by
    rw [Markup.allParts_eq_map]
    exact List.forall_mem_map.mpr hspacing) hending hvalid
  obtain rfl : waiting = false := hfree
  have hends : space = "" ∧ (Y = [] ∨ ∃ front y, Y = front ++ [y] ∧ Markup.IsFirm (Markup.part y)) := by
    rcases hfirm with ⟨hnil, ho⟩ | ⟨front, y, hlast, hy⟩
    · exact ⟨(Markup.Opening.mk.inj ho).2.1, .inl (List.map_eq_nil_iff.mp hnil)⟩
    · obtain ⟨front, ys, rfl, -, hys⟩ := List.map_eq_append_iff.mp hlast
      obtain ⟨y, rfl, rfl⟩ := List.map_eq_singleton_iff.mp hys
      obtain ⟨hspace, hy⟩ := hy rfl
      rw [Judged.part_judge] at hy
      exact ⟨hspace, .inr ⟨front, y, rfl, hy⟩⟩
  obtain ⟨rfl, hlast⟩ := hends
  refine ⟨Y, Z, as, k, i, cs, rfl, hthrough, hlast, ⟨hspacing, h.tagged.ends, ?_⟩, hk, fun as => ?_⟩
  · rintro rfl
    exact hne rfl
  · rw [Markup.allParts_append, ← Judged.parts_judgeAll last]
    exact hrest as

variable {Y Z : List Piece} {as : List Node} {k : Kind} {i : Info} {cs : List Node}

theorem AttributesEnd.eq (h : AttributesEnd angle name items last Y Z as k i cs) (hdrawn : Drawn text angle name items last e) :
    e = .mk k i as.reverse cs := by
  rw [hdrawn.tagged.node, h.items, List.append_assoc, Markup.allParts_append, h.through.eq, h.rest]

/-- The last event before the end of the attributes. -/
theorem AttributesEnd.exists_last (h : AttributesEnd angle name items last Y Z as k i cs)
    (hdrawn : Drawn text angle name items last e) : ∃ fs gs w c, .token name :: allEvents Y = fs ++ gs ∧
      Event.allText gs = w ++ [c] ∧ IsEdge c ∧ Scan.endsInLine (.token name :: allEvents Y) = false := by
  rcases h.firm with rfl | ⟨front, y, rfl, hfirm⟩
  · obtain ⟨w, c, hw, hc⟩ := Text.namePart_of_name hdrawn.tagged.isName
    refine ⟨[], [.token name], w, c, rfl, ?_, .of_namePart hc, ?_⟩
    · rw [← hw]
      exact List.append_nil _
    · -- no name starts with a slash
      have hslash : "//".toList.isPrefixOf name.text.toList = false := by
        have hname := hdrawn.tagged.isName
        cases htext : name.text.toList with
        | nil => rfl
        | cons d v =>
          have hd : d ≠ '/' := by
            rintro rfl
            rw [htext, Text.nameLength?, if_neg (by decide)] at hname
            cases hname
          simp [List.isPrefixOf, Ne.symm hd]
      show (name.kind == .comment && "//".toList.isPrefixOf name.text.toList) = false
      rw [hslash, Bool.and_false]
  · have hy : y ∈ items := by
      rw [h.items]
      exact List.mem_append_left _ (List.mem_append_right _ List.mem_cons_self)
    obtain ⟨haccepts, hformed⟩ := hdrawn.tagged.inner y hy
    obtain ⟨w, c, hw, hc⟩ := exists_edge haccepts hformed hfirm
    refine ⟨.token name :: allEvents front, y.events, w, c, ?_, hw, hc, ?_⟩
    · rw [Piece.allEvents_append, Piece.allEvents_singleton, List.cons_append]
    · obtain ⟨fs, f, hf, hline⟩ : ∃ fs f, y.events = fs ++ [f] ∧ Scan.isLineComment f = false := by
        cases y with
        | stretch mode its => exact ⟨.enter mode :: allEvents its, .leave, rfl, rfl⟩
        | token t =>
          refine ⟨[], .token t, rfl, ?_⟩
          rcases hfirm with ⟨u, hu, hkind⟩ | ⟨g, hg, -⟩
          · obtain rfl := Leaf.token.inj (Part.leaf.inj hu)
            rcases hkind with hkind | hkind | hkind <;> simp [Scan.isLineComment, hkind]
          · cases hg
      rw [Piece.allEvents_append, Piece.allEvents_singleton, hf, ← List.cons_append, ← List.append_assoc, Scan.endsInLine,
        List.getLast?_concat]
      exact hline

theorem AttributesEnd.not_equals (h : AttributesEnd angle name items last Y Z as k i cs) :
    Markup.endsInEquals false (judgeAll Y) = false := by
  rcases h.firm with rfl | ⟨front, y, rfl, hfirm⟩
  · rfl
  · rw [Judged.judgeAll_append, Markup.endsInEquals, judgeAll, judgeAll, List.getLast?_concat, Option.map_some, Option.getD_some,
      Judged.isEquals, Judged.part_judge]
    rcases hfirm with ⟨t, ht, hkind⟩ | ⟨g, hg, -⟩
    · rw [ht]
      rcases hkind with hkind | hkind | hkind <;> simp [Part.token?, Leaf.token?, hkind]
    · rw [hg]
      rfl

variable {key : String} {n : Node} {its : List Piece} {g : Group} {space word equals : Token}

/-- A new attribute after the last one of a tag is the last attribute of its element. -/
theorem AttributesEnd.exchanges (h : AttributesEnd angle name items last Y Z as k i cs)
    (hdrawn : Drawn text angle name items last e) (hnew : NewAttribute key n space word equals its g)
    (hvalid : (e.withAttributes (e.attributes ++ [.attr key (some (.slot n))])).isValid = true) :
    Exchanges angle name Y [.token space, .token word, .token equals, .stretch .braces its] (Z ++ last)
      (e.withAttributes (e.attributes ++ [.attr key (some (.slot n))])).blind := by
  have hitems : items ++ last = Y ++ (Z ++ last) := by rw [h.items, List.append_assoc]
  have hformed : ∀ p ∈ Z ++ last, p.Formed := fun p hp => hdrawn.formed p (hitems ▸ List.mem_append_right _ hp)
  obtain ⟨a, ha, hinner, hthrough⟩ := hnew.through as
  have hinners : ∀ b ∈ a :: as, b.kind.IsInner :=
    List.forall_mem_cons.mpr ⟨hinner, h.through.inner (List.forall_mem_nil _)⟩
  have he := h.eq hdrawn
  refine ⟨?_, ?_, fun B' hB => ?_, fun B' hB => ?_⟩
  · rw [Node.kind_blind, he]
    show k.blind.isElement = true
    have hk := h.kind
    cases k <;> first | rfl | cases hk
  · rw [Node.isValid_blind]
    exact hvalid
  · rw [Markup.allParts_append, Markup.allParts_append, List.append_assoc, h.through.eq, hthrough.eq,
      elementFrom_elsewhere hB hformed hinners, h.rest, he]
    show Node.blind (.mk k i (a :: as).reverse cs) = Node.blind (.mk k i (as.reverse ++ [_]) cs)
    rw [Node.blind_mk, Node.blind_mk, List.reverse_cons, List.map_append, List.map_append, List.map_singleton,
      List.map_singleton, ha]
  · have hkept := hdrawn.kept
    rw [hitems, Judged.judgeAll_append, Markup.keepsTag_append, h.not_equals, Bool.and_eq_true] at hkept
    rw [List.append_assoc, Judged.judgeAll_append, Markup.keepsTag_append, h.not_equals, hnew.keeps,
      Likeness.keepsTag_eq _ _ (judgeAll_elsewhere hB hformed), hkept.1]
    exact hkept.2

/-- What is before an attribute is read in the same way if that comes next, or what came after it. -/
theorem alike_attribute {c : Char} (hc : IsEdge c) {r : List Char} {d : Char} {v : List Char} (hr : r = d :: v)
    (hd : Text.isSpace d = true ∨ d = '/' ∨ d = '>') (hmarkup : startsMarkup (r.dropWhile Text.isSpace) = false)
    (hkey : Text.IsFullName .attr key) (w : List Char) : Scan.Alike c r (' ' :: key.toList ++ '=' :: w) where
  solid := hc.solid
  goesOn := hr ▸ List.cons_ne_nil d v
  left := {
    head := fun f hf => by
      rw [hr] at hf
      obtain rfl := Option.some.inj hf
      rcases hd with hd | rfl | rfl
      · rw [Scan.isStop, hd, Bool.true_or]
      · decide
      · decide
    pair := fun hmem => absurd hmem hc.single
    markup := hmarkup }
  right := {
    head := fun f hf => by
      obtain rfl := Option.some.inj hf
      decide
    pair := fun hmem => absurd hmem hc.single
    markup := by
      obtain ⟨f, u, hstarts, hstart, hspaces⟩ := hkey.starts
      have hsolid := hspaces f List.mem_cons_self
      have hangle : f ≠ '<' := by
        rintro rfl
        revert hstart
        decide
      rw [hstarts, List.cons_append, List.dropWhile_cons_of_pos (by decide), List.cons_append,
        List.dropWhile_cons_of_neg (by simp [hsolid])]
      unfold startsMarkup
      split
      · next heq => exact absurd (List.cons.inj heq).1 hangle
      · rfl }
  closing := by
    have hangle : '>' ∉ key.toList.take ((Text.nameLength? .attr key.toList).getD 0) :=
      Scan.not_mem_take_nameLength? ⟨⟨by decide, by decide, by decide, by decide⟩, by decide, by decide⟩ _
    rw [show Text.nameLength? .attr key.toList = some key.toList.length from hkey, Option.getD_some, List.take_length] at hangle
    refine .of_outside (b := ' ' :: key.toList) (fun hmem => ?_)
      ⟨⟨by decide, by decide, by decide, by decide⟩, by decide, by decide⟩ (by decide) w
    exact (List.mem_cons.mp hmem).elim (by decide) hangle
  brace hhead := by
    rw [hr] at hhead
    obtain rfl := Option.some.inj hhead
    exact absurd hd (by decide)
  brace' hhead := by cases hhead

/-- An attribute that is written after the last one of an element is read as the last attribute of that. -/
theorem Drawn.exists_attribute_text (h : Drawn text angle name items last e) {tree : Node}
    (hparse : Source.parse text = .ok tree) (hkept : keeps text = true) (hclear : e.StandsClear text)
    (hkey : Text.IsFullName .attr key) {written : String} (hcontents : Contents written (Yields n))
    (hwrite : n.write = "\x7b" ++ written ++ "\x7d") (hn : n.isValid = true)
    (hvalid : (e.withAttributes (e.attributes ++ [.attr key (some (.slot n))])).isValid = true) :
    ∃ text' tree', Source.parse text' = .ok tree' ∧ tree'.write = text' ∧ (tree'.withKind tree.kind).blind =
      Node.swap (· == angle.pos) (e.withAttributes (e.attributes ++ [.attr key (some (.slot n))])).blind tree := by
  have hunread : Scan.unread text = [] := by
    rw [keeps, Bool.and_eq_true] at hkept
    exact List.isEmpty_iff.mp hkept.1
  obtain ⟨Y, Z, as, k, i, cs, hend⟩ := h.exists_attributesEnd
  have hitems : items ++ last = Y ++ (Z ++ last) := by rw [hend.items, List.append_assoc]
  have hinner := h.tagged.inner
  rw [hend.items] at hinner
  obtain ⟨hY, hZ⟩ := List.forall_mem_append.mp hinner
  have hrestValid : (elementFrom angle name ⟨as, "", false⟩ (allParts (Z ++ last))).isValid = true := by
    rw [hend.rest, ← hend.eq h]
    exact h.valid
  obtain ⟨x, r, around, es₁, es₂, htext, hbefore, hin, hrun⟩ :=
    h.exists_place hitems hY hend.through (begins_rest hZ h.tagged.ends hrestValid)
  have hstands : Stands text angle name Y [] (Z ++ last) x [] r around es₁ es₂ := ⟨htext, hbefore, hin, rfl, hin, hrun⟩
  have hunread' := hstands.unread hunread
  obtain ⟨d, v, -, hr, -, hd⟩ := hend.ends.exists_first hin hunread' hrun
  obtain ⟨fs, gs, w, c, hevents, hgs, hc, hline⟩ := hend.exists_last h
  have hlast : x.getLast? = some c :=
    @getLast?_place _ _ _ _ hunread htext hin (es₁ ++ .enter .tag :: .token angle :: fs) _ (by
      rw [hbefore, hevents, List.append_assoc]
      rfl) _ _ hgs
  obtain ⟨space, word, equals, its, g, hnew, hbrings, hafter⟩ := newAttribute_reads hin hkey hcontents hwrite r
  set S' := (Node.attr key (some (.slot n))).write.toList with hS'
  have halike : Scan.Alike c ([] ++ r) (S' ++ r) := by
    have hstart : S' ++ r = ' ' :: key.toList ++ '=' :: (("\x7b" ++ "" ++ n.write ++ "" ++ "\x7d").toList ++ r) := by
      rw [hS', write_newAttribute]
      simp
    rw [hstart]
    exact alike_attribute hc hr hd (hend.ends.not_markup hin hunread' hrun) hkey _
  obtain ⟨tree', hparse', hwritten, hblind⟩ := hstands.exchanged h (by rw [hitems, List.append_nil]) hparse hkept hclear
    (hend.exchanges h hnew hvalid) hlast halike hline ⟨hbrings, hafter⟩ fun hformed =>
      hnew.source hn (hformed _ (by simp))
  exact ⟨_, tree', hparse', hwritten, hblind⟩

end

end JsxEdit
