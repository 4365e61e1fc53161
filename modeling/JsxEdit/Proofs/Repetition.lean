import JsxEdit.Proofs.FlawlessRun
import JsxEdit.Proofs.Retext

/-
A text that is set twice.

What a text is set in is found again by the second call. A literal holds the text and nothing else, so it gives its place
to itself. A text between tags keeps the white space around it; the white space that the text itself starts and ends with
is then taken for that, and comes in a second time.
-/
set_option autoImplicit false

namespace JsxEdit

/-! ## White space around a text -/

namespace Text

/-- A text is bare if there is no white space around it. -/
theorem trim_eq_self_iff {s : String} (h : isBlank s = false) : trim s = s ↔ lead s = "" ∧ trail s = "" := by
  have hparts := lead_append_trim_append_trail h
  constructor
  · intro htrim
    have hlength := congrArg String.length hparts
    rw [String.length_append, String.length_append, htrim] at hlength
    have hlead : (lead s).length = 0 := by omega
    have htrail : (trail s).length = 0 := by omega
    exact ⟨String.length_eq_zero_iff.mp hlead, String.length_eq_zero_iff.mp htrail⟩
  · rintro ⟨hlead, htrail⟩
    simpa only [hlead, htrail, String.empty_append, String.append_empty] using hparts

end Text

namespace Node

@[simp] theorem write_text (s : String) : (Node.text s).write = s := by
  simp [Node.text, new, write, writeAll, Kind.opening, Kind.closing]

/-- Whether a text that is set in the element is written as a literal: it takes the place of one, or cannot stand
between tags. -/
def quotes (n : Node) (t : String) : Bool :=
  (n.children.find? holdsText).any (isSlotOf Kind.isTextLiteral) || t.toList.any Build.isMarkupChar

/-- Whether the element has the same text however often it is set: as a literal, or without white space around it. -/
def Settles (n : Node) (t : String) : Prop := n.quotes t = true ∨ Text.trim t = t

theorem quotes_of_holder {n c : Node} {left right : List Node} (h : n.children = left ++ c :: right)
    (hleft : ∀ x ∈ left, x.holdsText = false) (hc : c.holdsText = true) (t : String) :
    n.quotes t = (c.isSlotOf Kind.isTextLiteral || t.toList.any Build.isMarkupChar) := by
  have hfind : n.children.find? holdsText = some c := by
    rw [h, List.find?_append, List.find?_eq_none.mpr fun x hx => by rw [hleft x hx]; exact Bool.false_ne_true,
      List.find?_cons_of_pos hc]
    rfl
  rw [quotes, hfind]
  rfl

theorem quotes_of_none {n : Node} (h : ∀ x ∈ n.children, x.holdsText = false) (t : String) :
    n.quotes t = t.toList.any Build.isMarkupChar := by
  rw [quotes, List.find?_eq_none.mpr fun x hx => by rw [h x hx]; exact Bool.false_ne_true]
  rfl

end Node

namespace Edit
open Node

/-! ## The node that a text was set in -/

/-- A node that the text was set in: a literal, which gives its place to itself when the text is set again, or a text
between tags with white space around it. -/
inductive Bears (t : String) : Bool → Node → Prop
  | literal {n : Node} (same : replaceText t n = .ok (some ([n], t))) : Bears t true n
  | between {b e : String} (before : Text.isBlank b = true) (after : Text.isBlank e = true)
      (plain : t.toList.any Build.isMarkupChar = false) : Bears t false (.text (b ++ t ++ e))

section

variable {t : String} {n e : Node} {lead trail : String} {rest : List Node} (hk : n.kind = .slot lead trail)
  (hc : n.children = e :: rest)
include hk hc

theorem bears_string {q : Char} (hq : Text.IsQuote q)
    (he : e.kind = .string (Literal.rawString t (.ofList [q])) (.ofList [q])) : Bears t true n := by
  have hself : n.withChildren (e.withKind e.kind :: rest) = n := by rw [withKind_kind, ← hc, withChildren_children]
  refine .literal ?_
  rw [replaceText_string t hk hc he, ← he, hself, Literal.unescapeText_rawString hq]

theorem bears_template (he : e.kind = .template (Literal.rawTemplate t)) : Bears t true n := by
  have hself : n.withChildren (e.withKind e.kind :: rest) = n := by rw [withKind_kind, ← hc, withChildren_children]
  refine .literal ?_
  rw [replaceText_template t hk hc he, ← he, hself, Literal.unescapeText_rawTemplate]

end

/-- The node that a text was set in is the first that holds one. -/
def Borne (t : String) (literal : Bool) (ns : List Node) : Prop :=
  ∃ left n right, ns = left ++ n :: right ∧ (∀ x ∈ left, x.holdsText = false) ∧ Bears t literal n

theorem Borne.around {t : String} {literal : Bool} {ns left : List Node} (h : Borne t literal ns)
    (hleft : ∀ x ∈ left, x.holdsText = false) (right : List Node) : Borne t literal (left ++ ns ++ right) := by
  obtain ⟨left', n, right', rfl, hleft', hn⟩ := h
  exact ⟨left ++ left', n, right' ++ right, by simp, List.forall_mem_append.mpr ⟨hleft, hleft'⟩, hn⟩

theorem bears_build (t : String) : Bears t (t.toList.any Build.isMarkupChar) (Build.text t) := by
  rw [Build.text]
  split
  · next hmarkup =>
    rw [hmarkup]
    exact bears_string rfl rfl (.inr rfl) rfl
  · next hplain =>
    rw [Bool.not_eq_true] at hplain
    rw [hplain]
    have := Bears.between (t := t) (b := "") (e := "") rfl rfl hplain
    rwa [String.empty_append, String.append_empty] at this

theorem borne_textNodes {t lead trail : String} (hlead : Text.isBlank lead = true) (htrail : Text.isBlank trail = true) :
    Borne t (t.toList.any Build.isMarkupChar) (textNodes t lead trail) := by
  unfold textNodes
  dsimp only
  split
  · next htext =>
    have hplain : t.toList.any Build.isMarkupChar = false := by
      rw [← Bool.not_eq_true]
      intro hmarkup
      rw [Build.text, if_pos hmarkup] at htext
      cases htext
    rw [hplain]
    exact ⟨[], _, [], rfl, List.forall_mem_nil _, .between hlead htrail hplain⟩
  · refine ⟨_, _, _, rfl, fun x hx => ?_, bears_build t⟩
    split at hx
    · cases hx
    · rw [List.mem_singleton.mp hx]
      exact holdsText_of_isWhitespace (isWhitespace_text.trans hlead)

/-- A node that holds a text gives its place to what bears the new one. -/
theorem replaceText_borne {t : String} {c : Node} (hc : c.holdsText = true) (hexpr : c.HoldsExpression) :
    ∃ new old, replaceText t c = .ok (some (new, old)) ∧
      Borne t (c.isSlotOf Kind.isTextLiteral || t.toList.any Build.isMarkupChar) new := by
  unfold holdsText at hc
  split at hc
  · next s hk =>
    have hliteral : c.isSlotOf Kind.isTextLiteral = false := by rw [isSlotOf, hk]
    rw [hliteral]
    exact ⟨_, _, replaceText_text t hk (by simpa using hc), borne_textNodes (Text.isBlank_lead s) (Text.isBlank_trail s)⟩
  · obtain ⟨lead, trail, e, rest, hk, hchildren, hwording⟩ := isSlotOf_eq_true hc
    have he : e.IsExpression := hexpr lead trail hk e (hchildren ▸ List.mem_cons_self)
    have hslot : ∀ cs, (c.withChildren cs).kind = .slot lead trail := fun cs => by rw [kind_withChildren, hk]
    have hplain : Borne t (t.toList.any Build.isMarkupChar) (textNodes t "" "") := borne_textNodes rfl rfl
    rw [isSlotOf_of_kind hk hchildren]
    cases he.isWording hwording with
    | identifier name => exact ⟨_, _, by rw [replaceText, hk, hchildren]; rfl, hplain⟩
    | member path => exact ⟨_, _, by rw [replaceText, hk, hchildren]; rfl, hplain⟩
    | string raw hq =>
      exact ⟨_, _, replaceText_string t hk hchildren rfl, [], _, [], rfl, List.forall_mem_nil _,
        bears_string (hslot _) (children_withChildren ..) hq rfl⟩
    | template raw =>
      exact ⟨_, _, replaceText_template t hk hchildren rfl, [], _, [], rfl, List.forall_mem_nil _,
        bears_template (hslot _) (children_withChildren ..) rfl⟩

/-- What is the only new node among white space is the first that holds a text if no other one holds any. -/
theorem borne_of_adds {t : String} {children new : List Node} (h : Adds t children new) :
    Borne t (t.toList.any Build.isMarkupChar) new := by
  obtain ⟨hnone, hsolids⟩ := h
  obtain ⟨front, back, rfl, hfront, hback⟩ := List.filter_eq_append_iff.mp hsolids
  obtain ⟨gap, after, rfl, hgap, -, -⟩ := List.filter_eq_cons_iff.mp hback
  refine ⟨front ++ gap, _, after, by rw [List.append_assoc], fun x hx => ?_, bears_build t⟩
  cases hw : x.isWhitespace with
  | true => exact holdsText_of_isWhitespace hw
  | false =>
    rcases List.mem_append.mp hx with hx | hx
    · have hmem : x ∈ solids children := hfront ▸ List.mem_filter.mpr ⟨hx, by rw [hw]; rfl⟩
      exact hnone x (List.mem_filter.mp hmem).1
    · exact absurd (by rw [hw]; rfl) (hgap x hx)

/-! ## The second time -/

/-- The children after the text was set again: the same, or with the white space around the text once more. -/
theorem Borne.again {t : String} {literal : Bool} {ns : List Node} (h : Borne t literal ns)
    (ht : Text.isBlank t = false) : ∃ new old, replaceFirstText t ns = .ok (some (new, old)) ∧
      (literal = true ∨ Text.trim t = t → new = ns) ∧
      (literal = false → ∃ pre post, writeAll ns = pre ++ t ++ post ∧
        writeAll new = pre ++ (Text.lead t ++ t ++ Text.trail t) ++ post) := by
  obtain ⟨left, n, right, rfl, hleft, hn⟩ := h
  cases hn with
  | literal same =>
    refine ⟨_, t, replaceFirstText_split hleft same, fun _ => ?_, fun hliteral => nomatch hliteral⟩
    rw [List.append_assoc, List.singleton_append]
  | @between b e before after plain =>
    obtain ⟨-, hblank⟩ := Text.trim_around before ht after
    obtain ⟨hlead, htrail⟩ := Text.edges_around before ht after
    have hnodes (lead trail : String) : textNodes t lead trail = [.text (lead ++ t ++ trail)] := by
      have hbuild : Build.text t = .text t := by rw [Build.text, plain, if_neg Bool.false_ne_true]
      rw [textNodes, hbuild]
      rfl
    have hreplace := replaceText_text (n := .text (b ++ t ++ e)) t rfl hblank
    rw [hlead, htrail, hnodes] at hreplace
    refine ⟨_, _, replaceFirstText_split hleft hreplace, fun hsettled => ?_, fun _ => ?_⟩
    · obtain ⟨hl, hr⟩ := (Text.trim_eq_self_iff ht).mp (hsettled.resolve_left Bool.false_ne_true)
      rw [hl, hr, String.append_empty, String.empty_append, List.append_assoc, List.singleton_append]
    · refine ⟨writeAll left ++ b, e ++ writeAll right, ?_, ?_⟩
      · rw [writeAll_around, write_text]
        simp only [String.append_assoc]
      · rw [List.append_assoc, List.singleton_append, writeAll_around, write_text]
        simp only [String.append_assoc]

/-- A text with white space around it is not the same with this white space once more. -/
theorem widened_ne {t : String} (ht : Text.isBlank t = false) (hwide : Text.trim t ≠ t) (pre post : String) :
    pre ++ (Text.lead t ++ t ++ Text.trail t) ++ post ≠ pre ++ t ++ post := by
  intro heq
  have hlength := congrArg String.length heq
  simp only [String.length_append] at hlength
  refine hwide ((Text.trim_eq_self_iff ht).mpr ⟨?_, ?_⟩)
  · exact String.length_eq_zero_iff.mp (by omega)
  · exact String.length_eq_zero_iff.mp (by omega)

/-- In a document that was read, a text is set in some node of the element, which may have to be opened for it. -/
theorem updateText_bears {text : String} {tree : Node} {id : String} {v : Visit} {t : String}
    (hparse : Source.parse text = .ok tree) (hv : tree.findId id = .ok (some v)) (ht : Text.isBlank t = false) :
    ∃ (m : Node) (new : List Node), (updateText tree id t).Gives (tree.set v.path (m.withChildren new)) ∧
      m.kind.isElement = true ∧ m.attributes = v.node.attributes ∧ Borne t (v.node.quotes t) new := by
  have hfound := findId_some hv
  have hget := (Source.keepsAttributes_parse hparse).get?_visit hfound.mem
  rcases exists_holder v.node.children with hnone | ⟨left, c, right, hsplit, hc, hleft⟩
  · have hnodes := hasForeign_of_nodes tree (foreign_of_mem_under tree (Source.flawless_parse hparse))
    obtain ⟨new, hadd, hadds, -⟩ := addText_adds ht hnodes hget hnone
    refine ⟨_, new, ?_, isElement_opened.trans hfound.element, attributes_opened _, ?_⟩
    · rw [updateText, hv]
      dsimp only
      rw [replaceFirstText_none hnone, hadd]
      exact ⟨Reply.succeeds_succeeded .., rfl⟩
    · rw [quotes_of_none hnone]
      exact borne_of_adds hadds
  · have hexpr := Source.holdsExpression_parse hparse (node_mem_under hfound.mem) hfound.markup c (by rw [hsplit]; simp)
    obtain ⟨new, old, hreplace, hborne⟩ := replaceText_borne hc hexpr
    refine ⟨v.node, left ++ new ++ right, ?_, hfound.element, rfl, ?_⟩
    · rw [updateText, hv]
      dsimp only
      rw [hsplit, replaceFirstText_split hleft hreplace]
      exact ⟨Reply.succeeds_succeeded .., modify_eq_set _ hget⟩
    · rw [quotes_of_holder hsplit hleft hc]
      exact hborne.around hleft right

/-- In a document that was read, a text that is not blank is set twice in an element that is found. The second call
leaves the tree and its text as they are exactly if the text is written as a literal or there is no white space around
it. Otherwise the white space comes in once more. -/
theorem repeated_text {text : String} {tree : Node} {id : String} {v : Visit} {t : String}
    (hparse : Source.parse text = .ok tree) (hv : tree.findId id = .ok (some v)) (ht : Text.isBlank t = false) :
    ∃ once twice code code', (updateText tree id t).Gives once ∧ (updateText once id t).Gives twice ∧
      once.generate true = .ok code ∧ twice.generate true = .ok code' ∧ (code' = code ↔ v.node.Settles t) ∧
      (v.node.Settles t → twice = once) ∧
      (¬v.node.Settles t → ∃ pre post, code = pre ++ t ++ post ∧
        code' = pre ++ (Text.lead t ++ t ++ Text.trail t) ++ post) := by
  have hfound := findId_some hv
  have hget := (Source.keepsAttributes_parse hparse).get?_visit hfound.mem
  obtain ⟨m, new, hgives, hm, has, hborne⟩ := updateText_bears hparse hv ht
  obtain ⟨new', old, hreplace, hsame, hwide⟩ := hborne.again ht
  have helement : (m.withChildren new).kind.isElement = true := by rw [kind_withChildren, hm]
  have hget' : (tree.set v.path (m.withChildren new)).get? v.path = some (m.withChildren new) :=
    get?_set_child hget _
  have hv' := findId_set hv hget helement (by rw [attributes_withChildren, has])
  have hgives' : (updateText (tree.set v.path (m.withChildren new)) id t).Gives
      ((tree.set v.path (m.withChildren new)).set v.path ((m.withChildren new).withChildren new')) := by
    rw [updateText, hv']
    dsimp only
    rw [children_withChildren, hreplace]
    exact ⟨Reply.succeeds_succeeded .., modify_eq_set _ hget'⟩
  -- Both trees come from edits with texts, so they can be written.
  have hgenerate : (updateText tree id t).tree.generate true = .ok (updateText tree id t).tree.write :=
    Command.generate_run (c := .updateText id t) hparse trivial
  have htwice : (Command.runAll tree [.updateText id t, .updateText id t]).Flawless :=
    Command.flawless_runAll hparse (by simp [Command.IsTextual])
  have hgenerate' : (updateText (updateText tree id t).tree id t).tree.generate true =
      .ok (updateText (updateText tree id t).tree id t).tree.write := htwice.generate
  rw [hgives.2, hgives'.2] at hgenerate'
  rw [hgives.2] at hgenerate
  have hequal : v.node.Settles t → (tree.set v.path (m.withChildren new)).set v.path
      ((m.withChildren new).withChildren new') = tree.set v.path (m.withChildren new) := by
    intro hsettles
    rw [hsame hsettles]
    have hself : (m.withChildren new).withChildren new = m.withChildren new := by cases m; rfl
    rw [hself, set_set]
  have hwider : ¬v.node.Settles t → ∃ pre post, (tree.set v.path (m.withChildren new)).write = pre ++ t ++ post ∧
      ((tree.set v.path (m.withChildren new)).set v.path ((m.withChildren new).withChildren new')).write =
        pre ++ (Text.lead t ++ t ++ Text.trail t) ++ post := by
    intro hsettles
    obtain ⟨pre, post, hbefore, hafter⟩ := hwide (Bool.eq_false_iff.mpr fun hquotes => hsettles (.inl hquotes))
    obtain ⟨pre', post', hwrite, hwrite'⟩ := write_modifyChildren (isMarkup_of_isElement helement) hget' new'
    rw [children_withChildren] at hwrite
    refine ⟨pre' ++ pre, post ++ post', ?_, ?_⟩
    · rw [hwrite, hbefore]
      simp only [String.append_assoc]
    · rw [hwrite', hafter]
      simp only [String.append_assoc]
  refine ⟨_, _, _, _, hgives, hgives', hgenerate, hgenerate', ⟨fun hcode => ?_, fun hsettles => by rw [hequal hsettles]⟩,
    hequal, hwider⟩
  by_contra hsettles
  obtain ⟨pre, post, hcode₁, hcode₂⟩ := hwider hsettles
  rw [hcode₁, hcode₂] at hcode
  exact widened_ne ht (fun htrim => hsettles (.inr htrim)) pre post hcode

/-- A paragraph with a text between its tags. -/
def note : String := "<p data-editable=\"t\">Old</p>"

theorem note_widens : ∃ tree v once twice, Source.parse note = .ok tree ∧ tree.findId "t" = .ok (some v) ∧
    (updateText tree "t" " New ").Gives once ∧ (updateText once "t" " New ").Gives twice ∧
    ¬v.node.Settles " New " ∧ once.generate true = .ok "<p data-editable=\"t\"> New </p>" ∧
    twice.generate true = .ok "<p data-editable=\"t\">  New  </p>" := by
  obtain ⟨tree, v, hparse, hv, hrun⟩ : ∃ tree v, Source.parse note = .ok tree ∧ tree.findId "t" = .ok (some v) ∧
      decide (((updateText tree "t" " New ").tree.generate true).toOption =
          some "<p data-editable=\"t\"> New </p>" ∧
        ((updateText (updateText tree "t" " New ").tree "t" " New ").tree.generate true).toOption =
          some "<p data-editable=\"t\">  New  </p>") = true := exists_found (by decide +kernel)
  obtain ⟨once, twice, code, code', hgives, hgives', hcode, hcode', hsettles, -, -⟩ :=
    repeated_text (t := " New ") hparse hv (by decide)
  obtain ⟨hfirst, hsecond⟩ := of_decide_eq_true hrun
  rw [hgives.2, hgives'.2, hcode'] at hsecond
  rw [hgives.2, hcode] at hfirst
  obtain rfl : code = _ := Option.some.inj hfirst
  obtain rfl : code' = _ := Option.some.inj hsecond
  exact ⟨tree, v, once, twice, hparse, hv, hgives, hgives', fun h => absurd (hsettles.mpr h) (by decide), hcode, hcode'⟩

end Edit
end JsxEdit
