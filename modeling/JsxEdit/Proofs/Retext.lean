import JsxEdit.Proofs.DocumentOrder
import JsxEdit.Proofs.Embedded
import JsxEdit.Proofs.Restyle
import JsxEdit.Proofs.Transfer

/-
The text of an element, set and read back.

A text is set in place of the first child that holds one, or as a new last child. However it is written there, as a text
between tags, a string or a template literal, it is what the next change of the text finds and reports. A text between
tags is reported without the white space around it.
-/
set_option autoImplicit false

namespace JsxEdit

/-! ## Texts and literals -/

namespace Text

section

variable {b s e : String} (hb : isBlank b = true) (hs : isBlank s = false) (he : isBlank e = true)
include hb hs he

/-- A text that is not blank has the same core with white space around it. -/
theorem exists_core_around : ∃ b' core e', Solid core ∧ s = .ofList (b' ++ core ++ e') ∧
    b'.all isSpace = true ∧ e'.all isSpace = true ∧
    b ++ s ++ e = .ofList (b.toList ++ b' ++ core ++ (e' ++ e.toList)) ∧
    (b.toList ++ b').all isSpace = true ∧ (e' ++ e.toList).all isSpace = true := by
  obtain ⟨b', core, e', hs', hb', he', hcore⟩ := exists_core hs
  refine ⟨b', core, e', hcore, by rw [← hs', String.ofList_toList], hb', he', ?_, ?_, ?_⟩
  · rw [← String.toList_inj]
    simp [hs', String.toList_append]
  · rw [List.all_append, hb', Bool.and_true]
    exact hb
  · rw [List.all_append, he', Bool.true_and]
    exact he

/-- White space around a text that is not blank does not count. -/
theorem trim_around : trim (b ++ s ++ e) = trim s ∧ isBlank (b ++ s ++ e) = false := by
  constructor
  · obtain ⟨b', core, e', hcore, hinner, hb', he', houter, hbefore, hafter⟩ := exists_core_around hb hs he
    rw [houter, hinner, trim_of_solid hbefore hafter hcore, trim_of_solid hb' he' hcore]
  · have hsplit : isBlank (b ++ s ++ e) = (isBlank b && isBlank s && isBlank e) := by
      rw [isBlank, String.toList_append, String.toList_append, List.all_append, List.all_append]
      rfl
    rw [hsplit, hs, Bool.and_false, Bool.false_and]

/-- White space around a text comes on top of what it starts and ends with. -/
theorem edges_around : lead (b ++ s ++ e) = b ++ lead s ∧ trail (b ++ s ++ e) = trail s ++ e := by
  obtain ⟨b', core, e', hcore, hinner, hb', he', houter, hbefore, hafter⟩ := exists_core_around hb hs he
  rw [houter, hinner, lead_of_solid hbefore hcore, lead_of_solid hb' hcore, trail_of_solid hafter hcore,
    trail_of_solid he' hcore, String.ofList_append, String.ofList_append, String.ofList_toList, String.ofList_toList]
  exact ⟨rfl, rfl⟩

end

end Text

namespace Literal

/-- What stands for a character in a template literal, apart from the marks of substitutions. -/
def ticked (c : Char) : List Char :=
  if c = '\\' then ['\\', '\\'] else if c = '`' then ['\\', '`'] else [c]

theorem toList_rawTemplate (value : String) : (rawTemplate value).toList =
    Text.replaceFrom ['$', '\x7b'] ['\\', '$', '\x7b'] 0 (value.toList.flatMap ticked) := by
  have hslash : Text.replace value "\\" "\\\\" = .ofList (value.toList.flatMap (Text.substitute '\\' ['\\', '\\'])) :=
    Text.replace_singleton value '\\' "\\\\"
  have htick (s : String) : Text.replace s "`" "\\`" = .ofList (s.toList.flatMap (Text.substitute '`' ['\\', '`'])) :=
    Text.replace_singleton s '`' "\\`"
  have hboth : Text.replace (Text.replace value "\\" "\\\\") "`" "\\`" = .ofList (value.toList.flatMap ticked) := by
    rw [hslash, htick, String.toList_ofList, List.flatMap_assoc]
    refine congrArg (String.ofList <| value.toList.flatMap ·) (funext fun c => ?_)
    by_cases hc : c = '\\'
    · subst hc
      decide
    · rw [Text.substitute_of_ne hc, List.flatMap_singleton, Text.substitute, ticked, if_neg hc]
  have hne : "$\x7b".isEmpty = false := by decide
  have hold : "$\x7b".toList = ['$', '\x7b'] := rfl
  have hnew : "\\$\x7b".toList = ['\\', '$', '\x7b'] := rfl
  rw [rawTemplate, hboth, Text.replace, hne, if_neg Bool.false_ne_true, hold, hnew, String.toList_ofList,
    String.toList_ofList]

/-- What stands between the backticks of a template literal for a value stands for the value. -/
theorem unescape_marked (cs : List Char) :
    unescape (Text.replaceFrom ['$', '\x7b'] ['\\', '$', '\x7b'] 0 (cs.flatMap ticked)) = cs := by
  have hplain {c : Char} (hc : c ≠ '\\') (w : List Char) : unescape (c :: w) = c :: unescape w := by
    cases w with
    | nil => rfl
    | cons d w => simp [unescape, hc]
  induction cs with
  | nil => rfl
  | cons c cs ih =>
    rw [List.flatMap_cons]
    by_cases hslash : c = '\\'
    · subst hslash
      simp [ticked, Text.replaceFrom, unescape, escaped, ih]
    by_cases htick : c = '`'
    · subst htick
      simp [ticked, Text.replaceFrom, unescape, escaped, ih]
    have hsingle : ticked c = [c] := by simp [ticked, hslash, htick]
    rw [hsingle, List.singleton_append]
    by_cases hmark : ['$', '\x7b'].isPrefixOf (c :: cs.flatMap ticked) = true
    · -- the mark of a substitution, of which the brace stays as it is
      obtain ⟨rest, hrest⟩ := List.isPrefixOf_iff_prefix.mp hmark
      obtain ⟨rfl, htail⟩ := List.cons.inj hrest
      have hcs : cs.flatMap ticked = '\x7b' :: rest := htail.symm
      have hbrace : Text.replaceFrom ['$', '\x7b'] ['\\', '$', '\x7b'] 0 ('\x7b' :: rest) =
          '\x7b' :: Text.replaceFrom ['$', '\x7b'] ['\\', '$', '\x7b'] 0 rest := rfl
      have hdollar : Text.replaceFrom ['$', '\x7b'] ['\\', '$', '\x7b'] 0 ('$' :: '\x7b' :: rest) =
          '\\' :: '$' :: '\x7b' :: Text.replaceFrom ['$', '\x7b'] ['\\', '$', '\x7b'] 0 rest := rfl
      rw [hcs, hbrace] at ih
      rw [hcs, hdollar]
      exact congrArg ('$' :: ·) ih
    · rw [Text.replaceFrom, if_neg hmark, hplain hslash, ih]

theorem unescapeText_rawTemplate (value : String) : unescapeText (rawTemplate value) = value := by
  rw [unescapeText, toList_rawTemplate, unescape_marked, String.ofList_toList]

end Literal

/-! ## Nodes that hold a text -/

/-- An expression that a text is set in, or in place of. -/
def Kind.isWording : Kind → Bool
  | .identifier _ | .member _ | .string .. | .attributeString .. | .template _ => true
  | _ => false

/-- A literal that stands for a text. -/
def Kind.isTextLiteral : Kind → Bool
  | .string .. | .template _ => true
  | _ => false

namespace Node

/-- Whether the node is a slot with an expression of this sort. -/
def isSlotOf (p : Kind → Bool) (n : Node) : Bool :=
  match n.kind with
  | .slot .. => n.children.head?.any fun e => p e.kind
  | _ => false

/-- Whether the node holds a text: it is one, or it is a slot with an expression for one. -/
def holdsText (n : Node) : Bool :=
  match n.kind with
  | .text s => !Text.isBlank s
  | _ => n.isSlotOf Kind.isWording

theorem holdsText_of_isWhitespace {n : Node} (h : n.isWhitespace = true) : n.holdsText = false := by
  rw [isWhitespace] at h
  unfold holdsText
  split
  · next s hk =>
    rw [hk] at h
    exact congrArg not h
  · next hk => cases hkind : n.kind <;> rw [hkind] at h <;> first | cases h | exact absurd hkind (hk _)

theorem isSlotOf_eq_true {p : Kind → Bool} {n : Node} (h : n.isSlotOf p = true) :
    ∃ lead trail e rest, n.kind = .slot lead trail ∧ n.children = e :: rest ∧ p e.kind = true := by
  unfold isSlotOf at h
  split at h
  · next lead trail hk =>
    cases hc : n.children with
    | nil =>
      rw [hc] at h
      cases h
    | cons e rest =>
      rw [hc] at h
      exact ⟨lead, trail, e, rest, hk, rfl, h⟩
  · cases h

theorem isSlotOf_of_kind {p : Kind → Bool} {n e : Node} {lead trail : String} {rest : List Node}
    (hk : n.kind = .slot lead trail) (hc : n.children = e :: rest) : n.isSlotOf p = p e.kind := by
  rw [isSlotOf, hk, hc]
  rfl

/-- The expressions of a document in which a text can be set. -/
inductive IsWording : Node → Prop where
  | identifier (name : String) : IsWording (.new (.identifier name) [])
  | member (path : String) : IsWording (.new (.member path) [])
  | string (raw : String) {q : Char} (quote : Text.IsQuote q) : IsWording (.new (.string raw (.ofList [q])) [])
  | template (raw : String) : IsWording (.new (.template raw) [])

theorem quote_of_string {text : String} (h : (Expression.startsWithDouble text.toList ||
    Expression.isSingle text.toList) = true) : ∃ q, Text.IsQuote q ∧ Text.first text = .ofList [q] := by
  rcases Bool.or_eq_true_iff.mp h with hdouble | hsingle
  · obtain ⟨mid, d, htext⟩ := Expression.startsWithDouble_spec hdouble
    exact ⟨'"', .inl rfl, (Text.first_append_inner htext).1⟩
  · obtain ⟨mid, htext⟩ := Expression.isSingle_spec hsingle
    exact ⟨'\'', .inr rfl, (Text.first_append_inner htext).1⟩

theorem isWording_of_kind? {text : String} {k : Kind} (h : Expression.kind? text = some k) (hk : k.isWording = true) :
    IsWording (.new k []) := by
  unfold Expression.kind? at h
  dsimp only at h
  repeat' split at h
  all_goals cases h
  all_goals first | exact Bool.noConfusion hk | skip
  · exact .identifier text
  · exact .member text
  · next hstring =>
    obtain ⟨q, hq, hfirst⟩ := quote_of_string hstring
    rw [hfirst]
    exact .string _ hq
  · exact .template _

theorem IsExpression.isWording {e : Node} (h : e.IsExpression) (hk : e.kind.isWording = true) : IsWording e := by
  rcases h with hscript | ⟨trailing, hobject⟩ | ⟨text, htext⟩
  · rw [hscript] at hk
    cases hk
  · rw [hobject] at hk
    cases hk
  · rw [Expression.ofText_eq, Expression.plain] at htext
    cases hkind : Expression.kind? (Text.trim text) with
    | none =>
      rw [hkind] at htext
      rw [htext] at hk
      cases hk
    | some k =>
      rw [hkind] at htext
      rw [htext] at hk ⊢
      exact isWording_of_kind? hkind hk

end Node

namespace Edit
open Node

/-! ## A text read from a node -/

/-- The text that is reported for a text that was set: without white space around it, unless it stands in a literal. -/
def readBack (literal : Bool) (t : String) : String :=
  if literal || t.toList.any Build.isMarkupChar then t else Text.trim t

/-- A node that is no white space, and whose text is reported when another one is set. -/
structure Says (n : Node) (old : String) : Prop where
  solid : n.isWhitespace = false
  reports : ∀ s, ∃ new, replaceText s n = .ok (some (new, old))

theorem replaceText_none {n : Node} (h : n.holdsText = false) (s : String) : replaceText s n = .ok none := by
  unfold holdsText at h
  unfold replaceText
  split at h
  · next old hk =>
    rw [hk]
    exact if_pos (by simpa using h)
  · next hk =>
    unfold isSlotOf at h
    split at h
    · next hslot =>
      rw [hslot]
      dsimp only
      cases hc : n.children with
      | nil => rfl
      | cons e rest =>
        rw [hc] at h
        have hkind : e.kind.isWording = false := h
        dsimp only
        cases hek : e.kind <;> first | rfl | (rw [hek] at hkind; cases hkind)
    · next hslot => cases hkind : n.kind <;> first | rfl | exact absurd hkind (hk _) | exact absurd hkind (hslot _ _)

theorem Says.holdsText {n : Node} {old : String} (h : Says n old) : n.holdsText = true := by
  rw [← Bool.not_eq_false]
  intro hnone
  obtain ⟨new, hnew⟩ := h.reports ""
  rw [replaceText_none hnone] at hnew
  cases hnew

section

variable {n e : Node} {lead trail : String} {rest : List Node} (s : String)

theorem replaceText_text {old : String} (hk : n.kind = .text old) (hold : Text.isBlank old = false) :
    replaceText s n = .ok (some (textNodes s (Text.lead old) (Text.trail old), Text.trim old)) := by
  rw [replaceText, hk]
  exact if_neg (by rw [hold]; exact Bool.false_ne_true)

theorem replaceText_string {raw quote : String} (hk : n.kind = .slot lead trail) (hc : n.children = e :: rest)
    (he : e.kind = .string raw quote) : replaceText s n =
      .ok (some ([n.withChildren (e.withKind (.string (Literal.rawString s quote) quote) :: rest)],
        Literal.unescapeText raw)) := by
  rw [replaceText, hk, hc]
  dsimp only
  rw [he]

theorem replaceText_template {raw : String} (hk : n.kind = .slot lead trail) (hc : n.children = e :: rest)
    (he : e.kind = .template raw) : replaceText s n =
      .ok (some ([n.withChildren (e.withKind (.template (Literal.rawTemplate s)) :: rest)],
        Literal.unescapeText raw)) := by
  rw [replaceText, hk, hc]
  dsimp only
  rw [he]

theorem solid_of_slot (hk : n.kind = .slot lead trail) : n.isWhitespace = false := by rw [isWhitespace, hk]; rfl

end

theorem says_text {n : Node} {s : String} (hk : n.kind = .text s) (hs : Text.isBlank s = false) :
    Says n (Text.trim s) :=
  ⟨by rw [isWhitespace, hk]; exact hs, fun s' => ⟨_, replaceText_text s' hk hs⟩⟩

section

variable {n e : Node} {lead trail : String} {rest : List Node} (hk : n.kind = .slot lead trail)
  (hc : n.children = e :: rest)
include hk hc

theorem says_string {q : Char} (hq : Text.IsQuote q) {t : String}
    (he : e.kind = .string (Literal.rawString t (.ofList [q])) (.ofList [q])) : Says n t := by
  refine ⟨solid_of_slot hk, fun s => ?_⟩
  have hreports := replaceText_string s hk hc he
  rw [Literal.unescapeText_rawString hq] at hreports
  exact ⟨_, hreports⟩

theorem says_template {t : String} (he : e.kind = .template (Literal.rawTemplate t)) : Says n t := by
  refine ⟨solid_of_slot hk, fun s => ?_⟩
  have hreports := replaceText_template s hk hc he
  rw [Literal.unescapeText_rawTemplate] at hreports
  exact ⟨_, hreports⟩

end

/-! ## A text written in place of a node -/

section

variable {t : String} (ht : Text.isBlank t = false)
include ht

theorem says_build : Says (Build.text t) (readBack false t) := by
  rw [Build.text, readBack, Bool.false_or]
  split
  · exact says_string rfl rfl (.inr rfl) rfl
  · exact says_text rfl ht

/-- The nodes for a text are one that says it, and white space. -/
theorem textNodes_says {lead trail : String} (hlead : Text.isBlank lead = true) (htrail : Text.isBlank trail = true) :
    ∃ n, solids (textNodes t lead trail) = [n] ∧ Says n (readBack false t) := by
  have hbuild := says_build ht
  unfold textNodes
  dsimp only
  split
  · next htext =>
    obtain ⟨htrim, hblank⟩ := Text.trim_around hlead ht htrail
    have hplain : t.toList.any Build.isMarkupChar = false := by
      rw [← Bool.not_eq_true]
      intro hmarkup
      rw [Build.text, if_pos hmarkup] at htext
      cases htext
    have hsays : Says (.text (lead ++ t ++ trail)) (readBack false t) := by
      rw [readBack, hplain, Bool.or_self, if_neg Bool.false_ne_true, ← htrim]
      exact says_text rfl hblank
    exact ⟨_, solids_cons_solid hsays.solid [], hsays⟩
  · have hgap : ∀ s, Text.isBlank s = true → solids (if s.isEmpty then [] else [.text s]) = [] := by
      intro s hs
      split
      · rfl
      · exact solids_cons_blank (isWhitespace_text.trans hs) []
    refine ⟨Build.text t, ?_, hbuild⟩
    rw [solids_append, solids_cons_solid hbuild.solid, hgap lead hlead, hgap trail htrail, List.nil_append]

/-- A node that holds a text gives its place to one that says the new one, perhaps with white space around it. -/
theorem replaceText_says {c : Node} (hc : c.holdsText = true) (hexpr : c.HoldsExpression) :
    ∃ new old n, replaceText t c = .ok (some (new, old)) ∧ solids new = [n] ∧
      Says n (readBack (c.isSlotOf Kind.isTextLiteral) t) := by
  unfold holdsText at hc
  split at hc
  · next s hk =>
    obtain ⟨n, hn, hsays⟩ := textNodes_says ht (Text.isBlank_lead s) (Text.isBlank_trail s)
    have hliteral : c.isSlotOf Kind.isTextLiteral = false := by rw [isSlotOf, hk]
    exact ⟨_, _, n, replaceText_text t hk (by simpa using hc), hn, by rw [hliteral]; exact hsays⟩
  · obtain ⟨lead, trail, e, rest, hk, hchildren, hwording⟩ := isSlotOf_eq_true hc
    have he : e.IsExpression := hexpr lead trail hk e (hchildren ▸ List.mem_cons_self)
    have hslot : ∀ cs, (c.withChildren cs).kind = .slot lead trail := fun cs => by rw [kind_withChildren, hk]
    rw [isSlotOf_of_kind hk hchildren]
    obtain ⟨n, hn, hsays⟩ : ∃ n, solids (textNodes t "" "") = [n] ∧ Says n (readBack false t) :=
      textNodes_says ht rfl rfl
    cases he.isWording hwording with
    | identifier name => exact ⟨_, _, n, by rw [replaceText, hk, hchildren]; rfl, hn, hsays⟩
    | member path => exact ⟨_, _, n, by rw [replaceText, hk, hchildren]; rfl, hn, hsays⟩
    | string raw hq =>
      exact ⟨_, _, _, replaceText_string t hk hchildren rfl, solids_cons_solid (solid_of_slot (hslot _)) [],
        says_string (hslot _) (children_withChildren ..) hq rfl⟩
    | template raw =>
      exact ⟨_, _, _, replaceText_template t hk hchildren rfl, solids_cons_solid (solid_of_slot (hslot _)) [],
        says_template (hslot _) (children_withChildren ..) rfl⟩

end

/-! ## The first text among the children -/

section

variable {ns left right : List Node} {c : Node} (hleft : ∀ x ∈ left, x.holdsText = false)

theorem replaceFirstText_none (h : ∀ x ∈ ns, x.holdsText = false) (s : String) : replaceFirstText s ns = .ok none := by
  induction ns with
  | nil => rfl
  | cons n ns ih =>
    rw [List.forall_mem_cons] at h
    rw [replaceFirstText, replaceText_none h.1, ih h.2]
    rfl

include hleft

theorem replaceFirstText_split {s old : String} {new : List Node} (hc : replaceText s c = .ok (some (new, old))) :
    replaceFirstText s (left ++ c :: right) = .ok (some (left ++ new ++ right, old)) := by
  induction left with
  | nil =>
    rw [List.nil_append, replaceFirstText, hc]
    rfl
  | cons n left ih =>
    rw [List.forall_mem_cons] at hleft
    rw [List.cons_append, replaceFirstText, replaceText_none hleft.1, ih hleft.2]
    rfl

/-- White space among the children does not matter for the text that is reported. -/
theorem reports_of_solids {old : String} (h : solids ns = left ++ c :: right) (hc : Says c old) (s : String) :
    ∃ new, replaceFirstText s ns = .ok (some (new, old)) := by
  obtain ⟨front, back, rfl, hfront, hback⟩ := List.filter_eq_append_iff.mp h
  obtain ⟨gap, after, rfl, hgap, -, -⟩ := List.filter_eq_cons_iff.mp hback
  obtain ⟨new, hnew⟩ := hc.reports s
  have hnone : ∀ x ∈ front ++ gap, x.holdsText = false := by
    intro x hx
    cases hw : x.isWhitespace with
    | true => exact holdsText_of_isWhitespace hw
    | false =>
      rcases List.mem_append.mp hx with hx | hx
      · exact hleft x (hfront ▸ List.mem_filter.mpr ⟨hx, by rw [hw]; rfl⟩)
      · exact absurd (by rw [hw]; rfl) (hgap x hx)
  refine ⟨front ++ gap ++ new ++ after, ?_⟩
  rw [← List.append_assoc]
  exact replaceFirstText_split hnone hnew

end

theorem exists_holder (ns : List Node) : (∀ x ∈ ns, x.holdsText = false) ∨
    ∃ left c right, ns = left ++ c :: right ∧ c.holdsText = true ∧ ∀ x ∈ left, x.holdsText = false := by
  cases h : ns.find? (·.holdsText) with
  | none => exact .inl fun x hx => by simpa using List.find?_eq_none.mp h x hx
  | some c =>
    obtain ⟨hc, left, right, hsplit, hleft⟩ := List.find?_eq_some_iff_append.mp h
    exact .inr ⟨left, c, right, hsplit, hc, fun x hx => by simpa using hleft x hx⟩

/-! ## The text of an element -/

/-- The first child that holds a text gives its place to another one that holds a text, perhaps with white space around
it. The other children stay. -/
def Rewords (children new : List Node) (literal : Bool) : Prop :=
  ∃ left c right cs n, children = left ++ c :: right ∧ new = left ++ cs ++ right ∧ c.holdsText = true ∧
    (∀ x ∈ left, x.holdsText = false) ∧ literal = c.isSlotOf Kind.isTextLiteral ∧ solids cs = [n] ∧ n.holdsText = true

/-- No child holds a text, and a new one comes last. Among the others, only white space changes. -/
def Adds (t : String) (children new : List Node) : Prop :=
  (∀ x ∈ children, x.holdsText = false) ∧ solids new = solids children ++ [Build.text t]

/-- With these children, the next change of the text reports the old one. -/
def Reports (children : List Node) (old : String) : Prop :=
  ∀ s, ∃ new, replaceFirstText s children = .ok (some (new, old))

section

variable {t : String} (ht : Text.isBlank t = false)
include ht

/-- A child that holds a text is replaced. -/
theorem rewords_of_holder {left : List Node} {c : Node} (right : List Node) (hleft : ∀ x ∈ left, x.holdsText = false)
    (hc : c.holdsText = true) (hexpr : c.HoldsExpression) : ∃ new old literal,
      replaceFirstText t (left ++ c :: right) = .ok (some (new, old)) ∧ Rewords (left ++ c :: right) new literal ∧
        Reports new (readBack literal t) := by
  obtain ⟨cs, old, n, hreplace, hcs, hsays⟩ := replaceText_says ht hc hexpr
  have hsolids : solids (left ++ cs ++ right) = solids left ++ n :: solids right := by
    rw [solids_append, solids_append, hcs, List.append_assoc]
    rfl
  have hnone : ∀ x ∈ solids left, x.holdsText = false := fun x hx => hleft x (List.mem_filter.mp hx).1
  exact ⟨_, old, _, replaceFirstText_split hleft hreplace,
    ⟨left, c, right, cs, n, rfl, rfl, hc, hleft, rfl, hcs, hsays.holdsText⟩, reports_of_solids hnone hsolids hsays⟩

/-- In a tree of nodes, a text is added to an element. -/
theorem addText_adds {tree : Node} {v : Visit} (htree : tree.hasForeign = false)
    (hget : tree.get? v.path = some v.node) (hnone : ∀ x ∈ v.node.children, x.holdsText = false) : ∃ new,
      addText tree v t = .ok (tree.set v.path (v.node.opened.withChildren new)) ∧ Adds t v.node.children new ∧
        Reports new (readBack false t) := by
  have hsays := says_build ht
  have hadopt : ∀ cs, adopt tree v.path cs = tree.set v.path (v.node.opened.withChildren cs) := fun cs => by
    rw [adopt, modify_eq_set _ hget]
  have hresult : ∃ new, addText tree v t = .ok (adopt tree v.path new) ∧
      solids new = solids v.node.children ++ [Build.text t] := by
    unfold addText
    dsimp only
    split
    · have hspace := Indent.isBlank_childSpace Indent.defaultWidth tree (some v.path) v.node
      have hclosing : Text.isBlank (Indent.closingSpace tree (some v.path)) = true :=
        Text.isBlank_append rfl (Indent.isBlank_indentation _ _)
      obtain ⟨-, left, right, before, after, hsplit, hright, hblank, hc⟩ :=
        appended_spec hsays.solid hspace hclosing v.node.children
      rw [reachChild_of_nodes htree]
      refine ⟨_, rfl, ?_⟩
      rw [appendChild, hc, solids_around hsays.solid hblank, hright, hsplit, solids_append, hright, List.append_nil]
    · exact ⟨_, rfl, by rw [solids_append, solids_cons_solid hsays.solid, solids_nil]⟩
  obtain ⟨new, hnew, hsolids⟩ := hresult
  refine ⟨new, by rw [hnew, hadopt], ⟨hnone, hsolids⟩, ?_⟩
  exact reports_of_solids (fun x hx => hnone x (List.mem_filter.mp hx).1) hsolids hsays

end

/-- The text of an element with these children is set, and the old one is reported. -/
theorem updateText_of_reports {tree : Node} {id old : String} {v : Visit} (hv : tree.findId id = .ok (some v))
    (hold : Reports v.node.children old) (s : String) :
    (updateText tree id s).result = .ok ⟨none, "Text updated for \"" ++ id ++ "\"", [("old_text", .str old)]⟩ := by
  obtain ⟨new, hnew⟩ := hold s
  rw [updateText, hv]
  dsimp only
  rw [hnew]
  rfl

/-- In a document that was read, the text of any element that is found can be set to one that is not blank, and the next
change of the text reports it: without white space around it, unless it had characters of markup or took the place of
what a string or template literal stood for. The text is set in place of the first child that holds one, and else comes
last in the element, which is opened. Nothing else changes, but for white space between the children in the second case.
-/
theorem text_reads_back {text : String} {tree : Node} {id : String} {v : Visit} {t : String}
    (hparse : Source.parse text = .ok tree) (hv : tree.findId id = .ok (some v)) (ht : Text.isBlank t = false)
    (u : String) : ∃ tree' new literal, (updateText tree id t).Gives tree' ∧ tree.get? v.path = some v.node ∧
      (Rewords v.node.children new literal ∧ tree' = tree.set v.path (v.node.withChildren new) ∨
        Adds t v.node.children new ∧ literal = false ∧ tree' = tree.set v.path (v.node.opened.withChildren new)) ∧
      (updateText tree' id u).result = .ok ⟨none, "Text updated for \"" ++ id ++ "\"",
        [("old_text", .str (readBack literal t))]⟩ := by
  have hfound := findId_some hv
  have hget := (Source.keepsAttributes_parse hparse).get?_visit hfound.mem
  have hexpr := Source.holdsExpression_parse hparse (node_mem_under hfound.mem) hfound.markup
  have hback : ∀ {n : Node} {new old}, n.kind.isElement = true → n.attributes = v.node.attributes → Reports new old →
      (updateText (tree.set v.path (n.withChildren new)) id u).result =
        .ok ⟨none, "Text updated for \"" ++ id ++ "\"", [("old_text", .str old)]⟩ := by
    intro n new old hn has hreports
    refine updateText_of_reports (findId_set hv hget (by rw [kind_withChildren]; exact hn)
      (by rw [attributes_withChildren, has])) ?_ u
    dsimp only
    rw [children_withChildren]
    exact hreports
  rcases exists_holder v.node.children with hnone | ⟨left, c, right, hsplit, hc, hleft⟩
  · have hnodes := hasForeign_of_nodes tree (foreign_of_mem_under tree (Source.flawless_parse hparse))
    obtain ⟨new, hadd, hadds, hreports⟩ := addText_adds ht hnodes hget hnone
    refine ⟨_, new, false, ?_, hget, .inr ⟨hadds, rfl, rfl⟩,
      hback (isElement_opened.trans hfound.element) (attributes_opened _) hreports⟩
    rw [updateText, hv]
    dsimp only
    rw [replaceFirstText_none hnone, hadd]
    exact ⟨Reply.succeeds_succeeded .., rfl⟩
  · obtain ⟨new, old, literal, hreplace, hrewords, hreports⟩ :=
      rewords_of_holder ht right hleft hc (hexpr c (by rw [hsplit]; simp))
    rw [← hsplit] at hreplace hrewords
    refine ⟨_, new, literal, ?_, hget, .inl ⟨hrewords, rfl⟩, hback hfound.element rfl hreports⟩
    rw [updateText, hv]
    dsimp only
    rw [hreplace]
    exact ⟨Reply.succeeds_succeeded .., modify_eq_set _ hget⟩

/-- A document with an element that is found, for which a test succeeds. -/
theorem exists_found {text id : String} {test : Node → Visit → Bool}
    (h : ((Source.parse text).toOption.any fun tree => (tree.findId id).toOption.join.any (test tree)) = true) :
    ∃ tree v, Source.parse text = .ok tree ∧ tree.findId id = .ok (some v) ∧ test tree v = true := by
  cases hparse : Source.parse text with
  | error f =>
    rw [hparse] at h
    cases h
  | ok tree =>
    rw [hparse] at h
    replace h : (tree.findId id).toOption.join.any (test tree) = true := h
    cases hfind : tree.findId id with
    | error f =>
      rw [hfind] at h
      cases h
    | ok found =>
      rw [hfind] at h
      cases found with
      | none => cases h
      | some v => exact ⟨tree, v, rfl, hfind, h⟩

/-- An element with a template literal behind another element. -/
def greeting : String := "<p data-editable=\"p\">\n  <b/>\x7b`Hi`\x7d\n</p>"

theorem greeting_read_back : ∃ tree tree', Source.parse greeting = .ok tree ∧
    (updateText tree "p" "a `$\x7bb\x7d`").Gives tree' ∧
    (updateText tree' "p" "Bye").result =
      .ok ⟨none, "Text updated for \"p\"", [("old_text", .str "a `$\x7bb\x7d`")]⟩ := by
  obtain ⟨tree, v, hparse, hfound, -⟩ := @exists_found greeting "p" (fun _ _ => true) (by decide +kernel)
  obtain ⟨tree', new, literal, hgives, -, -, hback⟩ :=
    text_reads_back (t := "a `$\x7bb\x7d`") hparse hfound (by decide) "Bye"
  have hmarkup : readBack literal "a `$\x7bb\x7d`" = "a `$\x7bb\x7d`" := by cases literal <;> rfl
  rw [hmarkup] at hback
  exact ⟨tree, tree', hparse, hgives, hback⟩

end Edit
end JsxEdit
