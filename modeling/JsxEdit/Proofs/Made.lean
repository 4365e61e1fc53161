import JsxEdit.Build
import JsxEdit.Proofs.ReadBack
import JsxEdit.Proofs.Reference

/-
Elements made from values are plain markup whose references can be read, so they come back unchanged.

Texts are escaped on the way: one with characters of markup becomes a string in braces, and one as an attribute value
is put between quotes that it does not contain.
-/
set_option autoImplicit false

namespace JsxEdit

/-! ## Escaped texts -/

namespace Literal
open Text

/-- How a character is written in a string between the quotes. -/
def escapedChar (q c : Char) : List Char :=
  if c = '\\' then ['\\', '\\'] else if c = q then ['\\', q] else if c = '\n' then ['\\', 'n'] else [c]

theorem toList_rawString {q : Char} (hq : IsQuote q) (value : String) :
    (rawString value (.ofList [q])).toList = value.toList.flatMap (escapedChar q) := by
  have hslash : replace value "\\" "\\\\" = .ofList (value.toList.flatMap (substitute '\\' ['\\', '\\'])) :=
    replace_singleton value '\\' "\\\\"
  have hquote (s : String) :
      replace s (.ofList [q]) ("\\" ++ .ofList [q]) = .ofList (s.toList.flatMap (substitute q ['\\', q])) := by
    rw [replace_singleton, String.toList_append, String.toList_ofList (l := [q])]
    rfl
  have hfeed (s : String) : replace s "\n" "\\n" = .ofList (s.toList.flatMap (substitute '\n' ['\\', 'n'])) :=
    replace_singleton s '\n' "\\n"
  rw [rawString, hslash, hquote, hfeed]
  simp only [String.toList_ofList, List.flatMap_assoc]
  -- the three replacements do not touch what the others put in
  refine congrArg (value.toList.flatMap ·) (funext fun c => ?_)
  by_cases hc : c = '\\'
  · subst hc
    rcases hq with rfl | rfl <;> decide
  by_cases hc' : c = q
  · subst hc'
    rcases hq with rfl | rfl <;> decide
  by_cases hc'' : c = '\n'
  · subst hc''
    rcases hq with rfl | rfl <;> decide
  simp [substitute, escapedChar, hc, hc', hc'']

/-- Characters that need no escape leave the length of the rest to itself. -/
theorem quotedLength?_cons {q c : Char} {w : List Char} {n : Nat} (hslash : c ≠ '\\') (hquote : c ≠ q) (hfeed : c ≠ '\n')
    (h : Expression.quotedLength? false q w = some n) : Expression.quotedLength? false q (c :: w) = some (n + 1) := by
  cases w with
  | nil => cases h
  | cons d w => simp [Expression.quotedLength?, hslash, hquote, hfeed, h]

/-- The raw text for a value is the text between the quotes of one string. -/
theorem isBody_rawString {q : Char} (hq : IsQuote q) (value : String) : IsBody q (rawString value (.ofList [q])) := by
  have hslash : q ≠ '\\' := by rcases hq with rfl | rfl <;> decide
  have hfeed : q ≠ '\n' := by rcases hq with rfl | rfl <;> decide
  have hchars (cs : List Char) : Expression.quotedLength? false q (cs.flatMap (escapedChar q) ++ [q]) =
      some ((cs.flatMap (escapedChar q)).length + 1) := by
    induction cs with
    | nil => simp [Expression.quotedLength?]
    | cons c cs ih =>
      rw [List.flatMap_cons, List.append_assoc]
      by_cases hc : c = '\\'
      · subst hc
        simp [escapedChar, Expression.quotedLength?, hslash.symm, ih]
      by_cases hc' : c = q
      · subst hc'
        simp [escapedChar, Expression.quotedLength?, hslash, hslash.symm, hfeed, ih]
      by_cases hc'' : c = '\n'
      · subst hc''
        simp [escapedChar, Expression.quotedLength?, hfeed.symm, hslash.symm, ih]
      have hplain : escapedChar q c = [c] := by simp [escapedChar, hc, hc', hc'']
      rw [hplain, List.singleton_append, quotedLength?_cons hc hc' hc'' ih]
      simp [Nat.add_comm]
  rw [IsBody, toList_rawString hq]
  exact hchars _

/-- An attribute string stands between quotes that it does not contain. -/
theorem quotedAttribute_spec {q : Char} (hq : IsQuote q) (value : String) : ∃ q', IsQuote q' ∧
    (quotedAttribute value (.ofList [q])).2 = .ofList [q'] ∧ q' ∉ (quotedAttribute value (.ofList [q])).1.toList := by
  obtain ⟨other, hother, hname⟩ : ∃ other, IsQuote other ∧
      (if (String.ofList [q] == "\"") = true then "'" else "\"") = String.ofList [other] := by
    rcases hq with rfl | rfl
    · exact ⟨'\'', .inr rfl, rfl⟩
    · exact ⟨'"', .inl rfl, rfl⟩
  unfold quotedAttribute
  rw [contains_singleton value q]
  split
  · dsimp only
    rw [hname, contains_singleton value other]
    split
    · refine ⟨'"', .inl rfl, rfl, ?_⟩
      show '"' ∉ (replace value (.ofList ['"']) "&quot;").toList
      rw [replace_singleton, String.toList_ofList, List.mem_flatMap]
      rintro ⟨c, -, hc⟩
      by_cases hq : c = '"'
      · rw [hq, substitute_self] at hc
        revert hc
        decide
      · rw [substitute_of_ne hq, List.mem_singleton] at hc
        exact hq hc.symm
    · next hnot => exact ⟨other, hother, rfl, by simpa using hnot⟩
  · next hnot => exact ⟨q, hq, rfl, by simpa using hnot⟩

theorem attributeText_eq {value quote : String} {found : String × String} (h : attributeText value quote = .ok found) :
    ∃ v, quotedAttribute v quote = found := by
  unfold attributeText at h
  cases hv : references value with
  | error f =>
    rw [hv] at h
    cases h
  | ok read =>
    rw [hv] at h
    exact ⟨_, Except.ok.inj h⟩

/-- The attribute string for a value is a text between quotes that it does not contain, and stands for the value. -/
theorem attributeString_spec {q : Char} (hq : IsQuote q) {value : String} {k : Kind}
    (h : attributeString value (.ofList [q]) = .ok k) : ∃ raw q', k = .attributeString raw (.ofList [q']) ∧
      IsQuote q' ∧ q' ∉ raw.toList ∧ references raw = .ok value := by
  unfold attributeString at h
  cases htext : attributeText value (.ofList [q]) with
  | error f =>
    rw [htext] at h
    cases h
  | ok found =>
    obtain ⟨raw, quote⟩ := found
    obtain ⟨v, hv⟩ := attributeText_eq htext
    obtain ⟨q', hq', hquote, hraw⟩ := quotedAttribute_spec hq v
    rw [hv] at hquote hraw
    obtain rfl : quote = .ofList [q'] := hquote
    have hreferences := references_attributeText htext
    rw [htext] at h
    exact ⟨raw, q', (Except.ok.inj h).symm, hq', hraw, hreferences⟩

/-- The attribute string for a value is plain, and can be read. -/
theorem attributeString_plain {value : String} {k : Kind} (h : attributeString value "\"" = .ok k) :
    PlainValue (.new k []) ∧ (Node.new k []).isReadable = true := by
  obtain ⟨raw, q, rfl, hq, hraw, hreferences⟩ := attributeString_spec (q := '"') (.inl rfl) h
  refine ⟨.string hq hraw, ?_⟩
  have hread : (decodeReferences? raw).isSome = true := by
    unfold references at hreferences
    cases hdecode : decodeReferences? raw with
    | none =>
      rw [hdecode] at hreferences
      cases hreferences
    | some s => rfl
  simp [Node.new, Node.isReadable, Kind.isReadable, Node.allReadable, hread]

end Literal

/-! ## Elements from values -/

namespace Build

/-- Values that attributes are made of: texts, whole numbers, and whether the attribute is there at all. -/
def IsSimple : Value Node → Prop
  | .null | .bool _ | .int _ | .str _ => True
  | _ => False

theorem attributeValue_plain {v : Value Node} {value : Option Node} (hv : IsSimple v) (habsent : isAbsent v = false)
    (h : attributeValue v = .ok value) : (∀ n ∈ value, PlainValue n) ∧ Node.allReadable value.toList = true := by
  cases v with
  | null => cases habsent
  | float d => cases hv
  | list items => cases hv
  | dict entries => cases hv
  | node n => cases hv
  | bool b =>
    cases b with
    | false => cases habsent
    | true =>
      obtain rfl := Except.ok.inj h
      exact ⟨fun n hn => (nomatch hn), rfl⟩
  | int n =>
    obtain ⟨text, htext, rfl⟩ := slot_number_eq_ok h
    obtain ⟨-, rfl⟩ := Literal.numberText_int_eq_ok htext
    refine ⟨fun m hm => ?_, rfl⟩
    obtain rfl := Option.mem_some.mp hm
    exact .number rfl rfl
  | str s =>
    rw [attributeValue] at h
    cases hk : Literal.attributeString s "\"" with
    | error f =>
      rw [hk] at h
      cases h
    | ok k =>
      rw [hk] at h
      obtain rfl := Except.ok.inj h
      obtain ⟨hplain, hread⟩ := Literal.attributeString_plain hk
      refine ⟨fun m hm => ?_, by simp [Node.allReadable, hread]⟩
      obtain rfl := Option.mem_some.mp hm
      exact hplain

theorem attributes_plain {attrs : Dict (Value Node)} {as : List Node} (hnames : ∀ e ∈ attrs, Text.IsFullName .attr e.1)
    (hvalues : ∀ e ∈ attrs, IsSimple e.2) (h : attributes attrs = .ok as) :
    (∀ a ∈ as, PlainAttribute a) ∧ Node.allReadable as = true := by
  induction attrs generalizing as with
  | nil =>
    obtain rfl := Except.ok.inj h
    exact ⟨fun a ha => (nomatch ha), rfl⟩
  | cons e attrs ih =>
    obtain ⟨name, v⟩ := e
    rw [List.forall_mem_cons] at hnames hvalues
    rw [attributes] at h
    cases habsent : isAbsent v with
    | true =>
      rw [if_pos habsent] at h
      exact ih hnames.2 hvalues.2 h
    | false =>
      rw [if_neg (by simp [habsent])] at h
      cases hvalue : attributeValue v with
      | error f =>
        rw [hvalue] at h
        cases h
      | ok value =>
        cases hrest : attributes attrs with
        | error f =>
          rw [hvalue, hrest] at h
          cases h
        | ok rest =>
          rw [hvalue, hrest] at h
          obtain rfl := Except.ok.inj h
          obtain ⟨hplain, hread⟩ := attributeValue_plain hvalues.1 habsent hvalue
          obtain ⟨hplains, hreads⟩ := ih hnames.2 hvalues.2 hrest
          refine ⟨List.forall_mem_cons.mpr ⟨?_, hplains⟩, ?_⟩
          · exact .attr hnames.1 rfl (by decide) hplain
          · simp [Node.allReadable, Node.isReadable, Node.attr, Node.new, Kind.isReadable, hread, hreads]

theorem text_plain (s : String) : Plain (text s) ∧ (text s).isReadable = true := by
  unfold text
  split
  · exact ⟨.string (.inr rfl) (Literal.isBody_rawString (.inr rfl) s), rfl⟩
  · next hnot =>
    rw [List.any_eq_true] at hnot
    refine ⟨.text (fun h => hnot ⟨_, h, rfl⟩) fun h => hnot ⟨_, h, rfl⟩, rfl⟩

end Build

/-- Elements made by `Build.element` from names, simple attribute values, and texts and such elements as children. -/
inductive Made : Node → Prop where
  | element {tag : String} {children : List (Value Node)} {attrs : Dict (Value Node)} {t : Node}
    (isName : Text.IsFullName .tag tag) (names : ∀ e ∈ attrs, Text.IsFullName .attr e.1)
    (values : ∀ e ∈ attrs, Build.IsSimple e.2) (inline : ∀ c ∈ children, (∃ s, c = .str s) ∨ ∃ n, c = .node n)
    (nested : ∀ n, .node n ∈ children → Made n) (made : Build.element tag children attrs = .ok t) : Made t

/-- Made elements are plain markup, and their references can be read. -/
theorem Made.plain {t : Node} (h : Made t) : Plain t ∧ t.kind.isMarkup = true ∧ t.isReadable = true := by
  induction h with
  | @element tag children attrs t isName names values inline nested made ih =>
    unfold Build.element at made
    cases hattrs : Build.attributes attrs with
    | error f =>
      rw [hattrs] at made
      cases made
    | ok as =>
      rw [hattrs] at made
      obtain rfl := Except.ok.inj made
      obtain ⟨hplain, hread⟩ := Build.attributes_plain names values hattrs
      have hchildren : ∀ c ∈ children.map Build.child, Plain c ∧ c.isReadable = true := by
        intro c hc
        obtain ⟨v, hv, rfl⟩ := List.mem_map.mp hc
        rcases inline v hv with ⟨s, rfl⟩ | ⟨n, rfl⟩
        · exact Build.text_plain s
        · exact ⟨(ih n hv).1, (ih n hv).2.2⟩
      have hblank : Text.isBlank (if (children.map Build.child).isEmpty then " " else "") = true := by
        split <;> rfl
      refine ⟨.element isName hblank ?_ (.inl rfl) hplain fun c hc => (hchildren c hc).1, rfl, ?_⟩
      · exact fun hempty => List.isEmpty_iff.mp hempty
      · have hall : Node.allReadable (children.map Build.child) = true := by
          rw [Node.allReadable_eq_all, List.all_eq_true]
          exact fun c hc => (hchildren c hc).2
        rw [Node.element, Node.isReadable, hread, hall]
        rfl

/-! ## Reading back -/

/-- Plain markup is written and read back as itself, with its texts joined; so is every element made from values, where
nothing can fail. -/
theorem plain_reads_back : (∀ t, Plain t → t.kind.isMarkup = true → ReadsBack t) ∧
    ∀ t, Made t → t.isReadable = true ∧ ReadsBack t := by
  refine ⟨fun t => Plain.readsBack, fun t h => ?_⟩
  obtain ⟨hplain, hmarkup, hread⟩ := h.plain
  exact ⟨hread, hplain.readsBack hmarkup⟩

/-- A fragment with adjacent and empty texts, a string in braces, and an element with every kind of attribute. -/
def mixedFragment : Node :=
  .new .fragment
    [.text "a ", .text "", .text "b > c",
      .mk (.element "Card.Head" false "\n" (some "Card.Head")) {}
        [.attr "hidden" none, .attr "title" (some (.new (.attributeString "it's" "\"") [])),
          .attr "data-n" (some (.new (.slot " " "") [.new (.number (intText (-12))) []]))]
        [.slot (.new (.string "\\'<" "'") []), .text "\x7d"],
      .element "br" [] []]

/-- An element made from values, with a text that has characters of markup. -/
def madeCard : Except Fault Node :=
  Build.element "p" [.str "x < y", .str "z"] [("id", .str "say \"hi\""), ("n", .int 7), ("on", .bool true), ("off", .null)]

theorem mixed_and_made_read_back : (Plain mixedFragment ∧ ReadsBack mixedFragment) ∧
    ∃ t, madeCard = .ok t ∧ Made t ∧ ReadsBack t := by
  have hhead : ∀ a ∈ ([.attr "hidden" none, .attr "title" (some (.new (.attributeString "it's" "\"") [])),
      .attr "data-n" (some (.new (.slot " " "") [.new (.number (intText (-12))) []]))] : List Node),
      PlainAttribute a := by
    intro a ha
    simp only [List.mem_cons, List.not_mem_nil, or_false] at ha
    rcases ha with rfl | rfl | rfl
    · exact .attr rfl rfl (by decide) fun v hv => nomatch hv
    · refine .attr rfl rfl (by decide) fun v hv => ?_
      obtain rfl := Option.mem_some.mp hv
      exact .string (q := '"') (.inl rfl) (by decide)
    · refine .attr rfl rfl (by decide) fun v hv => ?_
      obtain rfl := Option.mem_some.mp hv
      exact .number rfl rfl
  have hmixed : Plain mixedFragment := by
    refine .fragment fun c hc => ?_
    simp only [List.mem_cons, List.not_mem_nil, or_false] at hc
    rcases hc with rfl | rfl | rfl | rfl | rfl
    · exact .text (by decide) (by decide)
    · exact .text (by decide) (by decide)
    · exact .text (by decide) (by decide)
    · refine .element rfl rfl (by decide) (.inr rfl) hhead fun c hc => ?_
      simp only [List.mem_cons, List.not_mem_nil, or_false] at hc
      rcases hc with rfl | rfl
      · exact .string (q := '\'') (.inr rfl) rfl
      · exact .text (by decide) (by decide)
    · exact .element rfl rfl (fun _ => rfl) (.inl rfl) (fun a ha => nomatch ha) fun c hc => nomatch hc
  refine ⟨⟨hmixed, plain_reads_back.1 _ hmixed rfl⟩, ?_⟩
  obtain ⟨t, ht⟩ : ∃ t, madeCard = .ok t := ⟨_, rfl⟩
  have hmade : Made t := by
    have hname : Text.IsFullName .tag "p" := rfl
    unfold madeCard at ht
    refine .element hname ?_ ?_ ?_ (fun n hn => ?_) ht
    · intro e he
      simp only [List.mem_cons, List.not_mem_nil, or_false] at he
      rcases he with rfl | rfl | rfl | rfl <;> rfl
    · intro e he
      simp only [List.mem_cons, List.not_mem_nil, or_false] at he
      rcases he with rfl | rfl | rfl | rfl <;> trivial
    · intro c hc
      simp only [List.mem_cons, List.not_mem_nil, or_false] at hc
      rcases hc with rfl | rfl
      · exact .inl ⟨_, rfl⟩
      · exact .inl ⟨_, rfl⟩
    · simp at hn
  exact ⟨t, ht, hmade, (plain_reads_back.2 t hmade).2⟩

/-- An element with an attribute string. -/
def quotedElement (raw : String) : Node := .element "a" [.attr "b" (some (.new (.attributeString raw "\"") []))] []

theorem plain_quotedElement {raw : String} (h : '"' ∉ raw.toList) : Plain (quotedElement raw) := by
  refine .element rfl rfl (fun _ => rfl) (.inl rfl) (fun a ha => ?_) fun c hc => nomatch hc
  obtain rfl := List.mem_singleton.mp ha
  refine .attr rfl rfl (by decide) fun v hv => ?_
  obtain rfl := Option.mem_some.mp hv
  exact .string (q := '"') (.inl rfl) h

theorem isReadable_quotedElement (raw : String) :
    (quotedElement raw).isReadable = (Text.decodeReferences? raw).isSome := by
  simp [quotedElement, Node.element, Node.attr, Node.new, Node.isReadable, Node.allReadable, Kind.isReadable]

/-- A decimal reference of one digit more than a whole number is read from. -/
def longReference : String := .ofList ('&' :: '#' :: (List.replicate (Text.maxDigits + 1) '1' ++ [';']))

theorem decodeReferences?_long : Text.decodeReferences? longReference = none := by
  have hdigits : ∀ c ∈ List.replicate (Text.maxDigits + 1) '1', c.isDigit = true := by
    intro c hc
    rw [(List.mem_replicate.mp hc).2]
    decide
  have hlong : Text.isTooLong ('#' :: (List.replicate (Text.maxDigits + 1) '1' ++ [';'])) = true := by
    rw [Text.isTooLong, List.takeWhile_append_of_pos hdigits, List.length_append, List.length_replicate]
    exact decide_eq_true (by omega)
  rw [Text.decodeReferences?, longReference, String.toList_ofList, Text.decodeFrom,
    if_pos (beq_self_eq_true '&'), if_pos hlong]
  rfl

theorem references_longReference : Literal.references longReference = .error .badNumber := by
  rw [Literal.references, decodeReferences?_long]

/-- Plain markup need not equal what is read back of it: comparing fails where a reference cannot be read. -/
theorem longReference_fails : Plain (quotedElement longReference) ∧
    ¬ ∃ text c, (Node.new (.document none) [quotedElement longReference]).generate true = .ok text ∧
      Source.parse text = .ok (.new (.document (some text)) [c]) ∧
      c.equals (quotedElement longReference).joined = .ok true := by
  have hplain : Plain (quotedElement longReference) := by
    refine plain_quotedElement ?_
    rw [longReference, String.toList_ofList]
    simp [List.mem_replicate]
  refine ⟨hplain, ?_⟩
  rintro ⟨text, c, hgenerate, hparse, hequals⟩
  obtain ⟨text', c', hgenerate', hparse', hequals'⟩ := hplain.readsBack rfl
  obtain rfl := Except.ok.inj (hgenerate.symm.trans hgenerate')
  obtain rfl : c = c' := by
    have hdocument := Except.ok.inj (hparse.symm.trans hparse')
    simpa [Node.new] using hdocument
  rw [isReadable_quotedElement, decodeReferences?_long, hequals] at hequals'
  cases hequals'

end JsxEdit
