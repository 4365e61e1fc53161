import JsxEdit.Proofs.ReadBack
import JsxEdit.Proofs.Retext

/-
String and template literals are read back as what they were made for, by themselves and as the child of an element.

A text is escaped in passes, one for each character that cannot stand as it is. What the passes make of it is followed
here through the three readers that meet it: the one that takes escapes back, the one that tells what an expression is,
and the scanner, which finds where the literal ends and must not come upon a quote or a substitution before that.
-/
set_option autoImplicit false

namespace JsxEdit

/-! ## Template literals as expressions -/

namespace Expression

/-- A character without a meaning of its own leaves the rest of a template literal to itself. -/
theorem templateRest_cons {c : Char} {w : List Char} (htick : c ≠ '`') (hslash : c ≠ '\\')
    (hmark : c = '$' → w.head? ≠ some '\x7b') (hne : w ≠ []) : templateRest (c :: w) = templateRest w := by
  obtain ⟨d, w, rfl⟩ := List.exists_cons_of_ne_nil hne
  have hmark' : (c == '$' && d == '\x7b') = false := by
    by_cases hc : c = '$'
    · simpa [hc] using hmark hc
    · simp [hc]
  simp [templateRest, htick, hslash, hmark']

/-- A template literal without substitutions is a template literal. -/
theorem kind?_template {raw : String} (h : templateRest (raw.toList ++ ['`']) = true) :
    kind? (.ofList ('`' :: (raw.toList ++ ['`']))) = some (.template raw) := by
  have htext : (String.ofList ('`' :: (raw.toList ++ ['`']))).toList = '`' :: (raw.toList ++ ['`']) :=
    String.toList_ofList
  have hinner : Text.inner (.ofList ('`' :: (raw.toList ++ ['`']))) = raw := by simp [Text.inner]
  have hother : isNumber ('`' :: (raw.toList ++ ['`'])) = false ∧
      (startsWithDouble ('`' :: (raw.toList ++ ['`'])) || isSingle ('`' :: (raw.toList ++ ['`']))) = false := ⟨rfl, rfl⟩
  rw [kind?_of_head htext (by decide), htext, hother.1, hother.2, isTemplate, h, hinner]
  rfl

end Expression

namespace Literal

/-- Nothing between the backticks of a template literal for a value ends it or starts a substitution. -/
theorem templateRest_marked (cs : List Char) : Expression.templateRest
    (Text.replaceFrom ['$', '\x7b'] ['\\', '$', '\x7b'] 0 (cs.flatMap ticked) ++ ['`']) = true := by
  induction cs with
  | nil => rfl
  | cons c cs ih =>
    rw [List.flatMap_cons]
    by_cases hslash : c = '\\'
    · subst hslash
      simpa [ticked, Text.replaceFrom, Expression.templateRest] using ih
    by_cases htick : c = '`'
    · subst htick
      simpa [ticked, Text.replaceFrom, Expression.templateRest] using ih
    have hsingle : ticked c = [c] := by simp [ticked, hslash, htick]
    rw [hsingle, List.singleton_append]
    by_cases hmark : ['$', '\x7b'].isPrefixOf (c :: cs.flatMap ticked) = true
    · -- the escaped mark of a substitution, after which the brace is read like any other character
      obtain ⟨rest, hrest⟩ := List.isPrefixOf_iff_prefix.mp hmark
      obtain ⟨rfl, htail⟩ := List.cons.inj hrest
      have hcs : cs.flatMap ticked = '\x7b' :: rest := htail.symm
      rw [hcs] at ih ⊢
      exact ih
    · rw [Text.replaceFrom, if_neg hmark, List.cons_append,
        Expression.templateRest_cons htick hslash ?_ (by simp), ih]
      rintro rfl hhead
      -- a brace comes first only if it did before the marks were escaped
      cases hcs : cs.flatMap ticked with
      | nil =>
        rw [hcs] at hhead
        cases hhead
      | cons d ds =>
        rw [hcs] at hhead hmark
        rw [Text.replaceFrom] at hhead
        split at hhead
        · cases hhead
        · obtain rfl : d = '\x7b' := by simpa using hhead
          exact hmark rfl

theorem templateRest_rawTemplate (value : String) :
    Expression.templateRest ((rawTemplate value).toList ++ ['`']) = true := by
  rw [toList_rawTemplate]
  exact templateRest_marked value.toList

end Literal

/-! ## Template literals in a source -/

namespace Scan

/-- Characters that the scanner passes over in a template literal. -/
def isPassed (c : Char) : Bool := c != '`' && c != '\\' && c != '$'

theorem templateRest_passed {w z : List Char} (hw : ∀ c ∈ w, isPassed c = true)
    (h : Expression.templateRest (w ++ z) = true) : z ≠ [] ∧ Expression.templateRest z = true := by
  induction w with
  | nil =>
    refine ⟨?_, h⟩
    rintro rfl
    cases h
  | cons c w ih =>
    obtain ⟨hc, hw⟩ := List.forall_mem_cons.mp hw
    simp only [isPassed, Bool.and_eq_true, bne_iff_ne] at hc
    rw [List.cons_append] at h
    by_cases hne : w ++ z = []
    · rw [hne] at h
      exact absurd (by simpa [Expression.templateRest] using h) hc.1.1
    · rw [Expression.templateRest_cons hc.1.1 hc.1.2 (fun he => absurd he hc.2) hne] at h
      exact ih hw h

theorem template?_passed {w rest : List Char} (hne : w ≠ []) (hw : ∀ c ∈ w, isPassed c = true)
    (hrest : ∀ c ∈ rest.head?, isPassed c = false) : template? (w ++ rest) = one .template w.length .stay := by
  have hlength : ((w ++ rest).takeWhile isPassed).length = w.length := by
    rw [List.takeWhile_append_of_pos hw]
    cases rest with
    | nil => simp
    | cons c rest => simp [hrest c rfl]
  obtain ⟨c, w, rfl⟩ := List.exists_cons_of_ne_nil hne
  have hc := hw c List.mem_cons_self
  simp only [isPassed, Bool.and_eq_true, bne_iff_ne] at hc
  rw [← hlength, List.cons_append]
  unfold template?
  split
  case h_7 => rfl
  all_goals simp_all

/-- The pieces are tokens that make up the text. -/
def AreTokens (w : List Char) (ps : List Piece) : Prop :=
  ∃ ts : List Token, ps = ts.map .token ∧ Leaf.allWritten (ts.map .token) = .ofList w

theorem areTokens_token {w : List Char} {t : Token} (h : t.text = .ofList w) : AreTokens w [.token t] :=
  ⟨[t], rfl, by simp [Leaf.allWritten, Leaf.written, h]⟩

theorem AreTokens.append {v w : List Char} {ps qs : List Piece} (h : AreTokens v ps) (h' : AreTokens w qs) :
    AreTokens (v ++ w) (ps ++ qs) := by
  obtain ⟨ts, rfl, hts⟩ := h
  obtain ⟨us, rfl, hus⟩ := h'
  refine ⟨ts ++ us, by rw [List.map_append], ?_⟩
  rw [List.map_append, Leaf.allWritten_append, hts, hus, String.ofList_append]

theorem allLeaves_tokens (ts : List Token) : Part.allLeaves (Markup.allParts (ts.map .token)) = ts.map .token := by
  induction ts with
  | nil => rfl
  | cons t ts ih => exact congrArg (Leaf.token t :: ·) ih

theorem AreTokens.tokenText {w : List Char} {ps : List Piece} (h : AreTokens w ps) :
    Leaf.tokenText? (Part.allLeaves (Markup.allParts ps)) = some (.ofList w) := by
  obtain ⟨ts, rfl, hts⟩ := h
  rw [allLeaves_tokens, ← hts]
  refine Leaf.tokenText?_of_allTokens fun l hl => ?_
  obtain ⟨t, -, rfl⟩ := List.mem_map.mp hl
  exact ⟨t, rfl⟩

theorem reads_templateToken {w : List Char} {next : List Char → Prop} (hne : w ≠ [])
    (hm : ∀ rest, next rest → template? (w ++ rest) = one .template w.length .stay) :
    Reads (Inside .template) w next (AreTokens w) := by
  have htoken : Reads (Inside .template) w next fun ps => ∃ t : Token,
      ps = [.token t] ∧ t.kind = .template ∧ t.text = .ofList w := by
    refine .token hne (fun stack pos h => ?_) fun stack pos before rest h hn => ?_
    · rw [show current stack = .template from h]
      decide
    · rw [show current stack = .template from h]
      exact hm rest hn
  refine htoken.imp ?_
  rintro ps ⟨t, rfl, -, ht⟩
  exact areTokens_token ht

/-- The rest of a template literal without substitutions is read to its end. The induction is on its length, since the
scanner takes escapes and characters without a meaning of their own together. -/
theorem leaves_template {cs : List Char} (h : Expression.templateRest cs = true) : Leaves .template cs (AreTokens cs) := by
  induction hn : cs.length using Nat.strongRecOn generalizing cs with
  | _ n ih =>
    have hstep {w z : List Char} {P : List Char → Prop} (hcs : cs = w ++ z) (hne : w ≠ [])
        (hz : Expression.templateRest z = true) (hw : Reads (Inside .template) w P (AreTokens w))
        (hnext : ∀ rest, P (z ++ rest)) : Leaves .template cs (AreTokens cs) := by
      have hpos := List.length_pos_iff.mpr hne
      subst hcs
      rw [List.length_append] at hn
      refine ((ih z.length (by omega) hz rfl).after hw hnext).imp ?_
      rintro ps ⟨qs, es, rfl, hqs, hes⟩
      exact hqs.append hes
    cases cs with
    | nil => cases h
    | cons c cs =>
      by_cases htick : c = '`'
      · -- only the last character can be a backtick
        subst htick
        cases cs with
        | cons d cs => cases h
        | nil =>
          have htick : Leaves .template ['`'] fun ps => ∃ t : Token,
              ps = [.token t] ∧ t.kind = .template ∧ t.text = .ofList ['`'] :=
            .token (by simp) (by decide) fun _ _ _ => rfl
          refine htick.imp ?_
          rintro ps ⟨t, rfl, -, ht⟩
          exact areTokens_token ht
      cases cs with
      | nil => exact absurd (by simpa [Expression.templateRest] using h) htick
      | cons d cs =>
        by_cases hslash : c = '\\'
        · subst hslash
          exact hstep (w := ['\\', d]) rfl (by simp) h (P := fun _ => True)
            (reads_templateToken (by simp) fun rest _ => rfl) fun _ => trivial
        by_cases hdollar : c = '$'
        · subst hdollar
          have hd : d ≠ '\x7b' := by
            rintro rfl
            cases h
          rw [Expression.templateRest_cons (by decide) (by decide) (by simpa using hd) (by simp)] at h
          refine hstep (w := ['$']) rfl (by simp) h (P := fun rest => ∃ d rest', rest = d :: rest' ∧ d ≠ '\x7b')
            (reads_templateToken (by simp) ?_) fun rest => ⟨d, _, rfl, hd⟩
          rintro rest ⟨d, rest', rfl, hd⟩
          simp [template?, hd]
        · have hc : isPassed c = true := by simp [isPassed, htick, hslash, hdollar]
          have hsplit : c :: d :: cs = (c :: d :: cs).takeWhile isPassed ++ (c :: d :: cs).dropWhile isPassed :=
            List.takeWhile_append_dropWhile.symm
          have hpassed : ∀ x ∈ (c :: d :: cs).takeWhile isPassed, isPassed x = true :=
            List.all_eq_true.mp List.all_takeWhile
          rw [hsplit] at h
          obtain ⟨hz, hrest⟩ := templateRest_passed hpassed h
          obtain ⟨x, z, hxz⟩ := List.exists_cons_of_ne_nil hz
          have hx : isPassed x = false := by
            have hhead := List.head?_dropWhile_not isPassed (c :: d :: cs)
            rw [hxz] at hhead
            simpa using hhead
          have hne : (c :: d :: cs).takeWhile isPassed ≠ [] := by simp [hc]
          refine hstep hsplit hne hrest (P := fun rest => ∀ y ∈ rest.head?, isPassed y = false)
            (reads_templateToken hne fun rest hn => template?_passed hne hpassed hn) fun rest y hy => ?_
          rw [hxz] at hy
          obtain rfl : x = y := by simpa using hy
          exact hx

theorem enters_template : Enters (Inside .braces) ['`'] .template (fun _ => True) fun ps => ∃ t : Token,
    ps = [.token t] ∧ t.kind = .template ∧ t.text = .ofList ['`'] := by
  refine Enters.token (by simp) (by decide) (fun stack pos h => ?_) fun stack pos before rest h _ => ?_
  · rw [show current stack = .braces from h]
    decide
  · rw [show current stack = .braces from h]
    have hlead := @lead?_eq_none '`' (by decide) (by decide) (by decide) before rest
    rw [match?, List.singleton_append, expression?, hlead]
    rfl

end Scan

namespace Markup
open Scan

/-- A stretch that starts with a token has all its tokens and nodes as leaves, whatever ends it. -/
theorem allLeaves_asGroup (closers : List String) (t : Token) (ps : List Part) :
    Part.allLeaves [Part.asGroup closers (.leaf (.token t) :: ps)] = Part.allLeaves (.leaf (.token t) :: ps) := by
  obtain ⟨inside, tail, hgroup, rfl⟩ := Part.asGroup_cases closers t ps
  rw [hgroup]
  cases tail <;> simp [Part.allLeaves, Part.leaves, Group.leaves]

/-- A template literal without substitutions is an expression in braces. -/
theorem reads_template {cs : List Char} (h : Expression.templateRest cs = true) :
    Reads (Inside .braces) ('`' :: cs) (fun _ => True) (IsExpression ('`' :: cs)) := by
  have hno : ¬ ∃ t : Token, ([] : List Piece) = [.token t] ∧ t.kind = .template ∧ t.text = .ofList ['`'] := by
    rintro ⟨t, heq, -⟩
    cases heq
  refine (enters_template.stretch (leaves_template h) (fun _ => trivial) hno).imp ?_
  rintro ps ⟨_, es, rfl, ⟨t, rfl, -, ht⟩, hes⟩
  have htokens : AreTokens ('`' :: cs) (.token t :: es) := (areTokens_token ht).append hes
  have hpart : allParts [.stretch .template (.token t :: es)] =
      [Part.asGroup ["`"] (.leaf (.token t) :: allParts es)] := by
    rw [allParts, allParts, part, assemble, allParts, part]
  refine ⟨?_, ?_⟩
  · have htext := htokens.tokenText
    rw [allParts, part] at htext
    rw [List.singleton_append, hpart, allLeaves_asGroup, htext]
  · obtain ⟨inside, tail, hgroup, -⟩ := Part.asGroup_cases ["`"] t (allParts es)
    have hhead : (t.text == "\x7b") = false := by
      rw [ht]
      decide
    rw [List.singleton_append, hpart, hgroup]
    simp [Part.object?, Part.isBlank, Part.token?, hhead]

end Markup

/-! ## Literals for texts -/

namespace Literal

/-- The literals that are made for a text: a string in either quotes, or a template literal. -/
inductive MadeFor (s : String) : Kind → Prop where
  | string {q : Char} (quote : Text.IsQuote q) : MadeFor s (string s (.ofList [q]))
  | template : MadeFor s (template s)

variable {s : String} {k : Kind}

theorem MadeFor.literalValue (h : MadeFor s k) : k.literalValue = .ok (.str s) := by
  cases h with
  | string quote => rw [Literal.string, Kind.literalValue, unescapeText_rawString quote]
  | template => rw [Literal.template, Kind.literalValue, unescapeText_rawTemplate]

/-- What a literal is written as stands between two marks that are no white space. -/
theorem MadeFor.write (h : MadeFor s k) : ∃ c raw, (Node.new k []).write.toList = c :: (raw ++ [c]) ∧
    Text.isSpace c = false ∧ Expression.kind? (.ofList (c :: (raw ++ [c]))) = some k ∧
    Scan.Reads (Scan.Inside .braces) (c :: (raw ++ [c])) (fun _ => True) (Markup.IsExpression (c :: (raw ++ [c]))) := by
  cases h with
  | @string q quote =>
    have hbody := isBody_rawString quote s
    refine ⟨q, (rawString s (.ofList [q])).toList, ?_, ?_, Expression.kind?_string quote hbody,
      Markup.reads_scriptString quote hbody⟩
    · simp [Literal.string, Node.new, Node.write, Node.writeAll, Kind.opening, Kind.closing]
    · rcases quote with rfl | rfl <;> decide
  | template =>
    have hrest := templateRest_rawTemplate s
    refine ⟨'`', (rawTemplate s).toList, ?_, by decide, Expression.kind?_template hrest, Markup.reads_template hrest⟩
    simp [Literal.template, Node.new, Node.write, Node.writeAll, Kind.opening, Kind.closing]

end Literal

namespace Markup
open Scan

/-- A literal in braces is a slot that holds the literal and nothing else. -/
theorem reads_literal {s : String} {k : Kind} (h : Literal.MadeFor s k) :
    Reads Between ('\x7b' :: ((Node.new k []).write.toList ++ ['\x7d'])) (fun _ => True) (IsSlot "" "" k) := by
  obtain ⟨c, raw, hwrite, hspace, hkind, hread⟩ := h.write
  have hsolid : Text.Solid (c :: (raw ++ [c])) := ⟨⟨c, _, rfl, hspace⟩, c, c :: raw, rfl, hspace⟩
  have hend := leaves_expression hread
  have hslot := reads_slot (b := []) (e := []) (fun _ _ h => .inl h) rfl rfl hsolid hkind (by simpa using hend)
  rw [hwrite]
  simpa using hslot

/-- The nodes are one slot that holds a node of the kind, without white space around it. -/
def HoldsOnly (k : Kind) (ns : List Node) : Prop := ∃ info, ns = [.mk (.slot "" "") info [] [.new k []]]

/-- What may stand in an opening tag after its name: attributes that are read as such whatever comes after them. -/
structure StandsInTag (w : List Char) : Prop where
  reads : Reads (Inside .tag) w TagNext (GivesAttributes (Node.allValid · = true))
  next : ∀ rest, TagNext rest → TagNext (w ++ rest)

theorem standsInTag_attributes {as : List Node} (h : ∀ a ∈ as, PlainAttribute a) :
    StandsInTag (Node.writeAll as).toList := by
  refine ⟨(reads_attributes h).imp ?_, fun rest => tagNext_attributes h⟩
  rintro ps ⟨as', has, hread⟩
  exact ⟨as', has.valid, hread⟩

/-- The text of an element with a literal in braces as its only child. -/
def holderText (name attributes spaceEnd : String) (k : Kind) : String :=
  "<" ++ name ++ attributes ++ spaceEnd ++ ">\x7b" ++ (Node.new k []).write ++ "\x7d</" ++ name ++ ">"

/-- Such a text is read as one element whose only child is a slot with the literal. -/
theorem nodes_holder {s : String} {k : Kind} (h : Literal.MadeFor s k) {name attributes spaceEnd : String}
    (hname : Text.IsFullName .tag name) (has : StandsInTag attributes.toList) (hblank : Text.isBlank spaceEnd = true) :
    ∃ last info as ns, nodes (holderText name attributes spaceEnd k) =
      [.mk (.element name false spaceEnd last) info as ns] ∧ Node.allValid as = true ∧ HoldsOnly k ns := by
  have hcontent : Reads Between ('\x7b' :: ((Node.new k []).write.toList ++ ['\x7d'])) Stops fun ps =>
      HoldsOnly k ((allParts ps).flatMap contentNode) := by
    refine (reads_literal h).weaken (fun _ _ => id) (fun _ _ => trivial) ?_
    rintro ps ⟨p, g, info, rfl, hpart, hslot⟩
    exact ⟨info, by simp [allParts, hpart, contentNode, hslot]⟩
  have hread := reads_tag hname hblank has.reads has.next (ends_content hname hcontent) ⟨'>', _, rfl, .inr rfl⟩
  have htext : (holderText name attributes spaceEnd k).toList = '<' :: name.toList ++ (attributes.toList ++
      (spaceEnd.toList ++ ('>' :: ('\x7b' :: ((Node.new k []).write.toList ++ ['\x7d']) ++ closingTag name)))) := by
    simp [holderText, closingTag]
  rw [← htext] at hread
  obtain ⟨ps, ⟨p, last, info, as, ns, rfl, hpart, has', hns⟩, hnodes⟩ := nodes_of_reads hread
  exact ⟨last, info, as, ns, hnodes p _ rfl hpart, has', hns⟩

end Markup

/-- A literal that is made for a text has the text as its value, is read back as itself, and as the only child of an
element, whatever its tag, stands alone in a slot there. -/
theorem literals_read_back {s : String} {k : Kind} (h : Literal.MadeFor s k) :
    k.literalValue = .ok (.str s) ∧ Expression.ofText (Node.new k []).write = .new k [] ∧
    ∀ name attributes spaceEnd, Text.IsFullName .tag name → Markup.StandsInTag attributes.toList →
      Text.isBlank spaceEnd = true → ∃ last info as inner,
        Source.parse (Markup.holderText name attributes spaceEnd k) =
          .ok (.new (.document (some (Markup.holderText name attributes spaceEnd k)))
            [.mk (.element name false spaceEnd last) info as [.mk (.slot "" "") inner [] [.new k []]]]) := by
  refine ⟨h.literalValue, ?_, fun name attributes spaceEnd hname has hblank => ?_⟩
  · obtain ⟨c, raw, hwrite, hspace, hkind, -⟩ := h.write
    have hsolid : Text.Solid (c :: (raw ++ [c])) := ⟨⟨c, _, rfl, hspace⟩, c, c :: raw, rfl, hspace⟩
    have htrim := Text.trim_of_solid (b := []) (e := []) rfl rfl hsolid
    rw [List.nil_append, List.append_nil] at htrim
    rw [← String.ofList_toList (s := (Node.new k []).write), hwrite, Expression.ofText_eq, htrim, Expression.plain, hkind]
  · obtain ⟨last, info, as, ns, hnodes, hvalid, inner, rfl⟩ := Markup.nodes_holder h hname has hblank
    have hkind : k.isInvalid = false := by cases h <;> rfl
    have helement : (Kind.element name false spaceEnd last).isInvalid = false := rfl
    have hslot : (Kind.slot "" "").isInvalid = false := rfl
    refine ⟨last, info, as, inner, ?_⟩
    rw [Source.parse_of_allValid, hnodes]
    rw [hnodes]
    simp [Node.allValid, Node.isValid, Node.new, hvalid, helement, hslot, hkind]

/-- A text with all that is escaped in strings and template literals. -/
def escapedWords : String := "`$\x7b\"it's\"\x7d`\\\n$"

theorem escapedWords_read_back :
    Expression.ofText (Node.new (Literal.string escapedWords "'") []).write = .new (Literal.string escapedWords "'") [] ∧
    ∃ text last info as inner, Source.parse text = .ok (.new (.document (some text))
      [.mk (.element "p" false "" last) info as
        [.mk (.slot "" "") inner [] [.new (Literal.template escapedWords) []]]]) := by
  have hsingle : Literal.MadeFor escapedWords (Literal.string escapedWords "'") := .string (.inr rfl)
  have hattribute : ∀ a ∈ [Node.attr "hidden" none], PlainAttribute a := by
    intro a ha
    obtain rfl := List.mem_singleton.mp ha
    exact .attr rfl rfl (by decide) fun v hv => nomatch hv
  obtain ⟨-, hstring, -⟩ := literals_read_back hsingle
  obtain ⟨-, -, hparse⟩ := literals_read_back (.template : Literal.MadeFor escapedWords _)
  exact ⟨hstring, _, hparse "p" _ "" rfl (Markup.standsInTag_attributes hattribute) rfl⟩

end JsxEdit
