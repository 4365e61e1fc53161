import JsxEdit.Proofs.Blind
import JsxEdit.Proofs.Entry
import JsxEdit.Proofs.Recall

/-
Object literals for styles, with their properties changed.

A property that gets another value keeps its key, and the key is read as before. So an object literal whose properties
can be read elsewhere still has such properties after changes of its styles.
-/
set_option autoImplicit false

namespace JsxEdit

open Scan (Spelled)

/-! ## The bodies of strings -/

/-- A text without marks of quotes can stand between either of them. -/
theorem Literal.isBody_of_other {q q' : Char} {raw : String} (h : IsBody q raw) (hq : q ∉ raw.toList)
    (hq' : q' ∉ raw.toList) : IsBody q' raw := by
  unfold IsBody at h ⊢
  have hstep {n k : Nat} {x : Option Nat} (hx : x.map (· + k) = some (n + k)) : x = some n := by
    obtain ⟨m, rfl, hm⟩ := Option.map_eq_some_iff.mp hx
    exact congrArg some (Nat.add_right_cancel hm)
  generalize raw.toList = w at h hq hq'
  induction hlength : w.length using Nat.strong_induction_on generalizing w with
  | _ n ih =>
    subst hlength
    match w with
    | [] => simp [Expression.quotedLength?]
    | [c] =>
      have hc : c ≠ q := fun heq => hq (heq ▸ List.mem_cons_self)
      have hc' : c ≠ q' := fun heq => hq' (heq ▸ List.mem_cons_self)
      by_cases hslash : c = '\\'
      · simp [Expression.quotedLength?, hslash] at h
      · by_cases hfeed : c = '\n'
        · simp [Expression.quotedLength?, hfeed] at h
        · simp [Expression.quotedLength?, hc', hslash, hfeed]
    | c :: d :: w =>
      have hc : c ≠ q := fun heq => hq (heq ▸ List.mem_cons_self)
      have hc' : c ≠ q' := fun heq => hq' (heq ▸ List.mem_cons_self)
      by_cases hslash : c = '\\'
      · by_cases hfeed : d = '\n'
        · simp [Expression.quotedLength?, hslash, hfeed] at h
        · simp only [List.cons_append, Expression.quotedLength?, hslash, hfeed, beq_iff_eq, if_false, if_true, Bool.not_false,
            Bool.and_true, beq_self_eq_true] at h ⊢
          rw [if_neg (hslash ▸ hc)] at h
          rw [if_neg (hslash ▸ hc'), ih w.length (by rw [List.length_cons, List.length_cons]; omega) w (hstep (k := 2) h)
            (fun hmem => hq (by simp [hmem])) (fun hmem => hq' (by simp [hmem])) rfl]
          rfl
      · by_cases hfeed : c = '\n'
        · simp [Expression.quotedLength?, hfeed] at h
        · simp only [List.cons_append, Expression.quotedLength?, hslash, hfeed, hc, hc', beq_iff_eq, if_false] at h ⊢
          rw [← List.cons_append] at h ⊢
          rw [ih (d :: w).length (by simp) (d :: w) (hstep (k := 1) h)
            (fun hmem => hq (List.mem_cons_of_mem _ hmem)) (fun hmem => hq' (List.mem_cons_of_mem _ hmem)) rfl]
          rfl

theorem Literal.isBody_of_name {raw : String} (h : ∀ c ∈ raw.toList, Text.isNamePart c = true) {q : Char}
    (hq : Text.IsQuote q) : IsBody q raw := by
  have hraw : rawString raw (.ofList [q]) = raw := by
    refine String.toList_inj.mp ?_
    rw [toList_rawString hq]
    have hsingle : ∀ c ∈ raw.toList, escapedChar q c = [c] := by
      intro c hc
      have hne (d : Char) (hd : Text.isNamePart d = false) : c ≠ d := by
        rintro rfl
        rw [h c hc] at hd
        cases hd
      have hquote : c ≠ q := hne q (by rcases hq with rfl | rfl <;> decide)
      simp [escapedChar, hne '\\' (by decide), hne '\n' (by decide), hquote]
    rw [List.flatMap_congr hsingle, List.flatMap_singleton']
  rw [← hraw]
  exact isBody_rawString hq raw

/-! ## Keys -/

namespace Edit

theorem IsKeyName.body {name : String} (h : IsKeyName name) {q : Char} (hq : Text.IsQuote q) (hname : q ∉ name.toList) :
    Literal.IsBody q name := by
  rcases h with hname' | ⟨-, hbody, hquote⟩
  · exact Literal.isBody_of_name (isNamePart_of_isFullName hname') hq
  · exact Literal.isBody_of_other hbody hquote hname

/-- A key that stands for such a name is plain text. -/
theorem spelled_key {key : String} (h : Part.isKey key = true) (hname : IsKeyName (Kind.keyName key)) :
    Spelled key.toList := by
  have hquoted {q : Char} (hq : Text.IsQuote q) (hkey : Part.isQuotedKey q key.toList = true) : Spelled key.toList := by
    unfold Part.isQuotedKey at hkey
    split at hkey
    · cases hkey
    · next c rest htext =>
      simp only [Bool.and_eq_true, beq_iff_eq, Bool.not_eq_true', List.contains_eq_mem, decide_eq_false_iff_not] at hkey
      obtain ⟨⟨rfl, hlast⟩, hnot⟩ := hkey
      obtain ⟨body, rfl⟩ := List.getLast?_eq_some_iff.mp hlast
      rw [List.dropLast_concat] at hnot
      have hinner : Kind.keyName key = .ofList body := by
        have hstarts : (Text.startsWith key "\"" || Text.startsWith key "'") = true := by
          rcases hq with rfl | rfl <;> simp [Text.startsWith, htext]
        rw [Kind.keyName, if_pos hstarts, Text.inner, htext, List.drop_one, List.tail_cons, List.dropLast_concat]
      rw [hinner] at hname
      have hbody := hname.body hq (by rwa [String.toList_ofList])
      rw [htext]
      have h := Spelled.string hq hbody
      rwa [String.toList_ofList] at h
  rw [Part.isKey] at h
  simp only [Bool.or_eq_true, Bool.and_eq_true] at h
  rcases h with (⟨-, hword⟩ | hdouble) | hsingle
  · exact .mute fun c hc => isMute_of_isNamePart (List.all_eq_true.mp hword c hc)
  · exact hquoted (.inl rfl) hdouble
  · exact hquoted (.inr rfl) hsingle

end Edit

/-! ## Properties with other values -/

/-- What is read as a property does not depend on where its parts come from. -/
theorem Clause.of_blind {p q : Node} (h : Clause p) (hq : q.blind = p.blind) : Clause q := by
  have hwrite : q.write = p.write := by rw [← Node.write_blind q, hq, Node.write_blind]
  refine ⟨fun r => hwrite ▸ h.starts r, fun base s r hs hr => ?_⟩
  rw [hwrite]
  obtain ⟨ps, hps, hafter, pos, space, hspace, hitem⟩ := h.passes base s r hs hr
  exact ⟨ps, hps, hafter, pos, space, hspace, ⟨hitem.tokens, hitem.whole, by rw [hq]; exact hitem.property, hitem.kept⟩⟩

theorem Clause.shape {p : Node} (h : Clause p) : ∃ key space e b, p.kind = .property key space (e ++ ":" ++ b) ∧
    p.attributes = [] ∧ Part.isKey key = true ∧ Text.isBlank space = true ∧ Text.isBlank e = true ∧
      Text.isBlank b = true := by
  have hat : Scan.Stand.At [.braces] ⟨[.braces], some '\x7b', 1, 0, []⟩ := ⟨rfl, by decide, by decide, rfl, rfl⟩
  obtain ⟨ps, -, -, pos, trail, -, hitem⟩ := h.passes [] _ ['\x7d'] hat ⟨[], '\x7d', [], rfl, rfl, .inr rfl⟩
  obtain ⟨p', hprop, hblind⟩ := hitem.property
  obtain ⟨key, space, e, b, v, rfl, hkey, hspace, he, hb⟩ := Judged.shape_of_property? hprop
  rw [Node.new, Node.blind_mk] at hblind
  have hkind := congrArg Node.kind hblind
  have has := congrArg Node.attributes hblind
  rw [Node.kind_blind] at hkind
  rw [Node.attributes_blind] at has
  exact ⟨key, space, e, b, Kind.eq_of_blind hkind.symm rfl, List.map_eq_nil_iff.mp has.symm, hkey, hspace, he, hb⟩

/-- White space around a text is what it starts with and what it ends in. -/
theorem Text.edges_of_core {b s e : String} (hb : isBlank b = true) (he : isBlank e = true) (hs : Solid s.toList) :
    lead (b ++ s ++ e) = b ∧ trim (b ++ s ++ e) = s ∧ trail (b ++ s ++ e) = e := by
  have htext : b ++ s ++ e = .ofList (b.toList ++ s.toList ++ e.toList) := by
    simp [String.ofList_append, String.append_assoc]
  rw [htext, lead_of_solid hb hs, trim_of_solid hb he hs, trail_of_solid he hs]
  simp

theorem solid_of_isKey {key : String} (h : Part.isKey key = true) : Text.Solid key.toList := by
  have hquoted {q : Char} (hq : Text.isSpace q = false) (hkey : Part.isQuotedKey q key.toList = true) :
      Text.Solid key.toList := by
    unfold Part.isQuotedKey at hkey
    split at hkey
    · cases hkey
    · next c rest htext =>
      simp only [Bool.and_eq_true, beq_iff_eq] at hkey
      obtain ⟨⟨rfl, hlast⟩, -⟩ := hkey
      obtain ⟨body, rfl⟩ := List.getLast?_eq_some_iff.mp hlast
      rw [htext]
      exact ⟨⟨c, _, rfl, hq⟩, c, c :: body, rfl, hq⟩
  rw [Part.isKey] at h
  simp only [Bool.or_eq_true, Bool.and_eq_true] at h
  rcases h with (⟨hne, hword⟩ | hdouble) | hsingle
  · refine .of_noSpace (by simpa using hne) fun c hc => ?_
    cases hspace : Text.isSpace c with
    | false => rfl
    | true => exact absurd (List.all_eq_true.mp hword c hc) (by rw [Text.isNamePart_of_isSpace hspace]; exact Bool.false_ne_true)
  · exact hquoted (by decide) hdouble
  · exact hquoted (by decide) hsingle

namespace Edit

/-- A property with a key that is plain text, as is its value. -/
theorem clause_of_shape {key space a b : String} (hkey : Part.isKey key = true) (hspelled : Spelled key.toList)
    (hspace : Text.isBlank space = true) (ha : Text.isBlank a = true) (hb : Text.isBlank b = true) {e : Node}
    (he : IsPlainText e) : Clause (.new (.property key space (a ++ ":" ++ b)) [e]) := by
  obtain ⟨hlead, htrim, htrail⟩ := Text.edges_of_core hspace ha (solid_of_isKey hkey)
  have htext : String.ofList (space.toList ++ key.toList ++ a.toList) = space ++ key ++ a := by
    simp [String.ofList_append, String.append_assoc]
  have hall := ((Spelled.blank hspace).append hspelled).append (.blank ha)
  have hclause := clause_of_key hall (by rw [htext, htrim]; exact hkey) he hb
  rwa [htext, hlead, htrim, htrail] at hclause

/-- A property that gets the value of a style. -/
theorem assigned_clause {p : Node} (h : Clause p) {name : String} (hp : p.propertyName? = some name)
    (hname : IsKeyName name) {v : Value Node} {e : Node} (he : IsStyleNode v e) : Clause (p.withChildren [e]) := by
  obtain ⟨key, space, a, b, hkind, has, hkey, hspace, ha, hb⟩ := h.shape
  rw [Node.propertyName?, hkind] at hp
  obtain rfl := Option.some.inj hp
  have hclause := clause_of_shape hkey (spelled_key hkey hname) hspace ha hb he.isPlainText
  rw [← hkind] at hclause
  refine hclause.of_blind ?_
  obtain ⟨k, i, as, cs⟩ := p
  obtain rfl : as = [] := has
  show (Node.mk k i [] [e]).blind = (Node.mk k {} [] [e]).blind
  rw [Node.blind_mk, Node.blind_mk]

/-! ## The end of an object literal -/

/-- A property whose value is a string. -/
def IsQuoted (p : Node) : Prop :=
  (∀ name ∈ p.propertyName?, IsKeyName name) ∧ ∀ v ∈ p.children, ∃ q raw, Text.IsQuote q ∧ Literal.IsBody q raw ∧
    v.blind = (Node.new (.string raw (.ofList [q])) []).blind

/-- What is written after the properties is in no comment: there is a comma after the last property, no line ends there, or
else that property ends in no comment up to the end of a line, since there are no slashes for one, or only those of a
string. -/
def EndsComments (o : Node) : Prop :=
  o.kind.closing.toList.head? = some ',' ∨ '\n' ∉ o.kind.closing.toList ∨
    ∀ p ∈ o.children.getLast?, IsQuoted p ∨ ¬ "//".toList <:+: p.write.toList

theorem IsQuoted.clause {key space a b : String} {v : Node}
    (h : IsQuoted (.new (.property key space (a ++ ":" ++ b)) [v])) (hkey : Part.isKey key = true)
    (hspace : Text.isBlank space = true) (ha : Text.isBlank a = true) (hb : Text.isBlank b = true) :
    Clause (.new (.property key space (a ++ ":" ++ b)) [v]) := by
  obtain ⟨q, raw, hq, hraw, hv⟩ := h.2 v List.mem_cons_self
  refine (clause_of_shape hkey (spelled_key hkey (h.1 _ rfl)) hspace ha hb (isPlainText_string hq hraw)).of_blind ?_
  rw [Node.new, Node.new, Node.blind_mk, Node.blind_mk, List.map_singleton, List.map_singleton, hv]

theorem IsQuoted.of_blind {p p' : Node} (h : IsQuoted p) (hp : p'.blind = p.blind) : IsQuoted p' := by
  have hname : p'.propertyName? = p.propertyName? := by
    rw [← Node.propertyName?_blind, hp, Node.propertyName?_blind]
  have hchildren := congrArg Node.children hp
  rw [Node.children_blind, Node.children_blind] at hchildren
  refine ⟨hname ▸ h.1, fun v' hv' => ?_⟩
  obtain ⟨v, hv, hsame⟩ := List.mem_map.mp (hchildren ▸ List.mem_map_of_mem hv')
  rw [← hsame]
  exact h.2 v hv

theorem EndsComments.of_blind {o o' : Node} (h : EndsComments o) (ho : o'.blind = o.blind) : EndsComments o' := by
  have hclosing : o'.kind.closing = o.kind.closing := by
    rw [← (Node.texts_blind o'.kind).2.1, ← Node.kind_blind, ho, Node.kind_blind, (Node.texts_blind o.kind).2.1]
  have hlast : o'.children.getLast?.map Node.blind = o.children.getLast?.map Node.blind := by
    rw [← List.getLast?_map, ← List.getLast?_map, ← Node.children_blind, ho, Node.children_blind]
  rw [EndsComments, hclosing]
  refine h.imp_right fun h => h.imp_right fun hall p' hp' => ?_
  rw [hp', Option.map_some] at hlast
  obtain ⟨p, hp, hsame⟩ := Option.map_eq_some_iff.mp hlast.symm
  rw [← Node.write_blind p', ← hsame, Node.write_blind]
  exact (hall p hp).imp_left (·.of_blind hsame.symm)

/-- The condition for an object literal that is put together from its parts. -/
theorem EndsComments.of_asObject {trailing : String} {ns : List Node} (h : EndsComments (.new (.object trailing) ns))
    {xs : List Judged} (hread : Part.asObject (Judged.parts xs) = some (.new (.object trailing) ns)) :
    trailing.toList.head? = some ',' ∨ '\n' ∉ trailing.toList ∨
      ∀ n ∈ ns.getLast?, Clause n ∨ ¬ "//".toList <:+: n.write.toList := by
  have hclosing : (Node.new (.object trailing) ns).kind.closing.toList = trailing.toList ++ ['\x7d'] := by
    rw [Node.new, Node.kind_mk, Kind.closing, String.toList_append]
    rfl
  rw [EndsComments, hclosing] at h
  rcases h with hcomma | hfeed | hall
  · refine .inl ?_
    cases htrailing : trailing.toList with
    | nil =>
      rw [htrailing] at hcomma
      exact absurd hcomma (by decide)
    | cons c w =>
      rw [htrailing] at hcomma
      exact hcomma
  · exact .inr (.inl fun hmem => hfeed (List.mem_append_left _ hmem))
  · refine .inr (.inr fun n hn => (hall n hn).imp_left fun hquoted => ?_)
    obtain ⟨key, space, e, b, v, rfl, hkey, hspace, he, hb⟩ := shape_of_asObject hread n (List.mem_of_getLast? hn)
    exact hquoted.clause hkey hspace he hb

/-! ## Changes -/

/-- An object literal whose properties can be read elsewhere, and what it ends in. If it has no properties, the comma that
stood after the last one may still be there. -/
structure Listed (o : Node) (trailing : String) : Prop where
  kind : o.kind = .object trailing
  attributes : o.attributes = []
  clauses : ∀ n ∈ o.children, Clause n
  ends : Text.isBlank trailing = true ∨ ∃ space, trailing = "," ++ space ∧ Text.isBlank space = true

theorem isBlank_propertySpace {ps : List Node} (h : ∀ p ∈ ps, Clause p) : Text.isBlank (propertySpace ps) = true := by
  unfold propertySpace
  split
  · next key space between i as cs hlast =>
    obtain ⟨_, space', _, _, hkind, -, -, hspace, -⟩ := (h _ (List.mem_of_getLast? hlast)).shape
    rw [(Kind.property.inj hkind).2.1]
    exact hspace
  · rfl

theorem kind_changeStyle (o : Node) (c : StyleChange) : (changeStyle o c).attributes = o.attributes ∧
    ((changeStyle o c).kind = o.kind ∨ o.kind = .object "" ∧ (changeStyle o c).kind = .object " ") := by
  unfold changeStyle
  dsimp only
  split
  · exact ⟨Node.attributes_withChildren _ _, .inl (Node.kind_withChildren _ _)⟩
  · split
    · exact ⟨Node.attributes_withChildren _ _, .inl (Node.kind_withChildren _ _)⟩
    · split
      · next hkind =>
        split
        · exact ⟨by rw [Node.attributes_withKind, Node.attributes_withChildren], .inr ⟨hkind, Node.kind_withKind _ _⟩⟩
        · exact ⟨Node.attributes_withChildren _ _, .inl (Node.kind_withChildren _ _)⟩
      · exact ⟨Node.attributes_withChildren _ _, .inl (Node.kind_withChildren _ _)⟩

/-- A change to a value that can be written under its name. -/
def StyleChange.IsWritable : StyleChange → Prop
  | .remove _ => True
  | .assign name e => IsKeyName name ∧ ∃ v, IsStyleNode v e

theorem Listed.change {o : Node} {trailing : String} (h : Listed o trailing) {c : StyleChange} (hc : c.IsWritable) :
    ∃ trailing', Listed (changeStyle o c) trailing' := by
  have hclauses : ∀ n ∈ (changeStyle o c).children, Clause n := by
    rcases children_changeStyle o c with ⟨before, p, after, hps, hp, -, hcases⟩ | ⟨-, hcases⟩
    · have hall := h.clauses
      rw [hps] at hall
      obtain ⟨hbefore, hall⟩ := List.forall_mem_append.mp hall
      obtain ⟨hclause, hafter⟩ := List.forall_mem_cons.mp hall
      rcases hcases with ⟨name, -, hchildren⟩ | ⟨name, e, rfl, hchildren⟩
      · rw [hchildren]
        exact List.forall_mem_append.mpr ⟨hbefore, hafter⟩
      · obtain ⟨hname, v, he⟩ := hc
        rw [hchildren]
        exact List.forall_mem_append.mpr ⟨hbefore, List.forall_mem_cons.mpr ⟨assigned_clause hclause hp hname he, hafter⟩⟩
    · rcases hcases with ⟨name, -, hchildren⟩ | ⟨name, e, rfl, hchildren⟩
      · rw [hchildren]
        exact h.clauses
      · obtain ⟨hname, v, he⟩ := hc
        rw [hchildren]
        refine List.forall_mem_append.mpr ⟨h.clauses, List.forall_mem_singleton.mpr ?_⟩
        exact clause_property hname he (isBlank_propertySpace h.clauses)
  obtain ⟨has, hkind⟩ := kind_changeStyle o c
  rw [h.attributes] at has
  rcases hkind with hkind | ⟨-, hkind⟩
  · exact ⟨trailing, hkind.trans h.kind, has, hclauses, h.ends⟩
  · exact ⟨" ", hkind, has, hclauses, .inl rfl⟩

theorem Listed.changes {o : Node} {trailing : String} (h : Listed o trailing) {changes : List StyleChange}
    (hchanges : ∀ c ∈ changes, c.IsWritable) : ∃ trailing', Listed (changes.foldl changeStyle o) trailing' := by
  induction changes generalizing o trailing with
  | nil => exact ⟨trailing, h⟩
  | cons c changes ih =>
    obtain ⟨hc, hchanges⟩ := List.forall_mem_cons.mp hchanges
    obtain ⟨trailing', h'⟩ := h.change hc
    exact ih h' hchanges

end Edit
end JsxEdit
