import JsxEdit.Proofs.Discipline
import JsxEdit.Proofs.Made
import JsxEdit.Proofs.Whole
import Mathlib.Data.List.Induction

/-
Changing the properties of a style object.

The values that are written are the values that are read: a string is the one that its escapes stand for, and a whole
number is the one that its digits stand for, as long as there are not too many. A change looks at the first property with
its name only, so what it leaves is known for names that occur at most once.
-/
set_option autoImplicit false

namespace JsxEdit

/-! ## Values -/

namespace Literal

/-- What stands between the quotes of a string for a value stands for the value. -/
theorem unescape_escaped {q : Char} (hq : Text.IsQuote q) (cs : List Char) : unescape (cs.flatMap (escapedChar q)) = cs := by
  have hsame : escaped q = q := by rcases hq with rfl | rfl <;> rfl
  have hplain {c : Char} (hc : c ≠ '\\') (w : List Char) : unescape (c :: w) = c :: unescape w := by
    cases w with
    | nil => rfl
    | cons d w => simp [unescape, hc]
  induction cs with
  | nil => rfl
  | cons c cs ih =>
    rw [List.flatMap_cons]
    by_cases hslash : c = '\\'
    · subst hslash
      simp [escapedChar, unescape, escaped, ih]
    by_cases hquote : c = q
    · subst hquote
      simp [escapedChar, hslash, unescape, hsame, ih]
    by_cases hfeed : c = '\n'
    · subst hfeed
      simp [escapedChar, hquote, unescape, escaped, ih]
    have hsingle : escapedChar q c = [c] := by simp [escapedChar, hslash, hquote, hfeed]
    rw [hsingle, List.singleton_append, hplain hslash, ih]

theorem unescapeText_rawString {q : Char} (hq : Text.IsQuote q) (value : String) :
    unescapeText (rawString value (.ofList [q])) = value := by
  rw [unescapeText, toList_rawString hq, unescape_escaped hq, String.ofList_toList]

end Literal

namespace Number

/-- One digit more. -/
theorem digits?_concat {ds : List Char} {c : Char} {n d : Nat} (h : digits? 10 ds = some n)
    (hc : Text.hexValue? c = some d) (hd : d < 10) : digits? 10 (ds ++ [c]) = some (n * 10 + d) := by
  have hne : ds.isEmpty = false := by
    cases ds with
    | nil => cases h
    | cons => rfl
  rw [digits?, hne, if_neg Bool.false_ne_true] at h
  rw [digits?, if_neg (by simp), List.foldl_concat, h]
  simp [hc, hd]

theorem hexValue?_digitChar {d : Nat} (hd : d < 10) : Text.hexValue? (Nat.digitChar d) = some d := by
  have hall : ∀ d < 10, Text.hexValue? (Nat.digitChar d) = some d := by decide
  exact hall d hd

theorem digits?_toDigits (n : Nat) : digits? 10 (Nat.toDigits 10 n) = some n := by
  induction n using Nat.strongRecOn with
  | ind n ih =>
    by_cases hn : n < 10
    · rw [Nat.toDigits_of_lt_base hn]
      simp [digits?, hexValue?_digitChar hn, hn]
    · have hmod : n % 10 < 10 := Nat.mod_lt n (by decide)
      rw [Nat.toDigits_of_base_le (by decide) (Nat.le_of_not_lt hn),
        digits?_concat (ih (n / 10) (by omega)) (hexValue?_digitChar hmod) hmod, Nat.div_add_mod']

/-- A number of several digits does not start with a zero. -/
theorem toDigits_head (n : Nat) : Nat.toDigits 10 n = ['0'] ∨ ∀ cs, Nat.toDigits 10 n ≠ '0' :: cs := by
  induction n using Nat.strongRecOn with
  | ind n ih =>
    by_cases hn : n < 10
    · have hall : ∀ d < 10, Nat.digitChar d = '0' ∨ Nat.digitChar d ≠ '0' := fun d _ => Decidable.em _
      rw [Nat.toDigits_of_lt_base hn]
      rcases hall n hn with hzero | hother
      · exact .inl (by rw [hzero])
      · exact .inr fun cs h => hother (List.cons.inj h).1
    · rw [Nat.toDigits_of_base_le (by decide) (Nat.le_of_not_lt hn)]
      right
      intro cs h
      rcases ih (n / 10) (by omega) with hzero | hother
      · -- then the number before the last digit would be zero
        have hvalue := digits?_toDigits (n / 10)
        rw [hzero] at hvalue
        have : n / 10 = 0 := (Option.some.inj hvalue).symm
        omega
      · cases hds : Nat.toDigits 10 (n / 10) with
        | nil => exact Nat.toDigits_ne_nil hds
        | cons d ds =>
          rw [hds, List.cons_append] at h
          exact hother ds (by rw [hds, (List.cons.inj h).1])

theorem magnitude?_toDigits {n : Nat} (hn : (Nat.toDigits 10 n).length ≤ Text.maxDigits) :
    magnitude? (Nat.toDigits 10 n) = some n := by
  have hdecimal : decimal? (Nat.toDigits 10 n) = some n := by rw [decimal?, if_pos hn, digits?_toDigits]
  unfold magnitude?
  split
  · next mark cs hds =>
    rcases toDigits_head n with hzero | hother
    · rw [hzero] at hds
      cases hds
    · exact absurd hds (hother _)
  · exact hdecimal

/-- A whole number with no more digits than a whole number may have is read as itself. -/
theorem numberValue_intText_eq {n : Int} (hn : (Nat.toDigits 10 n.natAbs).length ≤ Text.maxDigits) :
    Kind.numberValue (intText n) = .ok (.int n) := by
  have hunder : '_' ∉ (intText n).toList := by
    intro h
    have hstart := (inNumeral_of_mem h).noName
    cases hstart
  have hreplace : Text.replace (intText n) "_" "" = intText n := by
    have heq := Text.replace_singleton (intText n) '_' ""
    rwa [Text.flatMap_substitute_of_not_mem hunder, String.ofList_toList] at heq
  have hread : readInt? (intText n) = some n := by
    have hdigit : ∀ c ∈ Nat.toDigits 10 n.natAbs, c.isDigit = true := fun c hc =>
      Nat.isDigit_of_mem_toDigits (by decide) (by decide) hc
    rw [readInt?, plain_intText]
    by_cases hneg : n < 0
    · have htext : (intText n).toList = '-' :: Nat.toDigits 10 n.natAbs := by simp [intText, hneg]
      rw [htext]
      simp only [splitSign, magnitude?_toDigits hn, if_true]
      refine congrArg some ?_
      show -((n.natAbs : Nat) : Int) = n
      rw [Int.ofNat_natAbs_of_nonpos (Int.le_of_lt hneg), Int.neg_neg]
    · have htext : (intText n).toList = Nat.toDigits 10 n.natAbs := by simp [intText, hneg]
      have hsign : splitSign (Nat.toDigits 10 n.natAbs) = (false, Nat.toDigits 10 n.natAbs) := by
        unfold splitSign
        split
        · next cs h => cases hdigit '-' (by rw [h]; exact List.mem_cons_self)
        · next cs h => cases hdigit '+' (by rw [h]; exact List.mem_cons_self)
        · rfl
      rw [htext, hsign]
      simp only [magnitude?_toDigits hn, Bool.false_eq_true, if_false]
      exact congrArg some (Int.natAbs_of_nonneg (Int.not_lt.mp hneg))
  rw [Kind.numberValue, hreplace, read?, hread]

end Number

namespace Edit

open Node

/-- The values that styles have: texts, whole numbers that can be written, and nothing, which removes a style. -/
def IsStyle : Value Node → Prop
  | .null | .str _ => True
  | .int n => ∃ text, Literal.numberText (.int n) = .ok text
  | _ => False

/-- The expression for a style is a string or a number. -/
inductive IsStyleNode : Value Node → Node → Prop where
  | str (s : String) : IsStyleNode (.str s) (.new (Literal.string s "'") [])
  | int (n : Int) (short : (Nat.toDigits 10 n.natAbs).length ≤ Text.maxDigits) :
    IsStyleNode (.int n) (.new (.number (intText n)) [])

theorem isStyleNode_of_styleValue {v : Value Node} {e : Node} (hv : IsStyle v) (h : Build.styleValue v = .ok e) :
    IsStyleNode v e := by
  cases v with
  | str s =>
    cases h
    exact .str s
  | int n =>
    obtain ⟨text, htext, rfl⟩ := Build.number_eq_ok h
    obtain ⟨hshort, rfl⟩ := Literal.numberText_int_eq_ok htext
    exact .int n hshort
  | null => cases h
  | bool | float | list | dict | node => exact hv.elim

theorem expressionValue_literal {k : Kind} (hk : k.isLiteral = true) :
    (Node.new k []).expressionValue = k.literalValue := by
  have hforeign : k.isForeign = false := by cases k <;> first | rfl | cases hk
  rw [expressionValue, writeChecked, isForeign, kind_new, hforeign, Node.new, hasForeign, hk]
  rfl

/-- The value of the expression for a style is the style. -/
theorem IsStyleNode.value {v : Value Node} {e : Node} (h : IsStyleNode v e) :
    ∃ d, e.expressionValue = .ok d ∧ Value.ofDatum d = v := by
  cases h with
  | str s =>
    have hvalue : Literal.unescapeText (Literal.rawString s "'") = s := Literal.unescapeText_rawString (.inr rfl) s
    refine ⟨.str s, ?_, rfl⟩
    rw [expressionValue_literal rfl, Literal.string, Kind.literalValue, hvalue]
  | int n short =>
    refine ⟨.int n, ?_, rfl⟩
    rw [expressionValue_literal rfl, Kind.literalValue, Number.numberValue_intText_eq short]
    rfl

/-- A property with the expression for a style has the style as its value. -/
theorem IsStyleNode.propertyValue {v : Value Node} {e p : Node} (h : IsStyleNode v e) (hp : p.children = [e]) :
    ∃ d, p.propertyValue = .ok d ∧ Value.ofDatum d = v := by
  have hsome : p.value? = some e := by
    have hnothing : e.kind.isNothing = false := by cases h <;> rfl
    rw [value?, hp]
    simp [hnothing]
  obtain ⟨d, hd, hof⟩ := h.value
  exact ⟨d, by rw [Node.propertyValue, hsome]; exact hd, hof⟩

/-! ## Names -/

/-- A new property has its name, whether that needs quotes or not. -/
theorem propertyName?_property (name space : String) (value : Node) :
    (Build.property name space value).propertyName? = some name := by
  show some (Kind.keyName (if Text.isName .identifier name then name else "'" ++ name ++ "'")) = _
  refine congrArg some ?_
  split
  · next hname =>
    unfold Text.isName at hname
    cases htext : name.toList with
    | nil =>
      rw [htext] at hname
      cases hname
    | cons c cs =>
      have hstart : Text.isNameStart c = true := by
        cases hc : Text.isNameStart c with
        | true => rfl
        | false => simp [htext, Text.nameLength?, hc] at hname
      have hquote (q : Char) (hq : Text.isNameStart q = false) : Text.startsWith name (.ofList [q]) = false := by
        have hne : q ≠ c := by
          rintro rfl
          rw [hstart] at hq
          cases hq
        simp [Text.startsWith, htext, List.isPrefixOf, hne]
      have hdouble : Text.startsWith name "\"" = false := hquote '"' (by decide)
      have hsingle : Text.startsWith name "'" = false := hquote '\'' (by decide)
      rw [Kind.keyName, hdouble, hsingle]
      rfl
  · have hkey : ("'" ++ name ++ "'").toList = '\'' :: (name.toList ++ ['\'']) := by simp
    have hsingle : Text.startsWith ("'" ++ name ++ "'") "'" = true := by simp [Text.startsWith, hkey]
    rw [Kind.keyName, hsingle, Bool.or_true, if_pos rfl, Text.inner, hkey]
    simp

/-! ## Properties -/

/-- The properties with this name. -/
def named (name : String) (ps : List Node) : List Node := ps.filter (·.propertyName? == some name)

theorem named_append (name : String) (ps qs : List Node) : named name (ps ++ qs) = named name ps ++ named name qs :=
  List.filter_append ps qs

/-- What an index that is looked for is the index of. -/
theorem split_of_findIdx? {α : Type} {p : α → Bool} {xs : List α} {i : Nat} (h : xs.findIdx? p = some i) :
    ∃ before x after, xs = before ++ x :: after ∧ before.length = i ∧ p x = true ∧ ∀ y ∈ before, p y = false := by
  obtain ⟨hlt, hp, hbefore⟩ := List.findIdx?_eq_some_iff_getElem.mp h
  refine ⟨xs.take i, xs[i], xs.drop (i + 1), ?_, List.length_take_of_le (Nat.le_of_lt hlt), hp, fun y hy => ?_⟩
  · rw [List.getElem_cons_drop, List.take_append_drop]
  · obtain ⟨j, hj, rfl⟩ := List.getElem_of_mem hy
    rw [List.length_take] at hj
    rw [List.getElem_take]
    simpa using hbefore j (by omega)

/-- The first property with a name stands between others, and none before it has the name. -/
theorem split_of_index {name : String} {ps : List Node} {i : Nat}
    (h : ps.findIdx? (·.propertyName? == some name) = some i) : ∃ before p after, ps = before ++ p :: after ∧
      before.length = i ∧ p.propertyName? = some name ∧ named name before = [] := by
  obtain ⟨before, p, after, hps, hlength, hp, hbefore⟩ := split_of_findIdx? h
  exact ⟨before, p, after, hps, hlength, beq_iff_eq.mp hp,
    List.filter_eq_nil_iff.mpr fun q hq => by rw [hbefore q hq]; exact Bool.false_ne_true⟩

theorem named_of_index_none {name : String} {ps : List Node} (h : ps.findIdx? (·.propertyName? == some name) = none) :
    named name ps = [] :=
  List.filter_eq_nil_iff.mpr fun p hp => by simpa using List.findIdx?_eq_none_iff.mp h p hp

theorem named_cons_self {name : String} {p : Node} (hp : p.propertyName? = some name) (ps : List Node) :
    named name (p :: ps) = p :: named name ps := List.filter_cons_of_pos (by simp [hp])

theorem named_cons_other {name other : String} {p : Node} (hp : p.propertyName? = some name) (hne : other ≠ name)
    (ps : List Node) : named other (p :: ps) = named other ps :=
  List.filter_cons_of_neg (by simp [hp, Ne.symm hne])

/-- The name of the style that a change is about. -/
def StyleChange.name : StyleChange → String
  | .remove name | .assign name _ => name

/-- What a change leaves of the properties with its name. -/
def StyleChange.Leaves : StyleChange → List Node → Prop
  | .remove _, ps => ps = []
  | .assign _ value, ps => ∃ p, ps = [p] ∧ p.children = [value]

theorem propertyName?_withChildren (p : Node) (cs : List Node) : (p.withChildren cs).propertyName? = p.propertyName? := by
  rw [propertyName?, propertyName?, kind_withChildren]

/-- The properties after a change: one is left out, one gets another value, or one is added. -/
theorem children_changeStyle (o : Node) (c : StyleChange) :
    (∃ before p after, o.children = before ++ p :: after ∧ p.propertyName? = some c.name ∧ named c.name before = [] ∧
      ((∃ name, c = .remove name ∧ (changeStyle o c).children = before ++ after) ∨
        ∃ name value, c = .assign name value ∧
          (changeStyle o c).children = before ++ p.withChildren [value] :: after)) ∨
    named c.name o.children = [] ∧
      ((∃ name, c = .remove name ∧ (changeStyle o c).children = o.children) ∨
        ∃ name value, c = .assign name value ∧ (changeStyle o c).children =
          o.children ++ [Build.property name (propertySpace o.children) value]) := by
  cases hi : o.children.findIdx? (·.propertyName? == some c.name) with
  | some i =>
    left
    obtain ⟨before, p, after, hps, rfl, hp, hbefore⟩ := split_of_index hi
    refine ⟨before, p, after, hps, hp, hbefore, ?_⟩
    cases c with
    | remove name =>
      rw [StyleChange.name] at hi
      left
      refine ⟨name, rfl, ?_⟩
      rw [changeStyle]
      simp only [hi, Option.elim_some, children_withChildren]
      rw [hps, List.eraseIdx_append_of_length_le (Nat.le_refl _), Nat.sub_self]
      rfl
    | assign name value =>
      rw [StyleChange.name] at hi
      right
      refine ⟨name, value, rfl, ?_⟩
      rw [changeStyle]
      simp only [hi, children_withChildren]
      rw [hps, List.modify_eq_take_cons_drop (by simp)]
      simp
  | none =>
    right
    refine ⟨named_of_index_none hi, ?_⟩
    cases c with
    | remove name =>
      rw [StyleChange.name] at hi
      left
      refine ⟨name, rfl, ?_⟩
      rw [changeStyle]
      simp only [hi, Option.elim_none, children_withChildren]
    | assign name value =>
      rw [StyleChange.name] at hi
      right
      refine ⟨name, value, rfl, ?_⟩
      rw [changeStyle]
      simp only [hi]
      split
      · split <;> simp only [children_withKind, children_withChildren]
      · rw [children_withChildren]

/-- A change does to the properties with its name what it says, if there is at most one of them, and leaves the others. -/
theorem named_changeStyle (o : Node) (c : StyleChange) :
    ((named c.name o.children).length ≤ 1 → c.Leaves (named c.name (changeStyle o c).children)) ∧
      ∀ other, other ≠ c.name → named other (changeStyle o c).children = named other o.children := by
  rcases children_changeStyle o c with ⟨before, p, after, hps, hp, hbefore, hc⟩ | ⟨hnone, hc⟩
  · have hafter : (named c.name o.children).length ≤ 1 → named c.name after = [] := by
      intro hlen
      rw [hps, named_append, hbefore, named_cons_self hp] at hlen
      exact List.eq_nil_of_length_eq_zero (by simpa using hlen)
    rcases hc with ⟨name, rfl, hchildren⟩ | ⟨name, value, rfl, hchildren⟩
    · refine ⟨fun hlen => ?_, fun other hne => ?_⟩
      · show named name _ = []
        rw [hchildren, named_append, show named name before = [] from hbefore, show named name after = [] from hafter hlen]
        rfl
      · rw [hchildren, hps, named_append, named_append, named_cons_other hp hne]
    · have hp' : (p.withChildren [value]).propertyName? = some name := by rw [propertyName?_withChildren, hp]; rfl
      refine ⟨fun hlen => ⟨p.withChildren [value], ?_, children_withChildren _ _⟩, fun other hne => ?_⟩
      · show named name _ = _
        rw [hchildren, named_append, show named name before = [] from hbefore, named_cons_self hp',
          show named name after = [] from hafter hlen]
        rfl
      · rw [hchildren, hps, named_append, named_append, named_cons_other hp hne, named_cons_other hp' hne]
  · rcases hc with ⟨name, rfl, hchildren⟩ | ⟨name, value, rfl, hchildren⟩
    · refine ⟨fun _ => ?_, fun other _ => by rw [hchildren]⟩
      show named name _ = []
      rw [hchildren]
      exact hnone
    · have hp := propertyName?_property name (propertySpace o.children) value
      refine ⟨fun _ => ⟨Build.property name (propertySpace o.children) value, ?_, rfl⟩, fun other hne => ?_⟩
      · show named name _ = _
        rw [hchildren, named_append, show named name o.children = [] from hnone, named_cons_self hp]
        rfl
      · rw [hchildren, named_append, named_cons_other hp hne]
        exact List.append_nil _

/-- The change that an entry of a dictionary of styles asks for. -/
inductive Asks : String × Value Node → StyleChange → Prop
  | remove {name : String} {v : Value Node} (removal : isRemoval v = true) : Asks (name, v) (.remove name)
  | assign {name : String} {v : Value Node} {e : Node} (given : isRemoval v = false) (value : Build.styleValue v = .ok e) :
    Asks (name, v) (.assign name e)

theorem asks_of_styleChanges {d : Dict (Value Node)} {changes : List StyleChange} (h : styleChanges d = .ok changes) :
    List.Forall₂ Asks d changes := by
  induction d generalizing changes with
  | nil =>
    cases h
    exact .nil
  | cons e rest ih =>
    obtain ⟨name, v⟩ := e
    rw [styleChanges] at h
    split at h
    · next hremoval =>
      obtain ⟨others, hrest, h⟩ := bind_eq_ok h
      cases h
      exact .cons (.remove hremoval) (ih hrest)
    · next hgiven =>
      obtain ⟨value, hvalue, h⟩ := bind_eq_ok h
      obtain ⟨others, hrest, h⟩ := bind_eq_ok h
      cases h
      exact .cons (.assign (by simpa using hgiven) hvalue) (ih hrest)

theorem Asks.name {e : String × Value Node} {c : StyleChange} (h : Asks e c) : c.name = e.1 := by cases h <;> rfl

/-- What a style is after it was set: there is no property with the name, or just one, with the expression for the value. -/
def Restyled (v : Value Node) (ps : List Node) : Prop :=
  if isRemoval v then ps = [] else ∃ p value, ps = [p] ∧ Build.styleValue v = .ok value ∧ p.children = [value]

theorem Asks.restyled {e : String × Value Node} {c : StyleChange} (h : Asks e c) {ps : List Node} (hps : c.Leaves ps) :
    Restyled e.2 ps := by
  cases h with
  | remove removal =>
    rw [Restyled, if_pos removal]
    exact hps
  | assign given value =>
    obtain ⟨p, hps, hp⟩ := hps
    rw [Restyled, given, if_neg Bool.false_ne_true]
    exact ⟨p, _, hps, value, hp⟩

/-- The changes for a dictionary of styles do to each of them what it says, and leave the others. -/
theorem named_changes {d : Dict (Value Node)} {changes : List StyleChange} (h : List.Forall₂ Asks d changes)
    (hd : (d.map (·.1)).Nodup) {o : Node} (hsingle : ∀ e ∈ d, (named e.1 o.children).length ≤ 1) :
    (∀ e ∈ d, Restyled e.2 (named e.1 (changes.foldl changeStyle o).children)) ∧
      ∀ name, name ∉ d.map (·.1) → named name (changes.foldl changeStyle o).children = named name o.children := by
  induction h generalizing o with
  | nil => exact ⟨fun e he => absurd he List.not_mem_nil, fun name _ => rfl⟩
  | @cons e c rest others hasks _ ih =>
    rw [List.map_cons, List.nodup_cons] at hd
    rw [List.forall_mem_cons] at hsingle
    obtain ⟨hself, hothers⟩ := named_changeStyle o c
    rw [hasks.name] at hself hothers
    have hne {e' : String × Value Node} (he' : e' ∈ rest) : e'.1 ≠ e.1 := by
      intro heq
      exact hd.1 (heq ▸ List.mem_map_of_mem (f := (·.1)) he')
    obtain ⟨ihstyles, ihothers⟩ := ih hd.2 (o := changeStyle o c) fun e' he' => by
      rw [hothers e'.1 (hne he')]
      exact hsingle.2 e' he'
    refine ⟨List.forall_mem_cons.mpr ⟨?_, ihstyles⟩, fun other hother => ?_⟩
    · rw [List.foldl_cons, ihothers e.1 hd.1]
      exact hasks.restyled (hself hsingle.1)
    · rw [List.map_cons, List.mem_cons, not_or] at hother
      rw [List.foldl_cons, ihothers other hother.2, hothers other hother.1]

/-! ## The dictionary of an object literal -/

/-- The value of a key is the last one that was put in for it. -/
theorem get?_ofPairs {α : Type} (pairs : List (String × α)) (key : String) :
    (Dict.ofPairs pairs).get? key = ((pairs.filter (·.1 == key)).getLast?).map (·.2) := by
  induction pairs using List.reverseRecOn with
  | nil => rfl
  | append_singleton pairs e ih =>
    have hput : Dict.ofPairs (pairs ++ [e]) = (Dict.ofPairs pairs).put e.1 e.2 := List.foldl_concat ..
    rw [hput, List.filter_append]
    by_cases hkey : e.1 = key
    · subst hkey
      rw [Dict.get?_put_self, List.filter_cons_of_pos (by simp), List.filter_nil, List.getLast?_concat]
      rfl
    · rw [Dict.get?_put_of_ne _ _ (Ne.symm hkey), ih, List.filter_cons_of_neg (by simpa using hkey), List.filter_nil,
        List.append_nil]

/-- A property with its entry in the dictionary of styles. -/
def IsEntry (p : Node) (e : String × Value Node) : Prop :=
  p.propertyName? = some e.1 ∧ ∃ d, p.propertyValue = .ok d ∧ e.2 = .ofDatum d

theorem stylesOf_eq_ok {o : Node} {d : Dict (Value Node)} (h : stylesOf o = .ok d) :
    ∃ pairs, d = Dict.ofPairs pairs ∧ List.Forall₂ IsEntry o.children pairs := by
  obtain ⟨pairs, hpairs, h⟩ := bind_eq_ok h
  cases h
  refine ⟨pairs, rfl, ?_⟩
  clear h
  revert hpairs
  generalize o.children = ps
  intro hpairs
  induction ps generalizing pairs with
  | nil =>
    cases hpairs
    exact .nil
  | cons p ps ih =>
    rw [List.mapM_cons] at hpairs
    obtain ⟨e, he, hpairs⟩ := bind_eq_ok hpairs
    obtain ⟨rest, hrest, hpairs⟩ := bind_eq_ok hpairs
    cases hpairs
    refine .cons ?_ (ih rest hrest)
    split at he
    · cases he
    · next name hname =>
      obtain ⟨value, hvalue, he⟩ := bind_eq_ok he
      cases he
      exact ⟨hname, value, hvalue, rfl⟩

/-- The entries under a name are those of the properties with it. -/
theorem entries_named {ps : List Node} {pairs : List (String × Value Node)} (h : List.Forall₂ IsEntry ps pairs)
    (name : String) : List.Forall₂ IsEntry (named name ps) (pairs.filter (·.1 == name)) := by
  induction h with
  | nil => exact .nil
  | @cons p e ps pairs he _ ih =>
    by_cases hname : e.1 = name
    · rw [named_cons_self (hname ▸ he.1), List.filter_cons_of_pos (by simpa using hname)]
      exact .cons he ih
    · rw [named_cons_other he.1 (Ne.symm hname), List.filter_cons_of_neg (by simpa using hname)]
      exact ih

/-- The styles of an object literal have what was set, and not what was removed. -/
theorem get?_stylesOf {o : Node} {d : Dict (Value Node)} (h : stylesOf o = .ok d) {name : String} {v : Value Node}
    (hv : IsStyle v) (hstyle : Restyled v (named name o.children)) :
    d.get? name = if isRemoval v then none else some v := by
  obtain ⟨pairs, rfl, hpairs⟩ := stylesOf_eq_ok h
  have hentries := entries_named hpairs name
  rw [get?_ofPairs]
  rw [Restyled] at hstyle
  split
  · next hremoval =>
    rw [if_pos hremoval] at hstyle
    rw [hstyle, List.forall₂_nil_left_iff] at hentries
    rw [hentries]
    rfl
  · next hremoval =>
    rw [if_neg hremoval] at hstyle
    obtain ⟨p, e, hnamed, he, hchildren⟩ := hstyle
    rw [hnamed, List.forall₂_cons_left_iff] at hentries
    obtain ⟨entry, rest, ⟨-, value, hvalue, hentry⟩, hrest, hfilter⟩ := hentries
    rw [List.forall₂_nil_left_iff] at hrest
    subst hrest
    obtain ⟨datum, hdatum, hof⟩ := (isStyleNode_of_styleValue hv he).propertyValue hchildren
    cases hvalue.symm.trans hdatum
    rw [hfilter, List.getLast?_singleton, Option.map_some, hentry, hof]

/-! ## The keys of a dictionary -/

theorem keys_put {α : Type} (d : Dict α) (key : String) (value : α) :
    (d.put key value).map (·.1) = if key ∈ d.map (·.1) then d.map (·.1) else d.map (·.1) ++ [key] := by
  induction d with
  | nil => rfl
  | cons e rest ih =>
    by_cases hkey : e.1 = key
    · simp [Dict.put, hkey]
    · rw [Dict.put, if_neg (by simpa using hkey), List.map_cons, ih]
      by_cases hmem : key ∈ rest.map (·.1)
      · rw [if_pos hmem, if_pos (by rw [List.map_cons]; exact List.mem_cons_of_mem _ hmem), List.map_cons]
      · rw [if_neg hmem, if_neg (by rw [List.map_cons, List.mem_cons, not_or]; exact ⟨Ne.symm hkey, hmem⟩),
          List.map_cons, List.cons_append]

/-- No key has two entries. -/
theorem nodup_ofPairs {α : Type} (pairs : List (String × α)) : ((Dict.ofPairs pairs).map (·.1)).Nodup := by
  induction pairs using List.reverseRecOn with
  | nil => exact List.nodup_nil
  | append_singleton pairs e ih =>
    have hput : Dict.ofPairs (pairs ++ [e]) = (Dict.ofPairs pairs).put e.1 e.2 := List.foldl_concat ..
    rw [hput, keys_put]
    split
    · exact ih
    · next hmem =>
      refine List.nodup_append.mpr ⟨ih, List.nodup_singleton _, fun a ha b hb hab => hmem ?_⟩
      rwa [← List.mem_singleton.mp hb, ← hab]

/-- The values of a dictionary with other keys are values of the dictionary. -/
theorem mem_of_ofPairs {α : Type} {pairs : List (String × α)} {e : String × α} (h : e ∈ Dict.ofPairs pairs) :
    e ∈ pairs := by
  have hput (d : Dict α) (key : String) (value : α) : ∀ e ∈ d.put key value, e = (key, value) ∨ e ∈ d := by
    induction d with
    | nil => exact fun e he => .inl (List.mem_singleton.mp he)
    | cons f rest ih =>
      intro e he
      rw [Dict.put] at he
      split at he
      · next hkey =>
        rcases List.mem_cons.mp he with rfl | he
        · exact .inl (by rw [beq_iff_eq.mp hkey])
        · exact .inr (List.mem_cons_of_mem _ he)
      · rcases List.mem_cons.mp he with rfl | he
        · exact .inr List.mem_cons_self
        · exact (ih e he).imp_right (List.mem_cons_of_mem _)
  induction pairs using List.reverseRecOn with
  | nil => cases h
  | append_singleton pairs f ih =>
    rw [show Dict.ofPairs (pairs ++ [f]) = (Dict.ofPairs pairs).put f.1 f.2 from List.foldl_concat ..] at h
    rcases hput _ _ _ e h with rfl | h
    · exact List.mem_append_right _ List.mem_cons_self
    · exact List.mem_append_left _ (ih h)

theorem isStyle_rename {styles : Dict (Value Node)} (h : ∀ e ∈ styles, IsStyle e.2) :
    ∀ e ∈ Dict.rename Text.camelCase styles, IsStyle e.2 := by
  intro e he
  obtain ⟨f, hf, rfl⟩ := List.mem_map.mp (mem_of_ofPairs he)
  exact h f hf

/-- An object literal to which the changes for a dictionary of styles were made has those, and not the removed ones, if
there were no two properties with the same name. -/
theorem get?_changed {styles : Dict (Value Node)} (hstyles : ∀ e ∈ styles, IsStyle e.2) (hkeys : (styles.map (·.1)).Nodup)
    {changes : List StyleChange} (h : styleChanges styles = .ok changes) {o : Node}
    (hsingle : ∀ e ∈ styles, (named e.1 o.children).length ≤ 1) {d : Dict (Value Node)}
    (hd : stylesOf (changes.foldl changeStyle o) = .ok d) :
    ∀ e ∈ styles, d.get? e.1 = if isRemoval e.2 then none else some e.2 := by
  intro e he
  have hchanges := (named_changes (asks_of_styleChanges h) hkeys hsingle).1 e he
  exact get?_stylesOf hd (hstyles e he) hchanges

end Edit
end JsxEdit
