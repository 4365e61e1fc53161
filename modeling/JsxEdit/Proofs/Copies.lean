import JsxEdit.Proofs.DocumentOrder
import JsxEdit.Proofs.FlawlessTree
import JsxEdit.Proofs.Innermost
import JsxEdit.Proofs.Purge
import JsxEdit.Proofs.Whole

/-
Copies of trees that can be written.

What a copy changes of a kind is not written, not compared and no flaw, unless the node has one already: a closing name
has to be that of the opening tag, and an element that closes itself has no children. So a copy of a tree without a flaw
is written and compared as the tree is. What it was read from is not copied.
-/
set_option autoImplicit false

namespace JsxEdit

/-! ## The kind of a copy -/

namespace Kind

section

variable {k : Kind} {cs : List Node} (h : k.Permits cs.length)
include h

/-- An element that closes itself has no children, so that its copy closes itself too. -/
theorem Permits.copied_eq : k.copied (!cs.isEmpty) = k.copied false := by
  cases k with
  | element name selfClosing spaceEnd closingName =>
    cases selfClosing with
    | false => rfl
    | true =>
      have hempty : cs = [] := List.eq_nil_of_length_eq_zero (h.2.2 rfl)
      rw [hempty]
      rfl
  | _ => rfl

/-- The closing name follows the tag name, as it had to before. -/
theorem Permits.closing_copied : (k.copied false).closing = k.closing := by
  cases k with
  | element name selfClosing spaceEnd closingName =>
    cases selfClosing with
    | true => rfl
    | false =>
      rcases h.2.1 with rfl | rfl
      · rfl
      · show "</" ++ name ++ ">" = "</" ++ (if name.isEmpty then name else name) ++ ">"
        rw [ite_self]
  | _ => rfl

end

theorem opening_copied (k : Kind) : (k.copied false).opening = k.opening := by cases k <;> rfl

theorem tagEnd_copied (k : Kind) : (k.copied false).tagEnd = k.tagEnd := by
  cases k with
  | element name selfClosing spaceEnd closingName => cases selfClosing <;> rfl
  | _ => rfl

theorem name_copied (b : Bool) (k : Kind) : (k.copied b).name = k.name := by cases k <;> rfl

end Kind

/-! ## Comparing a kind with that of its copy -/

/-- Only the float that is no number differs from itself. -/
theorem Datum.same_ofNumber {v : Number} (h : v ≠ .float .nan) :
    Datum.same (Value.ofNumber v) (Value.ofNumber v) = true := by
  cases v with
  | int n => exact beq_self_eq_true n
  | float d => exact Number.same_self fun hd => h (congrArg Number.float hd)

namespace Kind

/-- If the node is a number literal, its text stands for a number. -/
def HasNumber : Kind → Prop
  | .number s => ∃ v, numberValue s = .ok v ∧ v ≠ .float .nan
  | _ => True

theorem same_head (k : Kind) : k.head.same k.head = true := by
  cases k with
  | code s => cases s <;> simp [head, Value.ofText?, Datum.same]
  | boolean b => cases b <;> rfl
  | _ => simp [head, Datum.same]

/-- A kind agrees with itself as far as its references can be read. -/
theorem bodySame_self {k : Kind} (h : k.isForeign = false) (hnumber : k.HasNumber) :
    k.bodySame k = Node.verdict k.isReadable := by
  have hhead : k.sameHead k = Node.verdict true := by
    rw [sameHead, h, same_head]
    rfl
  cases k with
  | foreign v => cases h
  | element name selfClosing spaceEnd closingName => simp [bodySame, sameTag, isReadable, Node.verdict]
  | property key space colon => simp [bodySame, sameName, isReadable, Node.verdict]
  | number s =>
    obtain ⟨v, hv, hnan⟩ := hnumber
    have hvalue : (Kind.number s).literalValue = .ok (.ofNumber v) := by
      rw [literalValue, hv]
      rfl
    show sameValue (.number s) (.number s) = _
    simp [sameValue, hvalue, isLiteral, Datum.same_ofNumber hnan, isReadable, Node.verdict, bind, Except.bind, pure,
      Except.pure]
  | string raw quote =>
    simp [bodySame, sameValue, literalValue, isLiteral, Datum.same, isReadable, Node.verdict, bind, Except.bind, pure,
      Except.pure]
  | attributeString raw quote =>
    cases hread : Text.decodeReferences? raw <;>
      simp [bodySame, sameValue, isReadable, hread, literalValue, Literal.references, isLiteral, Node.verdict, bind,
        Except.bind, pure, Except.pure, Except.map, Datum.same]
  | document | fragment | slot | attributes | spread | script | null | object => rfl
  | _ => exact hhead

theorem bodySame_copied {k : Kind} {n : Nat} (h : k.Permits n) (hnumber : k.HasNumber) :
    k.bodySame (k.copied false) = Node.verdict k.isReadable ∧
      (k.copied false).bodySame k = Node.verdict k.isReadable := by
  have hself : k.isForeign = false → k.bodySame k = Node.verdict k.isReadable := fun hf => bodySame_self hf hnumber
  cases k with
  | foreign v => cases h
  | invalid reason position => cases h
  | document source => exact ⟨rfl, rfl⟩
  | element name selfClosing spaceEnd closingName =>
    have hclosing : (selfClosing && !false) = selfClosing := Bool.and_true selfClosing
    rw [copied, hclosing]
    exact ⟨hself rfl, hself rfl⟩
  | _ => exact ⟨hself rfl, hself rfl⟩

end Kind

namespace Node

/-! ## The copy of a tree -/

/-- String literals have no children, at every depth. -/
def BareStrings (n : Node) : Prop := ∀ m ∈ n :: n.under, m.kind.isString = true → m.children = []

/-- Number literals stand for numbers, at every depth. -/
def HasNumbers (n : Node) : Prop := ∀ m ∈ n :: n.under, m.kind.HasNumber

/-- A copy has copies of the attributes and the children, if the node is no string literal with children. -/
theorem copy_mk {k : Kind} {i : Info} {as cs : List Node} (hk : k.Permits cs.length)
    (hbare : k.isString = true → cs = []) :
    (mk k i as cs).copy = mk (k.copied false) {} (copyAll as) (copyAll cs) := by
  have hchildren : (if k.isString then [] else copyAll cs) = copyAll cs := by
    split
    · next hstring => rw [hbare hstring, copyAll]
    · rfl
  rw [copy, hk.copied_eq, hchildren]

/-! ### What it writes -/

theorem isEmpty_copyAll (ns : List Node) : (copyAll ns).isEmpty = ns.isEmpty := by cases ns <;> rfl

mutual

theorem write_copy : (n : Node) → n.Flawless → n.BareStrings → n.copy.write = n.write
  | .mk k i as cs, h, hbare => by
    obtain ⟨hk, has, hcs⟩ := flawless_mk.mp h
    obtain ⟨hown, bas, bcs⟩ := forall_tree.mp hbare
    have hattributes : writeAll (copyAll as) = writeAll as := writeAll_copyAll as has bas
    have hchildren : writeAll (copyAll cs) = writeAll cs := writeAll_copyAll cs hcs bcs
    have hitems : writeItems (copyAll cs) = writeItems cs := writeItems_copyAll cs hcs bcs
    have hopening := Kind.opening_copied k
    have hend := Kind.tagEnd_copied k
    have hclosing := hk.closing_copied
    rw [copy_mk hk hown]
    cases k with
    | element name selfClosing spaceEnd closingName =>
      rw [write, ← hopening, ← hend, ← hclosing, ← hattributes, ← hchildren]
      rfl
    | object trailing => rw [write, ← hitems]; rfl
    | attr name space => rw [write, ← hchildren, ← isEmpty_copyAll cs]; rfl
    | _ => simp only [write, ← hopening, ← hclosing, ← hchildren]; rfl

theorem writeAll_copyAll : (ns : List Node) → (∀ n ∈ ns, n.Flawless) →
    (∀ m ∈ within ns, m.kind.isString = true → m.children = []) → writeAll (copyAll ns) = writeAll ns
  | [], _, _ => rfl
  | n :: ns, h, hbare => by
    rw [List.forall_mem_cons] at h
    rw [within_cons, List.forall_mem_append] at hbare
    rw [copyAll, writeAll, writeAll, write_copy n h.1 hbare.1, writeAll_copyAll ns h.2 hbare.2]

theorem writeItems_copyAll : (ns : List Node) → (∀ n ∈ ns, n.Flawless) →
    (∀ m ∈ within ns, m.kind.isString = true → m.children = []) → writeItems (copyAll ns) = writeItems ns
  | [], _, _ => rfl
  | [n], h, hbare => by
    rw [List.forall_mem_singleton] at h
    rw [within_singleton] at hbare
    exact write_copy n h hbare
  | n :: m :: ns, h, hbare => by
    rw [List.forall_mem_cons] at h
    rw [within_cons, List.forall_mem_append] at hbare
    have hrest := writeItems_copyAll (m :: ns) h.2 hbare.2
    rw [copyAll] at hrest
    rw [copyAll, copyAll, writeItems, writeItems, write_copy n h.1 hbare.1, hrest]

end

/-! ### How it compares -/

mutual

/-- A tree and its copy are equal if the values of all attribute strings can be worked out, and cannot be compared
otherwise. -/
theorem equals_copy : (n : Node) → n.Flawless → n.BareStrings → n.HasNumbers →
    n.copy.equals n = verdict n.isReadable ∧ n.equals n.copy = verdict n.isReadable
  | .mk k i as cs, h, hbare, hnumbers => by
    obtain ⟨hk, has, hcs⟩ := flawless_mk.mp h
    obtain ⟨hown, bas, bcs⟩ := forall_tree.mp hbare
    obtain ⟨hnumber, nas, ncs⟩ := forall_tree.mp hnumbers
    obtain ⟨hbody, hbody'⟩ := Kind.bodySame_copied hk hnumber
    obtain ⟨hattributes, hattributes'⟩ := equalsAll_copyAll as has bas nas
    obtain ⟨hchildren, hchildren'⟩ := equalsAll_copyAll cs hcs bcs ncs
    have hnode : k.isForeign = false := h.1
    have hcopy : (k.copied false).isForeign = false := (isForeign_copied false k).trans hnode
    rw [copy_mk hk hown, isReadable]
    exact ⟨equals_mk hcopy (Kind.name_copied false k) hbody' hattributes hchildren,
      equals_mk hnode (Kind.name_copied false k).symm hbody hattributes' hchildren'⟩

theorem equalsAll_copyAll : (ns : List Node) → (∀ n ∈ ns, n.Flawless) →
    (∀ m ∈ within ns, m.kind.isString = true → m.children = []) → (∀ m ∈ within ns, m.kind.HasNumber) →
    equalsAll (copyAll ns) ns = verdict (allReadable ns) ∧ equalsAll ns (copyAll ns) = verdict (allReadable ns)
  | [], _, _, _ => ⟨rfl, rfl⟩
  | n :: ns, h, hbare, hnumbers => by
    rw [List.forall_mem_cons] at h
    rw [within_cons, List.forall_mem_append] at hbare hnumbers
    obtain ⟨hfirst, hfirst'⟩ := equals_copy n h.1 hbare.1 hnumbers.1
    obtain ⟨hrest, hrest'⟩ := equalsAll_copyAll ns h.2 hbare.2 hnumbers.2
    rw [copyAll, allReadable]
    exact ⟨equalsAll_cons hfirst hrest, equalsAll_cons hfirst' hrest'⟩

end

/-! ### Where it comes from -/

mutual

theorem info_copy : (n : Node) → ∀ m ∈ n.copy :: n.copy.under, m.info = {}
  | .mk k i as cs => by
    rw [copy]
    refine forall_tree.mpr ⟨rfl, info_copyAll as, ?_⟩
    rw [children_mk]
    split
    · exact fun m hm => nomatch hm
    · exact info_copyAll cs

theorem info_copyAll : (ns : List Node) → ∀ m ∈ within (copyAll ns), m.info = {}
  | [] => fun m hm => nomatch hm
  | n :: ns => by
    rw [copyAll, within_cons, List.forall_mem_append]
    exact ⟨info_copy n, info_copyAll ns⟩

end

/-- The node starts and stops nowhere in a source. -/
structure Untraced (n : Node) : Prop where
  start : n.start = .ok none
  stop : n.stop = .ok none

theorem span_of_untraced {ns : List Node} (h : ∀ n ∈ ns, n.Untraced) (hnodes : ∀ n ∈ ns, n.isForeign = false) :
    firstStart ns = .ok none ∧ lastStop ns = .ok none := by
  induction ns with
  | nil => exact ⟨rfl, rfl⟩
  | cons n ns ih =>
    rw [List.forall_mem_cons] at h hnodes
    obtain ⟨hfirst, hlast⟩ := ih h.2 hnodes.2
    rw [firstStart, lastStop, hnodes.1, h.1.start, h.1.stop, hfirst, hlast]
    exact ⟨rfl, rfl⟩

mutual

/-- No node of a tree that was read from nowhere has a place in a source. -/
theorem untraced_of_info : (n : Node) → (∀ m ∈ n :: n.under, m.info = {}) → (∀ m ∈ n.under, m.isForeign = false) →
    ∀ m ∈ n :: n.under, m.Untraced
  | .mk k i as cs, h, hnodes => by
    obtain ⟨hown, ias, ics⟩ := forall_tree.mp h
    rw [under, List.forall_mem_append] at hnodes
    have has : ∀ m ∈ within as, m.Untraced := untraced_within as ias hnodes.1
    have hcs : ∀ m ∈ within cs, m.Untraced := untraced_within cs ics hnodes.2
    have hfirst : ∀ {ns : List Node} {P : Node → Prop}, (∀ m ∈ within ns, P m) → ∀ n ∈ ns, P n :=
      fun hall n hn => forall_within.mp hall n hn n List.mem_cons_self
    obtain ⟨hstart, hstop⟩ := span_of_untraced (hfirst has) (hfirst hnodes.1)
    obtain ⟨hstart', hstop'⟩ := span_of_untraced (hfirst hcs) (hfirst hnodes.2)
    have hinfo : i = {} := hown
    refine forall_tree.mpr ⟨⟨?_, ?_⟩, has, hcs⟩
    · rw [start, hinfo, hstart, hstart']
    · rw [stop, hinfo, hstop, hstop']
      rfl

theorem untraced_within : (ns : List Node) → (∀ m ∈ within ns, m.info = {}) →
    (∀ m ∈ within ns, m.isForeign = false) → ∀ m ∈ within ns, m.Untraced
  | [], _, _ => fun m hm => nomatch hm
  | n :: ns, h, hnodes => by
    rw [within_cons, List.forall_mem_append] at h hnodes ⊢
    exact ⟨untraced_of_info n h.1 (List.forall_mem_cons.mp hnodes.1).2, untraced_within ns h.2 hnodes.2⟩

end

/-! ## Trees that can be written -/

theorem generate_foreign {n : Node} (h : n.isForeign = true) (text : String) : n.generate true ≠ .ok text := by
  cases n with
  | mk k i as cs =>
    cases k with
    | foreign v =>
      intro heq
      rw [generate] at heq
      split at heq
      · cases heq
      · cases heq
    | _ => cases h

/-- What the checking writer writes has no flaw. -/
theorem flawless_of_generate {n : Node} {text : String} (hkeeps : n.KeepsAttributes)
    (h : n.generate true = .ok text) : n.Flawless := by
  have hnode : n.isForeign = false := Bool.eq_false_iff.mpr fun hforeign => generate_foreign hforeign text h
  refine ⟨hnode, firstFlaw_eq_none.mp ?_⟩
  cases hflaw : firstFlaw (n :: n.under) with
  | none => rfl
  | some e =>
    rw [generate_of_flaw n hkeeps hnode hflaw] at h
    cases h

theorem Flawless.copyChecked {n : Node} (h : n.Flawless) : n.copyChecked true = .ok n.copy := by
  cases n with
  | mk k i as cs =>
    have hnodes := hasForeign_of_nodes _ (foreign_of_mem_under _ h)
    rw [hasForeign, Bool.or_eq_false_iff] at hnodes
    have hlooked : anyForeign (if k.isString then [] else cs) = false := by
      split
      · rfl
      · exact hnodes.2
    have hlooks : (if (true && !k.isString) = true then cs else []) = if k.isString then [] else cs := by
      cases k.isString <;> rfl
    have hnode : (mk k i as cs).isForeign = false := h.1
    rw [Node.copyChecked, kind_mk, attributes_mk, children_mk, hlooks, hnode, hnodes.1, hlooked]
    rfl

/-- A tree that can be written, and whose string literals have no children, has a copy that is written in the same way,
with checks and without, and none of whose nodes has a place in a source. If its number literals stand for numbers, the
tree and its copy are equal, unless an attribute string has a value that cannot be worked out: then they cannot be
compared. -/
theorem copy_faithful {n : Node} {text : String} (hkeeps : n.KeepsAttributes) (hbare : n.BareStrings)
    (hwritten : n.generate true = .ok text) :
    n.copyChecked true = .ok n.copy ∧ n.copy.write = n.write ∧ n.copy.generate true = .ok text ∧
      (∀ m ∈ n.copy :: n.copy.under, m.Untraced) ∧
      (n.HasNumbers → n.copy.equals n = verdict n.isReadable ∧ n.equals n.copy = verdict n.isReadable) := by
  have h := flawless_of_generate hkeeps hwritten
  have hcopy := flawless_copy n h
  have hwrite := write_copy n h hbare
  refine ⟨h.copyChecked, hwrite, ?_, untraced_of_info _ (info_copy n) (foreign_of_mem_under _ hcopy),
    equals_copy n h hbare⟩
  rw [hcopy.generate, hwrite, ← h.generate, hwritten]

/-- An element that was read with its closing tag and a number in it. -/
def priced : Node :=
  .mk (.element "b" false " " (some "b")) ⟨some ⟨0, 2⟩, some ⟨14, 18⟩, none⟩
    [.attr "n" (some (.slot (.new (.number "0x1f") [])))] [.text "x"]

theorem copy_priced : priced.copy.write = "<b n=\x7b0x1f\x7d >x</b>" ∧
    (∀ m ∈ priced.copy :: priced.copy.under, m.Untraced) ∧ priced.copy.equals priced = .ok true ∧
    priced.equals priced.copy = .ok true := by
  have hkeeps : priced.KeepsAttributes := by
    unfold KeepsAttributes
    decide
  have hbare : priced.BareStrings := by
    unfold BareStrings
    decide
  have hnumbers : priced.HasNumbers := by
    intro m hm
    have hm : m ∈ priced :: [.attr "n" (some (.slot (.new (.number "0x1f") []))), .slot (.new (.number "0x1f") []),
      .new (.number "0x1f") [], .text "x"] := hm
    simp only [List.mem_cons, List.not_mem_nil, or_false] at hm
    rcases hm with rfl | rfl | rfl | rfl | rfl
    · trivial
    · trivial
    · trivial
    · refine ⟨.int 31, rfl, ?_⟩
      intro h
      cases h
    · trivial
  have hwritten : priced.generate true = .ok "<b n=\x7b0x1f\x7d >x</b>" := rfl
  obtain ⟨-, hwrite, -, huntraced, hequal⟩ := copy_faithful hkeeps hbare hwritten
  exact ⟨hwrite, huntraced, hequal hnumbers⟩

/-- An element with an identity that cannot be worked out is written, and not compared with its copy. -/
theorem copy_of_unreadable : unreadable.KeepsAttributes ∧ unreadable.BareStrings ∧ unreadable.HasNumbers ∧
    unreadable.generate true = .ok unreadable.write ∧ unreadable.copy.equals unreadable = .error .badNumber := by
  have hvalue : (new (.attributeString longReference "\"") []).Flawless := flawless_leaf trivial
  have hattribute : (attr identityName (some (new (.attributeString longReference "\"") []))).Flawless :=
    flawless_around ⟨by decide, Nat.le_refl 1⟩ hvalue
  have hflawless : unreadable.Flawless :=
    flawless_mk.mpr ⟨⟨by decide, .inl rfl, fun _ => rfl⟩, List.forall_mem_singleton.mpr hattribute, List.forall_mem_nil _⟩
  have hnodes : ∀ m ∈ unreadable :: unreadable.under, (m.kind.isElement = false → m.attributes = []) ∧
      (m.kind.isString = true → m.children = []) ∧ m.kind.HasNumber := by
    intro m hm
    have hm : m ∈ [unreadable, attr identityName (some (new (.attributeString longReference "\"") [])),
      new (.attributeString longReference "\"") []] := hm
    simp only [List.mem_cons, List.not_mem_nil, or_false] at hm
    rcases hm with rfl | rfl | rfl
    · exact ⟨fun h => absurd h (by decide), fun h => absurd h (by decide), trivial⟩
    · exact ⟨fun _ => rfl, fun h => absurd h (by decide), trivial⟩
    · exact ⟨fun _ => rfl, fun _ => rfl, trivial⟩
  have hbare : unreadable.BareStrings := fun m hm => (hnodes m hm).2.1
  have hnumbers : unreadable.HasNumbers := fun m hm => (hnodes m hm).2.2
  have hread : unreadable.isReadable = false := by
    simp [unreadable, Edit.Command.identified, element, attr, new, isReadable, allReadable, Kind.isReadable,
      decodeReferences?_long]
  refine ⟨fun m hm => (hnodes m hm).1, hbare, hnumbers, hflawless.generate, ?_⟩
  rw [(equals_copy unreadable hflawless hbare hnumbers).1, hread]
  rfl

end Node
end JsxEdit
