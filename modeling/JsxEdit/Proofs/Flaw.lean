import JsxEdit.Node.Generate
import JsxEdit.Proofs.Tree

/-
Writing with checks and writing without them.

A tree of nodes without a flaw is written by the checking writer as it is by the plain one. Otherwise the flaw reported
is that of the first node in document order that has one: a node comes before its attributes, these before its children,
and a value that is no node is a flaw of the node that holds it. Without checks the two writers agree on all trees of
nodes.
-/
set_option autoImplicit false

namespace JsxEdit.Node

/-- A tree of nodes without a flaw in any of them. -/
def Flawless (n : Node) : Prop := n.isForeign = false ∧ ∀ m ∈ n :: n.under, m.flaw? = none

/-- Only elements have attributes, at every depth. -/
def KeepsAttributes (n : Node) : Prop := ∀ m ∈ n :: n.under, m.kind.isElement = false → m.attributes = []

/-! ## What is below a tree -/

/-- A property of all nodes of a tree, by its root and its branches. -/
theorem forall_tree {P : Node → Prop} {n : Node} :
    (∀ m ∈ n :: n.under, P m) ↔ P n ∧ (∀ m ∈ within n.attributes, P m) ∧ ∀ m ∈ within n.children, P m := by
  rw [List.forall_mem_cons, under_eq, List.forall_mem_append]

/-- A property of all nodes of a list of trees, by its trees. -/
theorem forall_within {P : Node → Prop} {ns : List Node} :
    (∀ m ∈ within ns, P m) ↔ ∀ n ∈ ns, ∀ m ∈ n :: n.under, P m := by
  induction ns with
  | nil => exact iff_of_true (fun _ h => nomatch h) fun _ h => nomatch h
  | cons n ns ih => rw [within_cons, List.forall_mem_append, ih, List.forall_mem_cons (l := ns)]

/-- A node without a flaw holds nodes only. -/
theorem nodes_of_flaw? {n : Node} (h : n.flaw? = none) : ∀ m ∈ n.attributes ++ n.children, m.isForeign = false := by
  intro m hm
  unfold flaw? at h
  split at h
  · cases h
  · next hnone => simpa using List.find?_eq_none.mp hnone m hm

/-! ## Without a flaw -/

mutual

theorem generate_of_flawless : (n : Node) → n.isForeign = false → (∀ m ∈ n :: n.under, m.flaw? = none) →
    n.generate true = .ok n.write
  | .mk k i as cs, hn, h => by
    obtain ⟨hflaw, has, hcs⟩ := forall_tree.mp h
    obtain ⟨fas, fcs⟩ := List.forall_mem_append.mp (nodes_of_flaw? hflaw)
    have hattributes : generateAll true as = .ok (writeAll as) := generateAll_of_flawless as fas has
    have hchildren : generateAll true cs = .ok (writeAll cs) := generateAll_of_flawless cs fcs hcs
    have hitems : generateItems true cs = .ok (writeItems cs) := generateItems_of_flawless cs fcs hcs
    cases k with
    | foreign => cases hn
    | element => rw [generate, flawError?, hflaw, hattributes, hchildren, write]; rfl
    | object => rw [generate, flawError?, hflaw, hitems, write]; rfl
    | _ => simp only [generate, flawError?, hflaw, hchildren, write]; rfl

theorem generateAll_of_flawless : (ns : List Node) → (∀ n ∈ ns, n.isForeign = false) →
    (∀ m ∈ within ns, m.flaw? = none) → generateAll true ns = .ok (writeAll ns)
  | [], _, _ => rfl
  | n :: ns, hn, h => by
    rw [within_cons, List.forall_mem_append] at h
    rw [List.forall_mem_cons] at hn
    rw [generateAll, generate_of_flawless n hn.1 h.1, generateAll_of_flawless ns hn.2 h.2, writeAll]
    rfl

theorem generateItems_of_flawless : (ns : List Node) → (∀ n ∈ ns, n.isForeign = false) →
    (∀ m ∈ within ns, m.flaw? = none) → generateItems true ns = .ok (writeItems ns)
  | [], _, _ => rfl
  | [n], hn, h => by
    rw [within_singleton] at h
    exact generate_of_flawless n (hn n List.mem_cons_self) h
  | n :: m :: ns, hn, h => by
    rw [within_cons, List.forall_mem_append] at h
    rw [List.forall_mem_cons] at hn
    rw [generateItems, generate_of_flawless n hn.1 h.1, generateItems_of_flawless (m :: ns) hn.2 h.2, writeItems]
    rfl

end

/-- A tree without a flaw is written. -/
theorem Flawless.generate {n : Node} (h : n.Flawless) : n.generate true = .ok n.write :=
  generate_of_flawless n h.1 h.2

/-! ## The first flaw -/

/-- The error of the first node with a flaw. -/
def firstFlaw (ns : List Node) : Option GenerationError := ns.findSome? flawError?

theorem firstFlaw_append (ns ms : List Node) : firstFlaw (ns ++ ms) = (firstFlaw ns).or (firstFlaw ms) :=
  List.findSome?_append

theorem firstFlaw_eq_none {ns : List Node} : firstFlaw ns = none ↔ ∀ n ∈ ns, n.flaw? = none := by
  rw [firstFlaw, List.findSome?_eq_none_iff]
  refine forall_congr' fun n => forall_congr' fun _ => ?_
  rw [flawError?, Option.map_eq_none_iff]

/-- Nodes that are written one after the other are written up to the first that fails. -/
theorem bind_error {α : Type} {x : Except Fault String} {f : Fault} (h : x = .error f) (g : String → Except Fault α) :
    (x >>= g) = .error f := by
  rw [h]
  rfl

mutual

theorem generate_of_flaw : (n : Node) → n.KeepsAttributes → n.isForeign = false → {e : GenerationError} →
    firstFlaw (n :: n.under) = some e → n.generate true = .error (.generation e)
  | .mk k i as cs, hkeeps, hn, e, h => by
    obtain ⟨hown, kas, kcs⟩ := forall_tree.mp hkeeps
    cases hflaw : flawError? (.mk k i as cs) with
    | some e' =>
      rw [firstFlaw, List.findSome?_cons, hflaw] at h
      rw [← Option.some.inj h]
      cases k <;> simp only [generate, hflaw] <;> rfl
    | none =>
      -- the node itself is written, so the flaw is below it, and all that is below it are nodes
      rw [firstFlaw, List.findSome?_cons, hflaw, under_eq] at h
      obtain ⟨fas, fcs⟩ := List.forall_mem_append.mp (nodes_of_flaw? (Option.map_eq_none_iff.mp hflaw))
      have hbelow : (firstFlaw (within as)).or (firstFlaw (within cs)) = some e := by
        rw [← firstFlaw_append]
        exact h
      have hchildren : k.isElement = false → firstFlaw (within cs) = some e := by
        intro hk
        have hempty : as = [] := hown hk
        rw [hempty] at hbelow
        exact hbelow
      cases k with
      | foreign => cases hn
      | element =>
        rcases Option.or_eq_some_iff.mp hbelow with has | ⟨has, hcs⟩
        · rw [generate, hflaw]
          exact bind_error (generateAll_of_flaw as kas fas has) _
        · rw [generate, hflaw, generateAll_of_flawless as fas (firstFlaw_eq_none.mp has)]
          exact bind_error (generateAll_of_flaw cs kcs fcs hcs) _
      | object =>
        rw [generate, hflaw]
        exact bind_error (generateItems_of_flaw cs kcs fcs (hchildren rfl)) _
      | _ =>
        simp only [generate, hflaw]
        exact bind_error (generateAll_of_flaw cs kcs fcs (hchildren rfl)) _

theorem generateAll_of_flaw : (ns : List Node) →
    (∀ m ∈ within ns, m.kind.isElement = false → m.attributes = []) → (∀ n ∈ ns, n.isForeign = false) →
    {e : GenerationError} → firstFlaw (within ns) = some e → generateAll true ns = .error (.generation e)
  | [], _, _, _, h => by cases h
  | n :: ns, hkeeps, hn, e, h => by
    rw [within_cons, List.forall_mem_append] at hkeeps
    rw [List.forall_mem_cons] at hn
    rw [within_cons, firstFlaw_append] at h
    rcases Option.or_eq_some_iff.mp h with hfirst | ⟨hfirst, hrest⟩
    · exact bind_error (generate_of_flaw n hkeeps.1 hn.1 hfirst) _
    · rw [generateAll, generate_of_flawless n hn.1 (firstFlaw_eq_none.mp hfirst)]
      exact bind_error (generateAll_of_flaw ns hkeeps.2 hn.2 hrest) _

theorem generateItems_of_flaw : (ns : List Node) →
    (∀ m ∈ within ns, m.kind.isElement = false → m.attributes = []) → (∀ n ∈ ns, n.isForeign = false) →
    {e : GenerationError} → firstFlaw (within ns) = some e → generateItems true ns = .error (.generation e)
  | [], _, _, _, h => by cases h
  | [n], hkeeps, hn, e, h => by
    rw [within_singleton] at hkeeps h
    exact generate_of_flaw n hkeeps (hn n List.mem_cons_self) h
  | n :: m :: ns, hkeeps, hn, e, h => by
    rw [within_cons, List.forall_mem_append] at hkeeps
    rw [List.forall_mem_cons] at hn
    rw [within_cons, firstFlaw_append] at h
    rcases Option.or_eq_some_iff.mp h with hfirst | ⟨hfirst, hrest⟩
    · exact bind_error (generate_of_flaw n hkeeps.1 hn.1 hfirst) _
    · rw [generateItems, generate_of_flawless n hn.1 (firstFlaw_eq_none.mp hfirst)]
      exact bind_error (generateItems_of_flaw (m :: ns) hkeeps.2 hn.2 hrest) _

end

/-! ## Without checks -/

mutual

theorem generate_unchecked : (n : Node) → n.isForeign = false → n.hasForeign = false → n.generate false = .ok n.write
  | .mk k i as cs, hn, h => by
    rw [hasForeign, Bool.or_eq_false_iff] at h
    have hattributes : generateAll false as = .ok (writeAll as) := generateAll_unchecked as h.1
    have hchildren : generateAll false cs = .ok (writeAll cs) := generateAll_unchecked cs h.2
    have hitems : generateItems false cs = .ok (writeItems cs) := generateItems_unchecked cs h.2
    cases k with
    | foreign => cases hn
    | element => rw [generate, hattributes, hchildren, write]; rfl
    | object => rw [generate, hitems, write]; rfl
    | _ => simp only [generate, hchildren, write]; rfl

theorem generateAll_unchecked : (ns : List Node) → anyForeign ns = false → generateAll false ns = .ok (writeAll ns)
  | [], _ => rfl
  | n :: ns, h => by
    simp only [anyForeign, Bool.or_eq_false_iff] at h
    rw [generateAll, generate_unchecked n h.1.1 h.1.2, generateAll_unchecked ns h.2, writeAll]
    rfl

theorem generateItems_unchecked : (ns : List Node) → anyForeign ns = false →
    generateItems false ns = .ok (writeItems ns)
  | [], _ => rfl
  | [n], h => by
    simp only [anyForeign, Bool.or_eq_false_iff] at h
    exact generate_unchecked n h.1.1 h.1.2
  | n :: m :: ns, h => by
    rw [anyForeign, Bool.or_eq_false_iff, Bool.or_eq_false_iff] at h
    rw [generateItems, generate_unchecked n h.1.1 h.1.2, generateItems_unchecked (m :: ns) h.2, writeItems]
    rfl

end

/-! ## The two writers -/

/-- On every tree, the writer that checks gives the text of the plain one if no node has a flaw, and otherwise reports the
first node in document order that has one; on every tree of nodes, the writer that does not check gives the text of the
plain one. -/
theorem generate_agrees (tree : Node) (hnode : tree.isForeign = false) (hkeeps : tree.KeepsAttributes) :
    ((∀ n ∈ tree :: tree.descendants, n.flaw? = none) → tree.generate true = .ok tree.write) ∧
    (∀ before n after message, tree :: tree.descendants = before ++ n :: after → (∀ m ∈ before, m.flaw? = none) →
      n.flaw? = some message → tree.generate true = .error (.generation ⟨message, n⟩)) ∧
    (tree.hasForeign = false → tree.generate false = .ok tree.write) := by
  rw [descendants_eq_under]
  refine ⟨generate_of_flawless tree hnode, ?_, generate_unchecked tree hnode⟩
  intro before n after message hsplit hbefore hflaw
  apply generate_of_flaw tree hkeeps hnode
  rw [hsplit, firstFlaw_append, firstFlaw_eq_none.mpr hbefore, Option.none_or, firstFlaw, List.findSome?_cons, flawError?,
    hflaw]
  rfl

/-- A line break that closes itself and still has a child. -/
def fullBreak : Node := .mk (.element "br" true " " none) {} [.attr "id" none] [.text "inside"]

/-- A box with attributes and children, before and after what is in it. -/
def boxOf (inside : List Node) : Node :=
  .mk (.element "div" false "" (some "div")) {} [.attr "class" (some (.new (.attributeString "a" "\"") []))]
    (.text "before" :: inside ++ [.new (.slot "" "") [.code "x", .code "y"]])

theorem generate_boxOf_fullBreak :
    (boxOf [fullBreak]).generate true =
        .error (.generation ⟨"Self-closing element <br> has children", fullBreak⟩) ∧
      (boxOf [fullBreak]).generate false = .ok (boxOf [fullBreak]).write ∧
      fullBreak.opened.generate true = .ok fullBreak.opened.write := by
  have hkeeps : (boxOf [fullBreak]).KeepsAttributes := by
    intro m hm
    simp only [boxOf, fullBreak, under, within, attr, Option.toList, new, text, code, List.cons_append, List.nil_append,
      List.append_nil, List.mem_cons, List.not_mem_nil, or_false] at hm
    rcases hm with rfl | rfl | rfl | rfl | rfl | rfl | rfl | rfl | rfl | rfl <;> first | exact fun _ => rfl | exact nofun
  have hopened : fullBreak.opened.KeepsAttributes := by
    intro m hm
    have hm : m ∈ [fullBreak.opened, .attr "id" none, .text "inside"] := hm
    simp only [List.mem_cons, List.not_mem_nil, or_false] at hm
    rcases hm with rfl | rfl | rfl <;> first | exact fun _ => rfl | exact nofun
  obtain ⟨-, hflaw, hfree⟩ := generate_agrees (boxOf [fullBreak]) rfl hkeeps
  refine ⟨?_, hfree rfl, (generate_agrees fullBreak.opened rfl hopened).1 (by decide)⟩
  exact hflaw [boxOf [fullBreak], .attr "class" (some (.new (.attributeString "a" "\"") [])),
    .new (.attributeString "a" "\"") [], .text "before"] fullBreak _ _ rfl (by decide) (by decide)

end JsxEdit.Node
