import JsxEdit.Proofs.Adjacent
import JsxEdit.Proofs.Likeness

/-
What is read between tags and in slots.

Only elements are read with attributes. Between tags there are texts, markup and slots, and a slot that was read holds
an expression: a script, an object, or what one text was taken for. So there are no attribute strings in slots, and
strings there have single or double quotes.
-/
set_option autoImplicit false

namespace JsxEdit

open List (Forall₂)

/-! ## Attributes -/

theorem forall₂_self {α : Type} {P : α → Prop} {xs ys : List α} :
    Forall₂ (fun x y => x = y ∧ P x) xs ys ↔ xs = ys ∧ ∀ x ∈ xs, P x := by
  constructor
  · intro h
    induction h with
    | nil => exact ⟨rfl, List.forall_mem_nil _⟩
    | cons hxy _ ih =>
      obtain ⟨rfl, hx⟩ := hxy
      obtain ⟨rfl, hxs⟩ := ih
      exact ⟨rfl, List.forall_mem_cons.mpr ⟨hx, hxs⟩⟩
  · rintro ⟨rfl, hxs⟩
    exact List.forall₂_same.mpr fun x hx => ⟨rfl, hxs x hx⟩

namespace Node

theorem keepsAttributes_mk {k : Kind} {i : Info} {as cs : List Node} : (mk k i as cs).KeepsAttributes ↔
    (k.isElement = false → as = []) ∧ (∀ a ∈ as, a.KeepsAttributes) ∧ ∀ c ∈ cs, c.KeepsAttributes :=
  forall_tree.trans (and_congr_right fun _ => and_congr forall_within forall_within)

theorem keepsAttributes_bare {k : Kind} {i : Info} {cs : List Node} (h : ∀ c ∈ cs, c.KeepsAttributes) :
    (mk k i [] cs).KeepsAttributes :=
  keepsAttributes_mk.mpr ⟨fun _ => rfl, List.forall_mem_nil _, h⟩

theorem KeepsAttributes.children {n : Node} (h : n.KeepsAttributes) : ∀ c ∈ n.children, c.KeepsAttributes := by
  cases n
  exact (keepsAttributes_mk.mp h).2.2

theorem KeepsAttributes.withChildren {n : Node} {cs : List Node} (h : n.KeepsAttributes)
    (hcs : ∀ c ∈ cs, c.KeepsAttributes) : (n.withChildren cs).KeepsAttributes := by
  cases n
  obtain ⟨hown, has, -⟩ := keepsAttributes_mk.mp h
  exact keepsAttributes_mk.mpr ⟨hown, has, hcs⟩

end Node

open Node (keepsAttributes_mk keepsAttributes_bare)

/-- Trees in which only elements have attributes, each alike to itself. -/
def keepingAttributes : Likeness where
  tokens := Eq
  nodes n m := n = m ∧ n.KeepsAttributes
  kind h := by rw [h]
  text h := by rw [h]
  code h := by
    rw [List.forall₂_eq_eq_eq] at h
    exact ⟨by rw [h], keepsAttributes_bare (List.forall_mem_nil _)⟩
  new _ h := by
    obtain ⟨hsame, hcs⟩ := forall₂_self.mp h
    exact ⟨by rw [hsame], keepsAttributes_bare hcs⟩
  invalid reason h := ⟨by rw [h], keepsAttributes_bare (List.forall_mem_nil _)⟩
  leaf _ h := ⟨by rw [h], keepsAttributes_bare (List.forall_mem_nil _)⟩
  bracketed _ h h' hboth := by
    obtain ⟨hsame, hcs⟩ := forall₂_self.mp hboth
    exact ⟨by rw [h, h', hsame], keepsAttributes_bare hcs⟩
  element h h' h'' hboth hboth' := by
    obtain ⟨hsame, has⟩ := forall₂_self.mp hboth
    obtain ⟨hsame', hcs⟩ := forall₂_self.mp hboth'
    exact ⟨by rw [h, h', h'', hsame, hsame'], keepsAttributes_mk.mpr ⟨Bool.noConfusion, has, hcs⟩⟩
  fragment h h' hboth := by
    obtain ⟨hsame, hcs⟩ := forall₂_self.mp hboth
    exact ⟨by rw [h, h', hsame], keepsAttributes_bare hcs⟩
  shape h _ := by
    obtain ⟨rfl, hkeeps⟩ := h
    exact ⟨rfl, forall₂_self.mpr ⟨rfl, hkeeps.children⟩⟩
  withChildren h hk hboth := by
    obtain ⟨rfl, hkeeps⟩ := h
    obtain ⟨hsame, hcs⟩ := forall₂_self.mp hboth
    exact ⟨by rw [hsame], hkeeps.withChildren hcs⟩
  name h := by rw [h.1]
  dots h := by rw [h.1]
  write h _ := by rw [h.1]

mutual

theorem piece_same : (p : Piece) → keepingAttributes.Pieces (fun _ _ => False) p p
  | .token _ => .token rfl
  | .stretch mode items => .stretch mode (pieces_same items)

theorem pieces_same : (ps : List Piece) → Forall₂ (keepingAttributes.Pieces fun _ _ => False) ps ps
  | [] => .nil
  | p :: ps => .cons (piece_same p) (pieces_same ps)

end

/-! ## Expressions in slots -/

namespace Node

/-- A script, an object, or what a text was taken for. -/
def IsExpression (e : Node) : Prop :=
  e.kind = .script ∨ (∃ trailing, e.kind = .object trailing) ∨ ∃ text, e = Expression.ofText text

/-- A slot holds expressions; of other nodes nothing is said. -/
def HoldsExpression (n : Node) : Prop := ∀ lead trail, n.kind = .slot lead trail → ∀ e ∈ n.children, e.IsExpression

end Node

namespace Part

/-- Slots that are read from the part hold expressions. -/
def Embeds : Part → Prop
  | .leaf (.token _) => True
  | .leaf (.node n) => (n.kind.isMarkup || n.kind.isInvalid) = true ∧ ∀ c ∈ n.children, c.HoldsExpression
  | .group g => (∀ e ∈ g.reading.node, e.IsExpression) ∧ ∀ o ∈ g.object, ∃ trailing, o.kind = .object trailing
  | .content nodes _ => ∀ n ∈ nodes, n.HoldsExpression

variable {ps : List Part}

theorem isExpression_reading (h : ∀ p ∈ ps, p.Embeds) : ∀ e ∈ (reading ps).node, e.IsExpression := by
  intro e he
  unfold reading at he
  split at he
  · rw [← Option.some.inj he]
    exact .inl rfl
  · next text _ =>
    split at he
    · cases he
    · rw [← Option.some.inj he]
      cases hobject : object? ps with
      | none =>
        rw [Option.getD_none]
        exact .inr (.inr ⟨text, rfl⟩)
      | some o =>
        rw [Option.getD_some]
        unfold object? at hobject
        split at hobject
        · next g hg =>
          split at hobject
          · have hmem : Part.group g ∈ ps := (List.mem_filter.mp (hg ▸ List.mem_cons_self)).1
            exact .inr (.inl ((h _ hmem).2 o hobject))
          · cases hobject
        · cases hobject

theorem kind_asObject : ∀ o ∈ asObject ps, ∃ trailing, o.kind = .object trailing := by
  intro o ho
  unfold asObject at ho
  dsimp only at ho
  obtain ⟨properties, -, ho⟩ := Option.bind_eq_some_iff.mp ho
  cases ho
  exact ⟨_, rfl⟩

theorem embeds_asGroup (closers : List String) (h : ∀ p ∈ ps, p.Embeds) : (asGroup closers ps).Embeds := by
  have hinside : ∀ (closed : Bool), ∀ p ∈ if closed then (ps.drop 1).dropLast else ps.drop 1, p.Embeds := by
    intro closed p hp
    split at hp
    · exact h p (List.mem_of_mem_drop (List.dropLast_subset _ hp))
    · exact h p (List.mem_of_mem_drop hp)
  exact ⟨isExpression_reading (hinside _), kind_asObject⟩

end Part

namespace Markup

open Node (HoldsExpression)

variable {ps : List Part}

theorem holdsExpression_slot {g : Group} (h : (Part.group g).Embeds) : (slot g).HoldsExpression := by
  unfold slot
  split
  · exact fun lead trail hk => nomatch hk
  · exact fun _ _ _ e he => h.1 e (Option.mem_toList.mp he)

theorem holdsExpression_contentNode {p : Part} (h : p.Embeds) : ∀ n ∈ contentNode p, n.HoldsExpression := by
  intro n hn
  unfold contentNode at hn
  split at hn
  · split at hn
    · rw [List.mem_singleton.mp hn]
      exact fun lead trail hk => nomatch hk
    · rw [List.mem_singleton.mp hn]
      exact fun lead trail hk => nomatch hk
  · rw [List.mem_singleton.mp hn]
    intro lead trail hk
    have hmarkup := h.1
    rw [hk] at hmarkup
    cases hmarkup
  · rw [List.mem_singleton.mp hn]
    exact holdsExpression_slot h
  · cases hn

theorem holdsExpression_content (h : ∀ p ∈ ps, p.Embeds) : ∀ n ∈ (content ps).1, n.HoldsExpression := by
  intro n hn
  unfold content at hn
  split at hn
  · obtain ⟨p, hp, hn⟩ := List.mem_flatMap.mp hn
    exact holdsExpression_contentNode (h p (List.dropLast_subset _ hp)) n hn
  · obtain ⟨p, hp, hn⟩ := List.mem_flatMap.mp hn
    exact holdsExpression_contentNode (h p hp) n hn

theorem embeds_element (h : ∀ p ∈ ps, p.Embeds) : (Part.leaf (.node (element ps))).Embeds := by
  unfold element
  split
  · next angle name ps =>
    obtain ⟨hkind, hnone | ⟨close, hmem⟩⟩ := elementFrom_takes angle name ⟨[], "", false⟩ ps
    · exact ⟨hkind, by rw [hnone]; exact List.forall_mem_nil _⟩
    · exact ⟨hkind, h _ (List.mem_cons_of_mem _ (List.mem_cons_of_mem _ hmem))⟩
  · exact ⟨rfl, List.forall_mem_nil _⟩

theorem embeds_fragment (h : ∀ p ∈ ps, p.Embeds) : (Part.leaf (.node (fragment ps))).Embeds := by
  cases ps with
  | nil => exact ⟨rfl, List.forall_mem_nil _⟩
  | cons p ps =>
    rcases p with (t | n) | g | ⟨nodes, close⟩
    · obtain ⟨hkind, hnone | hcontent⟩ := fragment_takes t ps
      · exact ⟨hkind, by rw [hnone]; exact List.forall_mem_nil _⟩
      · refine ⟨hkind, ?_⟩
        rw [hcontent]
        exact holdsExpression_content (List.forall_mem_cons.mp h).2
    · exact ⟨rfl, List.forall_mem_nil _⟩
    · exact ⟨rfl, List.forall_mem_nil _⟩
    · exact ⟨rfl, List.forall_mem_nil _⟩

mutual

theorem embeds_part : (p : Piece) → (part p).Embeds
  | .token _ => trivial
  | .stretch mode items => by
    have hitems := embeds_allParts items
    rw [part]
    cases mode with
    | tag => exact embeds_element hitems
    | fragment => exact embeds_fragment hitems
    | content => exact holdsExpression_content hitems
    | braces => exact Part.embeds_asGroup _ hitems
    | group => exact Part.embeds_asGroup _ hitems
    | template => exact Part.embeds_asGroup _ hitems
    | script => exact List.forall_mem_nil _
    | markup => exact List.forall_mem_nil _

theorem embeds_allParts : (ps : List Piece) → ∀ p ∈ allParts ps, p.Embeds
  | [] => List.forall_mem_nil _
  | p :: ps => List.forall_mem_cons.mpr ⟨embeds_part p, embeds_allParts ps⟩

end

end Markup

/-! ## Documents -/

namespace Source

/-- In a document only elements have attributes. -/
theorem keepsAttributes_parse {text : String} {tree : Node} (h : parse text = .ok tree) : tree.KeepsAttributes := by
  obtain ⟨rfl, -⟩ := parse_eq_ok h
  have hparts : Forall₂ keepingAttributes.Parts (Markup.allParts (Piece.ofText text))
      (Markup.allParts (Piece.ofText text)) := by
    refine List.forall₂_same.mpr fun x hx => ?_
    obtain ⟨p, hp, rfl⟩ := Markup.mem_allParts hx
    rw [← Judged.part_judge]
    exact (Likeness.judge_alike (fun _ _ hfalse => hfalse.elim) (Piece.ofText_formed text p hp).2 (piece_same p)).part
  have hnodes := Likeness.code_alike (Likeness.allLeaves_alike hparts)
  exact keepsAttributes_bare (forall₂_self.mp hnodes).2

/-- In a document, slots between tags hold expressions. -/
theorem holdsExpression_parse {text : String} {tree n : Node} (h : parse text = .ok tree) (hn : n ∈ tree.under)
    (hk : n.kind.isMarkup = true) : ∀ c ∈ n.children, c.HoldsExpression := by
  obtain ⟨q, -, hpart⟩ := exists_markup_piece h hn hk
  have hembeds := Markup.embeds_part q
  rw [hpart] at hembeds
  exact hembeds.2

end Source
end JsxEdit
