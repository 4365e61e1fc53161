import JsxEdit.Proofs.DocumentOrder
import JsxEdit.Proofs.Identity
import JsxEdit.Proofs.Siblings
import JsxEdit.Proofs.Splice
import JsxEdit.Proofs.Undo

/-
Two elements in the place of each other.

Each of the two places takes what was at the other, and no other place of the tree changes. The exchange is its own
inverse, but the second one looks for the elements anew: of the two places one comes before the other, and the search for
the element that is now at the later place has to look at all that is now at the earlier one.
-/
set_option autoImplicit false

namespace JsxEdit
namespace Node

/-! ## Changes at two places -/

/-- Two changes in the attribute list of an element are changes of one list. -/
theorem modify_modify_attributes (f g : Node → Node) {p : Path} (hp : p ≠ []) (q : Path) {n : Node}
    (h : n.kind.isElement = true) : (n.modify f (.attributes :: p)).modify g (.attributes :: q) =
      n.withAttributes ((n.attributeList.modify f p).modify g q).children := by
  rw [modify_attributes f, if_pos h, modify_attributes g, kind_withAttributes, if_pos h, attributeList,
    attributes_withAttributes, ← modify_attributeList f hp]
  cases n
  rfl

/-- Of two places neither of which is below the other, it does not matter which is changed first. -/
theorem modify_comm (f g : Node → Node) {p q : Path} (h : ¬p <+: q) (h' : ¬q <+: p) (n : Node) :
    (n.modify f p).modify g q = (n.modify g q).modify f p := by
  induction p generalizing q n with
  | nil => exact absurd List.nil_prefix h
  | cons step p ih =>
    cases q with
    | nil => exact absurd List.nil_prefix h'
    | cons step' q =>
      rw [List.cons_prefix_cons] at h h'
      cases step with
      | child i =>
        cases step' with
        | child j =>
          have hlist : (n.children.modify i (modify f p)).modify j (modify g q) =
              (n.children.modify j (modify g q)).modify i (modify f p) := by
            by_cases hij : i = j
            · subst hij
              rw [List.modify_modify_eq, List.modify_modify_eq]
              congr 1
              funext c
              exact ih (fun hp => h ⟨rfl, hp⟩) (fun hq => h' ⟨rfl, hq⟩) c
            · exact List.modify_modify_ne _ _ _ hij
          simp only [modify_child, children_withChildren, hlist]
          cases n
          rfl
        | attributes =>
          simp only [modify_child, modify_attributes, kind_withChildren]
          cases n
          split <;> rfl
      | attributes =>
        cases step' with
        | child j =>
          simp only [modify_child, modify_attributes, kind_withChildren]
          cases n
          split <;> rfl
        | attributes =>
          by_cases helement : n.kind.isElement = true
          · have hp : p ≠ [] := by
              rintro rfl
              exact h ⟨rfl, List.nil_prefix⟩
            have hq : q ≠ [] := by
              rintro rfl
              exact h' ⟨rfl, List.nil_prefix⟩
            have hih := ih (fun hp => h ⟨rfl, hp⟩) (fun hq => h' ⟨rfl, hq⟩) n.attributeList
            rw [modify_modify_attributes f g hp q helement, modify_modify_attributes g f hq p helement, hih]
          · simp only [modify_attributes, if_neg helement]

/-- What a node is apart from the nodes in its lists. -/
def stem (n : Node) : Kind × Info × Nat × Nat := (n.kind, n.info, n.attributes.length, n.children.length)

/-- The change of a child, or of something below one, changes nothing else about a node. -/
theorem stem_modify (f : Node → Node) (q : Path) (i : Nat) (n : Node) :
    (n.modify f (q ++ [Step.child i])).stem = n.stem := by
  induction q generalizing n with
  | nil => cases n; simp [stem, modify_child, withChildren]
  | cons step q ih =>
    cases step with
    | child j => cases n; simp [stem, modify_child, withChildren]
    | attributes =>
      rw [List.cons_append, modify_attributes]
      split
      · have := congrArg (fun s => s.2.2.2) (ih n.attributeList)
        cases n
        simpa [stem, withAttributes] using this
      · rfl

theorem stem_get?_modify_append (f : Node → Node) (r q : Path) (i : Nat) (n : Node) :
    ((n.modify f (r ++ (q ++ [Step.child i]))).get? r).map stem = (n.get? r).map stem := by
  induction r generalizing n with
  | nil => exact congrArg some (stem_modify f q i n)
  | cons step r ih =>
    cases step with
    | child j =>
      rw [List.cons_append, modify_child, get?_child, get?_child, children_withChildren, List.getElem?_modify_eq]
      cases n.children[j]? with
      | none => rfl
      | some c => exact ih c
    | attributes =>
      rw [List.cons_append, modify_attributes]
      split
      · next helement =>
        rw [get?_attributes, get?_attributes, kind_withAttributes, if_pos helement, if_pos helement, attributeList,
          attributes_withAttributes, ← modify_attributeList f (by simp) n]
        exact ih _
      · rfl

/-- A change at a child's place changes nothing about the nodes that are not there or below, apart from what they hold.
-/
theorem stem_get?_modify (f : Node → Node) {p r : Path} {i : Nat} (h : ¬p ++ [Step.child i] <+: r) (n : Node) :
    ((n.modify f (p ++ [Step.child i])).get? r).map stem = (n.get? r).map stem := by
  by_cases hr : r <+: p ++ [Step.child i]
  · obtain ⟨s, hs⟩ := hr
    rcases List.eq_nil_or_concat s with rfl | ⟨q, step, rfl⟩
    · rw [List.append_nil] at hs
      exact absurd (hs ▸ List.prefix_refl r) h
    · rw [List.concat_eq_append, ← List.append_assoc] at hs
      obtain ⟨rfl, hstep⟩ := List.append_inj' hs rfl
      cases hstep
      rw [List.append_assoc]
      exact stem_get?_modify_append f r q i n
  · rw [get?_modify_of_disjoint f h hr]

end Node

namespace Edit
open Node Path

/-! ## Two elements that are exchanged -/

/-- The second tree is the first with the nodes at two places exchanged. Beside the places and what is below them all
nodes are the same, and the nodes around them are the same but for what they hold. -/
structure Exchanged (tree tree' : Node) (p q : Path) (a b : Node) : Prop where
  first : tree.get? p = some a ∧ tree'.get? p = some b
  second : tree.get? q = some b ∧ tree'.get? q = some a
  beside : ∀ r, ¬p <+: r → ¬q <+: r → ¬r <+: p → ¬r <+: q → tree'.get? r = tree.get? r
  around : ∀ r, ¬p <+: r → ¬q <+: r → (tree'.get? r).map stem = (tree.get? r).map stem

/-- The tree with two visited nodes in the place of each other. -/
def exchanged (tree : Node) (v w : Visit) : Node := (tree.set v.path w.node).set w.path v.node

/-- Two elements inside markup, neither of which is inside the other. -/
structure Apart (tree : Node) (id id' : String) (v w : Visit) : Prop where
  found : tree.findId id = .ok (some v)
  found' : tree.findId id' = .ok (some w)
  place : isMarkupPlace tree v.parent = true
  place' : isMarkupPlace tree w.parent = true
  apart : ¬v.path <+: w.path
  apart' : ¬w.path <+: v.path

namespace Apart

variable {tree : Node} {id id' : String} {v w : Visit} (h : Apart tree id id' v w)
include h

theorem symm : Apart tree id' id w v := ⟨h.found', h.found, h.place', h.place, h.apart', h.apart⟩

theorem get?_first : tree.get? v.path = some v.node := (findId_some h.found).get?_of_isMarkupPlace h.place

theorem exchanged_comm : exchanged tree v w = exchanged tree w v := by
  rw [exchanged, exchanged, Node.set, Node.set, modify_comm _ _ h.apart h.apart']
  rfl

theorem get?_exchanged : (exchanged tree v w).get? w.path = some v.node := by
  have hw : (tree.set v.path w.node).get? w.path = some w.node := by
    rw [Node.set, get?_modify_of_disjoint _ h.apart h.apart', h.symm.get?_first]
  exact get?_set_child hw v.node

omit h in
theorem stem_exchanged {r : Path} (hv : ¬v.path <+: r) (hw : ¬w.path <+: r) :
    ((exchanged tree v w).get? r).map stem = (tree.get? r).map stem := by
  rw [exchanged, Node.set, Visit.path, stem_get?_modify _ hw, Node.set, Visit.path, stem_get?_modify _ hv]

theorem is_exchanged : Exchanged tree (exchanged tree v w) v.path w.path v.node w.node where
  first := ⟨h.get?_first, by rw [h.exchanged_comm]; exact h.symm.get?_exchanged⟩
  second := ⟨h.symm.get?_first, h.get?_exchanged⟩
  beside r hv hw hrv hrw := by
    rw [exchanged, Node.set, get?_modify_of_disjoint _ hw hrw, Node.set, get?_modify_of_disjoint _ hv hrv]
  around r hv hw := stem_exchanged hv hw

theorem place_exchanged : isMarkupPlace (exchanged tree v w) w.parent = true := by
  have hstem : ((exchanged tree v w).get? w.parent).map stem = (tree.get? w.parent).map stem := by
    refine stem_exchanged (fun hv => h.apart (hv.trans (List.prefix_append _ _))) fun hw => ?_
    have hlength := hw.length_le
    rw [Visit.path, List.length_append, List.length_singleton] at hlength
    omega
  have hany : ∀ o : Option Node, o.any (·.kind.isMarkup) = (o.map stem).any (·.1.isMarkup) := fun o => by
    cases o <;> rfl
  have hplace := h.place'
  rw [isMarkupPlace, hany] at hplace ⊢
  rw [hstem, hplace]

/-- To exchange the nodes again is to put them back. -/
theorem exchanged_exchanged :
    exchanged (exchanged tree v w) ⟨w.parent, w.index, v.node⟩ ⟨v.parent, v.index, w.node⟩ = tree := by
  have hfirst : (exchanged tree v w).set w.path w.node = tree.set v.path w.node := by
    have hw : (tree.set v.path w.node).get? w.path = some w.node := by
      rw [Node.set, get?_modify_of_disjoint _ h.apart h.apart', h.symm.get?_first]
    rw [exchanged, set_set, set_self hw]
  have hpath : (⟨w.parent, w.index, v.node⟩ : Visit).path = w.path := rfl
  have hpath' : (⟨v.parent, v.index, w.node⟩ : Visit).path = v.path := rfl
  rw [exchanged, hpath, hpath', hfirst, set_set, set_self h.get?_first]

/-- A visit to the tree after the exchange is to one of the two nodes in its new place or below it, or is as it was. -/
theorem visits_exchanged {u : Visit} (hu : u ∈ (exchanged tree v w).visits) :
    (v.path <+: u.path ∧ ∃ x ∈ within [w.node], Alike x u.node) ∨
      (w.path <+: u.path ∧ ∃ x ∈ within [v.node], Alike x u.node) ∨
      ∃ t ∈ tree.visits, t.path = u.path ∧ ¬v.path <+: t.path ∧ ¬w.path <+: t.path ∧ Alike t.node u.node := by
  have hv := (findId_some h.found).markup
  have hw := (findId_some h.found').markup
  have hself : ∀ n : Node, n ∈ within [n] := fun n => by rw [within_singleton]; exact List.mem_cons_self
  have hbelow : ∀ {n : Node} {p : Path} {u : Visit}, u ∈ n.visitsAt p → u.node ∈ within [n] := fun {n} p u hu => by
    rw [within_singleton, ← visitsAt_nodes p]
    exact List.mem_cons_of_mem _ (List.mem_map_of_mem hu)
  have hget : (tree.set v.path w.node).get? w.path = some w.node := by
    rw [Node.set, get?_modify_of_disjoint _ h.apart h.apart', h.symm.get?_first]
  rcases mem_visits_modify hw hv hget hu with ⟨hpath, hnode⟩ | hu | ⟨t, ht, hpath, hne, halike⟩
  · exact .inr (.inl ⟨hpath ▸ List.prefix_refl _, v.node, hself _, hnode ▸ .refl _⟩)
  · exact .inr (.inl ⟨prefix_of_visitsAt hu, u.node, hbelow hu, .refl _⟩)
  · rcases mem_visits_modify hv hw h.get?_first ht with ⟨hpath', hnode⟩ | ht | ⟨t', ht', hpath', hne', halike'⟩
    · exact .inl ⟨hpath ▸ hpath' ▸ List.prefix_refl _, w.node, hself _, hnode ▸ halike⟩
    · exact .inl ⟨hpath ▸ prefix_of_visitsAt ht, t.node, hbelow ht, halike⟩
    · exact .inr (.inr ⟨t', ht', hpath'.trans hpath, hne', hpath' ▸ hne, halike'.trans halike⟩)

variable (hunique : tree.UniqueIdentities)
include hunique

/-- The second element and what is below it do not have the identity of the first. -/
theorem other_identity : ∀ x ∈ within [w.node], x.identity? ≠ some id := by
  intro x hx hid
  obtain ⟨u, hu, rfl, hpath⟩ := exists_visit_at h.symm.get?_first hx
  obtain rfl := visit_unique (hunique.tally_le id) hu (findId_some h.found).mem hid (findId_some h.found).identity?_eq
  exact h.apart' hpath

/-- The first element is found at its new place, if the search can look at the second one and what is below it. -/
theorem found_exchanged (hw : ∀ x ∈ within [w.node], x.Legible) :
    (exchanged tree v w).findId id = .ok (some ⟨w.parent, w.index, v.node⟩) := by
  obtain ⟨hmem, hid, hbefore⟩ := findId_eq_some.mp h.found
  refine findId_eq_some.mpr ⟨mem_visits_of_path h.get?_exchanged, hid, fun u hu hprec => ?_⟩
  rcases h.visits_exchanged hu with ⟨-, x, hx, halike⟩ | ⟨hq, -⟩ | ⟨t, ht, hpath, hne, -, halike⟩
  · exact ⟨halike.legible (hw x hx), by rw [← halike.identity?_eq]; exact h.other_identity hunique x hx⟩
  · exact absurd hprec (not_precedes_of_isPrefix hq)
  · rw [← hpath] at hprec
    refine ⟨halike.legible ((findId_eq_some.mp h.found').2.2 t ht hprec).1, fun htid => hne ?_⟩
    rw [← halike.identity?_eq] at htid
    obtain rfl := visit_unique (hunique.tally_le id) ht hmem htid (findId_some h.found).identity?_eq
    exact List.prefix_refl _

theorem tally_exchanged (s : String) : tally (carries s) (exchanged tree v w).under ≤ 1 := by
  have hv := (findId_some h.found).markup
  have hw := (findId_some h.found').markup
  have hget : (tree.set v.path w.node).get? w.path = some w.node := by
    rw [Node.set, get?_modify_of_disjoint _ h.apart h.apart', h.symm.get?_first]
  have hroot : ∀ u : Visit, u.path ≠ [] := fun u => by simp [Visit.path]
  have hfirst : tally (carries s) (tree.set v.path w.node).under + total (carries s) [v.node] =
      tally (carries s) tree.under + total (carries s) [w.node] :=
    tally_under_modify (carries s) hv hw h.get?_first fun hnil => absurd hnil (hroot v)
  have hsecond : tally (carries s) (exchanged tree v w).under + total (carries s) [w.node] =
      tally (carries s) (tree.set v.path w.node).under + total (carries s) [v.node] :=
    tally_under_modify (carries s) hw hv hget fun hnil => absurd hnil (hroot w)
  have := hunique.tally_le s
  omega

/-- If the second element comes before the first now, and the search cannot look at it or at something below it, the
first element is not found. -/
theorem lost_exchanged (hprec : Precedes v.path w.path) (hw : ¬∀ x ∈ within [w.node], x.Legible) :
    ∃ f, (exchanged tree v w).findId id = .error f := by
  obtain ⟨x, hx, hbad⟩ := by simpa using hw
  have hfirst : (exchanged tree v w).get? v.path = some w.node := h.is_exchanged.first.2
  obtain ⟨u, hu, rfl, q, hq⟩ := exists_visit_at hfirst hx
  have hv : (⟨w.parent, w.index, v.node⟩ : Visit) ∈ (exchanged tree v w).visits := mem_visits_of_path h.get?_exchanged
  have hid := (findId_eq_some.mp h.found).2.1
  have hvid : v.node.identity? = some id := (findId_some h.found).identity?_eq
  refine findId_error hv hid (fun t ht htid => visit_unique (h.tally_exchanged hunique id) ht hv htid hvid) hu ?_ hbad
  rw [← hq]
  exact hprec.append_of_not_isPrefix h.apart q

omit hunique in
/-- The search for the second element has looked at the first one and what is below it, if that comes before. -/
theorem legible_first (hprec : Precedes v.path w.path) : ∀ x ∈ within [v.node], x.Legible := by
  intro x hx
  obtain ⟨u, hu, rfl, q, hq⟩ := exists_visit_at h.get?_first hx
  refine ((findId_eq_some.mp h.found').2.2 u hu ?_).1
  rw [← hq]
  exact hprec.append_of_not_isPrefix h.apart q

/-- The elements are found at their new places, if the search can look at both of them and what is below. -/
theorem again (hlegible : ∀ x ∈ within [v.node, w.node], x.Legible) :
    Apart (exchanged tree v w) id id' ⟨w.parent, w.index, v.node⟩ ⟨v.parent, v.index, w.node⟩ := by
  rw [within_cons, List.forall_mem_append] at hlegible
  have hv : ∀ x ∈ within [v.node], x.Legible := by
    rw [within_singleton]
    exact hlegible.1
  have hcomm := h.exchanged_comm
  refine ⟨h.found_exchanged hunique hlegible.2, ?_, h.place_exchanged, ?_, h.apart', h.apart⟩
  · rw [hcomm]
    exact h.symm.found_exchanged hunique hv
  · rw [hcomm]
    exact h.symm.place_exchanged

/-- Otherwise one of them is not found. -/
theorem not_again (hlegible : ¬∀ x ∈ within [v.node, w.node], x.Legible) :
    (∃ f, (exchanged tree v w).findId id = .error f) ∨ ∃ f, (exchanged tree v w).findId id' = .error f := by
  have hsplit : ¬(∀ x ∈ within [v.node], x.Legible) ∨ ¬∀ x ∈ within [w.node], x.Legible := by
    by_contra hboth
    rw [not_or, not_not, not_not] at hboth
    refine hlegible ?_
    rw [within_cons, List.forall_mem_append, ← within_singleton]
    exact hboth
  have hne : v.path ≠ w.path := fun heq => h.apart (heq ▸ List.prefix_refl _)
  rcases precedes_total hne with hprec | hprec
  · exact .inl (h.lost_exchanged hunique hprec (hsplit.resolve_left (not_not.mpr (h.legible_first hprec))))
  · rw [h.exchanged_comm]
    exact .inr (h.symm.lost_exchanged hunique hprec (hsplit.resolve_right (not_not.mpr (h.symm.legible_first hprec))))

end Apart

/-! ## Swaps -/

theorem isBelow_eq_true {v w : Visit} (h : v.path.isBefore w.path = true) : isBelow v w = .ok true := by
  rw [isBelow, if_pos h]

theorem isBelow_eq_false {v w : Visit} : isBelow v w = .ok false ↔
    v.path.isBefore w.path = false ∧ v.node.hasForeign = false := by
  rw [isBelow]
  cases v.path.isBefore w.path <;> cases v.node.hasForeign <;> simp

theorem isBefore_iff {p q : Path} : p.isBefore q = true ↔ p <+: q ∧ p ≠ q := by
  rw [Path.isBefore, Bool.and_eq_true, List.isPrefixOf_iff_prefix, bne_iff_ne]

section

variable {tree : Node} {id id' : String} {v w : Visit}

/-- An element is exchanged with itself by leaving the tree as it is. -/
theorem swap_same (h : tree.findId id = .ok (some v)) (h' : tree.findId id' = .ok (some w))
    (hp : isMarkupPlace tree v.parent = true) (hp' : isMarkupPlace tree w.parent = true) (hpath : v.path = w.path) :
    (swap tree id id').Gives tree := by
  have hsame : (v.path == w.path) = true := beq_iff_eq.mpr hpath
  rw [swap, h, h']
  dsimp only
  rw [hp, hp', hsame]
  exact ⟨Reply.succeeds_succeeded .., rfl⟩

/-- Two elements apart from each other are exchanged, if there are only nodes below them. -/
theorem Apart.swap_gives (h : Apart tree id id' v w) (hv : v.node.hasForeign = false) (hw : w.node.hasForeign = false) :
    (swap tree id id').Gives (exchanged tree v w) := by
  have hother : (v.path == w.path) = false := beq_eq_false_iff_ne.mpr fun heq => h.apart (heq ▸ List.prefix_refl _)
  have hbelow : isBelow v w = .ok false := isBelow_eq_false.mpr
    ⟨Bool.eq_false_iff.mpr fun hbefore => h.apart (isBefore_iff.mp hbefore).1, hv⟩
  have hbelow' : isBelow w v = .ok false := isBelow_eq_false.mpr
    ⟨Bool.eq_false_iff.mpr fun hbefore => h.apart' (isBefore_iff.mp hbefore).1, hw⟩
  rw [swap, h.found, h.found']
  dsimp only
  rw [h.place, h.place', hother, hbelow, hbelow']
  exact ⟨Reply.succeeds_succeeded .., rfl⟩

/-- A swap that succeeded has found two elements inside markup that are the same or apart from each other. -/
theorem of_swap_succeeds (h : (swap tree id id').Succeeds) : ∃ v w, tree.findId id = .ok (some v) ∧
    tree.findId id' = .ok (some w) ∧ isMarkupPlace tree v.parent = true ∧ isMarkupPlace tree w.parent = true ∧
      (v.path = w.path ∨ Apart tree id id' v w ∧ v.node.hasForeign = false ∧ w.node.hasForeign = false) := by
  unfold swap at h
  split at h
  · exact absurd h (Reply.not_succeeds_fault _ _)
  · exact absurd h (Reply.not_succeeds_notFound _ _ _)
  · next v hv =>
    split at h
    · exact absurd h (Reply.not_succeeds_fault _ _)
    · exact absurd h (Reply.not_succeeds_notFound _ _ _)
    · next w hw =>
      split at h
      · exact absurd h (Reply.not_succeeds_invalid _ _ _)
      · next hp =>
        split at h
        · exact absurd h (Reply.not_succeeds_invalid _ _ _)
        · next hp' =>
          refine ⟨v, w, hv, hw, by simpa using hp, by simpa using hp', ?_⟩
          split at h
          · next hsame => exact .inl (beq_iff_eq.mp hsame)
          · next hother =>
            split at h
            · exact absurd h (Reply.not_succeeds_fault _ _)
            · exact absurd h (Reply.not_succeeds_invalid _ _ _)
            · next hbelow =>
              obtain ⟨below, hvw, hbelow⟩ := bind_eq_ok hbelow
              cases below with
              | true => cases hbelow
              | false =>
                have hne : v.path ≠ w.path := fun heq => hother (beq_iff_eq.mpr heq)
                obtain ⟨hbefore, hnodes⟩ := isBelow_eq_false.mp hvw
                obtain ⟨hbefore', hnodes'⟩ := isBelow_eq_false.mp hbelow
                exact .inr ⟨⟨hv, hw, by simpa using hp, by simpa using hp',
                  fun hpre => Bool.eq_false_iff.mp hbefore (isBefore_iff.mpr ⟨hpre, hne⟩),
                  fun hpre => Bool.eq_false_iff.mp hbefore' (isBefore_iff.mpr ⟨hpre, hne.symm⟩)⟩, hnodes, hnodes'⟩

/-- An element cannot be exchanged with one inside it, nor if one of the two is not inside markup. -/
theorem swap_fails (h : tree.findId id = .ok (some v)) (h' : tree.findId id' = .ok (some w))
    (hbad : v.path.isBefore w.path = true ∨ w.path.isBefore v.path = true ∨ isMarkupPlace tree v.parent = false ∨
      isMarkupPlace tree w.parent = false) : ¬(swap tree id id').Succeeds ∧
        (v.node.hasForeign = false → ∃ message, swap tree id id' = .invalid tree message []) := by
  rw [swap, h, h']
  dsimp only
  cases hp : isMarkupPlace tree v.parent with
  | false => exact ⟨Reply.not_succeeds_invalid _ _ _, fun _ => ⟨_, rfl⟩⟩
  | true =>
    cases hp' : isMarkupPlace tree w.parent with
    | false => exact ⟨Reply.not_succeeds_invalid _ _ _, fun _ => ⟨_, rfl⟩⟩
    | true =>
      have hbefore : v.path.isBefore w.path = true ∨ w.path.isBefore v.path = true := by
        simpa [hp, hp'] using hbad
      have hother : (v.path == w.path) = false := by
        rw [beq_eq_false_iff_ne]
        rcases hbefore with hbefore | hbefore
        · exact (isBefore_iff.mp hbefore).2
        · exact (isBefore_iff.mp hbefore).2.symm
      rw [hother]
      cases hvw : v.path.isBefore w.path with
      | true =>
        rw [isBelow_eq_true hvw]
        exact ⟨Reply.not_succeeds_invalid _ _ _, fun _ => ⟨_, rfl⟩⟩
      | false =>
        have hwv := hbefore.resolve_left (by simp [hvw])
        cases hnodes : v.node.hasForeign with
        | true =>
          have hbelow : isBelow v w = .error .noMember := by rw [isBelow, hvw, hnodes]; rfl
          rw [hbelow]
          exact ⟨Reply.not_succeeds_fault _ _, fun hfalse => nomatch hfalse⟩
        | false =>
          rw [isBelow_eq_false.mpr ⟨hvw, hnodes⟩, isBelow_eq_true hwv]
          exact ⟨Reply.not_succeeds_invalid _ _ _, fun _ => ⟨_, rfl⟩⟩

/-- If one of the two searches fails and the other does not come to an end without an element, the swap fails. -/
theorem swap_error (h : (∃ f, tree.findId id = .error f) ∨ ∃ f, tree.findId id' = .error f)
    (hsome : tree.findId id ≠ .ok none) : ∃ f, (swap tree id id').result = .error f := by
  rw [swap]
  cases hv : tree.findId id with
  | error f => exact ⟨f, rfl⟩
  | ok found =>
    cases found with
    | none => exact absurd hv hsome
    | some v =>
      obtain ⟨f, hf⟩ | ⟨f, hf⟩ := h
      · cases hv.symm.trans hf
      · exact ⟨f, by rw [hf]; rfl⟩

end

/-- In a tree in which no two elements have the same identity, a swap that succeeded has exchanged the two elements,
each with all that is below it, and nothing else, and gives the same whichever element is named first. A second swap puts
them back: unless there is something at one of the two places that a search cannot look at, which makes it fail. A swap
fails if one element is inside the other or not inside markup. -/
theorem swap_exchanges {tree : Node} (hunique : tree.UniqueIdentities) (id id' : String) :
    ((swap tree id id').Succeeds → ∃ v w, tree.findId id = .ok (some v) ∧ tree.findId id' = .ok (some w) ∧
      Exchanged tree (swap tree id id').tree v.path w.path v.node w.node ∧
      (swap tree id' id).Gives (swap tree id id').tree ∧
      (id = id' → (swap (swap tree id id').tree id id').Gives tree) ∧
      (id ≠ id' → TakesBack (swap (swap tree id id').tree id id') tree [v.node, w.node])) ∧
    ∀ v w, tree.findId id = .ok (some v) → tree.findId id' = .ok (some w) →
      v.path.isBefore w.path = true ∨ w.path.isBefore v.path = true ∨ isMarkupPlace tree v.parent = false ∨
        isMarkupPlace tree w.parent = false → ¬(swap tree id id').Succeeds ∧
          (v.node.hasForeign = false → ∃ message, swap tree id id' = .invalid tree message []) := by
  refine ⟨fun hsucceeds => ?_, fun v w hv hw hbad => swap_fails hv hw hbad⟩
  obtain ⟨v, w, hv, hw, hp, hp', hpath | ⟨h, hnodes, hnodes'⟩⟩ := of_swap_succeeds hsucceeds
  · obtain rfl := visit_of_path (findId_some hv).mem (findId_some hw).mem hpath
    have hget := (findId_some hv).get?_of_isMarkupPlace hp
    have hgives := swap_same hv hw hp hp' hpath
    have hid : id = id' := by
      have := (findId_some hv).identity?_eq.symm.trans (findId_some hw).identity?_eq
      exact Option.some.inj this
    subst hid
    rw [hgives.2]
    exact ⟨v, v, hv, hw, ⟨⟨hget, hget⟩, ⟨hget, hget⟩, fun _ _ _ _ _ => rfl, fun _ _ _ => rfl⟩, hgives, fun _ => hgives,
      fun hne => absurd rfl hne⟩
  · have htree := (h.swap_gives hnodes hnodes').2
    rw [htree]
    have hid : id ≠ id' := by
      rintro rfl
      cases hv.symm.trans hw
      exact h.apart (List.prefix_refl _)
    refine ⟨v, w, hv, hw, h.is_exchanged, ?_, fun heq => absurd heq hid,
      fun _ => ⟨fun hlegible => ?_, fun hlegible => ?_⟩⟩
    · rw [h.exchanged_comm]
      exact h.symm.swap_gives hnodes' hnodes
    · have hback := (h.again hunique hlegible).swap_gives hnodes hnodes'
      rwa [h.exchanged_exchanged] at hback
    · have hmem : (⟨w.parent, w.index, v.node⟩ : Visit) ∈ (exchanged tree v w).visits :=
        mem_visits_of_path h.get?_exchanged
      exact swap_error (h.not_again hunique hlegible) fun hnone =>
        findId_none hnone _ (node_mem_under hmem) (findId_eq_some.mp hv).2.1

set_option maxRecDepth 10000 in
theorem swap_lines : (swap (swap lines "a" "b").tree "a" "b").Gives lines ∧
    ¬(swap Command.nested "box" "item").Succeeds := by
  have ha : lines.findId "a" = .ok (some ⟨[.child 0], 1, Command.identified "li" "a" []⟩) := by rfl
  have hb : lines.findId "b" = .ok (some ⟨[.child 0], 4, Command.identified "li" "b" []⟩) := by rfl
  have hunique : lines.UniqueIdentities := by decide
  have hnested : Command.nested.UniqueIdentities := by decide
  obtain ⟨v, w, hv, hw, -, -, -, hback⟩ := (swap_exchanges hunique "a" "b").1 (by decide)
  cases ha.symm.trans hv
  cases hb.symm.trans hw
  refine ⟨(hback (by decide)).back (by decide), ?_⟩
  exact ((swap_exchanges hnested "box" "item").2 _ _ (by rfl) (by rfl) (.inl (by rfl))).1

/-- A paragraph with an element before one that has something with an unreadable identity in it. -/
def guarded : Node :=
  .new (.document none) [.element "p" [] [Command.identified "a" "x" [], Command.identified "b" "y" [unreadable]]]

theorem uniqueIdentities_guarded : guarded.UniqueIdentities :=
  uniqueIdentities_around (guarded.descendants.take 7) (by rfl) (by decide)

set_option maxRecDepth 10000 in
/-- A swap that brings an unreadable identity before an element is not undone by a second one. -/
theorem swap_not_undone : guarded.UniqueIdentities ∧ (swap guarded "x" "y").Succeeds ∧
    ¬(swap (swap guarded "x" "y").tree "x" "y").Gives guarded := by
  have hapart : Apart guarded "x" "y" ⟨[.child 0], 0, Command.identified "a" "x" []⟩
      ⟨[.child 0], 1, Command.identified "b" "y" [unreadable]⟩ :=
    ⟨by rfl, by rfl, by rfl, by rfl, by decide, by decide⟩
  obtain ⟨hsucceeds, htree⟩ := hapart.swap_gives (by rfl) (by rfl)
  have hinside : unreadable ∈ within [Command.identified "b" "y" [unreadable]] := by
    rw [within_singleton, under_eq]
    exact List.mem_cons_of_mem _ (List.mem_append_right _ List.mem_cons_self)
  have hlost := hapart.lost_exchanged uniqueIdentities_guarded
    (precedes_child_iff (r := [.child 0]) (q := []).mpr Nat.zero_lt_one) fun hlegible =>
      not_legible_unreadable (hlegible unreadable hinside)
  refine ⟨uniqueIdentities_guarded, hsucceeds, fun hgives => ?_⟩
  rw [htree] at hgives
  obtain ⟨o, ho, -⟩ := hgives.1
  obtain ⟨f, hf⟩ := swap_error (.inl hlost) (by obtain ⟨f, hf⟩ := hlost; rw [hf]; nofun)
  cases hf.symm.trans ho

end Edit
end JsxEdit
