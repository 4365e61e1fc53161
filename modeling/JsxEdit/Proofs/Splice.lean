import JsxEdit.Proofs.Adjacent
import JsxEdit.Proofs.Insertion
import JsxEdit.Proofs.Lookup

/-
A new sibling in the text of a document, and its removal.

In a document that was just read no white space meets white space, so there is nothing to merge around a new sibling:
the text gets one more piece, and the rest of it stays as it is. The piece is white space and the written node, and what
is removed with the node is this white space.
-/
set_option autoImplicit false

namespace JsxEdit
namespace Node

/-! ## The text around a place -/

theorem writeItems_cons {ns : List Node} (h : ns ≠ []) (n : Node) :
    writeItems (n :: ns) = n.write ++ "," ++ writeItems ns := by
  cases ns with
  | nil => exact absurd rfl h
  | cons m ms => rfl

/-- The text of a list around one of its nodes. -/
theorem writeItems_around (as bs : List Node) :
    ∃ pre post, ∀ c, writeItems (as ++ c :: bs) = pre ++ c.write ++ post := by
  induction as with
  | nil =>
    cases bs with
    | nil => exact ⟨"", "", fun c => by simp [writeItems]⟩
    | cons b bs => exact ⟨"", "," ++ writeItems (b :: bs), fun c => by simp [writeItems, String.append_assoc]⟩
  | cons a as ih =>
    obtain ⟨pre, post, h⟩ := ih
    refine ⟨a.write ++ "," ++ pre, post, fun c => ?_⟩
    rw [List.cons_append, writeItems_cons (by simp), h]
    simp only [String.append_assoc]

theorem writeAll_around (as bs : List Node) (c : Node) :
    writeAll (as ++ c :: bs) = writeAll as ++ c.write ++ writeAll bs := by
  rw [writeAll_append, writeAll, String.append_assoc]

/-- The text of a node around one of its children. -/
theorem write_around (n : Node) (as bs : List Node) :
    ∃ pre post, ∀ c, (n.withChildren (as ++ c :: bs)).write = pre ++ c.write ++ post := by
  obtain ⟨k, i, ats, cs⟩ := n
  have hplain : ∀ pre post, (∀ cs, (mk k i ats cs).write = pre ++ writeAll cs ++ post) →
      ∃ pre post, ∀ c, ((mk k i ats cs).withChildren (as ++ c :: bs)).write = pre ++ c.write ++ post := by
    intro pre post h
    refine ⟨pre ++ writeAll as, writeAll bs ++ post, fun c => ?_⟩
    rw [withChildren, h, writeAll_around]
    simp only [String.append_assoc]
  cases k with
  | object trailing =>
    obtain ⟨pre, post, h⟩ := writeItems_around as bs
    refine ⟨Kind.opening (.object trailing) ++ pre, post ++ Kind.closing (.object trailing), fun c => ?_⟩
    rw [withChildren, write, h]
    simp only [String.append_assoc]
  | attr name space =>
    -- an attribute with a value has a sign of equality before it
    refine ⟨Kind.opening (.attr name space) ++ "=" ++ writeAll as, writeAll bs ++ Kind.closing (.attr name space),
      fun c => ?_⟩
    have hvalue : (as ++ c :: bs).isEmpty = false := by simp
    rw [withChildren, write, hvalue, if_neg Bool.false_ne_true, writeAll_around]
    simp only [String.append_assoc]
  | _ => exact hplain _ _ fun _ => rfl

/-- The text of markup around its children. -/
theorem write_of_isMarkup {n : Node} (h : n.kind.isMarkup = true) :
    ∃ pre post, ∀ cs, (n.withChildren cs).write = pre ++ writeAll cs ++ post := by
  obtain ⟨k, i, as, cs⟩ := n
  cases k with
  | element => exact ⟨_, _, fun _ => rfl⟩
  | fragment => exact ⟨_, _, fun _ => rfl⟩
  | _ => cases h

/-- The text of an element around its attributes. -/
theorem write_around_attributes (n : Node) (helement : n.kind.isElement = true) :
    ∃ pre post, ∀ as, (n.withAttributes as).write = pre ++ writeAll as ++ post := by
  obtain ⟨k, i, as, cs⟩ := n
  cases k with
  | element name selfClosing space closing =>
    refine ⟨Kind.opening (.element name selfClosing space closing),
      Kind.tagEnd (.element name selfClosing space closing) ++ writeAll cs ++
        Kind.closing (.element name selfClosing space closing), fun as => ?_⟩
    rw [withAttributes, write]
    simp only [String.append_assoc]
  | _ => cases helement

section

variable {f : Node → Node} {m : Node} (hm : m.kind.isMarkup = true)
include hm

/-- A change of markup is a change of the text at its place, and of nothing else. -/
theorem write_modify {p : Path} {n : Node} (h : n.get? p = some m) :
    ∃ pre post, n.write = pre ++ m.write ++ post ∧ (n.modify f p).write = pre ++ (f m).write ++ post := by
  induction p generalizing n with
  | nil =>
    cases h
    exact ⟨"", "", by simp, by simp⟩
  | cons step p ih =>
    cases step with
    | child i =>
      obtain ⟨c, hc, h⟩ := Option.bind_eq_some_iff.mp h
      obtain ⟨as, bs, hcs, -, hmodify⟩ := split_at (modify f p) hc
      obtain ⟨pre, post, hbefore, hafter⟩ := ih h
      obtain ⟨pre', post', haround⟩ := write_around n as bs
      refine ⟨pre' ++ pre, post ++ post', ?_, ?_⟩
      · have := haround c
        rw [← hcs, withChildren_children, hbefore] at this
        rw [this]
        simp only [String.append_assoc]
      · rw [modify_child, hmodify, haround, hafter]
        simp only [String.append_assoc]
    | attributes =>
      rw [get?_attributes] at h
      split at h
      · next helement =>
        have hne : p ≠ [] := by
          rintro rfl
          cases h
          cases hm
        obtain ⟨pre, post, hbefore, hafter⟩ := ih h
        obtain ⟨pre', post', haround⟩ := write_around_attributes n helement
        have hwrite : ∀ as : List Node, (new .attributes as).write = writeAll as := fun as => by
          simp [new, write, Kind.opening, Kind.closing]
        rw [attributeList, hwrite] at hbefore
        rw [modify_attributeList f hne, hwrite] at hafter
        refine ⟨pre' ++ pre, post ++ post', ?_, ?_⟩
        · have := haround n.attributes
          rw [withAttributes_attributes, hbefore] at this
          rw [this]
          simp only [String.append_assoc]
        · rw [modify_attributes, if_pos helement, haround, hafter]
          simp only [String.append_assoc]
      · cases h

/-- Other children of markup are other texts between its tags. -/
theorem write_modifyChildren {tree : Node} {p : Path} (h : tree.get? p = some m) (new : List Node) :
    ∃ pre post, tree.write = pre ++ writeAll m.children ++ post ∧
      (tree.set p (m.withChildren new)).write = pre ++ writeAll new ++ post := by
  obtain ⟨pre, post, hbefore, hafter⟩ := write_modify (f := fun _ => m.withChildren new) hm h
  obtain ⟨pre', post', hchildren⟩ := write_of_isMarkup hm
  refine ⟨pre ++ pre', post' ++ post, ?_, ?_⟩
  · have := hchildren m.children
    rw [withChildren_children] at this
    rw [hbefore, this]
    simp only [String.append_assoc]
  · rw [set, hafter, hchildren]
    simp only [String.append_assoc]

end

/-! ## Changes that follow each other -/

/-- Of two nodes that are put at a place one after the other, the second counts. -/
theorem set_set (p : Path) (n a b : Node) : (n.set p a).set p b = n.set p b := by
  simp only [set]
  induction p generalizing n with
  | nil => rfl
  | cons step p ih =>
    cases step with
    | child i =>
      rw [modify_child, modify_child, modify_child, children_withChildren]
      have hlist : (n.children.modify i (modify (fun _ => a) p)).modify i (modify (fun _ => b) p) =
          n.children.modify i (modify (fun _ => b) p) := by
        rw [List.modify_modify_eq]
        congr 1
        exact funext ih
      rw [hlist]
      cases n
      rfl
    | attributes =>
      rw [modify_attributes, modify_attributes]
      split
      · next helement =>
        rw [modify_attributes, kind_withAttributes, if_pos helement, attributeList, attributes_withAttributes]
        have hlist : (new .attributes (modify (fun _ => a) p n.attributeList).children).modify (fun _ => b) p =
            n.attributeList.modify (fun _ => b) p := by
          cases p with
          | nil => rfl
          | cons step p => rw [← modify_attributeList _ (List.cons_ne_nil step p), ih]
        rw [hlist, if_pos helement]
        cases n
        rfl
      · next helement => rw [modify_attributes, if_neg helement]

/-- The node that is at a place may be put there. -/
theorem set_self {p : Path} {n m : Node} (h : n.get? p = some m) : n.set p m = n := by
  rw [set]
  induction p generalizing n with
  | nil =>
    cases h
    rfl
  | cons step p ih =>
    cases step with
    | child i =>
      obtain ⟨c, hc, h⟩ := Option.bind_eq_some_iff.mp h
      have hlist : n.children.modify i (modify (fun _ => m) p) = n.children := by
        apply List.ext_getElem?
        intro j
        rw [List.getElem?_modify]
        by_cases hj : i = j
        · subst hj
          simp [hc, ih h]
        · simp [hj]
      rw [modify_child, hlist, withChildren_children]
    | attributes =>
      rw [get?_attributes] at h
      split at h
      · next helement =>
        rw [modify_attributes, if_pos helement, ih h, children_attributeList, withAttributes_attributes]
      · cases h

theorem get?_set_withChildren {p : Path} {n m : Node} (h : n.get? p = some m) (cs : List Node) :
    (n.set p (m.withChildren cs)).get? p = some (m.withChildren cs) := by
  have := get?_modifyChildren (fun _ => cs) p n
  rwa [modifyChildren, modify_eq_set _ h, h, Option.map_some] at this

/-! ## White space in documents -/

theorem Spaced.cons_solid {n : Node} {ns : List Node} (h : Spaced ns) (hn : n.isWhitespace = false) :
    Spaced (n :: ns) :=
  List.isChain_cons.mpr ⟨fun _ _ hblank => (Bool.false_ne_true (hn.symm.trans hblank)).elim, h⟩

/-- Nodes that are no white space keep lists apart. -/
theorem Spaced.append_solid {ns ms : List Node} (h : Spaced ns) {n : Node} (hn : n.isWhitespace = false)
    (h' : Spaced ms) : Spaced (ns ++ n :: ms) := by
  refine List.isChain_append.mpr ⟨h, h'.cons_solid hn, fun _ _ m hm _ => ?_⟩
  rw [List.head?_cons, Option.mem_some] at hm
  rw [← hm]
  exact hn

end Node

namespace Edit
open Node

/-- At most one node of white space stands between a node and its new sibling. -/
theorem gapBeside_cases (tree : Node) (v : Visit) :
    gapBeside tree v = [] ∧ Indent.siblingSpace tree (some v.path) = "" ∨
      gapBeside tree v = [.text (Indent.siblingSpace tree (some v.path))] := by
  unfold gapBeside
  split
  · next h => exact .inl ⟨rfl, String.isEmpty_iff.mp h⟩
  · exact .inr rfl

theorem write_gapBeside (tree : Node) (v : Visit) :
    writeAll (gapBeside tree v) = Indent.siblingSpace tree (some v.path) := by
  rcases gapBeside_cases tree v with ⟨h, hspace⟩ | h
  · rw [h, hspace]
    rfl
  · rw [h, writeAll_singleton]
    simp [text, Node.new, Node.write, Node.writeAll, Kind.opening, Kind.closing]

/-- A node and a sibling beside it, with white space between them, where there was one of them before. -/
theorem spaced_beside {left right : List Node} {x : Node} (h : Spaced (left ++ x :: right)) (tree : Node) (v : Visit)
    {a b : Node} (ha : a.isWhitespace = false) (hb : b.isWhitespace = false) :
    Spaced (left ++ a :: (gapBeside tree v ++ b :: right)) := by
  have hright : Spaced right := List.IsChain.tail (List.IsChain.right_of_append h)
  refine Spaced.append_solid (List.IsChain.left_of_append h) ha ?_
  rcases gapBeside_cases tree v with ⟨hgap, -⟩ | hgap
  · rw [hgap]
    exact hright.cons_solid hb
  · rw [hgap]
    exact List.isChain_cons_cons.mpr ⟨fun _ => hb, hright.cons_solid hb⟩

/-! ## Taking the new sibling out -/

/-- With a new sibling behind a node its white space is taken out. -/
theorem detach_beside {x : Node} (hx : x.isWhitespace = false) (tree : Node) (v : Visit) (left right : List Node)
    (n : Node) : detach (left ++ x :: gapBeside tree v ++ n :: right) (left ++ x :: gapBeside tree v).length =
      left ++ x :: right := by
  rcases gapBeside_cases tree v with ⟨hgap, -⟩ | hgap
  · have hlast : ∀ y ∈ (left ++ [x]).getLast?, y.isWhitespace = false := by simpa using hx
    have := detach_solid hlast right n
    rw [hgap]
    simpa using this
  · have hw := (blank_gapBeside tree v _ (hgap ▸ List.mem_singleton_self _)).isWhitespace
    have := detach_blank (left ++ [x]) right hw n
    rw [hgap]
    simpa using this

/-! ## The new node -/

/-- What is put in has passed the check for conflicts. -/
theorem conflicts_of_newNode {tree n n' : Node} {r : Request} {log log' : List Record}
    (hnew : Template.resolve r.registry r.spec r.options = .ok (n, log)) (h : newNode tree r = .ok (n', log')) :
    identityConflicts tree [n] [] = .ok [] := by
  rw [newNode, hnew] at h
  dsimp only at h
  split at h
  · cases h
  · next hc => exact hc
  · cases h

theorem identity?_marked_fresh (mark : Option Nat) (tree n : Node) :
    (marked mark (fresh tree n)).identity? = n.identity? := by
  have hfresh : (fresh tree n).identity? = n.identity? := by
    unfold fresh
    split
    · obtain ⟨k, i, as, cs⟩ := n
      exact identity?_congr (isElement_copied _ k) (entries_copyAll as)
    · rfl
  unfold marked
  split
  · exact hfresh
  · rw [← hfresh]
    exact identity?_congr (by rw [kind_withMark]) (by rw [attributes_withMark])

theorem legible_marked_fresh (mark : Option Nat) (tree : Node) {n : Node} (h : ∀ m ∈ n :: n.under, m.Legible) :
    ∀ m ∈ marked mark (fresh tree n) :: (marked mark (fresh tree n)).under, m.Legible := by
  have hfresh : ∀ m ∈ fresh tree n :: (fresh tree n).under, m.Legible := by
    unfold fresh
    split
    · exact legible_copy n h
    · exact h
  unfold marked
  split
  · exact hfresh
  · obtain ⟨hown, has, hcs⟩ := forall_tree.mp hfresh
    refine forall_tree.mpr ⟨hown.congr ?_ ?_ ?_, by rwa [attributes_withMark], by rwa [children_withMark]⟩
    · rw [isForeign, isForeign, kind_withMark]
    · rw [kind_withMark]
    · rw [attributes_withMark]

/-- An identity of a new node is in the tree nowhere else. -/
theorem tally_of_no_conflict {tree n : Node} (hc : identityConflicts tree [n] [] = .ok []) {d : String}
    (hd : n.identity? = some d) : total (carries d) [n] ≤ 1 ∧ tally (carries d) tree.under = 0 := by
  obtain ⟨hone, hnone⟩ := identityConflicts_nil hc d
  refine ⟨hone, ?_⟩
  have hne : total (carries d) [n] ≠ 0 := by
    rw [Ne, total_carries_zero]
    exact fun h => h n (by rw [within_singleton]; exact List.mem_cons_self) hd
  rw [← count_identities, List.count_eq_zero]
  intro hmem
  obtain ⟨m, hm, hid⟩ := List.mem_filterMap.mp hmem
  rw [← descendants_eq_under] at hm
  obtain ⟨v, hv, rfl⟩ := List.mem_map.mp hm
  cases hnone hne v hv hid

theorem identity?_indentedBeside (tree : Node) (v : Visit) (n : Node) :
    (indentedBeside tree v n).identity? = n.identity? := by
  obtain ⟨k, i, as, cs⟩ := n
  exact identity?_congr rfl (entries_reindentAll _ as)

/-- A search can look at a new sibling and the white space beside it as it can at the nodes around them. -/
theorem legible_beside {m n y : Node} {left right : List Node} (tree : Node) (v : Visit)
    (hs : m.children = left ++ y :: right) (hn : ∀ x ∈ n :: n.under, x.Legible) (hm : ∀ x ∈ m :: m.under, x.Legible) :
    ∀ x ∈ m.withChildren (left ++ y :: gapBeside tree v ++ n :: right) ::
      (m.withChildren (left ++ y :: gapBeside tree v ++ n :: right)).under, x.Legible := by
  obtain ⟨hown, has, hcs⟩ := forall_tree.mp hm
  have hgap : ∀ x ∈ within (gapBeside tree v), x.Legible := by
    rcases gapBeside_cases tree v with ⟨h, -⟩ | h
    · rw [h]
      exact fun x hx => absurd hx List.not_mem_nil
    · rw [h]
      exact List.forall_mem_singleton.mpr ⟨rfl, none, rfl⟩
  rw [hs, within_append, List.forall_mem_append, within_cons, List.forall_mem_append] at hcs
  refine forall_tree.mpr ⟨?_, by rwa [attributes_withChildren], ?_⟩
  · refine hown.congr ?_ (by rw [kind_withChildren]) (by rw [attributes_withChildren])
    rw [isForeign, isForeign, kind_withChildren]
  · simp only [children_withChildren, within_append, within_cons, List.forall_mem_append]
    exact ⟨⟨hcs.1, hcs.2.1, hgap⟩, hn, hcs.2.2⟩

theorem legible_indentedBeside (tree : Node) (v : Visit) {n : Node} (h : ∀ x ∈ n :: n.under, x.Legible) :
    ∀ x ∈ indentedBeside tree v n :: (indentedBeside tree v n).under, x.Legible := legible_reindent _ n h

/-! ## Insertion beside an element -/

/-- A visited node among its siblings, in markup in which no white space meets white space. -/
structure Amid (tree : Node) (v : Visit) (m : Node) (left right : List Node) : Prop where
  place : tree.get? v.parent = some m
  markup : m.kind.isMarkup = true
  children : m.children = left ++ v.node :: right
  index : left.length = v.index
  solid : v.node.isWhitespace = false
  spaced : Spaced m.children

section

variable {tree n m : Node} {v : Visit} {left right : List Node} (h : Amid tree v m left right)
  (hn : n.kind.isMarkup = true)
include h hn

/-- Without white space that meets white space, a new sibling is only added. -/
theorem insertBeside_after_spaced : insertBeside tree v true n =
    (tree.set v.parent (m.withChildren (left ++ v.node :: gapBeside tree v ++ indentedBeside tree v n :: right)),
      indentedBeside tree v n) := by
  have hlist : left ++ [v.node] ++ gapBeside tree v ++ indentedBeside tree v n :: right =
      left ++ v.node :: (gapBeside tree v ++ indentedBeside tree v n :: right) := by simp
  have hlist' : left ++ v.node :: gapBeside tree v ++ indentedBeside tree v n :: right =
      left ++ v.node :: (gapBeside tree v ++ indentedBeside tree v n :: right) := by simp
  rw [insertBeside_after hn h.place h.children h.index, hlist, hlist', mergeWhitespace_of_spaced]
  exact spaced_beside (h.children ▸ h.spaced) tree v h.solid (solid_reindent hn _)

theorem insertBeside_before_spaced : insertBeside tree v false n =
    (tree.set v.parent (m.withChildren (left ++ indentedBeside tree v n :: (gapBeside tree v ++ v.node :: right))),
      indentedBeside tree v n) := by
  rw [insertBeside_before hn h.place h.children h.index, mergeWhitespace_of_spaced]
  exact spaced_beside (h.children ▸ h.spaced) tree v (solid_reindent hn _) h.solid

theorem write_after : ∃ pre post, tree.write = pre ++ v.node.write ++ post ∧
    (insertBeside tree v true n).1.write = pre ++ v.node.write ++
      (Indent.siblingSpace tree (some v.path) ++ (insertBeside tree v true n).2.write) ++ post := by
  obtain ⟨pre, post, hbefore, hafter⟩ := write_modifyChildren h.markup h.place
    (left ++ v.node :: gapBeside tree v ++ indentedBeside tree v n :: right)
  refine ⟨pre ++ writeAll left, writeAll right ++ post, ?_, ?_⟩
  · rw [hbefore, h.children, writeAll_around]
    simp only [String.append_assoc]
  · rw [insertBeside_after_spaced h hn, hafter, writeAll_around, writeAll_around, write_gapBeside]
    simp only [String.append_assoc]

theorem write_before : ∃ pre post, tree.write = pre ++ v.node.write ++ post ∧
    (insertBeside tree v false n).1.write = pre ++
      ((insertBeside tree v false n).2.write ++ Indent.siblingSpace tree (some v.path)) ++ v.node.write ++ post := by
  obtain ⟨pre, post, hbefore, hafter⟩ := write_modifyChildren h.markup h.place
    (left ++ indentedBeside tree v n :: (gapBeside tree v ++ v.node :: right))
  refine ⟨pre ++ writeAll left, writeAll right ++ post, ?_, ?_⟩
  · rw [hbefore, h.children, writeAll_around]
    simp only [String.append_assoc]
  · rw [insertBeside_before_spaced h hn, hafter, writeAll_around, writeAll_around, write_gapBeside]
    simp only [String.append_assoc]

/-- If the new sibling behind an element is the only one with its identity, it is found, and its removal leaves what was
there before. -/
theorem remove_after {d : String} (hd : n.identity? = some d) (htree : ∀ x ∈ tree.under, x.Legible)
    (hnew : ∀ x ∈ n :: n.under, x.Legible) (hroot : tree.kind.isMarkup = false)
    (hone : tally (carries d) (insertBeside tree v true n).1.under ≤ 1) :
    (remove (insertBeside tree v true n).1 d false).Succeeds ∧
      (remove (insertBeside tree v true n).1 d false).tree = tree := by
  rw [insertBeside_after_spaced h hn] at hone ⊢
  dsimp only at hone ⊢
  have hmarkup : ∀ cs, (m.withChildren cs).kind.isMarkup = true := fun cs => by rw [kind_withChildren, h.markup]
  have hlegible : ∀ x ∈ (tree.set v.parent (m.withChildren
      (left ++ v.node :: gapBeside tree v ++ indentedBeside tree v n :: right))).under, x.Legible :=
    legible_modify (f := fun _ => m.withChildren _) h.markup (hmarkup _)
      (legible_beside tree v h.children (legible_indentedBeside tree v hnew)) (ne_nil_of_get? hroot h.markup h.place)
      h.place htree
  have hplace := get?_set_withChildren h.place (left ++ v.node :: gapBeside tree v ++ indentedBeside tree v n :: right)
  have hvisit := mem_visits (i := (left ++ v.node :: gapBeside tree v).length) (c := indentedBeside tree v n) hplace
    (by simp)
  rw [remove, findId_unique hlegible hone hvisit (by rw [identity?_indentedBeside, hd])]
  dsimp only
  rw [isMarkupPlace, hplace, Option.any_some, hmarkup]
  refine ⟨Reply.succeeds_succeeded _ _ _, ?_⟩
  show detachAt _ _ = tree
  rw [detachAt, modifyChildren, modify_eq_set _ hplace, children_withChildren, detach_beside h.solid, set_set,
    ← h.children]
  have hback : ∀ cs, (m.withChildren cs).withChildren m.children = m := fun cs => by cases m; rfl
  rw [hback, set_self h.place]

end

/-! ## Documents that were just read -/

/-- The children of markup in a document that was just read are kept apart. -/
theorem spaced_parse {text : String} {tree m : Node} {p : Path} (h : Source.parse text = .ok tree)
    (hm : tree.get? p = some m) (hk : m.kind.isMarkup = true) : Spaced m.children := by
  have hroot := not_markup_of_document (Source.document_of_parse h)
  exact (Source.textsApart_parse h (mem_under_of_get? hroot hm hk) hk).spaced

theorem amid_of_found {text id : String} {tree : Node} {v : Visit} (h : Source.parse text = .ok tree)
    (hv : Found tree id v) (hp : isMarkupPlace tree v.parent = true) : ∃ m left right, Amid tree v m left right := by
  obtain ⟨m, left, right, hm, hk, hc, hi⟩ := hv.siblings_split hp
  exact ⟨m, left, right, hm, hk, hc, hi, solid_of_isMarkup hv.markup, spaced_parse h hm hk⟩

/-- Once a new node is in the tree beside an element, no other has its identity. -/
theorem tally_insertBeside {tree n : Node} {v : Visit} {d : String} (htree : ∃ source, tree.kind = .document source)
    (hp : isMarkupPlace tree v.parent = true) (hc : identityConflicts tree [n] [] = .ok []) (hd : n.identity? = some d)
    (mark : Option Nat) : tally (carries d) (insertBeside tree v true (marked mark (fresh tree n))).1.under ≤ 1 := by
  obtain ⟨hone, hzero⟩ := tally_of_no_conflict hc hd
  have hgrows := grows_insertBeside (not_markup_of_document htree) hp true (marked mark (fresh tree n))
  have helement := not_element_of_document htree
  have hcount := hgrows.count (carries d)
  have hfresh : total (carries d) [fresh tree n] ≤ total (carries d) [n] := total_fresh (carries d) n
  rw [total_marked] at hcount
  rw [total_under _ helement] at hzero
  rw [total_under _ (by rw [hgrows.kind, helement])]
  omega

/-- In a document that was just read, a successful insertion beside an element adds one piece to the text: white space
and the written node behind what is written for the element, or the node and white space before it. The removal of an
element that was inserted behind another brings back the document. -/
theorem sibling_insertions_splice {text : String} {tree n : Node} {r : Request} {log : List Record}
    (h : Source.parse text = .ok tree) (hnew : Template.resolve r.registry r.spec r.options = .ok (n, log))
    (hn : n.kind.isMarkup = true) (id : String) :
    ((insert tree id "after" r).Succeeds → ∃ v n' pre post message, tree.findId id = .ok (some v) ∧
      (insert tree id "after" r).result = .ok ⟨none, message, [("node", .node n')]⟩ ∧
      tree.write = pre ++ v.node.write ++ post ∧
      (insert tree id "after" r).tree.write =
        pre ++ v.node.write ++ (Indent.siblingSpace tree (some v.path) ++ n'.write) ++ post ∧
      ∀ d, n.elementIdentity = .ok (some d) → (remove (insert tree id "after" r).tree d false).Succeeds ∧
        (remove (insert tree id "after" r).tree d false).tree = tree) ∧
    ((insert tree id "before" r).Succeeds → ∃ v n' pre post message, tree.findId id = .ok (some v) ∧
      (insert tree id "before" r).result = .ok ⟨none, message, [("node", .node n')]⟩ ∧
      tree.write = pre ++ v.node.write ++ post ∧
      (insert tree id "before" r).tree.write =
        pre ++ (n'.write ++ Indent.siblingSpace tree (some v.path)) ++ v.node.write ++ post) := by
  have hmarkup := isMarkup_marked_fresh hn r.mark tree
  have hroot := Source.document_of_parse h
  constructor
  · intro hs
    obtain ⟨pos, v, n₁, log', message, hpos, hv, hplace, hn₁, heq⟩ := insert_of_succeeds hs
    cases hpos
    obtain rfl := newNode_ok hnew hn₁
    obtain ⟨m, left, right, hamid⟩ := amid_of_found h (findId_some hv) (hplace rfl)
    obtain ⟨pre, post, hbefore, hafter⟩ := write_after hamid hmarkup
    rw [heq]
    refine ⟨v, _, pre, post, message, hv, rfl, hbefore, hafter, fun d hd => ?_⟩
    have hconflicts := conflicts_of_newNode hnew hn₁
    obtain ⟨hold, hgiven⟩ := legible_of_identityConflicts hconflicts
    have hid : n.identity? = some d := by
      rw [identity?_eq, hd]
      rfl
    exact remove_after hamid hmarkup (by rw [identity?_marked_fresh, hid]) hold
      (legible_marked_fresh r.mark tree hgiven) (not_markup_of_document hroot)
      (tally_insertBeside hroot (hplace rfl) hconflicts hid r.mark)
  · intro hs
    obtain ⟨pos, v, n₁, log', message, hpos, hv, hplace, hn₁, heq⟩ := insert_of_succeeds hs
    cases hpos
    obtain rfl := newNode_ok hnew hn₁
    obtain ⟨m, left, right, hamid⟩ := amid_of_found h (findId_some hv) (hplace rfl)
    obtain ⟨pre, post, hbefore, hafter⟩ := write_before hamid hmarkup
    rw [heq]
    exact ⟨v, _, pre, post, message, hv, rfl, hbefore, hafter⟩

/-- A list with an item on a line of its own. -/
def oneItem : String := "x = <ul>\n  <li data-editable='item'/>\n</ul>;"

/-- A request for a second item. -/
def secondItem : Request := ⟨.str "<li data-editable='next'/>", [], [], 2, none⟩

theorem second_item_spliced : ∃ tree v n' pre post, Source.parse oneItem = .ok tree ∧
    tree.findId "item" = .ok (some v) ∧ tree.write = pre ++ v.node.write ++ post ∧
    (insert tree "item" "after" secondItem).tree.write =
      pre ++ v.node.write ++ (Indent.siblingSpace tree (some v.path) ++ Node.write n') ++ post ∧
    (insert tree "item" "after" secondItem).tree.write =
      "x = <ul>\n  <li data-editable='item'/>\n  <li data-editable='next'/>\n</ul>;" ∧
    (remove (insert tree "item" "after" secondItem).tree "next" false).tree = tree := by
  obtain ⟨tree, htree⟩ := Source.exists_of_parse (by decide +kernel : (Source.parse oneItem).toBool = true)
  have hrun : (Source.parse oneItem).toOption.map (fun tree =>
      (decide (insert tree "item" "after" secondItem).Succeeds, (insert tree "item" "after" secondItem).tree.write)) =
      some (true, "x = <ul>\n  <li data-editable='item'/>\n  <li data-editable='next'/>\n</ul>;") := by
    decide +kernel
  rw [htree] at hrun
  obtain ⟨hs, hwrite⟩ := Prod.ext_iff.mp (Option.some.inj hrun)
  have hnew : (Template.resolve secondItem.registry secondItem.spec secondItem.options).toOption.map (fun x =>
      (x.1.kind.isMarkup, x.1.elementIdentity.toOption)) = some (true, some (some "next")) := by
    decide +kernel
  cases hresolve : Template.resolve secondItem.registry secondItem.spec secondItem.options with
  | error f =>
    rw [hresolve] at hnew
    cases hnew
  | ok x =>
    rw [hresolve] at hnew
    obtain ⟨hmarkup, hid⟩ := Prod.ext_iff.mp (Option.some.inj hnew)
    obtain ⟨v, n', pre, post, -, hv, -, hbefore, hafter, hback⟩ :=
      (sibling_insertions_splice htree hresolve hmarkup "item").1 (of_decide_eq_true hs)
    have hd : x.1.elementIdentity = .ok (some "next") := by
      replace hid : x.1.elementIdentity.toOption = some (some "next") := hid
      cases he : x.1.elementIdentity with
      | error f =>
        rw [he] at hid
        cases hid
      | ok id =>
        rw [he] at hid
        rw [Option.some.inj hid]
    exact ⟨tree, v, n', pre, post, htree, hv, hbefore, hafter, hwrite, (hback "next" hd).2⟩

end Edit
end JsxEdit
