import JsxEdit.Proofs.Command
import JsxEdit.Proofs.Lookup
import JsxEdit.Proofs.Merged

/-
What an insertion changes.

The new node goes into one list of children, between two parts of it, with white space before and after it. White space
that meets white space is merged. The position only says which parts these are. Where there is nothing below white space,
merging takes nothing out of the tree but white space; what a white-space text has below it may be lost.
-/
set_option autoImplicit false

namespace JsxEdit
namespace Node

/-! ## Nodes apart from their white space -/

mutual

/-- The node with an empty text for every white space between tags at any depth below it. -/
def blanked : Node → Node
  | .mk k i as cs => .mk k i (blankedAll as) (blankedAll cs)

/-- The nodes with an empty text for every white space among and below them. -/
def blankedAll : List Node → List Node
  | [] => []
  | n :: ns => (if n.isWhitespace then (blanked n).withKind (.text "") else blanked n) :: blankedAll ns

end

@[simp] theorem kind_blanked (n : Node) : n.blanked.kind = n.kind := by cases n; rfl

theorem isWhitespace_reindentKind {s : String} (hs : Text.isBlank s = true) (k : Kind) :
    (Indent.reindentKind s k).isWhitespace = k.isWhitespace := by
  unfold Indent.reindentKind
  split
  · next t =>
    split
    · next h =>
      rw [Bool.and_eq_true] at h
      show Text.isBlank _ = Text.isBlank t
      rw [h.1, Text.isBlank_replace_feed h.1 hs]
    · rfl
  · rfl

theorem reindentKind_solid (s : String) {k : Kind} (h : k.isWhitespace = false) : Indent.reindentKind s k = k := by
  unfold Indent.reindentKind
  split
  · next t =>
    have hblank : Text.isBlank t = false := h
    rw [hblank, Bool.false_and, if_neg Bool.false_ne_true]
  · rfl

@[simp] theorem kind_reindent (s : String) (n : Node) : (Indent.reindent s n).kind = n.kind := by cases n; rfl

mutual

/-- Indenting a node changes how the white space below it is written and nothing else. -/
theorem blanked_reindent {s : String} (hs : Text.isBlank s = true) :
    (n : Node) → (Indent.reindent s n).blanked = n.blanked
  | .mk k i as cs => by
    rw [Indent.reindent, blanked, blanked, blankedAll_reindentAll hs as, blankedAll_reindentAll hs cs]

theorem blankedAll_reindentAll {s : String} (hs : Text.isBlank s = true) :
    (ns : List Node) → blankedAll (Indent.reindentAll s ns) = blankedAll ns
  | [] => rfl
  | n :: ns => by
    have hblank : ((Indent.reindent s n).withKind (Indent.reindentKind s n.kind)).isWhitespace = n.isWhitespace := by
      rw [isWhitespace, kind_withKind, isWhitespace_reindentKind hs]
      rfl
    have hkind (k : Kind) (m : Node) : (m.withKind k).blanked = m.blanked.withKind k := by cases m; rfl
    rw [Indent.reindentAll, blankedAll, blankedAll, hblank, blankedAll_reindentAll hs ns, hkind, blanked_reindent hs n]
    cases hn : n.isWhitespace with
    | true => cases n.blanked; rfl
    | false =>
      have hsame : n.blanked.withKind n.kind = n.blanked := by cases n; rfl
      rw [reindentKind_solid s hn, hsame]

end

/-! ## What is below the nodes of a list -/

/-- There is nothing below white space at any depth in the tree. -/
def BlankLeaves (tree : Node) : Prop := ∀ m ∈ tree.under, m.isWhitespace = true → m.children = []

/-- White space in a list has nothing below it. -/
def AreLeaves (ns : List Node) : Prop := ∀ w ∈ ns, w.isWhitespace = true → w.under = []

theorem AreLeaves.append {ns ms : List Node} (hns : AreLeaves ns) (hms : AreLeaves ms) : AreLeaves (ns ++ ms) :=
  List.forall_mem_append.mpr ⟨hns, hms⟩

theorem areLeaves_singleton {n : Node} (h : n.isWhitespace = false) : AreLeaves [n] := by
  refine List.forall_mem_singleton.mpr fun hblank => ?_
  rw [h] at hblank
  cases hblank

/-- The children of a node of a tree in which only elements have attributes. -/
theorem BlankLeaves.children {tree m : Node} (h : tree.BlankLeaves) (htree : tree.KeepsAttributes) {p : Path}
    (hm : tree.get? p = some m) : AreLeaves m.children := by
  intro w hw hblank
  obtain ⟨i, hi⟩ := List.getElem?_of_mem hw
  have hunder : w ∈ tree.under := node_mem_under (mem_visits hm hi)
  have hplain : w.kind.isElement = false := by
    rw [isWhitespace] at hblank
    cases hk : w.kind with
    | element =>
      rw [hk] at hblank
      cases hblank
    | _ => rfl
  have hnone : w.attributes = [] := htree w (List.mem_cons_of_mem _ hunder) hplain
  rw [under_eq, hnone, h w hunder hblank]
  rfl

/-- The nodes among and below those of a list that are no white space. -/
theorem solids_within {ns : List Node} (h : AreLeaves ns) :
    solids (within ns) = (solids ns).flatMap fun n => n :: solids n.under := by
  induction ns with
  | nil => rfl
  | cons n ns ih =>
    obtain ⟨hn, hns⟩ := List.forall_mem_cons.mp h
    rw [within_cons, List.cons_append]
    cases hblank : n.isWhitespace with
    | true => rw [solids_cons_blank hblank, solids_cons_blank hblank, hn hblank, List.nil_append, ih hns]
    | false =>
      rw [solids_cons_solid hblank, solids_cons_solid hblank, solids_append, ih hns]
      rfl

theorem areLeaves_prepend {n : Node} {ns : List Node} (hn : n.isWhitespace = true → n.under = []) (hns : AreLeaves ns) :
    AreLeaves (prepend n ns) := by
  have hboth : AreLeaves (n :: ns) := List.forall_mem_cons.mpr ⟨hn, hns⟩
  cases ns with
  | nil => exact hboth
  | cons m ms =>
    unfold prepend
    dsimp only
    split
    · next s t hs ht =>
      split
      · next hblank =>
        refine List.forall_mem_cons.mpr ⟨fun _ => ?_, (List.forall_mem_cons.mp hns).2⟩
        rw [under_eq, attributes_withKind, children_withKind, ← under_eq]
        refine hn ?_
        rw [isWhitespace, hs]
        exact (Bool.and_eq_true_iff.mp hblank).1
      · exact hboth
    · exact hboth

theorem areLeaves_mergeWhitespace {ns : List Node} (h : AreLeaves ns) : AreLeaves (mergeWhitespace ns) := by
  induction ns with
  | nil => exact List.forall_mem_nil _
  | cons n ns ih =>
    obtain ⟨hn, hns⟩ := List.forall_mem_cons.mp h
    exact areLeaves_prepend hn (ih hns)

/-! ## Where visits lead in a tree in which only elements have attributes -/

mutual

theorem visitsAt_reached (path : Path) : (n : Node) → n.KeepsAttributes → ∀ v ∈ n.visitsAt path,
    ∃ q m, v.parent = path ++ q ∧ n.get? q = some m
  | .mk k i as cs => by
    intro h v hv
    obtain ⟨hown, has, hcs⟩ := forall_tree.mp h
    rw [visitsAt, List.mem_append] at hv
    rcases hv with hv | hv
    · -- a node with attributes is an element, so that its attribute list is a place
      have helement : k.isElement = true := by
        rw [← Bool.not_eq_false]
        intro hk
        have hnone : as = [] := hown hk
        rw [hnone, visitsIn] at hv
        cases hv
      rcases visitsIn_reached _ 0 as has v hv with hp | ⟨j, c, q, m, hc, hp, hm⟩
      · exact ⟨[.attributes], _, hp, by rw [get?_attributes, kind_mk, if_pos helement, get?_nil]⟩
      · refine ⟨.attributes :: .child j :: q, m, by rw [hp, Nat.zero_add]; simp, ?_⟩
        rw [get?_attributes, kind_mk, if_pos helement, get?_child, children_attributeList, attributes_mk, hc]
        exact hm
    · rcases visitsIn_reached _ 0 cs hcs v hv with hp | ⟨j, c, q, m, hc, hp, hm⟩
      · exact ⟨[], _, by rw [hp, List.append_nil], get?_nil _⟩
      · refine ⟨.child j :: q, m, by rw [hp, Nat.zero_add], ?_⟩
        rw [get?_child, children_mk, hc]
        exact hm

theorem visitsIn_reached (path : Path) (index : Nat) : (ns : List Node) →
    (∀ m ∈ within ns, m.kind.isElement = false → m.attributes = []) → ∀ v ∈ visitsIn path index ns,
    v.parent = path ∨ ∃ j c q m, ns[j]? = some c ∧ v.parent = path ++ .child (index + j) :: q ∧ c.get? q = some m
  | [] => by
    intro _ v hv
    cases hv
  | n :: ns => by
    intro h v hv
    rw [within_cons, List.forall_mem_append] at h
    rw [visitsIn, List.mem_append, List.mem_cons] at hv
    rcases hv with (rfl | hv) | hv
    · exact .inl rfl
    · obtain ⟨q, m, hp, hm⟩ := visitsAt_reached _ n h.1 v hv
      exact .inr ⟨0, n, q, m, rfl, by rw [hp]; simp, hm⟩
    · rcases visitsIn_reached path (index + 1) ns h.2 v hv with hp | ⟨j, c, q, m, hc, hp, hm⟩
      · exact .inl hp
      · exact .inr ⟨j + 1, c, q, m, hc, by rw [hp, Nat.add_assoc, Nat.add_comm 1 j], hm⟩

end

/-- The place of a visit leads to the visited node. -/
theorem KeepsAttributes.get?_visit {tree : Node} (h : tree.KeepsAttributes) {v : Visit} (hv : v ∈ tree.visits) :
    tree.get? v.path = some v.node := by
  obtain ⟨q, m, hp, hm⟩ := visitsAt_reached [] tree h v hv
  rw [List.nil_append] at hp
  subst hp
  rw [get?_path hm, getElem?_of_visit hv hm]

end Node

namespace Edit
open Node

/-! ## A new node in a list of children -/

/-- New white space, with nothing below it. -/
def IsBlankText (w : Node) : Prop := ∃ s, Text.isBlank s = true ∧ w = .text s

theorem IsBlankText.isWhitespace {w : Node} (h : IsBlankText w) : w.isWhitespace = true := by
  obtain ⟨s, hs, rfl⟩ := h
  exact hs

theorem areLeaves_of_blankTexts {ws : List Node} (h : ∀ w ∈ ws, IsBlankText w) : AreLeaves ws := by
  intro w hw _
  obtain ⟨s, -, rfl⟩ := h w hw
  rfl

theorem blankText {s : String} (hs : Text.isBlank s = true) : ∀ w ∈ [Node.text s], IsBlankText w :=
  List.forall_mem_singleton.mpr ⟨s, hs, rfl⟩

/-- The list of children at the place takes in a new node between its two parts, with white space around it, and its
white space is merged. If `opens`, the node that has the list is opened. Nothing else in the tree is changed. -/
def Receives (tree tree' : Node) (place : Path) (opens : Bool) (left right : List Node) (n : Node) : Prop :=
  ∃ m before after new, tree.get? place = some m ∧ m.kind.isMarkup = true ∧ m.children = left ++ right ∧
    (∀ w ∈ before ++ after, IsBlankText w) ∧
    new = mergeWhitespace (left ++ before ++ n :: (after ++ right)) ∧ solids new = solids left ++ n :: solids right ∧
    tree' = tree.set place ((if opens then m.opened else m).withChildren new)

/-- The list of children at the place takes in a new node between its two parts: apart from white space, the list and all
that is below it is what it was with the new node, and what is below that, in between. White space in the new list has
nothing below it and does not meet white space. If `opens`, the node that has the list is opened. Nothing else in the tree
is changed. -/
def TakesIn (tree tree' : Node) (place : Path) (opens : Bool) (left right : List Node) (n : Node) : Prop :=
  ∃ m new, tree.get? place = some m ∧ m.kind.isMarkup = true ∧ m.children = left ++ right ∧
    solids new = solids left ++ n :: solids right ∧
    solids (within new) = solids (within left) ++ solids (within [n]) ++ solids (within right) ∧
    AreLeaves new ∧ Spaced new ∧ tree' = tree.set place ((if opens then m.opened else m).withChildren new)

/-- White space around a new node leaves the other nodes and the new one. -/
theorem solids_around {n : Node} (hn : n.isWhitespace = false) {before after : List Node}
    (hblank : ∀ w ∈ before ++ after, IsBlankText w) (left right : List Node) :
    solids (mergeWhitespace (left ++ before ++ n :: (after ++ right))) = solids left ++ n :: solids right := by
  obtain ⟨hbefore, hafter⟩ := List.forall_mem_append.mp hblank
  rw [solids_mergeWhitespace, solids_append, solids_append, solids_cons_solid hn, solids_append,
    solids_eq_nil.mpr fun w hw => (hbefore w hw).isWhitespace, solids_eq_nil.mpr fun w hw => (hafter w hw).isWhitespace,
    List.append_nil, List.nil_append]

/-- What a list takes in comes to all that was there, if there is nothing below white space. -/
theorem Receives.takesIn {tree tree' n : Node} {place : Path} {opens : Bool} {left right : List Node}
    (htree : tree.KeepsAttributes) (hleaves : tree.BlankLeaves) (hn : n.isWhitespace = false)
    (h : Receives tree tree' place opens left right n) : TakesIn tree tree' place opens left right n := by
  obtain ⟨m, before, after, new, hm, hk, hs, hblank, rfl, hsolids, htree'⟩ := h
  have hchildren := hleaves.children htree hm
  rw [hs] at hchildren
  obtain ⟨hleft, hright⟩ : AreLeaves left ∧ AreLeaves right := List.forall_mem_append.mp hchildren
  obtain ⟨hbefore, hafter⟩ := List.forall_mem_append.mp hblank
  have hall : AreLeaves (left ++ before ++ n :: (after ++ right)) :=
    (hleft.append (areLeaves_of_blankTexts hbefore)).append
      ((areLeaves_singleton hn).append ((areLeaves_of_blankTexts hafter).append hright))
  have hnew := areLeaves_mergeWhitespace hall
  refine ⟨m, _, hm, hk, hs, hsolids, ?_, hnew, spaced_mergeWhitespace _, htree'⟩
  rw [solids_within hnew, hsolids, solids_within hleft, solids_within (areLeaves_singleton hn), solids_within hright,
    List.flatMap_append, List.flatMap_cons, solids_cons_solid hn, solids_nil, List.flatMap_singleton, List.append_assoc]

/-- A new node that is no white space is put among the others as it is. -/
theorem placed_node {n : Node} (hn : n.isWhitespace = false) (left right : List Node) :
    (placed left n right).node = n := by
  have hmerge : mergeWhitespace (n :: right) = prepend n (mergeWhitespace right) := rfl
  rw [placed]
  dsimp only
  rw [hmerge, prepend_apart (.inl hn), List.headD_cons]

theorem solid_reindent {n : Node} (hk : n.kind.isMarkup = true) (s : String) :
    (Indent.reindent s n).isWhitespace = false := by
  refine solid_of_isMarkup ?_
  rw [kind_reindent]
  exact hk

theorem receives_set {tree n m : Node} (hn : n.kind.isMarkup = true) {place : Path} (left before after right : List Node)
    (opens : Bool) (hm : tree.get? place = some m) (hk : m.kind.isMarkup = true) (hs : m.children = left ++ right)
    (hblank : ∀ w ∈ before ++ after, IsBlankText w) :
    Receives tree (tree.set place ((if opens then m.opened else m).withChildren
      (mergeWhitespace (left ++ before ++ n :: (after ++ right))))) place opens left right n :=
  ⟨m, before, after, _, hm, hk, hs, hblank, rfl, solids_around (solid_of_isMarkup hn) hblank left right, rfl⟩

/-! ## Beside an element -/

/-- The white space between a visited node and a new sibling, if there is any. -/
def gapBeside (tree : Node) (v : Visit) : List Node :=
  if (Indent.siblingSpace tree (some v.path)).isEmpty then [] else [.text (Indent.siblingSpace tree (some v.path))]

/-- A node indented as a new sibling of a visited node. -/
def indentedBeside (tree : Node) (v : Visit) (n : Node) : Node :=
  Indent.reindent (.ofList ((Indent.siblingSpace tree (some v.path)).toList.drop 1)) n

theorem blank_gapBeside (tree : Node) (v : Visit) : ∀ w ∈ gapBeside tree v, IsBlankText w := by
  unfold gapBeside
  split
  · exact List.forall_mem_nil _
  · exact blankText (Indent.isBlank_siblingSpace _ _)

theorem blanked_indentedBeside (tree : Node) (v : Visit) (n : Node) : (indentedBeside tree v n).blanked = n.blanked :=
  blanked_reindent (Text.isBlank_drop 1 (Indent.isBlank_siblingSpace _ _)) n

section

variable {tree n m : Node} {v : Visit} {left right : List Node} (hn : n.kind.isMarkup = true)
  (hm : tree.get? v.parent = some m) (hs : m.children = left ++ v.node :: right) (hi : left.length = v.index)
include hn hm hs hi

theorem insertBeside_after : insertBeside tree v true n =
    (tree.set v.parent (m.withChildren
        (mergeWhitespace (left ++ [v.node] ++ gapBeside tree v ++ indentedBeside tree v n :: right))),
      indentedBeside tree v n) := by
  have htake : (left ++ v.node :: right).take (v.index + 1) = left ++ [v.node] := by
    rw [← hi, List.take_append, Nat.add_sub_cancel_left, List.take_of_length_le (Nat.le_add_right _ 1)]
    rfl
  have hdrop : (left ++ v.node :: right).drop (v.index + 1) = right := by simp [← hi]
  unfold insertBeside
  dsimp only
  rw [hm, Option.map_some, Option.getD_some, hs, htake, hdrop, if_pos rfl, modifyChildren, modify_eq_set _ hm,
    placed_node (solid_reindent hn _)]
  rfl

theorem insertBeside_before : insertBeside tree v false n =
    (tree.set v.parent (m.withChildren
        (mergeWhitespace (left ++ indentedBeside tree v n :: (gapBeside tree v ++ v.node :: right)))),
      indentedBeside tree v n) := by
  have htake : (left ++ v.node :: right).take v.index = left := by simp [← hi]
  have hdrop : (left ++ v.node :: right).drop v.index = v.node :: right := by simp [← hi]
  unfold insertBeside
  dsimp only
  rw [hm, Option.map_some, Option.getD_some, hs, htake, hdrop, if_neg Bool.false_ne_true, modifyChildren,
    modify_eq_set _ hm, placed_node (solid_reindent hn _)]
  rfl

end

/-! ## Inside an element or fragment -/

/-- A last child goes to the end of the list, but before white space there that has a line feed. -/
theorem appended_spec {n : Node} (hn : n.isWhitespace = false) {space closing : String}
    (hspace : Text.isBlank space = true) (hclosing : Text.isBlank closing = true) (children : List Node) :
    (appended children space closing n).node = n ∧ ∃ left right before after, children = left ++ right ∧
      solids right = [] ∧ (∀ w ∈ before ++ after, IsBlankText w) ∧
      (appended children space closing n).children =
        mergeWhitespace (left ++ before ++ n :: (after ++ right)) := by
  have hone := blankText hspace
  have htwo : ∀ w ∈ [Node.text space] ++ [Node.text closing], IsBlankText w :=
    List.forall_mem_append.mpr ⟨hone, blankText hclosing⟩
  unfold appended
  split
  · next last hlast =>
    obtain ⟨front, rfl⟩ := List.getLast?_eq_some_iff.mp hlast
    split
    · next hbreak =>
      have hblank : last.isWhitespace = true := by
        unfold isLineBreak at hbreak
        split at hbreak
        · next s hk =>
          rw [isWhitespace, hk]
          exact (Bool.and_eq_true_iff.mp hbreak).1
        · cases hbreak
      refine ⟨placed_node hn _ _, front, [last], [.text space], [], rfl, ?_, by rwa [List.append_nil], ?_⟩
      · rw [solids_cons_blank hblank, solids_nil]
      · rw [List.dropLast_concat]
        rfl
    · exact ⟨placed_node hn _ _, _, [], [.text space], [.text closing], (List.append_nil _).symm, rfl, htwo, rfl⟩
  · next hlast =>
    rw [List.getLast?_eq_none_iff] at hlast
    subst hlast
    exact ⟨placed_node hn _ _, [], [], [.text space], [.text closing], rfl, rfl, htwo, rfl⟩

/-- A last child is put behind all children that are no white space. -/
theorem appendChild_receives {tree n m : Node} {place : Path} (hn : n.kind.isMarkup = true)
    (hm : tree.get? place = some m) (hk : m.kind.isMarkup = true) (width : Int) :
    (appendChild width tree (some place) m n).node = n ∧ ∃ left right, solids right = [] ∧
      m.children = left ++ right ∧ Receives tree
        (adopt tree place (appendChild width tree (some place) m n).children) place true left right n := by
  have hspace := Indent.isBlank_childSpace width tree (some place) m
  have hclosing : Text.isBlank (Indent.closingSpace tree (some place)) = true :=
    Text.isBlank_append rfl (Indent.isBlank_indentation _ _)
  obtain ⟨hnode, left, right, before, after, hs, hright, hblank, hc⟩ :=
    appended_spec (solid_of_isMarkup hn) hspace hclosing m.children
  refine ⟨hnode, left, right, hright, hs, ?_⟩
  rw [adopt, modify_eq_set _ hm, appendChild, hc]
  exact receives_set hn left before after right true hm hk hs hblank

/-- A new child goes before all children that are no white space, or behind them. -/
theorem insertInside_receives {tree n m : Node} {place : Path} (hn : n.kind.isMarkup = true)
    (hm : tree.get? place = some m) (hk : m.kind.isMarkup = true) (first : Bool) (width : Int) :
    ∃ left right n', n'.blanked = n.blanked ∧ (if first then solids left = [] else solids right = []) ∧
      (insertInside tree place m first width n).2 = n' ∧
      Receives tree (insertInside tree place m first width n).1 place true left right n' := by
  have hspace := Indent.isBlank_childSpace width tree (some place) m
  unfold insertInside
  dsimp only
  generalize hn'' : Indent.reindent (.ofList ((Indent.childSpace width tree (some place) m).toList.drop 1)) n = n'
  have hblanked : n'.blanked = n.blanked := by
    rw [← hn'']
    exact blanked_reindent (Text.isBlank_drop 1 hspace) n
  have hn' : n'.kind.isMarkup = true := by rw [← hn'', kind_reindent, hn]
  obtain ⟨hnode, left, right, hright, hs, hreceives⟩ := appendChild_receives hn' hm hk width
  cases first with
  | false => exact ⟨left, right, n', hblanked, hright, hnode, hreceives⟩
  | true =>
    rw [if_pos rfl, prependChild]
    by_cases hempty : m.children.isEmpty = true
    · rw [if_pos hempty]
      -- without children there is no first place but the last
      have hnil : left = [] := by
        rw [List.isEmpty_iff.mp hempty] at hs
        exact (List.append_eq_nil_iff.mp hs.symm).1
      exact ⟨left, right, n', hblanked, by rw [hnil]; rfl, hnode, hreceives⟩
    · rw [if_neg hempty]
      refine ⟨[], m.children, n', hblanked, rfl, placed_node (solid_of_isMarkup hn') _ _, ?_⟩
      rw [adopt, modify_eq_set _ hm]
      exact receives_set hn' [] [.text _] [] m.children true hm hk rfl (by rw [List.append_nil]; exact blankText hspace)

/-! ## Insertions -/

namespace Position

/-- The place of the list of children that takes in a node at the position. -/
def place (pos : Position) (v : Visit) : Path := if pos.isSibling then v.parent else v.path

/-- Whether the position is between the two parts of the list of children. -/
def Between (pos : Position) (v : Visit) (left right : List Node) : Prop :=
  match pos with
  | .after => left.length = v.index + 1 ∧ left.getLast? = some v.node
  | .before => left.length = v.index ∧ right.head? = some v.node
  | .firstChild => solids left = []
  | .lastChild => solids right = []

end Position

/-- The tree and the new node after an insertion next to an element or inside it. -/
def inserted (tree : Node) (v : Visit) (pos : Position) (width : Int) (n : Node) : Node × Node :=
  if pos.isSibling then insertBeside tree v (pos == .after) n
  else insertInside tree v.path v.node (pos == .firstChild) width n

/-- The position says between which nodes the new one goes. -/
theorem inserted_receives {tree n : Node} {id : String} {v : Visit} {pos : Position} (hn : n.kind.isMarkup = true)
    (htree : tree.KeepsAttributes) (hv : Found tree id v)
    (hplace : pos.isSibling = true → isMarkupPlace tree v.parent = true) (width : Int) :
    ∃ left right n', pos.Between v left right ∧ n'.blanked = n.blanked ∧ (inserted tree v pos width n).2 = n' ∧
      Receives tree (inserted tree v pos width n).1 (pos.place v) (!pos.isSibling) left right n' := by
  have hblanked := blanked_indentedBeside tree v n
  have hblank := blank_gapBeside tree v
  have hindented : (indentedBeside tree v n).kind.isMarkup = true := by
    rw [indentedBeside, kind_reindent]
    exact hn
  cases pos with
  | after =>
    obtain ⟨m, left, right, hm, hk, hc, hi⟩ := hv.siblings_split (hplace rfl)
    have hput : inserted tree v .after width n = _ := insertBeside_after hn hm hc hi
    rw [hput]
    refine ⟨left ++ [v.node], right, _, ⟨?_, List.getLast?_concat⟩, hblanked, rfl, ?_⟩
    · rw [List.length_append, List.length_singleton, hi]
    · refine receives_set hindented (left ++ [v.node]) _ [] right false hm hk ?_ ?_
      · rw [hc, List.append_assoc, List.singleton_append]
      · rwa [List.append_nil]
  | before =>
    obtain ⟨m, left, right, hm, hk, hc, hi⟩ := hv.siblings_split (hplace rfl)
    have hput : inserted tree v .before width n = _ := insertBeside_before hn hm hc hi
    rw [hput]
    refine ⟨left, v.node :: right, _, ⟨hi, rfl⟩, hblanked, rfl, ?_⟩
    have hset := receives_set hindented left [] _ (v.node :: right) false hm hk hc hblank
    rwa [List.append_nil] at hset
  | firstChild =>
    obtain ⟨left, right, n', hn', hempty, hnode, hreceives⟩ :=
      insertInside_receives hn (htree.get?_visit hv.mem) hv.markup true width
    exact ⟨left, right, n', hempty, hn', hnode, hreceives⟩
  | lastChild =>
    obtain ⟨left, right, n', hn', hempty, hnode, hreceives⟩ :=
      insertInside_receives hn (htree.get?_visit hv.mem) hv.markup false width
    exact ⟨left, right, n', hempty, hn', hnode, hreceives⟩

/-- What is put in is the new node that the specification leads to. -/
theorem newNode_ok {tree n n' : Node} {r : Request} {log log' : List Record}
    (hnew : Template.resolve r.registry r.spec r.options = .ok (n, log)) (h : newNode tree r = .ok (n', log')) :
    n' = marked r.mark (fresh tree n) := by
  rw [newNode, hnew] at h
  dsimp only at h
  split at h
  · cases h
  · cases h
    rfl
  · cases h

theorem isMarkup_marked_fresh {n : Node} (h : n.kind.isMarkup = true) (mark : Option Nat) (tree : Node) :
    (marked mark (fresh tree n)).kind.isMarkup = true := by
  have hcopy : n.copy.kind.isMarkup = n.kind.isMarkup := by
    obtain ⟨k, i, as, cs⟩ := n
    cases k <;> rfl
  have hfresh : (fresh tree n).kind.isMarkup = true := by
    unfold fresh
    split
    · rw [hcopy, h]
    · exact h
  unfold marked
  split
  · exact hfresh
  · rw [kind_withMark]
    exact hfresh

theorem not_succeeds_newNode {tree : Node} {r : Request} {reply : Reply} (h : newNode tree r = .error reply) :
    ¬reply.Succeeds := by
  rw [newNode] at h
  split at h
  · cases h
    exact Reply.not_succeeds_failed _ _ _ _
  · cases h
    exact Reply.not_succeeds_fault _ _
  · split at h
    · cases h
      rw [Reply.succeeds_after]
      exact Reply.not_succeeds_fault _ _
    · cases h
    · cases h
      rw [Reply.succeeds_after]
      exact Reply.not_succeeds_duplicate _ _

/-- What a successful insertion next to an element or inside it has found, and what it has done. -/
theorem insert_of_succeeds {tree : Node} {id position : String} {r : Request}
    (hs : (insert tree id position r).Succeeds) :
    ∃ pos v n log message, Position.ofName? position = some pos ∧ tree.findId id = .ok (some v) ∧
      (pos.isSibling = true → isMarkupPlace tree v.parent = true) ∧ newNode tree r = .ok (n, log) ∧
      insert tree id position r = .after log (.succeeded (inserted tree v pos r.width n).1 message
        [("node", .node (inserted tree v pos r.width n).2)]) := by
  unfold insert at hs ⊢
  split at hs
  · exact absurd hs (Reply.not_succeeds_invalid _ _ _)
  next pos hpos =>
  split at hs
  · exact absurd hs (Reply.not_succeeds_fault _ _)
  · exact absurd hs (Reply.not_succeeds_notFound _ _ _)
  next v hv =>
  split at hs
  · exact absurd hs (Reply.not_succeeds_invalid _ _ _)
  next hplace =>
  split at hs
  · next hnone => exact absurd hs (not_succeeds_newNode hnone)
  next n log hn =>
  refine ⟨pos, v, n, log, "Inserted <" ++ headWord (inserted tree v pos r.width n).2 ++ "> " ++ pos.description ++
    " element " ++ id, hpos, hv, fun hsibling => ?_, hn, ?_⟩
  · simpa [hsibling] using hplace
  · rw [if_neg hplace]
    rfl

/-- What a successful insertion into the markup of a component has found, and what it has done. -/
theorem insertAtRoot_of_succeeds {tree : Node} {position : String} {component : Option String} {r : Request}
    (hs : (insertAtRoot tree position component r).Succeeds) :
    ∃ v n log message, (position = "first" ∨ position = "last") ∧ Component.root component tree = .ok (some v) ∧
      newNode tree r = .ok (n, log) ∧
      insertAtRoot tree position component r =
        .after log (.succeeded (insertInside tree v.path v.node (position == "first") r.width n).1 message
          [("node", .node (insertInside tree v.path v.node (position == "first") r.width n).2)]) := by
  unfold insertAtRoot at hs ⊢
  split at hs
  · exact absurd hs (Reply.not_succeeds_invalid _ _ _)
  next hpos =>
  split at hs
  · exact absurd hs (Reply.not_succeeds_fault _ _)
  · exact absurd hs (Reply.not_succeeds_failed _ _ _ _)
  next v hv =>
  split at hs
  · next hnone => exact absurd hs (not_succeeds_newNode hnone)
  next n log hn =>
  have hposition : position = "first" ∨ position = "last" := by
    simpa [Classical.or_iff_not_imp_left] using hpos
  refine ⟨v, n, log, "Inserted <" ++ headWord (insertInside tree v.path v.node (position == "first") r.width n).2 ++
    "> as " ++ position ++ " child of the component root", hposition, hv, hn, ?_⟩
  rw [if_neg hpos]

/-- A request for a paragraph. -/
def paragraph : Request := ⟨.node (.element "p" [] []), [], [], 2, none⟩

/-- Two runs of white space between an element and the end, with an element below the second. -/
def hollowEnd : Node :=
  .new (.document none) [.element "div" [] [Command.identified "i" "a" [], .text " ",
    .new (.text "\n") [Command.identified "b" "d" []]]]

end Edit
end JsxEdit
