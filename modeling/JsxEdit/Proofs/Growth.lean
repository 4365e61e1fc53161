import JsxEdit.Edit.Move
import JsxEdit.Edit.Remove
import JsxEdit.Edit.Update
import JsxEdit.Proofs.Census
import Mathlib.Data.List.Perm.Basic

/-
How edits change the elements of a tree.

An edit that takes nodes out or moves them adds nothing to any count; one that puts new nodes in adds at most what
these count. Both need the lists they work on to be children of markup, which is what the edits look at before.
-/
set_option autoImplicit false

namespace JsxEdit
open Node

/-- The second tree has no more than the first and some new nodes. -/
structure Grows (tree tree' : Node) (new : List Node) : Prop where
  kind : tree'.kind = tree.kind
  count : ∀ g, total g [tree'] ≤ total g [tree] + total g new

namespace Grows

theorem refl (tree : Node) (new : List Node) : Grows tree tree new := ⟨rfl, fun _ => Nat.le_add_right _ _⟩

theorem trans {a b c : Node} {new : List Node} (h : Grows a b []) (h' : Grows b c new) : Grows a c new := by
  refine ⟨h'.kind.trans h.kind, fun g => ?_⟩
  have := h.count g
  have := h'.count g
  rw [total_nil] at *
  omega

/-- Markup that is exchanged for markup adds what the new markup has more. A place that leads nowhere adds
nothing. -/
theorem modify {tree : Node} {f : Node → Node} {p : Path} {new : List Node} (hroot : tree.kind.isMarkup = false)
    (hf : ∀ m, tree.get? p = some m →
      m.kind.isMarkup = true ∧ (f m).kind.isMarkup = true ∧ ∀ g, total g [f m] ≤ total g [m] + total g new) :
    Grows tree (tree.modify f p) new := by
  cases hm : tree.get? p with
  | none =>
    rw [modify_of_get?_none f hm]
    exact refl tree new
  | some m =>
    obtain ⟨hk, hk', hle⟩ := hf m hm
    refine ⟨kind_modify f ?_ tree, fun g => ?_⟩
    · rintro rfl
      cases hm
      rw [hroot] at hk
      cases hk
    · have := total_modify g hk hk' hm
      have := hle g
      omega

/-- The children of markup are exchanged for others. -/
theorem modifyChildren {tree : Node} {f : List Node → List Node} {p : Path} {new : List Node}
    (hroot : tree.kind.isMarkup = false) (hp : (tree.get? p).all (·.kind.isMarkup) = true)
    (hf : ∀ m, tree.get? p = some m → ∀ g, total g (f m.children) ≤ total g m.children + total g new) :
    Grows tree (tree.modifyChildren f p) new := by
  refine modify hroot fun m hm => ?_
  rw [hm] at hp
  refine ⟨hp, by rw [kind_withChildren]; exact hp, fun g => ?_⟩
  have := total_withChildren g (f m.children) m
  have := hf m hm g
  omega

end Grows

namespace Edit

variable (g : List Entry → Nat)

/-! ## Lists of children -/

theorem all_of_isMarkupPlace {tree : Node} {p : Path} (h : isMarkupPlace tree p = true) :
    (tree.get? p).all (·.kind.isMarkup) = true := by
  rw [isMarkupPlace] at h
  cases hm : tree.get? p with
  | none => rfl
  | some m =>
    rw [hm] at h
    exact h

theorem detach_sublist (ns : List Node) (index : Nat) : List.Sublist (detach ns index) ns := by
  rw [detach]
  have h := List.drop_sublist_drop_left ns (Nat.le_add_right (detachRange ns index).1 (detachRange ns index).2)
  have := (List.Sublist.refl (ns.take (detachRange ns index).1)).append h
  rw [List.take_append_drop] at this
  exact this

theorem detachRange_spec (ns : List Node) (index : Nat) :
    (detachRange ns index).1 ≤ index ∧ index < (detachRange ns index).1 + (detachRange ns index).2 := by
  unfold detachRange
  split
  · dsimp only
    omega
  · dsimp only
    omega

/-- What is taken out is what is missing in the count. -/
theorem total_detachRange (ns : List Node) (index : Nat) :
    total g (detach ns index) + total g ((ns.drop (detachRange ns index).1).take (detachRange ns index).2) =
      total g ns := by
  rw [detach]
  dsimp only
  generalize (detachRange ns index).1 = first
  generalize (detachRange ns index).2 = count
  have hdrop : total g (ns.drop first) = total g ((ns.drop first).take count) + total g (ns.drop (first + count)) := by
    rw [← total_append, ← List.drop_drop, List.take_append_drop]
  have hall : total g ns = total g (ns.take first) + total g (ns.drop first) := by
    rw [← total_append, List.take_append_drop]
  rw [total_append]
  omega

/-- The nodes that are taken out with the one at an index. -/
theorem mem_detachRange {ns : List Node} {index i : Nat} {n : Node} (h : ns[i]? = some n)
    (hfirst : (detachRange ns index).1 ≤ i) (hlast : i < (detachRange ns index).1 + (detachRange ns index).2) :
    n ∈ (ns.drop (detachRange ns index).1).take (detachRange ns index).2 := by
  rw [List.mem_iff_getElem?]
  refine ⟨i - (detachRange ns index).1, ?_⟩
  rw [List.getElem?_take, if_pos (by omega), List.getElem?_drop, Nat.add_sub_cancel' hfirst]
  exact h

/-- A node that is taken out takes its part of the count with it. -/
theorem total_detach {ns : List Node} {index : Nat} {n : Node} (h : ns[index]? = some n) :
    total g (detach ns index) + total g [n] ≤ total g ns := by
  obtain ⟨hfirst, hlast⟩ := detachRange_spec ns index
  have hn := total_of_mem g (mem_detachRange h hfirst hlast)
  have := total_detachRange g ns index
  omega

theorem total_placed (left : List Node) (n : Node) (right : List Node) :
    total g (placed left n right).children ≤ total g left + total g [n] + total g right := by
  have := total_mergeWhitespace g (left ++ n :: right)
  rw [total_append, total_cons g n right] at this
  rw [placed]
  dsimp only
  omega

theorem total_appended (children : List Node) (space closing : String) (n : Node) :
    total g (appended children space closing n).children ≤ total g children + total g [n] := by
  rw [appended]
  split
  · next last hlast =>
    split
    · have h := total_placed g (children.dropLast ++ [.text space]) n [last]
      have hc : total g children = total g children.dropLast + total g [last] := by
        obtain ⟨front, rfl⟩ := List.getLast?_eq_some_iff.mp hlast
        rw [List.dropLast_concat, total_append]
      rw [total_append, total_text] at h
      omega
    · have h := total_placed g (children ++ [.text space]) n [.text closing]
      rw [total_append, total_text, total_text] at h
      omega
  · have h := total_placed g [.text space] n [.text closing]
    rw [total_text, total_text] at h
    omega

theorem total_appendChild (width : Int) (tree : Node) (place : Option Path) (parent n : Node) :
    total g (appendChild width tree place parent n).children ≤ total g parent.children + total g [n] :=
  total_appended g _ _ _ n

theorem total_prependChild (width : Int) (tree : Node) (place : Option Path) (parent n : Node) :
    total g (prependChild width tree place parent n).children ≤ total g parent.children + total g [n] := by
  rw [prependChild]
  split
  · exact total_appendChild g width tree place parent n
  · have h := total_placed g [.text (Indent.childSpace width tree place parent)] n parent.children
    rw [total_text] at h
    omega

theorem exchange_perm (ns : List Node) (i j : Nat) : (exchange ns i j).Perm ns := by
  rw [exchange]
  split
  · next a b hi hj =>
    obtain ⟨hi', rfl⟩ := List.getElem?_eq_some_iff.mp hi
    obtain ⟨hj', rfl⟩ := List.getElem?_eq_some_iff.mp hj
    exact List.set_set_perm hi' hj'
  · exact List.Perm.refl ns

theorem moveItem_perm {ns : List Node} (i : Nat) {j : Nat} (hj : j < ns.length) : (moveItem ns i j).Perm ns := by
  rw [moveItem]
  split
  · exact List.Perm.refl ns
  · next n hi =>
    obtain ⟨hi', rfl⟩ := List.getElem?_eq_some_iff.mp hi
    have hlen : j ≤ (ns.eraseIdx i).length := by
      rw [List.length_eraseIdx_of_lt hi']
      omega
    exact (List.perm_insertIdx _ _ hlen).trans (List.getElem_cons_eraseIdx_perm hi')

theorem significant_length (ns : List Node) :
    (significant ns).length = (ns.filter fun n => !n.isWhitespace).length := by
  rw [significant]
  induction ns with
  | nil => rfl
  | cons n ns ih =>
    rw [List.length_cons, List.range_succ_eq_map, List.filter_cons, List.filter_cons, List.filter_map]
    have : (List.range ns.length).filter ((fun i => ((n :: ns)[i]?).any fun n => !n.isWhitespace) ∘ Nat.succ) =
        (List.range ns.length).filter fun i => (ns[i]?).any fun n => !n.isWhitespace := rfl
    rw [this]
    cases hn : n.isWhitespace with
    | true => simpa [hn] using ih
    | false => simpa [hn] using ih

/-- As many nodes as there are places take the place of those that are no white space. -/
theorem total_fillSignificant {ns new : List Node}
    (h : new.length = (ns.filter fun n => !n.isWhitespace).length) :
    total g (fillSignificant ns new) + total g (ns.filter fun n => !n.isWhitespace) = total g ns + total g new := by
  induction ns generalizing new with
  | nil =>
    obtain rfl : new = [] := by simpa using h
    rfl
  | cons n ns ih =>
    rw [fillSignificant.eq_def]
    dsimp only
    cases hn : n.isWhitespace with
    | true =>
      have hfilter : (n :: ns).filter (fun n => !n.isWhitespace) = ns.filter fun n => !n.isWhitespace := by
        rw [List.filter_cons, hn]
        rfl
      rw [hfilter] at h ⊢
      have := ih h
      rw [if_pos rfl, total_cons g n (fillSignificant ns new), total_cons g n ns]
      omega
    | false =>
      have hfilter : (n :: ns).filter (fun n => !n.isWhitespace) = n :: ns.filter fun n => !n.isWhitespace := by
        rw [List.filter_cons, hn]
        rfl
      rw [hfilter] at h ⊢
      cases new with
      | nil => cases h
      | cons m new =>
        have := ih (Nat.succ.inj h)
        rw [if_neg (by decide), total_cons g m (fillSignificant ns new), total_cons g n ns, total_cons g m new,
          total_cons g n (ns.filter _)]
        omega

/-! ## Elements that are found -/

theorem firstVisit_some {p : Visit → Except Fault Bool} {vs : List Visit} {v : Visit}
    (h : firstVisit p vs = .ok (some v)) : v ∈ vs ∧ p v = .ok true := by
  induction vs with
  | nil => cases h
  | cons w vs ih =>
    rw [firstVisit] at h
    cases hw : p w with
    | error f =>
      rw [hw] at h
      cases h
    | ok b =>
      rw [hw] at h
      cases b with
      | true =>
        cases h
        exact ⟨List.mem_cons_self, hw⟩
      | false =>
        dsimp only [bind, Except.bind] at h
        rw [if_neg (by decide)] at h
        split at h
        · cases h
        · obtain ⟨hm, hv⟩ := ih h
          exact ⟨List.mem_cons_of_mem _ hm, hv⟩

theorem firstVisit_none {p : Visit → Except Fault Bool} {vs : List Visit} (h : firstVisit p vs = .ok none) :
    ∀ v ∈ vs, p v = .ok false := by
  induction vs with
  | nil =>
    intro v hv
    cases hv
  | cons w vs ih =>
    rw [firstVisit] at h
    cases hw : p w with
    | error f =>
      rw [hw] at h
      cases h
    | ok b =>
      rw [hw] at h
      cases b with
      | true => cases h
      | false =>
        dsimp only [bind, Except.bind] at h
        rw [if_neg (by decide)] at h
        split at h
        · cases h
        · rintro v hv
          rcases List.mem_cons.mp hv with rfl | hv
          · exact hw
          · exact ih h v hv

/-- A visit to the element that was looked for. -/
structure Found (tree : Node) (id : String) (v : Visit) : Prop where
  mem : v ∈ tree.visits
  element : v.node.kind.isElement = true
  identity : v.node.identity = .ok (some id)

theorem findId_some {tree : Node} {id : String} {v : Visit} (h : tree.findId id = .ok (some v)) :
    Found tree id v := by
  obtain ⟨hm, hp⟩ := firstVisit_some h
  dsimp only at hp
  split at hp
  · next he =>
    cases hi : v.node.identity with
    | error f =>
      rw [hi] at hp
      cases hp
    | ok found =>
      rw [hi] at hp
      have hfound : (found == some id) = true := Except.ok.inj hp
      exact ⟨hm, he, by rw [hi, eq_of_beq hfound]⟩
  · cases hp

/-- If no element is found, none has the identity. -/
theorem findId_none {tree : Node} {id : String} (h : tree.findId id = .ok none) :
    ∀ n ∈ tree.under, n.elementIdentity ≠ .ok (some id) := by
  intro n hn hid
  rw [← descendants_eq_under] at hn
  obtain ⟨v, hv, rfl⟩ := List.mem_map.mp hn
  have hp := firstVisit_none h v hv
  rw [elementIdentity] at hid
  split at hid
  · next he =>
    dsimp only at hp
    rw [if_pos he, hid] at hp
    simp [bind, Except.bind, pure, Except.pure] at hp
  · cases hid

namespace Found

variable {tree : Node} {id : String} {v : Visit} (h : Found tree id v)
include h

theorem markup : v.node.kind.isMarkup = true := isMarkup_of_isElement h.element

/-- The place of a found element leads to it or nowhere. -/
theorem eq_node {m : Node} (hm : tree.get? v.path = some m) : m = v.node := by
  rcases get?_visit h.mem with hv | hv
  · rw [hv] at hm
    exact (Option.some.inj hm).symm
  · rw [hv] at hm
    cases hm

/-- An element inside markup stands among its siblings. -/
theorem among {m : Node} (hm : tree.get? v.parent = some m) : m.children[v.index]? = some v.node :=
  getElem?_of_visit h.mem hm

theorem get?_of_isMarkupPlace (hp : isMarkupPlace tree v.parent = true) : tree.get? v.path = some v.node := by
  rw [isMarkupPlace] at hp
  cases hm : tree.get? v.parent with
  | none =>
    rw [hm] at hp
    cases hp
  | some m => rw [get?_path hm, h.among hm]

end Found

/-! ## Edits of one list -/

section

variable {tree : Node} (hroot : tree.kind.isMarkup = false)
include hroot

theorem grows_adopt {place : Path} {children new : List Node}
    (hp : ∀ m, tree.get? place = some m →
      m.kind.isMarkup = true ∧ ∀ g, total g children ≤ total g m.children + total g new) :
    Grows tree (adopt tree place children) new := by
  refine Grows.modify hroot fun m hm => ?_
  obtain ⟨hk, hle⟩ := hp m hm
  refine ⟨hk, by rw [kind_withChildren, isMarkup_opened]; exact hk, fun g => ?_⟩
  have := total_withChildren g children m.opened
  rw [total_opened, children_opened] at this
  have := hle g
  omega

theorem grows_insertInside {place : Path} {parent : Node} (first : Bool) (width : Int) (n : Node)
    (hp : ∀ m, tree.get? place = some m → m = parent) (hk : parent.kind.isMarkup = true) :
    Grows tree (insertInside tree place parent first width n).1 [n] := by
  refine grows_adopt hroot fun m hm => ?_
  obtain rfl := hp m hm
  refine ⟨hk, fun g => ?_⟩
  have hn := total_reindent g (.ofList ((Indent.childSpace width tree (some place) m).toList.drop 1)) n
  split
  · rw [← hn]
    exact total_prependChild g width tree (some place) m _
  · rw [← hn]
    exact total_appendChild g width tree (some place) m _

theorem grows_insertBeside {v : Visit} (hp : isMarkupPlace tree v.parent = true) (after : Bool) (n : Node) :
    Grows tree (insertBeside tree v after n).1 [n] := by
  unfold insertBeside
  dsimp only
  refine Grows.modifyChildren hroot (all_of_isMarkupPlace hp) fun m hm g => ?_
  have hn := total_reindent g (.ofList ((Indent.siblingSpace tree (some v.path)).toList.drop 1)) n
  have hgap : total g (if (Indent.siblingSpace tree (some v.path)).isEmpty then []
      else [Node.text (Indent.siblingSpace tree (some v.path))]) = 0 := by
    split
    · rfl
    · exact total_text g _
  have hsplit : ∀ i, total g m.children = total g (m.children.take i) + total g (m.children.drop i) := by
    intro i
    rw [← total_append, List.take_append_drop]
  rw [hm]
  dsimp only [Option.map_some, Option.getD_some]
  rw [← hn]
  split
  · refine Nat.le_trans (total_placed g _ _ _) ?_
    have := hsplit (v.index + 1)
    rw [total_append, hgap]
    omega
  · refine Nat.le_trans (total_placed g _ _ _) ?_
    have := hsplit v.index
    rw [total_append, hgap]
    omega

theorem grows_detachAt {v : Visit} (hp : isMarkupPlace tree v.parent = true) : Grows tree (detachAt tree v) [] :=
  Grows.modifyChildren hroot (all_of_isMarkupPlace hp) fun m _ g =>
    total_le_of_sublist g (detach_sublist m.children v.index)

theorem grows_unwrapAt {id : String} {v : Visit} (hv : Found tree id v) (hp : isMarkupPlace tree v.parent = true) :
    Grows tree (unwrapAt tree v) [] := by
  refine Grows.modifyChildren hroot (all_of_isMarkupPlace hp) fun m hm g => ?_
  obtain ⟨hi, he⟩ := List.getElem?_eq_some_iff.mp (hv.among hm)
  have hall : total g m.children =
      total g (m.children.take v.index) + total g [v.node] + total g (m.children.drop (v.index + 1)) := by
    rw [← he, ← total_append, ← total_append, List.append_assoc, List.singleton_append,
      ← List.drop_eq_getElem_cons hi, List.take_append_drop]
  have hown := total_singleton g v.node
  refine Nat.le_trans (total_mergeWhitespace g _) ?_
  rw [total_append, total_append, total_nil]
  omega

theorem grows_clearChildren {id : String} {v : Visit} (hv : Found tree id v) :
    Grows tree (tree.modify cleared v.path) [] := by
  refine Grows.modify hroot fun m hm => ?_
  obtain rfl := hv.eq_node hm
  have hbare : ∀ g, total g [v.node.withChildren []] ≤ total g [v.node] := by
    intro g
    have := total_withChildren g [] v.node
    rw [total_nil] at this
    omega
  unfold cleared
  dsimp only
  split
  · split
    · refine ⟨hv.markup, by rw [isMarkup_closed, kind_withChildren]; exact hv.markup, fun g => ?_⟩
      rw [total_closed]
      exact hbare g
    · exact ⟨hv.markup, by rw [kind_withChildren]; exact hv.markup, hbare⟩
  · exact ⟨hv.markup, by rw [kind_withChildren]; exact hv.markup, hbare⟩

theorem grows_renamed {id : String} {v : Visit} (hv : Found tree id v) (name : String) :
    Grows tree (tree.modify (renamed name) v.path) [] := by
  refine Grows.modify hroot fun m hm => ?_
  obtain rfl := hv.eq_node hm
  unfold renamed
  split
  · next hk =>
    refine ⟨hv.markup, by rw [kind_withKind]; rfl, fun g => ?_⟩
    rw [total_withKind g (by rw [hk]; rfl)]
    exact Nat.le_add_right _ _
  · exact ⟨hv.markup, hv.markup, fun g => Nat.le_add_right _ _⟩

/-! ## Texts -/

omit hroot in
theorem total_textNodes (s lead trail : String) : total g (textNodes s lead trail) = 0 := by
  have hpad : ∀ t : String, total g (if t.isEmpty then [] else [Node.text t]) = 0 := by
    intro t
    split
    · rfl
    · exact total_text g t
  rw [textNodes]
  split
  · exact total_text g _
  · rw [total_append, total_cons g (Build.text s), hpad, hpad, total_buildText]

omit hroot in
/-- What takes the place of a text has no elements, or the same below it. -/
theorem total_replaceText {s : String} {n : Node} {new : List Node} {old : String}
    (h : replaceText s n = .ok (some (new, old))) : total g new ≤ total g [n] := by
  unfold replaceText at h
  split at h
  · split at h
    · cases h
    · cases h
      rw [total_textNodes]
      exact Nat.zero_le _
  · split at h
    · cases h
    · next e rest hcs =>
      dsimp only at h
      have hchanged : ∀ k : Kind, k.isElement = false → e.kind.isElement = false →
          total g [n.withChildren (e.withKind k :: rest)] ≤ total g [n] := by
        intro k hk he
        have := total_withChildren g (e.withKind k :: rest) n
        rw [hcs, total_cons g (e.withKind k) rest, total_withKind g (by rw [hk, he]),
          total_cons g e rest] at this
        omega
      split at h
      · cases hw : e.writeChecked with
        | error f =>
          rw [hw] at h
          cases h
        | ok w =>
          rw [hw] at h
          cases h
          rw [total_textNodes]
          exact Nat.zero_le _
      · cases hw : e.writeChecked with
        | error f =>
          rw [hw] at h
          cases h
        | ok w =>
          rw [hw] at h
          cases h
          rw [total_textNodes]
          exact Nat.zero_le _
      · next hk =>
        rw [Except.ok.injEq, Option.some.injEq, Prod.mk.injEq] at h
        obtain ⟨rfl, -⟩ := h
        exact hchanged _ rfl (by rw [hk]; rfl)
      · next raw quote hk =>
        cases hr : Literal.references raw with
        | error f =>
          rw [hr] at h
          cases h
        | ok r =>
          cases ht : Literal.attributeText s quote with
          | error f =>
            rw [hr, ht] at h
            cases h
          | ok t =>
            rw [hr, ht] at h
            dsimp only [bind, Except.bind, pure, Except.pure] at h
            rw [Except.ok.injEq, Option.some.injEq, Prod.mk.injEq] at h
            obtain ⟨rfl, -⟩ := h
            exact hchanged _ rfl (by rw [hk]; rfl)
      · next hk =>
        rw [Except.ok.injEq, Option.some.injEq, Prod.mk.injEq] at h
        obtain ⟨rfl, -⟩ := h
        exact hchanged _ rfl (by rw [hk]; rfl)
      · cases h
  · cases h

omit hroot in
theorem total_replaceFirstText {s : String} {ns new : List Node} {old : String}
    (h : replaceFirstText s ns = .ok (some (new, old))) : total g new ≤ total g ns := by
  induction ns generalizing new with
  | nil => cases h
  | cons n ns ih =>
    rw [replaceFirstText] at h
    cases hr : replaceText s n with
    | error f =>
      rw [hr] at h
      cases h
    | ok found =>
      rw [hr] at h
      cases found with
      | some pair =>
        cases h
        rw [total_append, total_cons g n ns]
        exact Nat.add_le_add_right (total_replaceText g hr) _
      | none =>
        cases hn : replaceFirstText s ns with
        | error f =>
          rw [hn] at h
          cases h
        | ok rest =>
          rw [hn] at h
          cases rest with
          | none => cases h
          | some pair =>
            cases h
            rw [total_cons g n pair.1, total_cons g n ns]
            exact Nat.add_le_add_left (ih hn) _

theorem grows_children {id : String} {v : Visit} (hv : Found tree id v) {children : List Node}
    (hle : ∀ g, total g children ≤ total g v.node.children) :
    Grows tree (tree.modify (·.withChildren children) v.path) [] := by
  refine Grows.modify hroot fun m hm => ?_
  obtain rfl := hv.eq_node hm
  refine ⟨hv.markup, by rw [kind_withChildren]; exact hv.markup, fun g => ?_⟩
  have := total_withChildren g children v.node
  have := hle g
  omega

theorem grows_addText {id : String} {v : Visit} (hv : Found tree id v) {s : String} {tree' : Node}
    (h : addText tree v s = .ok tree') : Grows tree tree' [] := by
  rw [addText] at h
  split at h
  · cases hr : Indent.reachChild tree (some v.path) v.node with
    | error f =>
      rw [hr] at h
      cases h
    | ok u =>
      rw [hr] at h
      cases h
      refine grows_adopt hroot fun m hm => ?_
      obtain rfl := hv.eq_node hm
      refine ⟨hv.markup, fun g => ?_⟩
      have := total_appendChild g Indent.defaultWidth tree (some v.path) v.node (Build.text s)
      rw [total_buildText] at this
      exact Nat.le_trans this (Nat.le_add_right _ _)
  · cases h
    refine grows_adopt hroot fun m hm => ?_
    obtain rfl := hv.eq_node hm
    refine ⟨hv.markup, fun g => ?_⟩
    rw [total_append, total_buildText]
    exact Nat.le_add_right _ _

/-! ## Moves -/

theorem grows_exchange {v : Visit} (hp : isMarkupPlace tree v.parent = true) (i j : Nat) :
    Grows tree (tree.modifyChildren (exchange · i j) v.parent) [] :=
  Grows.modifyChildren hroot (all_of_isMarkupPlace hp) fun m _ g =>
    Nat.le_of_eq (total_perm g (exchange_perm m.children i j))

theorem grows_moveItem {v : Visit} (hp : isMarkupPlace tree v.parent = true) {i j : Nat}
    (hj : j < (significant (siblings tree v)).length) :
    Grows tree
      (tree.modifyChildren
        (fillSignificant · (moveItem ((siblings tree v).filter fun n => !n.isWhitespace) i j)) v.parent) [] := by
  refine Grows.modifyChildren hroot (all_of_isMarkupPlace hp) fun m hm g => ?_
  have hs : siblings tree v = m.children := by rw [siblings, hm]; rfl
  rw [hs] at hj ⊢
  rw [significant_length] at hj
  have hperm := moveItem_perm i hj
  have := total_fillSignificant g hperm.length_eq
  rw [total_perm g hperm] at this
  omega

omit hroot in
/-- Two elements beside each other exchange their parts. -/
theorem grows_swap {id id' : String} {v w : Visit} (hv : Found tree id v) (hw : Found tree id' w)
    (hpv : isMarkupPlace tree v.parent = true) (hpw : isMarkupPlace tree w.parent = true)
    (h : ¬v.path <+: w.path) (h' : ¬w.path <+: v.path) :
    Grows tree ((tree.set v.path w.node).set w.path v.node) [] := by
  have hgv := hv.get?_of_isMarkupPlace hpv
  have hgw := hw.get?_of_isMarkupPlace hpw
  have hgw' : (tree.set v.path w.node).get? w.path = some w.node := by
    rw [Node.set, get?_modify_of_disjoint _ h h', hgw]
  have hne : ∀ u : Visit, u.path ≠ [] := fun u => by simp [Visit.path]
  refine ⟨?_, fun g => ?_⟩
  · rw [Node.set, kind_modify _ (hne w), Node.set, kind_modify _ (hne v)]
  · have h1 : total g [tree.set v.path w.node] + total g [v.node] = total g [tree] + total g [w.node] :=
      total_modify g hv.markup hw.markup hgv
    have h2 : total g [(tree.set v.path w.node).set w.path v.node] + total g [w.node] =
        total g [tree.set v.path w.node] + total g [v.node] :=
      total_modify g hw.markup hv.markup hgw'
    omega

end

end Edit
end JsxEdit
