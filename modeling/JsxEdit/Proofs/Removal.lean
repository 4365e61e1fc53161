import JsxEdit.Proofs.Growth

/-
Taking out several nodes, and taking one out to put it in elsewhere.

Places are paths, and a path that leads past a removed node leads elsewhere after the removal. It still leads to a node
of the same kind, so a place in markup stays a place in markup.
-/
set_option autoImplicit false

namespace JsxEdit.Edit
open Node

variable (g : List Entry → Nat)

/-! ## Places after a node was taken out -/

/-- The children of the node at a place, none if it leads nowhere. -/
def childrenAt (tree : Node) (p : Path) : List Node := ((tree.get? p).map (·.children)).getD []

theorem getElem?_detach_before {ns : List Node} {index i : Nat} (h : i < (detachRange ns index).1) :
    (detach ns index)[i]? = ns[i]? := by
  rw [detach]
  dsimp only
  generalize (detachRange ns index).1 = first at *
  generalize (detachRange ns index).2 = count at *
  rw [List.getElem?_append, List.length_take]
  split
  · rw [List.getElem?_take, if_pos h]
  · rw [List.getElem?_drop, List.getElem?_eq_none (by omega), List.getElem?_eq_none (by omega)]

theorem getElem?_detach_after {ns : List Node} {index i : Nat}
    (h : (detachRange ns index).1 + (detachRange ns index).2 ≤ i) :
    (detach ns index)[i - (detachRange ns index).2]? = ns[i]? := by
  rw [detach]
  dsimp only
  generalize (detachRange ns index).1 = first at *
  generalize (detachRange ns index).2 = count at *
  rw [List.getElem?_append, List.length_take]
  split
  · omega
  · rw [List.getElem?_drop]
    rcases Nat.lt_or_ge first ns.length with hlt | hge
    · congr 1
      omega
    · rw [List.getElem?_eq_none (by omega), List.getElem?_eq_none (by omega)]

/-- After a node was taken out, a place that is still there leads to the same node as before, unless that is the parent
or above it. -/
theorem get?_afterRemoval {tree m : Node} {parent q q' : Path} {index : Nat} (hm : tree.get? parent = some m)
    (h : Path.afterRemoval parent (detachRange m.children index).1 (detachRange m.children index).2 q = some q') :
    q' = q ∧ q <+: parent ∨ (tree.modifyChildren (detach · index) parent).get? q' = tree.get? q := by
  rw [Path.afterRemoval] at h
  split at h
  · next hp =>
    obtain ⟨r, rfl⟩ := List.isPrefixOf_iff_prefix.mp hp
    have hat : ∀ r, (tree.modifyChildren (detach · index) parent).get? (parent ++ r) =
        (m.withChildren (detach m.children index)).get? r := fun r => by
      rw [get?_append, get?_modifyChildren, hm, Option.map_some, Option.bind_some]
    rw [List.drop_left] at h
    rw [get?_append, hm, Option.bind_some]
    split at h
    · split at h
      · next hlt =>
        cases h
        rw [hat, get?_child, get?_child, children_withChildren, getElem?_detach_before hlt]
        exact .inr rfl
      · split at h
        · cases h
        · next hge =>
          cases h
          rw [hat, get?_child, get?_child, children_withChildren, getElem?_detach_after (by omega)]
          exact .inr rfl
    · next hnot =>
      cases h
      cases r with
      | nil => exact .inl ⟨rfl, by simp⟩
      | cons step r =>
        cases step with
        | child i => exact absurd rfl (hnot i r)
        | attributes =>
          rw [hat, get?_attributes, get?_attributes, kind_withChildren, attributeList, attributes_withChildren]
          exact .inr rfl
  · next hp =>
    cases h
    by_cases hq : q <+: parent
    · exact .inl ⟨rfl, hq⟩
    · exact .inr (get?_modify_of_disjoint _ (fun hpre => hp (List.isPrefixOf_iff_prefix.mpr hpre)) hq tree)

/-- A place that is still there after a node was taken out leads to a node of the same kind. -/
theorem kind_afterRemoval {tree : Node} {parent q q' : Path} {index : Nat}
    (h : Path.afterRemoval parent (detachRange (childrenAt tree parent) index).1
      (detachRange (childrenAt tree parent) index).2 q = some q') :
    ((tree.modifyChildren (detach · index) parent).get? q').map (·.kind) = (tree.get? q).map (·.kind) := by
  cases hm : tree.get? parent with
  | none =>
    rw [modifyChildren, modify_of_get?_none _ hm]
    rw [Path.afterRemoval] at h
    split at h
    · next hp =>
      obtain ⟨r, rfl⟩ := List.isPrefixOf_iff_prefix.mp hp
      have hq : ∃ r', q' = parent ++ r' := by
        split at h
        · split at h
          · exact ⟨_, (Option.some.inj h).symm⟩
          · split at h
            · cases h
            · exact ⟨_, (Option.some.inj h).symm⟩
        · exact ⟨_, (Option.some.inj h).symm⟩
      obtain ⟨r', rfl⟩ := hq
      rw [get?_append, get?_append, hm]
      rfl
    · cases h
      rfl
  | some m =>
    have hns : childrenAt tree parent = m.children := by rw [childrenAt, hm]; rfl
    rw [hns] at h
    rcases get?_afterRemoval hm h with ⟨rfl, r, rfl⟩ | hsame
    · by_cases hr : r = []
      · subst hr
        rw [List.append_nil, get?_modifyChildren, Option.map_map]
        congr 1
        exact funext fun n => kind_withChildren _ n
      · exact kind_get?_modify_append _ q' hr tree
    · rw [hsame]

/-- The place of a child is moved with the place of its list. -/
theorem afterRemoval_child {parent r q' : Path} {first count i : Nat}
    (h : Path.afterRemoval parent first count (r ++ [Step.child i]) = some q') :
    ∃ r' j, q' = r' ++ [Step.child j] ∧ Path.afterRemoval parent first count r = some r' := by
  rw [Path.afterRemoval] at h
  split at h
  · next hp =>
    rcases List.prefix_concat_iff.mp (List.isPrefixOf_iff_prefix.mp hp) with rfl | hr
    · -- the node itself is above the list, so its own place is not touched
      rw [List.drop_length] at h
      cases h
      refine ⟨r, i, rfl, ?_⟩
      rw [Path.afterRemoval, if_neg]
      rw [List.isPrefixOf_iff_prefix]
      intro hle
      have := hle.length_le
      rw [List.length_append, List.length_singleton] at this
      omega
    · obtain ⟨t, rfl⟩ := hr
      have hpre : parent.isPrefixOf (parent ++ t) = true := List.isPrefixOf_iff_prefix.mpr (List.prefix_append _ _)
      rw [Path.afterRemoval, if_pos hpre, List.drop_left]
      rw [List.append_assoc, List.drop_left] at h
      cases t with
      | nil =>
        dsimp only [List.nil_append] at h
        split at h
        · cases h
          exact ⟨parent, i, rfl, by simp⟩
        · split at h
          · cases h
          · cases h
            exact ⟨parent, i - count, rfl, by simp⟩
      | cons step t =>
        cases step with
        | child k =>
          dsimp only [List.cons_append] at h ⊢
          split at h
          · next hk =>
            cases h
            exact ⟨parent ++ .child k :: t, i, by simp, if_pos hk⟩
          · next hk =>
            split at h
            · cases h
            · next hk' =>
              cases h
              exact ⟨parent ++ .child (k - count) :: t, i, by simp, by rw [if_neg hk, if_neg hk']⟩
        | attributes =>
          cases h
          exact ⟨parent ++ .attributes :: t, i, by simp, rfl⟩
  · next hp =>
    cases h
    refine ⟨r, i, rfl, ?_⟩
    rw [Path.afterRemoval, if_neg]
    intro hr
    apply hp
    rw [List.isPrefixOf_iff_prefix] at hr ⊢
    exact hr.trans (List.prefix_append _ _)

/-! ## Edits of several lists -/

section

variable {tree : Node} (hroot : tree.kind.isMarkup = false)

/-- A place in the list of children of markup. -/
def InMarkup (tree : Node) (q : Path) : Prop := ∃ r i, q = r ++ [.child i] ∧ isMarkupPlace tree r = true

theorem inMarkup_afterRemoval {parent q q' : Path} {index : Nat} (hq : InMarkup tree q)
    (h : Path.afterRemoval parent (detachRange (childrenAt tree parent) index).1
      (detachRange (childrenAt tree parent) index).2 q = some q') :
    InMarkup (tree.modifyChildren (detach · index) parent) q' := by
  obtain ⟨r, i, rfl, hr⟩ := hq
  obtain ⟨r', j, rfl, hr'⟩ := afterRemoval_child h
  refine ⟨r', j, rfl, ?_⟩
  have hk := kind_afterRemoval hr'
  rw [isMarkupPlace] at hr ⊢
  cases hm : tree.get? r with
  | none =>
    rw [hm] at hr
    cases hr
  | some m =>
    rw [hm] at hk hr
    cases hm' : (tree.modifyChildren (detach · index) parent).get? r' with
    | none =>
      rw [hm'] at hk
      cases hk
    | some m' =>
      rw [hm', Option.map_some, Option.map_some, Option.some.injEq] at hk
      rw [Option.any_some] at hr ⊢
      rw [hk]
      exact hr

theorem grows_detach {r : Path} (hroot : tree.kind.isMarkup = false) (hp : isMarkupPlace tree r = true) (i : Nat) :
    Grows tree (tree.modifyChildren (detach · i) r) [] :=
  Grows.modifyChildren hroot (all_of_isMarkupPlace hp) fun m _ g =>
    total_le_of_sublist g (detach_sublist m.children i)

/-- Taking nodes out one after the other. The invariant is that every place that is left is, by now, a place in
markup. -/
theorem grows_detachAll (ps : List Path) {moved : Path → Option Path} (hroot : tree.kind.isMarkup = false)
    (h : ∀ p ∈ ps, ∀ q, moved p = some q → InMarkup tree q) : Grows tree (detachAll tree moved ps).1 [] := by
  induction ps generalizing tree moved with
  | nil => exact Grows.refl tree []
  | cons p ps ih =>
    have hrest : ∀ p ∈ ps, ∀ q, moved p = some q → InMarkup tree q := fun p' hp' =>
      h p' (List.mem_cons_of_mem p hp')
    rw [detachAll]
    split
    · split
      · exact Grows.refl tree []
      · exact ih hroot hrest
    · next q hq =>
      obtain ⟨r, i, rfl, hr⟩ := h p List.mem_cons_self q hq
      rw [List.getLast?_concat, List.dropLast_concat]
      have hstep := grows_detach hroot hr i
      refine hstep.trans (ih (by rw [hstep.kind]; exact hroot) fun p' hp' q' hq' => ?_)
      obtain ⟨q, hq, hmoved⟩ := Option.bind_eq_some_iff.mp hq'
      exact inMarkup_afterRemoval (hrest p' hp' q hq) hmoved

/-- An element that is taken out takes its part of the count with it. -/
theorem total_detachAt {id : String} {v : Visit} (hv : Found tree id v)
    (hp : isMarkupPlace tree v.parent = true) :
    total g [tree.modifyChildren (detach · v.index) v.parent] + total g [v.node] ≤ total g [tree] := by
  rw [isMarkupPlace] at hp
  cases hm : tree.get? v.parent with
  | none =>
    rw [hm] at hp
    cases hp
  | some m =>
    rw [hm] at hp
    have hd := total_detach g (hv.among hm)
    have hc := total_withChildren g (detach m.children v.index) m
    have := total_modify g (f := fun m => m.withChildren (detach m.children v.index)) hp
      (by rw [kind_withChildren]; exact hp) hm
    rw [modifyChildren]
    omega

theorem grows_transfer {id id' : String} {v w : Visit} (hroot : tree.kind.isMarkup = false)
    (hv : Found tree id v) (hw : Found tree id' w) (hp : isMarkupPlace tree v.parent = true) (width : Int) :
    Grows tree (transfer width tree v w).1 [] := by
  have hout := grows_detach hroot hp v.index
  unfold transfer
  dsimp only
  split
  · exact hout
  · next place parent hplace =>
    obtain ⟨q, hq, hget⟩ := Option.bind_eq_some_iff.mp hplace
    obtain ⟨m, hm, hpair⟩ := Option.map_eq_some_iff.mp hget
    cases hpair
    split
    · exact hout
    · have hk := kind_afterRemoval hq
      rw [hm] at hk
      have hmarkup : parent.kind.isMarkup = true := by
        cases hx : tree.get? w.path with
        | none =>
          rw [hx] at hk
          cases hk
        | some x =>
          rw [hx, Option.map_some, Option.map_some, Option.some.injEq] at hk
          rw [hk, hw.eq_node hx]
          exact hw.markup
      have hin : Grows (tree.modifyChildren (detach · v.index) v.parent)
          (adopt (tree.modifyChildren (detach · v.index) v.parent) place
            (appendChild width (tree.modifyChildren (detach · v.index) v.parent) (some place) parent
              v.node).children) [v.node] := by
        refine grows_adopt (by rw [hout.kind]; exact hroot) fun x hx => ?_
        rw [hm] at hx
        cases hx
        exact ⟨hmarkup, fun g => total_appendChild g width _ (some place) parent v.node⟩
      refine ⟨hin.kind.trans hout.kind, fun g => ?_⟩
      have hcount := hin.count g
      have hdetach := total_detachAt g hv hp
      rw [total_nil]
      exact Nat.le_trans hcount hdetach

end

end JsxEdit.Edit
