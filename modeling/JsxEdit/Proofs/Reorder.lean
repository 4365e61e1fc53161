import JsxEdit.Proofs.Command
import JsxEdit.Proofs.Siblings

/-
Moves among siblings.

An element is moved up and down by exchanging it with the nearest sibling that is no white space, and to an index by
filling the places of these siblings anew. All three are the same: the element is taken out of the list of the siblings
that are no white space and put back elsewhere, and the white space stays where it is.
-/
set_option autoImplicit false

namespace JsxEdit.Edit
open Node

/-! ## Indices of the nodes that are no white space -/

theorem significant_append (as bs : List Node) :
    significant (as ++ bs) = significant as ++ (significant bs).map (as.length + ·) := by
  have hleft : (List.range as.length).filter (fun i => ((as ++ bs)[i]?).any fun n => !n.isWhitespace) =
      significant as := by
    refine List.filter_congr fun i hi => ?_
    rw [List.getElem?_append_left (List.mem_range.mp hi)]
  have hright : ((fun i => ((as ++ bs)[i]?).any fun n => !n.isWhitespace) ∘ (as.length + ·)) =
      fun i => (bs[i]?).any fun n => !n.isWhitespace := by
    funext i
    rw [Function.comp_apply, List.getElem?_append_right (Nat.le_add_right _ _), Nat.add_sub_cancel_left]
  rw [significant, List.length_append, List.range_add, List.filter_append, List.filter_map, hleft, hright]
  rfl

theorem lt_of_mem_significant {ns : List Node} {i : Nat} (h : i ∈ significant ns) : i < ns.length :=
  List.mem_range.mp (List.mem_filter.mp h).1

theorem length_significant (ns : List Node) : (significant ns).length = (solids ns).length := significant_length ns

/-- The index of a node that is no white space comes after those before it. -/
theorem significant_at {x : Node} (hx : x.isWhitespace = false) (left right : List Node) :
    ∃ later, significant (left ++ x :: right) = significant left ++ left.length :: later := by
  have hhead : significant [x] = [0] := by simp [significant, hx]
  refine ⟨(significant right).map fun i => left.length + (1 + i), ?_⟩
  rw [significant_append, ← List.singleton_append, significant_append, hhead, List.map_append, List.map_map]
  rfl

/-- The rank of a node is the number of those before it. -/
theorem rank_at {x : Node} (hx : x.isWhitespace = false) (left right : List Node) :
    rank (significant (left ++ x :: right)) left.length = (solids left).length := by
  obtain ⟨later, h⟩ := significant_at hx left right
  have hnone : (significant left).findIdx (· == left.length) = (significant left).length := by
    refine List.findIdx_eq_length.mpr fun i hi => ?_
    have := lt_of_mem_significant hi
    simp
    omega
  rw [rank, h, List.findIdx_append, hnone, if_neg (Nat.lt_irrefl _), List.findIdx_cons, beq_self_eq_true, cond_true,
    Nat.zero_add, length_significant]

/-- The index of the node of a rank. -/
theorem getD_significant {x : Node} (hx : x.isWhitespace = false) (left right : List Node) (fallback : Nat) :
    (significant (left ++ x :: right)).getD (solids left).length fallback = left.length := by
  obtain ⟨later, h⟩ := significant_at hx left right
  rw [h, ← length_significant]
  simp

/-! ## Filling the places of the nodes that are no white space -/

theorem fillSignificant_cons_blank {n : Node} (hn : n.isWhitespace = true) (ns new : List Node) :
    fillSignificant (n :: ns) new = n :: fillSignificant ns new := by
  rw [fillSignificant.eq_def]
  simp [hn]

theorem fillSignificant_cons_solid {n : Node} (hn : n.isWhitespace = false) (ns : List Node) (m : Node)
    (new : List Node) : fillSignificant (n :: ns) (m :: new) = m :: fillSignificant ns new := by
  rw [fillSignificant.eq_def]
  simp [hn]

theorem fillSignificant_append {as xs : List Node} (h : xs.length = (solids as).length) (bs ys : List Node) :
    fillSignificant (as ++ bs) (xs ++ ys) = fillSignificant as xs ++ fillSignificant bs ys := by
  induction as generalizing xs with
  | nil =>
    obtain rfl : xs = [] := List.length_eq_zero_iff.mp h
    rfl
  | cons n as ih =>
    cases hn : n.isWhitespace with
    | true =>
      rw [solids_cons_blank hn] at h
      rw [List.cons_append, fillSignificant_cons_blank hn, fillSignificant_cons_blank hn, ih h, List.cons_append]
    | false =>
      rw [solids_cons_solid hn] at h
      cases xs with
      | nil => cases h
      | cons m xs =>
        rw [List.cons_append, List.cons_append, fillSignificant_cons_solid hn, fillSignificant_cons_solid hn,
          ih (Nat.succ.inj h), List.cons_append]

/-- A list filled with its own nodes stays as it is. -/
theorem fillSignificant_solids (ns : List Node) : fillSignificant ns (solids ns) = ns := by
  induction ns with
  | nil => rfl
  | cons n ns ih =>
    cases hn : n.isWhitespace with
    | true => rw [solids_cons_blank hn, fillSignificant_cons_blank hn, ih]
    | false => rw [solids_cons_solid hn, fillSignificant_cons_solid hn, ih]

theorem fillSignificant_blank {gap : List Node} (h : ∀ n ∈ gap, n.isWhitespace = true) (new : List Node) :
    fillSignificant gap new = gap := by
  induction gap with
  | nil => rfl
  | cons n gap ih =>
    rw [fillSignificant_cons_blank (h n List.mem_cons_self), ih fun m hm => h m (List.mem_cons_of_mem n hm)]

theorem length_fillSignificant (ns new : List Node) : (fillSignificant ns new).length = ns.length := by
  induction ns generalizing new with
  | nil => rfl
  | cons n ns ih =>
    rw [fillSignificant.eq_def]
    dsimp only
    split
    · rw [List.length_cons, ih, List.length_cons]
    · cases new with
      | nil => rw [List.length_cons, ih, List.length_cons]
      | cons m new => rw [List.length_cons, ih, List.length_cons]

/-- The nodes that fill the places are then those that are no white space. -/
theorem solids_fillSignificant {ns new : List Node} (hlen : new.length = (solids ns).length)
    (hnew : ∀ n ∈ new, n.isWhitespace = false) : solids (fillSignificant ns new) = new := by
  induction ns generalizing new with
  | nil =>
    obtain rfl : new = [] := List.length_eq_zero_iff.mp hlen
    rfl
  | cons n ns ih =>
    cases hn : n.isWhitespace with
    | true =>
      rw [solids_cons_blank hn] at hlen
      rw [fillSignificant_cons_blank hn, solids_cons_blank hn, ih hlen hnew]
    | false =>
      rw [solids_cons_solid hn] at hlen
      cases new with
      | nil => cases hlen
      | cons m new =>
        rw [fillSignificant_cons_solid hn, solids_cons_solid (hnew m List.mem_cons_self),
          ih (Nat.succ.inj hlen) fun k hk => hnew k (List.mem_cons_of_mem m hk)]

/-- White space stays at its index. -/
theorem getElem?_fillSignificant {ns new : List Node} (hlen : new.length = (solids ns).length)
    (hnew : ∀ n ∈ new, n.isWhitespace = false) {n : Node} (hn : n.isWhitespace = true) (i : Nat) :
    (fillSignificant ns new)[i]? = some n ↔ ns[i]? = some n := by
  induction ns generalizing new i with
  | nil => rfl
  | cons a ns ih =>
    cases ha : a.isWhitespace with
    | true =>
      rw [solids_cons_blank ha] at hlen
      rw [fillSignificant_cons_blank ha]
      cases i with
      | zero => rfl
      | succ i => exact ih hlen hnew i
    | false =>
      rw [solids_cons_solid ha] at hlen
      cases new with
      | nil => cases hlen
      | cons m new =>
        rw [fillSignificant_cons_solid ha]
        cases i with
        | zero =>
          have hm := hnew m List.mem_cons_self
          constructor
          · rintro ⟨⟩
            rw [hn] at hm
            cases hm
          · rintro ⟨⟩
            rw [hn] at ha
            cases ha
        | succ i => exact ih (Nat.succ.inj hlen) (fun k hk => hnew k (List.mem_cons_of_mem m hk)) i

/-! ## Lists with one node moved -/

/-- The second list is the first with the node `x`, of rank `i` among those that are no white space, taken out and put
back at rank `j`. White space stays at its index. -/
structure Reordered (ns new : List Node) (x : Node) (i j : Nat) : Prop where
  length : new.length = ns.length
  moved : solids new = ((solids ns).eraseIdx i).insertIdx j x
  whitespace : ∀ n : Node, n.isWhitespace = true → ∀ k : Nat, new[k]? = some n ↔ ns[k]? = some n

theorem moveItem_eq {ns : List Node} {i : Nat} {x : Node} (h : ns[i]? = some x) (j : Nat) :
    moveItem ns i j = (ns.eraseIdx i).insertIdx j x := by
  rw [moveItem, h]

/-- An item is moved behind others. -/
theorem moveItem_behind (left : List Node) (x : Node) (mid right : List Node) :
    moveItem (left ++ x :: (mid ++ right)) left.length (left.length + mid.length) = left ++ (mid ++ x :: right) := by
  have hx : (left ++ x :: (mid ++ right))[left.length]? = some x := by simp
  have hput := List.modifyTailIdx_add (List.cons x) mid.length left (mid ++ right)
  have hmid := List.modifyTailIdx_add (List.cons x) 0 mid right
  rw [moveItem_eq hx, List.eraseIdx_append_of_length_le (Nat.le_refl _), Nat.sub_self, List.eraseIdx_zero,
    List.tail_cons]
  rw [Nat.add_zero] at hmid
  exact hput.trans (congrArg _ hmid)

/-- An item is moved before others. -/
theorem moveItem_ahead (left mid : List Node) (x : Node) (right : List Node) :
    moveItem (left ++ (mid ++ x :: right)) (left.length + mid.length) left.length = left ++ x :: (mid ++ right) := by
  have hx : (left ++ (mid ++ x :: right))[left.length + mid.length]? = some x := by
    rw [← List.append_assoc, ← List.length_append]
    simp
  have hput := List.modifyTailIdx_add (List.cons x) 0 left (mid ++ right)
  rw [moveItem_eq hx, List.eraseIdx_append_of_length_le (Nat.le_add_right _ _), Nat.add_sub_cancel_left,
    List.eraseIdx_append_of_length_le (Nat.le_refl _), Nat.sub_self, List.eraseIdx_zero, List.tail_cons]
  exact hput

/-- An item is moved behind the next one. -/
theorem moveItem_forward (left : List Node) (x y : Node) (right : List Node) :
    moveItem (left ++ x :: y :: right) left.length (left.length + 1) = left ++ y :: x :: right :=
  moveItem_behind left x [y] right

/-- An item is moved before the previous one. -/
theorem moveItem_backward (left : List Node) (x y : Node) (right : List Node) :
    moveItem (left ++ y :: x :: right) (left.length + 1) left.length = left ++ x :: y :: right :=
  moveItem_ahead left [y] x right

/-- The places of the nodes that are no white space are filled with these nodes, one of them moved. -/
theorem reordered_fillSignificant {ns : List Node} {x : Node} {i j : Nat} (hx : (solids ns)[i]? = some x)
    (hj : j < (solids ns).length) : Reordered ns (fillSignificant ns (moveItem (solids ns) i j)) x i j := by
  have hperm := moveItem_perm i hj
  have hsolid : ∀ n ∈ moveItem (solids ns) i j, n.isWhitespace = false :=
    fun n hn => solid_of_mem_solids (hperm.mem_iff.mp hn)
  refine ⟨length_fillSignificant _ _, ?_, fun n hn k => getElem?_fillSignificant hperm.length_eq hsolid hn k⟩
  rw [solids_fillSignificant hperm.length_eq hsolid, moveItem_eq hx]

section

variable {x y : Node} (hx : x.isWhitespace = false) (hy : y.isWhitespace = false) {gap : List Node}
  (hgap : ∀ n ∈ gap, n.isWhitespace = true) (left right : List Node)

include hx hy hgap

theorem solids_neighbours : solids (left ++ x :: gap ++ y :: right) = solids left ++ x :: y :: solids right := by
  rw [solids_append, solids_append, solids_cons_solid hx, solids_cons_solid hy, solids_eq_nil.mpr hgap,
    List.append_assoc, List.singleton_append]

/-- Two neighbours among the nodes that are no white space take the places of each other. -/
theorem fillSignificant_neighbours :
    fillSignificant (left ++ x :: gap ++ y :: right) (solids left ++ y :: x :: solids right) =
      left ++ y :: gap ++ x :: right := by
  have hrest : fillSignificant (gap ++ y :: right) ([] ++ x :: solids right) = gap ++ x :: right := by
    rw [fillSignificant_append (by rw [solids_eq_nil.mpr hgap]), fillSignificant_blank hgap,
      fillSignificant_cons_solid hy, fillSignificant_solids]
  rw [List.nil_append] at hrest
  rw [List.append_assoc, fillSignificant_append rfl, fillSignificant_solids, List.cons_append,
    fillSignificant_cons_solid hx, hrest, List.append_assoc, List.cons_append]

end

theorem exchange_comm (ns : List Node) {i j : Nat} (h : i ≠ j) : exchange ns i j = exchange ns j i := by
  rw [exchange, exchange]
  cases ns[i]? with
  | none => cases ns[j]? <;> rfl
  | some a =>
    cases ns[j]? with
    | none => rfl
    | some b => exact List.set_comm _ _ h

/-- Two items of a list are exchanged. -/
theorem exchange_neighbours (left : List Node) (x : Node) (gap : List Node) (y : Node) (right : List Node) :
    exchange (left ++ x :: gap ++ y :: right) left.length (left ++ x :: gap).length =
      left ++ y :: gap ++ x :: right := by
  have hx : (left ++ x :: gap ++ y :: right)[left.length]? = some x := by simp
  have hy : (left ++ x :: gap ++ y :: right)[(left ++ x :: gap).length]? = some y := by
    rw [List.getElem?_append_right (Nat.le_refl _), Nat.sub_self, List.getElem?_cons_zero]
  have hset : (left ++ x :: gap ++ y :: right).set left.length y = left ++ y :: gap ++ y :: right := by simp
  have hlen : (left ++ x :: gap).length = (left ++ y :: gap).length := by simp
  rw [exchange, hx, hy]
  dsimp only
  rw [hset, hlen, List.set_append_right _ _ (Nat.le_refl _), Nat.sub_self, List.set_cons_zero]

/-! ## Moves of an element -/

/-- An element inside markup, with the siblings before and after it. -/
structure Among (tree : Node) (id : String) (v : Visit) (left right : List Node) : Prop where
  found : tree.findId id = .ok (some v)
  place : isMarkupPlace tree v.parent = true
  siblings : siblings tree v = left ++ v.node :: right
  index : v.index = left.length
  solid : v.node.isWhitespace = false

theorem among_of_findId {tree : Node} {id : String} {v : Visit} (h : tree.findId id = .ok (some v))
    (hp : isMarkupPlace tree v.parent = true) : ∃ left right, Among tree id v left right := by
  obtain ⟨m, left, right, hm, -, hs, hlen⟩ := (findId_some h).siblings_split hp
  exact ⟨left, right, h, hp, by rw [Edit.siblings, hm]; exact hs, hlen.symm, solid_of_isMarkup (findId_some h).markup⟩

namespace Among

variable {tree : Node} {id : String} {v : Visit} {left right : List Node} (h : Among tree id v left right)
include h

theorem withMovable_eq (go : Visit → Reply) : withMovable tree id go = go v := by
  rw [withMovable, h.found]
  dsimp only
  rw [if_pos h.place]

theorem modifyChildren_eq (f : List Node → List Node) :
    tree.modifyChildren f v.parent = tree.modifyChildren (fun _ => f (Edit.siblings tree v)) v.parent := by
  have hp := h.place
  rw [isMarkupPlace] at hp
  cases hm : tree.get? v.parent with
  | none =>
    rw [hm] at hp
    cases hp
  | some m => rw [modifyChildren_const hm, Edit.siblings, hm]; rfl

theorem solids_eq : solids (Edit.siblings tree v) = solids left ++ v.node :: solids right := by
  rw [h.siblings, solids_append, solids_cons_solid h.solid]

theorem rank_eq : rank (significant (Edit.siblings tree v)) v.index = (solids left).length := by
  rw [h.siblings, h.index, rank_at h.solid]

theorem solids_at : (solids (Edit.siblings tree v))[(solids left).length]? = some v.node := by
  rw [h.solids_eq]
  simp

/-- An element is moved to the indices of its siblings that are no white space, and no others. -/
theorem moveToIndex_succeeds {index : Value Node} {j : Int} (hj : indexOf? index = some j) :
    (moveToIndex tree id index).Succeeds ↔ 0 ≤ j ∧ j < (solids (Edit.siblings tree v)).length := by
  rw [moveToIndex, h.withMovable_eq, hj]
  dsimp only
  rw [length_significant]
  split
  · next hin =>
    rw [Bool.and_eq_true, decide_eq_true_eq, decide_eq_true_eq] at hin
    exact iff_of_true (Reply.succeeds_succeeded ..) hin
  · next hout =>
    rw [Bool.and_eq_true, decide_eq_true_eq, decide_eq_true_eq] at hout
    exact iff_of_false (Reply.not_succeeds_invalid _ _ _) hout

theorem moveToIndex_tree {index : Value Node} {j : Nat} (hj : indexOf? index = some (j : Int))
    (hlt : j < (solids (Edit.siblings tree v)).length) :
    (moveToIndex tree id index).tree = tree.modifyChildren (fun _ => fillSignificant (Edit.siblings tree v)
      (moveItem (solids (Edit.siblings tree v)) (solids left).length j)) v.parent := by
  have hin : (decide ((0 : Int) ≤ j) && decide ((j : Int) < ((solids (Edit.siblings tree v)).length : Int))) = true := by
    simp
    omega
  rw [moveToIndex, h.withMovable_eq, hj]
  dsimp only
  rw [length_significant, if_pos hin, h.rank_eq]
  exact h.modifyChildren_eq (fillSignificant · (moveItem (solids (Edit.siblings tree v)) (solids left).length j))

/-- The first of the siblings is not moved up. -/
theorem moveUp_first (hleft : solids left = []) : ¬(moveUp tree id).Succeeds := by
  rw [moveUp, h.withMovable_eq]
  dsimp only
  rw [h.rank_eq, hleft]
  exact Reply.not_succeeds_invalid _ _ _

/-- To move an element up is to move it to the index before its own. -/
theorem moveUp_eq (hleft : solids left ≠ []) : (moveUp tree id).Succeeds ∧
    (moveUp tree id).tree = tree.modifyChildren (fun _ => fillSignificant (Edit.siblings tree v)
      (moveItem (solids (Edit.siblings tree v)) (solids left).length ((solids left).length - 1))) v.parent := by
  obtain ⟨first, y, gap, rfl, hy, hgap⟩ := split_last_solid hleft
  have hlen : (solids (first ++ y :: gap)).length = (solids first).length + 1 := by
    rw [solids_append, solids_cons_solid hy, solids_eq_nil.mpr hgap, List.length_append, List.length_singleton]
  have hs : Edit.siblings tree v = first ++ y :: gap ++ v.node :: right := h.siblings
  have hprev : (significant (Edit.siblings tree v)).getD (solids first).length v.index = first.length := by
    rw [hs, List.append_assoc, List.cons_append, getD_significant hy]
  have hmove : exchange (Edit.siblings tree v) first.length v.index =
      fillSignificant (Edit.siblings tree v)
        (moveItem (solids (Edit.siblings tree v)) ((solids first).length + 1) (solids first).length) := by
    rw [hs, h.index, exchange_neighbours, solids_neighbours hy h.solid hgap, moveItem_backward,
      fillSignificant_neighbours hy h.solid hgap]
  rw [moveUp, h.withMovable_eq]
  dsimp only
  rw [h.rank_eq, hlen]
  dsimp only
  rw [hprev, Nat.add_sub_cancel, ← hmove]
  exact ⟨Reply.succeeds_succeeded .., h.modifyChildren_eq (exchange · first.length v.index)⟩

/-- The last of the siblings is not moved down. -/
theorem moveDown_last (hright : solids right = []) : ¬(moveDown tree id).Succeeds := by
  rw [moveDown, h.withMovable_eq]
  dsimp only
  rw [h.rank_eq, length_significant, h.solids_eq, hright, List.length_append, List.length_singleton,
    if_neg (Nat.lt_irrefl _)]
  exact Reply.not_succeeds_invalid _ _ _

/-- To move an element down is to move it to the index after its own. -/
theorem moveDown_eq (hright : solids right ≠ []) : (moveDown tree id).Succeeds ∧
    (moveDown tree id).tree = tree.modifyChildren (fun _ => fillSignificant (Edit.siblings tree v)
      (moveItem (solids (Edit.siblings tree v)) (solids left).length ((solids left).length + 1))) v.parent := by
  obtain ⟨gap, y, last, rfl, hy, hgap⟩ := split_first_solid hright
  have hs : Edit.siblings tree v = left ++ v.node :: gap ++ y :: last := by
    rw [h.siblings, List.append_assoc, List.cons_append]
  have hgapped : (solids (left ++ v.node :: gap)).length = (solids left).length + 1 := by
    rw [solids_append, solids_cons_solid h.solid, solids_eq_nil.mpr hgap, List.length_append, List.length_singleton]
  have hnext : (significant (Edit.siblings tree v)).getD ((solids left).length + 1) v.index =
      (left ++ v.node :: gap).length := by
    rw [hs, ← hgapped, getD_significant hy]
  have hlt : (solids left).length + 1 < (significant (Edit.siblings tree v)).length := by
    rw [length_significant, hs, solids_neighbours h.solid hy hgap]
    simp
  have hne : (left ++ v.node :: gap).length ≠ left.length := by simp
  have hmove : exchange (Edit.siblings tree v) (left ++ v.node :: gap).length v.index =
      fillSignificant (Edit.siblings tree v)
        (moveItem (solids (Edit.siblings tree v)) (solids left).length ((solids left).length + 1)) := by
    rw [hs, h.index, exchange_comm _ hne, exchange_neighbours, solids_neighbours h.solid hy hgap, moveItem_forward,
      fillSignificant_neighbours h.solid hy hgap]
  rw [moveDown, h.withMovable_eq]
  dsimp only
  rw [h.rank_eq, if_pos hlt, hnext, ← hmove]
  exact ⟨Reply.succeeds_succeeded .., h.modifyChildren_eq (exchange · (left ++ v.node :: gap).length v.index)⟩

end Among

/-- An element inside markup has a rank `i` among its siblings that are no white space. It is moved to exactly the
indices of these siblings: there its list is the old one with the element moved from rank to rank, and nothing else in
the tree is changed. It is moved up unless it is the first and down unless it is the last of them, with the same tree
as if it were moved to the index before or after. -/
theorem moves_are_list_moves {tree : Node} {id : String} {v : Visit} (h : tree.findId id = .ok (some v))
    (hp : isMarkupPlace tree v.parent = true) :
    ∃ i, i = (solids ((siblings tree v).take v.index)).length ∧ (solids (siblings tree v))[i]? = some v.node ∧
      (∀ index j, indexOf? index = some j →
        ((moveToIndex tree id index).Succeeds ↔ 0 ≤ j ∧ j < (solids (siblings tree v)).length) ∧
        ((moveToIndex tree id index).Succeeds → ∃ new, Reordered (siblings tree v) new v.node i j.toNat ∧
          (moveToIndex tree id index).tree = tree.modifyChildren (fun _ => new) v.parent)) ∧
      ((moveUp tree id).Succeeds ↔ 0 < i) ∧
      ((moveUp tree id).Succeeds → ∀ index, indexOf? index = some ((i : Int) - 1) →
        (moveUp tree id).tree = (moveToIndex tree id index).tree) ∧
      ((moveDown tree id).Succeeds ↔ i + 1 < (solids (siblings tree v)).length) ∧
      ((moveDown tree id).Succeeds → ∀ index, indexOf? index = some ((i : Int) + 1) →
        (moveDown tree id).tree = (moveToIndex tree id index).tree) := by
  obtain ⟨left, right, hv⟩ := among_of_findId h hp
  have htake : (siblings tree v).take v.index = left := by rw [hv.siblings, hv.index, List.take_left]
  have hlen : (solids (siblings tree v)).length = (solids left).length + 1 + (solids right).length := by
    rw [hv.solids_eq, List.length_append, List.length_cons]
    omega
  refine ⟨(solids left).length, by rw [htake], hv.solids_at, fun index j hj => ?_, ?_, fun hup index hj => ?_, ?_,
    fun hdown index hj => ?_⟩
  · refine ⟨hv.moveToIndex_succeeds hj, fun hs => ?_⟩
    obtain ⟨h0, hlt⟩ := (hv.moveToIndex_succeeds hj).mp hs
    obtain ⟨k, rfl⟩ := Int.eq_ofNat_of_zero_le h0
    exact ⟨_, reordered_fillSignificant hv.solids_at (Int.ofNat_lt.mp hlt),
      hv.moveToIndex_tree hj (Int.ofNat_lt.mp hlt)⟩
  · by_cases hleft : solids left = []
    · exact iff_of_false (hv.moveUp_first hleft) (by simp [hleft])
    · exact iff_of_true (hv.moveUp_eq hleft).1 (List.length_pos_iff.mpr hleft)
  · have hleft : solids left ≠ [] := fun hleft => hv.moveUp_first hleft hup
    have hpos := List.length_pos_iff.mpr hleft
    have hcast : ((solids left).length : Int) - 1 = (((solids left).length - 1 : Nat) : Int) := by omega
    rw [hcast] at hj
    rw [(hv.moveUp_eq hleft).2, hv.moveToIndex_tree hj (by omega)]
  · by_cases hright : solids right = []
    · exact iff_of_false (hv.moveDown_last hright) (by rw [hlen, hright]; simp)
    · have hpos := List.length_pos_iff.mpr hright
      exact iff_of_true (hv.moveDown_eq hright).1 (by omega)
  · have hright : solids right ≠ [] := fun hright => hv.moveDown_last hright hdown
    have hpos := List.length_pos_iff.mpr hright
    rw [(hv.moveDown_eq hright).2, hv.moveToIndex_tree (j := (solids left).length + 1) hj (by omega)]

/-- A list with two items on lines of their own and a slot before the second. -/
def lines : Node :=
  .new (.document none) [.element "ul" [] [.text "\n  ", Command.identified "li" "a" [], .text "\n  ",
    .new (.slot "" "") [.new .null []], Command.identified "li" "b" [], .text "\n"]]

set_option maxRecDepth 10000 in
theorem moves_last_line : (moveUp lines "b").Succeeds ∧
    (moveUp lines "b").tree = (moveToIndex lines "b" (.int 1)).tree ∧
    (moveToIndex lines "b" (.int 0)).Succeeds ∧ ¬(moveDown lines "b").Succeeds := by
  have hfound : lines.findId "b" = .ok (some ⟨[.child 0], 4, Command.identified "li" "b" []⟩) := by rfl
  obtain ⟨i, hi, -, hto, hup, htree, hdown, -⟩ := moves_are_list_moves hfound (by rfl)
  obtain rfl : i = 2 := hi.trans (by rfl)
  have hups := hup.mpr (by decide)
  exact ⟨hups, htree hups (.int 1) rfl, (hto (.int 0) 0 rfl).1.mpr ⟨by decide, by decide⟩,
    fun h => absurd (hdown.mp h) (by decide)⟩

end JsxEdit.Edit
