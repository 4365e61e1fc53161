import JsxEdit.Proofs.Lookup
import JsxEdit.Proofs.Siblings

/-
Trees without the elements that have one of some identities.

Pruning takes these out of the lists of children of markup, each with the white space before it. A tree may be pruned
step by step: as long as no white space meets white space, the white space that goes is the same in the end. Taking out
one element is pruning by its identity, if no other element has that.
-/
set_option autoImplicit false

namespace JsxEdit
namespace Node

/-! ## Pruned trees -/

/-- The node is an element with one of the identities that go. -/
def goes (gone : String → Bool) (n : Node) : Bool := n.identity?.any gone

/-- Of a list of children, the nodes that do not go, without the white space directly before one that goes. -/
def kept (gone : String → Bool) : List Node → List Node
  | [] => []
  | n :: ns => if n.goes gone || n.isWhitespace && ns.head?.any (goes gone) then kept gone ns else n :: kept gone ns

mutual

/-- The tree in which elements and fragments keep only what stays of their children. -/
def pruned (gone : String → Bool) : Node → Node
  | .mk k i as cs => .mk k i (prunedAll gone as) (if k.isMarkup then prunedKept gone cs else prunedAll gone cs)

/-- The nodes, all of them pruned. -/
def prunedAll (gone : String → Bool) : List Node → List Node
  | [] => []
  | n :: ns => pruned gone n :: prunedAll gone ns

/-- The nodes that stay, pruned. -/
def prunedKept (gone : String → Bool) : List Node → List Node
  | [] => []
  | n :: ns =>
    if n.goes gone || n.isWhitespace && ns.head?.any (goes gone) then prunedKept gone ns
    else pruned gone n :: prunedKept gone ns

end

theorem prunedAll_eq_map (gone : String → Bool) (ns : List Node) : prunedAll gone ns = ns.map (pruned gone) := by
  induction ns with
  | nil => rfl
  | cons n ns ih => rw [prunedAll, ih, List.map_cons]

theorem prunedKept_eq_map (gone : String → Bool) (ns : List Node) :
    prunedKept gone ns = (kept gone ns).map (pruned gone) := by
  induction ns with
  | nil => rfl
  | cons n ns ih =>
    rw [prunedKept, kept, ih]
    split
    · rfl
    · rw [List.map_cons]

/-- Markup keeps of its children what does not go. -/
theorem children_pruned {n : Node} (h : n.kind.isMarkup = true) (gone : String → Bool) :
    (n.pruned gone).children = (kept gone n.children).map (pruned gone) := by
  obtain ⟨k, i, as, cs⟩ := n
  rw [kind_mk] at h
  rw [pruned, children_mk, children_mk, if_pos h, prunedKept_eq_map]

section

variable (gone : String → Bool)

@[simp] theorem kind_pruned (n : Node) : (n.pruned gone).kind = n.kind := by cases n; rfl

@[simp] theorem isWhitespace_pruned (n : Node) : (n.pruned gone).isWhitespace = n.isWhitespace := by cases n; rfl

@[simp] theorem isForeign_pruned (n : Node) : (n.pruned gone).isForeign = n.isForeign := by cases n; rfl

/-- Pruning leaves the names of attributes and the texts of their values. -/
theorem entryOf?_pruned (a : Node) : (a.pruned gone).entryOf? = a.entryOf? := by
  obtain ⟨k, i, as, cs⟩ := a
  cases hk : k.isMarkup with
  | true => rw [entryOf?_of_markup (by rw [kind_pruned]; exact hk), entryOf?_of_markup (by rw [kind_mk]; exact hk)]
  | false =>
    refine entryOf?_congr (kind_pruned gone _) ?_
    rw [pruned, hk, if_neg Bool.false_ne_true, children_mk, children_mk, firstText, firstText]
    cases cs with
    | nil => rfl
    | cons c cs => rw [prunedAll, List.head?_cons, List.head?_cons, Option.elim_some, Option.elim_some, kind_pruned]

theorem entries_prunedAll (as : List Node) : entriesOf (prunedAll gone as) = entriesOf as := by
  rw [prunedAll_eq_map, entriesOf, List.filterMap_map]
  exact List.filterMap_congr fun a _ => entryOf?_pruned gone a

theorem entries_attributes_pruned (n : Node) : entriesOf (n.pruned gone).attributes = entriesOf n.attributes := by
  obtain ⟨k, i, as, cs⟩ := n
  exact entries_prunedAll gone as

theorem identity?_pruned (n : Node) : (n.pruned gone).identity? = n.identity? :=
  identity?_congr (by rw [kind_pruned]) (entries_attributes_pruned gone n)

theorem goes_pruned (gone' : String → Bool) (n : Node) : (n.pruned gone).goes gone' = n.goes gone' := by
  rw [goes, goes, identity?_pruned]

/-- What is searched can still be searched. -/
theorem Legible.pruned {n : Node} (h : n.Legible) : (n.pruned gone).Legible :=
  h.congr (isForeign_pruned gone n) (by rw [kind_pruned]) (entries_attributes_pruned gone n)

theorem prunedAll_append (ns ms : List Node) : prunedAll gone (ns ++ ms) = prunedAll gone ns ++ prunedAll gone ms := by
  simp only [prunedAll_eq_map, List.map_append]

mutual

/-- What is below a pruned tree is pruned, and was below the tree. -/
theorem mem_under_pruned : (n : Node) → ∀ m ∈ (n.pruned gone).under, ∃ m' ∈ n.under, m = m'.pruned gone
  | .mk k i as cs => by
    intro m hm
    rw [pruned, under, List.mem_append] at hm
    rw [under]
    rcases hm with hm | hm
    · obtain ⟨m', hm', rfl⟩ := mem_within_prunedAll as m hm
      exact ⟨m', List.mem_append_left _ hm', rfl⟩
    · have hcs : ∃ m' ∈ within cs, m = m'.pruned gone := by
        split at hm
        · exact mem_within_prunedKept cs m hm
        · exact mem_within_prunedAll cs m hm
      obtain ⟨m', hm', rfl⟩ := hcs
      exact ⟨m', List.mem_append_right _ hm', rfl⟩

theorem mem_within_prunedAll : (ns : List Node) → ∀ m ∈ within (prunedAll gone ns), ∃ m' ∈ within ns, m = m'.pruned gone
  | [] => fun _ hm => nomatch hm
  | n :: ns => by
    intro m hm
    simp only [prunedAll, within_cons, List.mem_append, List.mem_cons] at hm ⊢
    rcases hm with (rfl | hm) | hm
    · exact ⟨n, .inl (.inl rfl), rfl⟩
    · obtain ⟨m', hm', rfl⟩ := mem_under_pruned n m hm
      exact ⟨m', .inl (.inr hm'), rfl⟩
    · obtain ⟨m', hm', rfl⟩ := mem_within_prunedAll ns m hm
      exact ⟨m', .inr hm', rfl⟩

theorem mem_within_prunedKept : (ns : List Node) →
    ∀ m ∈ within (prunedKept gone ns), ∃ m' ∈ within ns, m = m'.pruned gone
  | [] => fun _ hm => nomatch hm
  | n :: ns => by
    intro m hm
    have hrest : m ∈ within (prunedKept gone ns) → ∃ m' ∈ within (n :: ns), m = m'.pruned gone := fun hm => by
      obtain ⟨m', hm', rfl⟩ := mem_within_prunedKept ns m hm
      exact ⟨m', List.mem_append_right _ hm', rfl⟩
    rw [prunedKept] at hm
    split at hm
    · exact hrest hm
    · rw [within_cons, List.mem_append, List.mem_cons] at hm
      rcases hm with (rfl | hm) | hm
      · exact ⟨n, List.mem_cons_self, rfl⟩
      · obtain ⟨m', hm', rfl⟩ := mem_under_pruned n m hm
        exact ⟨m', by rw [within_cons]; exact List.mem_append_left _ (List.mem_cons_of_mem n hm'), rfl⟩
      · exact hrest hm

end

end

/-! ## Nothing to prune -/

mutual

/-- Where nothing goes, nothing is pruned. -/
theorem pruned_of_stays {gone : String → Bool} : (n : Node) → (∀ m ∈ n.under, m.goes gone = false) → n.pruned gone = n
  | .mk k i as cs, h => by
    rw [under, List.forall_mem_append] at h
    rw [pruned, prunedAll_of_stays as h.1, prunedAll_of_stays cs h.2, prunedKept_of_stays cs h.2, ite_self]

theorem prunedAll_of_stays {gone : String → Bool} : (ns : List Node) → (∀ m ∈ within ns, m.goes gone = false) →
    prunedAll gone ns = ns
  | [], _ => rfl
  | n :: ns, h => by
    rw [within_cons, List.forall_mem_append, List.forall_mem_cons] at h
    rw [prunedAll, pruned_of_stays n h.1.2, prunedAll_of_stays ns h.2]

theorem prunedKept_of_stays {gone : String → Bool} : (ns : List Node) → (∀ m ∈ within ns, m.goes gone = false) →
    prunedKept gone ns = ns
  | [], _ => rfl
  | n :: ns, h => by
    rw [within_cons, List.forall_mem_append, List.forall_mem_cons] at h
    have hhead : ns.head?.any (goes gone) = false := by
      cases ns with
      | nil => rfl
      | cons m ms => exact h.2 m List.mem_cons_self
    rw [prunedKept, h.1.1, hhead, Bool.and_false, Bool.or_self, if_neg Bool.false_ne_true, pruned_of_stays n h.1.2,
      prunedKept_of_stays ns h.2]

end

/-- Without a node that goes itself, a list keeps all its nodes. -/
theorem prunedKept_eq_prunedAll {gone : String → Bool} {ns : List Node} (h : ∀ n ∈ ns, n.goes gone = false) :
    prunedKept gone ns = prunedAll gone ns := by
  induction ns with
  | nil => rfl
  | cons n ns ih =>
    obtain ⟨hn, hns⟩ := List.forall_mem_cons.mp h
    have hhead : ns.head?.any (goes gone) = false := by
      cases ns with
      | nil => rfl
      | cons m ms => exact hns m List.mem_cons_self
    rw [prunedKept, prunedAll, hn, hhead, Bool.and_false, Bool.or_self, if_neg Bool.false_ne_true, ih hns]

/-! ## Pruning step by step -/

/-- The children of an element or fragment are kept apart: no white space meets white space. -/
def Aired (n : Node) : Prop := n.kind.isMarkup = true → Spaced n.children

theorem goes_or (gone gone' : String → Bool) (n : Node) :
    n.goes (fun id => gone id || gone' id) = (n.goes gone || n.goes gone') := by
  rw [goes, goes, goes]
  cases n.identity? <;> rfl

/-- What stays is at the head of the rest, if it is no white space. -/
theorem head_prunedKept {gone : String → Bool} {n : Node} (hgoes : n.goes gone = false) (hn : n.isWhitespace = false)
    (ns : List Node) : prunedKept gone (n :: ns) = n.pruned gone :: prunedKept gone ns := by
  rw [prunedKept, hgoes, hn, Bool.false_and, Bool.or_self, if_neg Bool.false_ne_true]

/-- What a node is followed by decides whether it goes, and in a list that is kept apart a step of pruning does not
change what white space is followed by, unless that goes with it. -/
theorem goes_next {gone : String → Bool} (gone' : String → Bool) {n : Node} {ns : List Node} (hs : Spaced (n :: ns))
    (hstays : (n.goes gone || n.isWhitespace && ns.head?.any (goes gone)) = false) :
    (n.isWhitespace && (prunedKept gone ns).head?.any (goes gone')) =
      (n.isWhitespace && ns.head?.any (goes fun id => gone id || gone' id)) := by
  cases hn : n.isWhitespace with
  | false => rfl
  | true =>
    rw [hn, Bool.true_and, Bool.or_eq_false_iff] at hstays
    cases ns with
    | nil => rfl
    | cons m ms =>
      have hm : m.goes gone = false := hstays.2
      have hsolid := (List.isChain_cons_cons.mp hs).1 hn
      rw [head_prunedKept hm hsolid, List.head?_cons, List.head?_cons, Option.any_some, Option.any_some, goes_pruned,
        goes_or, hm, Bool.false_or]

section

variable (gone gone' : String → Bool)

mutual

/-- Pruning by some identities and then by others is pruning by all of them. -/
theorem pruned_pruned : (n : Node) → (∀ m ∈ n :: n.under, m.Aired) →
    (n.pruned gone).pruned gone' = n.pruned fun id => gone id || gone' id
  | .mk k i as cs, h => by
    obtain ⟨hown, has, hcs⟩ := forall_tree.mp h
    rw [pruned, pruned, pruned, prunedAll_prunedAll as has]
    cases hk : k.isMarkup with
    | true => simp only [if_true, prunedKept_prunedKept cs (hown hk) hcs]
    | false => simp only [if_neg Bool.false_ne_true, prunedAll_prunedAll cs hcs]

theorem prunedAll_prunedAll : (ns : List Node) → (∀ m ∈ within ns, m.Aired) →
    prunedAll gone' (prunedAll gone ns) = prunedAll (fun id => gone id || gone' id) ns
  | [], _ => rfl
  | n :: ns, h => by
    rw [within_cons, List.forall_mem_append] at h
    rw [prunedAll, prunedAll, prunedAll, pruned_pruned n h.1, prunedAll_prunedAll ns h.2]

theorem prunedKept_prunedKept : (ns : List Node) → Spaced ns → (∀ m ∈ within ns, m.Aired) →
    prunedKept gone' (prunedKept gone ns) = prunedKept (fun id => gone id || gone' id) ns
  | [], _, _ => rfl
  | n :: ns, hs, h => by
    rw [within_cons, List.forall_mem_append] at h
    have hrest := prunedKept_prunedKept ns (List.IsChain.tail hs) h.2
    rw [prunedKept, prunedKept, goes_or]
    cases hstays : n.goes gone || n.isWhitespace && ns.head?.any (goes gone) with
    | true =>
      -- what goes in the first step goes anyway
      have hgoes : (n.goes gone || n.goes gone' ||
          n.isWhitespace && ns.head?.any (goes fun id => gone id || gone' id)) = true := by
        rw [Bool.or_eq_true, Bool.and_eq_true] at hstays
        rcases hstays with hn | ⟨hblank, hnext⟩
        · rw [hn, Bool.true_or, Bool.true_or]
        · cases ns with
          | nil => cases hnext
          | cons m ms =>
            have hm : m.goes gone = true := hnext
            rw [List.head?_cons, Option.any_some, goes_or, hm, hblank, Bool.true_or, Bool.true_and, Bool.or_true]
      rw [if_pos rfl, hgoes, if_pos rfl, hrest]
    | false =>
      have hn : n.goes gone = false := (Bool.or_eq_false_iff.mp hstays).1
      rw [if_neg Bool.false_ne_true, prunedKept, goes_pruned, isWhitespace_pruned, goes_next gone' hs hstays, hn,
        Bool.false_or, hrest, pruned_pruned n h.1]

end

end

/-- A list that is kept apart stays so. -/
theorem spaced_prunedKept (gone : String → Bool) {ns : List Node} (h : Spaced ns) : Spaced (prunedKept gone ns) := by
  induction ns with
  | nil => exact .nil
  | cons n ns ih =>
    have hrest := ih (List.IsChain.tail h)
    rw [prunedKept]
    split
    · exact hrest
    · next hstays =>
      rw [Bool.not_eq_true, Bool.or_eq_false_iff] at hstays
      refine List.isChain_cons.mpr ⟨fun m hm hn => ?_, hrest⟩
      rw [isWhitespace_pruned] at hn
      cases ns with
      | nil => cases hm
      | cons y ys =>
        have hy : y.goes gone = false := by simpa [hn] using hstays.2
        have hsolid := (List.isChain_cons_cons.mp h).1 hn
        rw [head_prunedKept hy hsolid, List.head?_cons, Option.mem_some] at hm
        rw [← hm, isWhitespace_pruned]
        exact hsolid

theorem Aired.pruned {n : Node} (h : n.Aired) (gone : String → Bool) : (n.pruned gone).Aired := by
  obtain ⟨k, i, as, cs⟩ := n
  intro hk
  have hk' : k.isMarkup = true := hk
  rw [Node.pruned, hk', if_pos rfl]
  exact spaced_prunedKept gone (h hk')

/-! ## Taking out one element -/

section

variable {id : String}

theorem goes_singleton (n : Node) : n.goes (· == id) = true ↔ n.identity? = some id := by
  rw [goes]
  cases n.identity? <;> simp

theorem stays_of_tally {ns : List Node} (h : tally (carries id) ns = 0) : ∀ n ∈ ns, n.goes (· == id) = false := by
  intro n hn
  rw [← Bool.not_eq_true, goes_singleton]
  exact tally_carries_zero.mp h n hn

theorem tally_pos {ns : List Node} {n : Node} (hn : n ∈ ns) (hid : n.identity? = some id) :
    0 < tally (carries id) ns :=
  Nat.pos_of_ne_zero fun h => tally_carries_zero.mp h n hn hid

/-- Pruning brings no identity into a tree. -/
theorem absent_pruned {n : Node} (h : tally (carries id) n.under = 0) (gone : String → Bool) :
    tally (carries id) (n.pruned gone).under = 0 := by
  rw [tally_carries_zero] at h ⊢
  intro m hm
  obtain ⟨m', hm', rfl⟩ := mem_under_pruned gone n m hm
  rw [identity?_pruned]
  exact h m' hm'

/-- Up to a node that does not go, a list in which nothing goes is kept. -/
theorem prunedKept_append {gone : String → Bool} {front : List Node} (h : ∀ m ∈ within front, m.goes gone = false)
    {n : Node} (hn : n.goes gone = false) (ns : List Node) :
    prunedKept gone (front ++ n :: ns) = front ++ prunedKept gone (n :: ns) := by
  induction front with
  | nil => rfl
  | cons m front ih =>
    rw [within_cons, List.forall_mem_append, List.forall_mem_cons] at h
    have hhead : (front ++ n :: ns).head?.any (goes gone) = false := by
      cases front with
      | nil => exact hn
      | cons y ys => exact h.2 y List.mem_cons_self
    rw [List.cons_append, prunedKept, h.1.1, hhead, Bool.and_false, Bool.or_self, if_neg Bool.false_ne_true,
      pruned_of_stays m h.1.2, ih h.2, List.cons_append]

/-- To take out a node and the white space before it is to prune its list, if nothing else there goes. -/
theorem prunedKept_eq_detach {gone : String → Bool} {left right : List Node} {n : Node} (hn : n.goes gone = true)
    (hleft : ∀ m ∈ within left, m.goes gone = false) (hright : ∀ m ∈ within right, m.goes gone = false) :
    prunedKept gone (left ++ n :: right) = Edit.detach (left ++ n :: right) left.length := by
  have hfrom : prunedKept gone (n :: right) = right := by
    rw [prunedKept, hn, Bool.true_or, if_pos rfl, prunedKept_of_stays right hright]
  rcases List.eq_nil_or_concat' left with rfl | ⟨front, y, rfl⟩
  · rw [List.nil_append, hfrom]
    rfl
  · rw [within_append, List.forall_mem_append, within_cons, List.forall_mem_append, List.forall_mem_cons] at hleft
    obtain ⟨hfront, ⟨hy, hunder⟩, -⟩ := hleft
    rw [List.append_assoc, List.singleton_append, prunedKept_append hfront hy, prunedKept, hy, List.head?_cons,
      Option.any_some, hn, Bool.and_true, Bool.false_or, hfrom, pruned_of_stays y hunder, List.length_append,
      List.length_singleton]
    cases hblank : y.isWhitespace with
    | true => rw [if_pos rfl, Edit.detach_blank front right hblank]
    | false =>
      have hlast : ∀ z ∈ (front ++ [y]).getLast?, z.isWhitespace = false := by simpa using hblank
      have := Edit.detach_solid hlast right n
      rw [if_neg Bool.false_ne_true]
      simpa using this.symm

section

variable {k : Kind} {info : Info} {as cs left right : List Node} {b : Node}

/-- Pruning takes out a child that is the only node with the identity, and nothing else. -/
theorem pruned_of_child_goes (hk : k.isMarkup = true) (hb : b.identity? = some id)
    (hone : tally (carries id) (mk k info as (left ++ b :: right)).under ≤ 1) :
    (mk k info as (left ++ b :: right)).pruned (· == id) =
      mk k info as (Edit.detach (left ++ b :: right) left.length) := by
  have hown : own (carries id) b = 1 := by rw [own_carries, if_pos hb]
  simp only [under, within_append, within_cons, tally_append, tally] at hone
  have has := stays_of_tally (show tally (carries id) (within as) = 0 by omega)
  have hleft := stays_of_tally (show tally (carries id) (within left) = 0 by omega)
  have hright := stays_of_tally (show tally (carries id) (within right) = 0 by omega)
  rw [pruned, hk, if_pos rfl, prunedAll_of_stays as has,
    prunedKept_eq_detach ((goes_singleton b).mpr hb) hleft hright]

/-- Where the only node with the identity is below a child, pruning changes that child. -/
theorem pruned_of_below_child (hpos : 0 < tally (carries id) b.under)
    (hone : tally (carries id) (mk k info as (left ++ b :: right)).under ≤ 1) :
    (mk k info as (left ++ b :: right)).pruned (· == id) = mk k info as (left ++ b.pruned (· == id) :: right) := by
  simp only [under, within_append, within_cons, tally_append, tally] at hone
  have has := stays_of_tally (show tally (carries id) (within as) = 0 by omega)
  have hleft := stays_of_tally (show tally (carries id) (within left) = 0 by omega)
  have hright := stays_of_tally (show tally (carries id) (within right) = 0 by omega)
  have hown : b.goes (· == id) = false := by
    rw [← Bool.not_eq_true, goes_singleton]
    intro hb
    rw [own_carries, if_pos hb] at hone
    omega
  have hall : ∀ n ∈ left ++ b :: right, n.goes (· == id) = false := by
    rw [List.forall_mem_append, List.forall_mem_cons]
    exact ⟨fun n hn => forall_within.mp hleft n hn n List.mem_cons_self, hown,
      fun n hn => forall_within.mp hright n hn n List.mem_cons_self⟩
  rw [pruned, prunedAll_of_stays as has, prunedKept_eq_prunedAll hall, ite_self, prunedAll_append, prunedAll,
    prunedAll_of_stays left hleft, prunedAll_of_stays right hright]

/-- Where the only node with the identity is below the attributes, pruning changes those. -/
theorem pruned_of_below_attributes (hpos : 0 < tally (carries id) (within as))
    (hone : tally (carries id) (mk k info as cs).under ≤ 1) :
    (mk k info as cs).pruned (· == id) = mk k info (prunedAll (· == id) as) cs := by
  rw [under, tally_append] at hone
  have hcs := stays_of_tally (show tally (carries id) (within cs) = 0 by omega)
  rw [pruned, prunedAll_of_stays cs hcs, prunedKept_of_stays cs hcs, ite_self]

end

/-- To take out the only element with the identity is to prune the tree by that. -/
theorem modifyChildren_detach_eq_pruned {p : Path} {tree m c : Node} {i : Nat} (hm : tree.get? p = some m)
    (hk : m.kind.isMarkup = true) (hc : m.children[i]? = some c) (hid : c.identity? = some id)
    (hone : tally (carries id) tree.under ≤ 1) : tree.modifyChildren (Edit.detach · i) p = tree.pruned (· == id) := by
  induction p generalizing tree with
  | nil =>
    cases hm
    obtain ⟨k, info, as, cs⟩ := m
    obtain ⟨left, right, rfl, rfl, -⟩ := split_at (fun n => n) hc
    exact (pruned_of_child_goes hk hid hone).symm
  | cons step p ih =>
    obtain ⟨k, info, as, cs⟩ := tree
    cases step with
    | child j =>
      obtain ⟨b, hb, hbm⟩ := Option.bind_eq_some_iff.mp hm
      have hpos := tally_pos (node_mem_under (mem_visits hbm hc)) hid
      obtain ⟨left, right, hcs, -, hmodify⟩ :=
        split_at (modify (fun m => m.withChildren (Edit.detach m.children i)) p) hb
      rw [children_mk] at hcs hmodify
      subst hcs
      have hbelow : tally (carries id) b.under ≤ 1 := by
        simp only [under, within_append, within_cons, tally_append, tally] at hone
        omega
      rw [pruned_of_below_child hpos hone, ← ih hbm hbelow, modifyChildren, modify_child, children_mk, hmodify]
      rfl
    | attributes =>
      rw [get?_attributes] at hm
      split at hm
      · next helement =>
        have hne := ne_nil_of_get? (n := (mk k info as cs).attributeList) rfl hk hm
        have hpos := tally_pos (node_mem_under (mem_visits hm hc)) hid
        have hunder : (mk k info as cs).attributeList.under = within as := by rw [under_eq]; rfl
        rw [hunder] at hpos
        have hbelow : tally (carries id) (mk k info as cs).attributeList.under ≤ 1 := by
          rw [under, tally_append] at hone
          rw [hunder]
          omega
        have hstep := ih hm hbelow
        rw [modifyChildren] at hstep ⊢
        rw [pruned_of_below_attributes hpos hone, modify_attributes, if_pos helement, hstep]
        rfl
      · cases hm

end

end Node
end JsxEdit
