import JsxEdit.Proofs.Adjacent
import JsxEdit.Proofs.Innermost
import JsxEdit.Proofs.Prune
import Mathlib.Data.List.Dedup

/-
Removing several elements at once.

The elements are taken out one after the other, at places that are looked up before and moved with every removal. Each
step prunes the tree by one identity, so in the end the tree is pruned by all of them, whatever their order was.
-/
set_option autoImplicit false

namespace JsxEdit
namespace Node

mutual

/-- Where all that is below a node are nodes, nothing blocks the way. -/
theorem hasForeign_of_nodes : (n : Node) → (∀ m ∈ n.under, m.isForeign = false) → n.hasForeign = false
  | .mk k i as cs, h => by
    rw [under, List.forall_mem_append] at h
    rw [hasForeign, anyForeign_of_nodes as h.1, anyForeign_of_nodes cs h.2, Bool.or_self]

theorem anyForeign_of_nodes : (ns : List Node) → (∀ m ∈ within ns, m.isForeign = false) → anyForeign ns = false
  | [], _ => rfl
  | n :: ns, h => by
    rw [within_cons, List.forall_mem_append, List.forall_mem_cons] at h
    rw [anyForeign, h.1.1, hasForeign_of_nodes n h.1.2, anyForeign_of_nodes ns h.2, Bool.or_self, Bool.or_self]

end

/-- A change below markup is a change of what is at the places above it. -/
theorem get?_modify_append {f : Node → Node} {m : Node} (hm : m.kind.isMarkup = true) {p q : Path} {n : Node}
    (h : n.get? (p ++ q) = some m) : (n.modify f (p ++ q)).get? p = (n.get? p).map (modify f q) := by
  induction p generalizing n with
  | nil => rfl
  | cons step p ih =>
    cases step with
    | child i =>
      obtain ⟨c, hc, h⟩ := Option.bind_eq_some_iff.mp h
      rw [List.cons_append, modify_child, get?_child, get?_child, children_withChildren, List.getElem?_modify_eq, hc]
      exact ih h
    | attributes =>
      rw [List.cons_append, get?_attributes] at h
      split at h
      · next helement =>
        have hne := ne_nil_of_get? (n := n.attributeList) rfl hm h
        rw [List.cons_append, modify_attributes, if_pos helement, get?_attributes, get?_attributes, kind_withAttributes,
          if_pos helement, if_pos helement, attributeList, attributes_withAttributes, ← modify_attributeList f hne n]
        exact ih h
      · cases h

end Node

namespace Edit
open Node

/-! ## Places that move -/

/-- A document in which every identity is at most once, all that is below it are nodes, and no white space meets white
space. -/
structure Orderly (tree : Node) : Prop where
  document : ∃ source, tree.kind = .document source
  identities : ∀ id, tally (carries id) tree.under ≤ 1
  nodes : ∀ m ∈ tree.under, m.isForeign = false
  aired : ∀ m ∈ tree.under, m.Aired

/-- The place is one among the children of markup, and an element with the identity is there. -/
def LeadsTo (tree : Node) (id : String) (q : Path) : Prop :=
  ∃ p i m c, q = p ++ [.child i] ∧ tree.get? p = some m ∧ m.kind.isMarkup = true ∧ m.children[i]? = some c ∧
    c.identity? = some id

/-- The place leads to the element with the identity, or there is no place and no such element. -/
def Tracks (tree : Node) (id : String) : Option Path → Prop
  | some q => LeadsTo tree id q
  | none => tally (carries id) tree.under = 0

theorem LeadsTo.get? {tree : Node} {id : String} {q : Path} (h : LeadsTo tree id q) :
    ∃ c, tree.get? q = some c ∧ c.identity? = some id := by
  obtain ⟨p, i, m, c, rfl, hm, -, hc, hid⟩ := h
  exact ⟨c, by rw [get?_append, hm, Option.bind_some, get?_child, hc]; rfl, hid⟩

theorem LeadsTo.inMarkup {tree : Node} {id : String} {q : Path} (h : LeadsTo tree id q) : InMarkup tree q := by
  obtain ⟨p, i, m, -, rfl, hm, hk, -⟩ := h
  exact ⟨p, i, rfl, by rw [isMarkupPlace, hm]; exact hk⟩

theorem leadsTo_iff {tree : Node} {id : String} {q : Path} :
    LeadsTo tree id q ↔ InMarkup tree q ∧ (tree.get? q).bind identity? = some id := by
  constructor
  · intro h
    obtain ⟨c, hc, hid⟩ := h.get?
    exact ⟨h.inMarkup, by rw [hc]; exact hid⟩
  · rintro ⟨⟨p, i, rfl, hp⟩, hid⟩
    rw [isMarkupPlace] at hp
    cases hm : tree.get? p with
    | none =>
      rw [hm] at hp
      cases hp
    | some m =>
      rw [hm] at hp
      rw [get?_append, hm, Option.bind_some, get?_child] at hid
      cases hc : m.children[i]? with
      | none =>
        rw [hc] at hid
        cases hid
      | some c =>
        rw [hc] at hid
        exact ⟨p, i, m, c, rfl, hm, hp, hc, hid⟩

theorem markup_of_identity? {n : Node} {id : String} (h : n.identity? = some id) : n.kind.isMarkup = true := by
  refine isMarkup_of_isElement ?_
  rw [← Bool.not_eq_false]
  intro helement
  rw [identity?_eq, elementIdentity, helement] at h
  cases h

section

variable {tree m : Node} {p : Path} {i : Nat} (hm : tree.get? p = some m) (hk : m.kind.isMarkup = true)
include hm hk

/-- A place that is still there after a removal leads to an element with the same identity. -/
theorem identity?_afterRemoval {q q' : Path}
    (h : Path.afterRemoval p (detachRange m.children i).1 (detachRange m.children i).2 q = some q') :
    ((tree.modifyChildren (detach · i) p).get? q').bind identity? = (tree.get? q).bind identity? := by
  rcases get?_afterRemoval hm h with ⟨rfl, r, rfl⟩ | hsame
  · rw [modifyChildren, get?_modify_append hk hm]
    rw [get?_append] at hm
    obtain ⟨n, hn, hm⟩ := Option.bind_eq_some_iff.mp hm
    rw [hn, Option.map_some, Option.bind_some, Option.bind_some]
    by_cases hr : r = []
    · subst hr
      exact identity?_congr (by rw [modify_nil, kind_withChildren]) (by rw [modify_nil, attributes_withChildren])
    · exact identity?_modify hk (by rw [kind_withChildren]; exact hk) hr hm
  · rw [hsame]

theorem kind_detached (htree : ∃ source, tree.kind = .document source) :
    (tree.modifyChildren (detach · i) p).kind = tree.kind :=
  (grows_detach (not_markup_of_document htree) (by rw [isMarkupPlace, hm]; exact hk) i).kind

/-- What was taken out is what is missing in a count over the tree. -/
theorem tally_detached (htree : ∃ source, tree.kind = .document source) (g : List Entry → Nat) :
    tally g (tree.modifyChildren (detach · i) p).under +
      total g ((m.children.drop (detachRange m.children i).1).take (detachRange m.children i).2) =
        tally g tree.under := by
  have hlist := total_detachRange g m.children i
  have hnode := total_withChildren g (detach m.children i) m
  have hchange := total_modify g (f := fun m => m.withChildren (detach m.children i)) hk
    (by rw [kind_withChildren]; exact hk) hm
  have helement := not_element_of_document htree
  rw [total_under g helement, total_under g (by rw [kind_detached hm hk htree]; exact helement), modifyChildren]
  omega

/-- A place that a removal does away with had its element among what was taken out. -/
theorem tally_of_lost (htree : Orderly tree) {id : String} {q : Path} (hq : LeadsTo tree id q)
    (h : Path.afterRemoval p (detachRange m.children i).1 (detachRange m.children i).2 q = none) :
    tally (carries id) (tree.modifyChildren (detach · i) p).under = 0 := by
  obtain ⟨c, hc, hid⟩ := hq.get?
  rw [Path.afterRemoval] at h
  split at h
  · next hp =>
    obtain ⟨r, rfl⟩ := List.isPrefixOf_iff_prefix.mp hp
    rw [List.drop_left] at h
    split at h
    · next k rest =>
      split at h
      · cases h
      · next hfirst =>
        split at h
        · next hlast =>
          rw [get?_append, hm, Option.bind_some] at hc
          obtain ⟨x, hx, hc⟩ := Option.bind_eq_some_iff.mp hc
          have hmem := mem_within (mem_detachRange hx (by omega) hlast)
            (mem_within_of_get? hc (markup_of_identity? hid))
          have hpos := tally_pos hmem hid
          have htotal := tally_detached hm hk htree.document (carries id) (i := i)
          have hone := htree.identities id
          rw [total] at htotal
          omega
        · cases h
    · cases h
  · cases h

/-- After a removal the moved place tracks its element as before. -/
theorem Tracks.detached (htree : Orderly tree) {id : String} {o : Option Path} (h : Tracks tree id o) :
    Tracks (tree.modifyChildren (detach · i) p) id
      (o.bind (Path.afterRemoval p (detachRange m.children i).1 (detachRange m.children i).2)) := by
  cases o with
  | none =>
    have htotal := tally_detached hm hk htree.document (carries id) (i := i)
    have hzero : tally (carries id) tree.under = 0 := h
    rw [Option.bind_none, Tracks]
    omega
  | some q =>
    have hq : LeadsTo tree id q := h
    rw [Option.bind_some]
    cases hmoved : Path.afterRemoval p (detachRange m.children i).1 (detachRange m.children i).2 q with
    | none => exact tally_of_lost hm hk htree hq hmoved
    | some q' =>
      have hchildren : childrenAt tree p = m.children := by rw [childrenAt, hm]; rfl
      refine leadsTo_iff.mpr ⟨inMarkup_afterRemoval hq.inMarkup (by rw [hchildren]; exact hmoved), ?_⟩
      rw [identity?_afterRemoval hm hk hmoved]
      exact (leadsTo_iff.mp hq).2

/-- To take out an element is to prune the document by its identity, and leaves the document in order. -/
theorem Orderly.detached (htree : Orderly tree) {c : Node} {id : String} (hc : m.children[i]? = some c)
    (hid : c.identity? = some id) : tree.modifyChildren (detach · i) p = tree.pruned (· == id) ∧
      Orderly (tree.modifyChildren (detach · i) p) ∧
      tally (carries id) (tree.modifyChildren (detach · i) p).under = 0 := by
  have hpruned := modifyChildren_detach_eq_pruned hm hk hc hid (htree.identities id)
  have hkind := kind_detached (i := i) hm hk htree.document
  refine ⟨hpruned, ⟨by rw [hkind]; exact htree.document, fun id => ?_, fun x hx => ?_, fun x hx => ?_⟩, ?_⟩
  · have htotal := tally_detached hm hk htree.document (carries id) (i := i)
    have hone := htree.identities id
    omega
  · rw [hpruned] at hx
    obtain ⟨y, hy, rfl⟩ := mem_under_pruned _ tree x hx
    rw [isForeign_pruned]
    exact htree.nodes y hy
  · rw [hpruned] at hx
    obtain ⟨y, hy, rfl⟩ := mem_under_pruned _ tree x hx
    exact (htree.aired y hy).pruned _
  · obtain ⟨hfirst, hlast⟩ := detachRange_spec m.children i
    have hmem := mem_detachRange hc hfirst hlast
    have hpos := tally_pos (mem_within hmem (by rw [within_singleton]; exact List.mem_cons_self)) hid
    have htotal := tally_detached hm hk htree.document (carries id) (i := i)
    have hone := htree.identities id
    rw [total] at htotal
    omega

end

/-! ## One removal after the other -/

theorem Orderly.aired_all {tree : Node} (h : Orderly tree) : ∀ m ∈ tree :: tree.under, m.Aired := by
  refine List.forall_mem_cons.mpr ⟨fun hk => ?_, h.aired⟩
  rw [not_markup_of_document h.document] at hk
  cases hk

/-- One step: whether the element is still there or has gone with another, the document is pruned by its identity, and
the places that are left keep track of their elements. -/
theorem detachAll_step {tree : Node} {moved : Path → Option Path} {q : Path} {id : String} (h : Orderly tree)
    (hq : Tracks tree id (moved q)) (qs : List Path) :
    ∃ moved', detachAll tree moved (q :: qs) = detachAll (tree.pruned (· == id)) moved' qs ∧
      Orderly (tree.pruned (· == id)) ∧ tally (carries id) (tree.pruned (· == id)).under = 0 ∧
      ∀ r id', Tracks tree id' (moved r) → Tracks (tree.pruned (· == id)) id' (moved' r) := by
  rw [detachAll]
  cases hmoved : moved q with
  | none =>
    rw [hmoved] at hq
    have hsame : tree.pruned (· == id) = tree := pruned_of_stays tree (stays_of_tally hq)
    rw [hsame]
    refine ⟨moved, ?_, h, hq, fun _ _ hr => hr⟩
    dsimp only
    rw [hasForeign_of_nodes tree h.nodes, if_neg Bool.false_ne_true]
  | some q' =>
    rw [hmoved] at hq
    obtain ⟨p, i, m, c, rfl, hm, hk, hc, hid⟩ := hq
    obtain ⟨hpruned, horderly, hzero⟩ := h.detached hm hk hc hid
    rw [← hpruned]
    refine ⟨_, ?_, horderly, hzero, fun r id' hr => hr.detached hm hk h (i := i)⟩
    dsimp only
    rw [List.getLast?_concat, List.dropLast_concat, hm]
    rfl

/-- Taking out elements with some identities one after the other is pruning the document by all of these, and no element
with one of them is left. The invariant is that every place that is left leads to its element or has gone with it. -/
theorem detachAll_eq_pruned {ps : List (Path × String)} {tree : Node} {moved : Path → Option Path}
    (h : Orderly tree) (hps : ∀ e ∈ ps, Tracks tree e.2 (moved e.1)) :
    detachAll tree moved (ps.map (·.1)) = (tree.pruned ((ps.map (·.2)).contains ·), .ok ()) ∧
      ∀ id ∈ ps.map (·.2), tally (carries id) (tree.pruned ((ps.map (·.2)).contains ·)).under = 0 := by
  induction ps generalizing tree moved with
  | nil =>
    have hsame : tree.pruned (fun id => ([] : List String).contains id) = tree := by
      refine pruned_of_stays tree fun m _ => ?_
      rw [goes]
      cases m.identity? <;> rfl
    exact ⟨by rw [List.map_nil, List.map_nil, hsame]; rfl, fun id hid => absurd hid List.not_mem_nil⟩
  | cons e ps ih =>
    obtain ⟨q, id⟩ := e
    obtain ⟨hq, hrest⟩ := List.forall_mem_cons.mp hps
    obtain ⟨moved', hstep, horderly, hzero, htracks⟩ := detachAll_step h hq (ps.map (·.1))
    obtain ⟨hrun, habsent⟩ := ih horderly fun e he => htracks e.1 e.2 (hrest e he)
    have hpruned : (tree.pruned (· == id)).pruned ((ps.map (·.2)).contains ·) =
        tree.pruned (((q, id) :: ps).map (·.2)).contains := pruned_pruned _ _ tree h.aired_all
    rw [hpruned] at hrun habsent
    refine ⟨hstep.trans hrun, fun id' hid' => ?_⟩
    rcases List.mem_cons.mp hid' with rfl | hid'
    · rw [← hpruned]
      exact absent_pruned hzero _
    · exact habsent id' hid'

/-! ## What the identities lead to -/

/-- The identity leads to the visit of an element inside markup. -/
def Sought (tree : Node) (id : String) (v : Visit) : Prop :=
  tree.findId id = .ok (some v) ∧ isMarkupPlace tree v.parent = true

theorem Sought.leadsTo {tree : Node} {id : String} {v : Visit} (h : Sought tree id v) : LeadsTo tree id v.path := by
  have hv := findId_some h.1
  obtain ⟨m, left, right, hm, hk, hc, hi⟩ := hv.siblings_split h.2
  exact ⟨v.parent, v.index, m, v.node, rfl, hm, hk, by rw [hc, ← hi]; simp, hv.identity?_eq⟩

/-- An element is found by one identity, and at one place. -/
theorem Sought.eq_of_path {tree : Node} {id id' : String} {v w : Visit} (hv : Sought tree id v) (hw : Sought tree id' w)
    (h : v.path = w.path) : id = id' := by
  obtain ⟨c, hc, hid⟩ := hv.leadsTo.get?
  obtain ⟨c', hc', hid'⟩ := hw.leadsTo.get?
  rw [h, hc'] at hc
  cases hc
  rw [hid'] at hid
  exact (Option.some.inj hid).symm

/-- Without errors, the visits are those that the identities lead to, each once. -/
structure Reaches (tree : Node) (ids : List String) (vs : List Visit) : Prop where
  found : ∀ id ∈ ids, ∃ v ∈ vs, Sought tree id v
  sought : ∀ v ∈ vs, ∃ id ∈ ids, Sought tree id v
  once : (vs.map (·.path)).Nodup

theorem reaches_of_targets {tree : Node} {ids : List String} {t : Targets} (h : targets tree ids = .ok t)
    (hnone : t.errors = []) : Reaches tree ids t.visits := by
  induction ids generalizing t with
  | nil =>
    cases h
    exact ⟨List.forall_mem_nil _, List.forall_mem_nil _, List.nodup_nil⟩
  | cons id ids ih =>
    rw [targets] at h
    obtain ⟨found, hfound, h⟩ := bind_eq_ok h
    obtain ⟨rest, hrest, h⟩ := bind_eq_ok h
    cases found with
    | none =>
      cases h
      cases hnone
    | some v =>
      dsimp only at h
      split at h
      · cases h
        cases hnone
      · next hplace =>
        cases h
        rw [Bool.not_eq_true, Bool.not_eq_false'] at hplace
        have hv : Sought tree id v := ⟨hfound, hplace⟩
        obtain ⟨hids, hvs, honce⟩ := ih hrest hnone
        refine ⟨?_, ?_, ?_⟩
        · refine List.forall_mem_cons.mpr ⟨⟨v, List.mem_cons_self, hv⟩, fun id' hid' => ?_⟩
          obtain ⟨w, hw, hsought⟩ := hids id' hid'
          by_cases hpath : w.path = v.path
          · obtain rfl := hsought.eq_of_path hv hpath
            exact ⟨v, List.mem_cons_self, hv⟩
          · exact ⟨w, List.mem_cons_of_mem v (List.mem_filter.mpr ⟨hw, bne_iff_ne.mpr hpath⟩), hsought⟩
        · refine List.forall_mem_cons.mpr ⟨⟨id, List.mem_cons_self, hv⟩, fun w hw => ?_⟩
          obtain ⟨id', hid', hsought⟩ := hvs w (List.mem_filter.mp hw).1
          exact ⟨id', List.mem_cons_of_mem id hid', hsought⟩
        · rw [List.map_cons, List.nodup_cons]
          refine ⟨fun hmem => ?_, honce.sublist (List.filter_sublist.map _)⟩
          obtain ⟨w, hw, hpath⟩ := List.mem_map.mp hmem
          exact bne_iff_ne.mp (List.mem_filter.mp hw).2 hpath

theorem targets_of_sought {tree : Node} {ids : List String} (h : ∀ id ∈ ids, ∃ v, Sought tree id v) :
    ∃ t, targets tree ids = .ok t ∧ t.errors = [] := by
  induction ids with
  | nil => exact ⟨_, rfl, rfl⟩
  | cons id ids ih =>
    obtain ⟨⟨v, hfound, hplace⟩, hids⟩ := List.forall_mem_cons.mp h
    obtain ⟨t, ht, hnone⟩ := ih hids
    refine ⟨{ t with visits := v :: t.visits.filter fun w => w.path != v.path }, ?_, hnone⟩
    rw [targets, hfound, ht]
    dsimp only [bind, Except.bind, pure, Except.pure]
    rw [hplace]
    rfl

namespace Reaches

variable {tree : Node} {ids : List String} {vs : List Visit} (h : Reaches tree ids vs)
include h

theorem mem_identities {id : String} : some id ∈ vs.map (·.node.identity?) ↔ id ∈ ids := by
  rw [List.mem_map]
  constructor
  · rintro ⟨v, hv, hid⟩
    obtain ⟨id', hid', hsought⟩ := h.sought v hv
    rw [(findId_some hsought.1).identity?_eq] at hid
    obtain rfl := Option.some.inj hid
    exact hid'
  · intro hid
    obtain ⟨v, hv, hsought⟩ := h.found id hid
    exact ⟨v, hv, (findId_some hsought.1).identity?_eq⟩

/-- There are as many visits as different identities. -/
theorem length_eq : vs.length = ids.dedup.length := by
  have hnodup : (vs.map (·.node.identity?)).Nodup := by
    refine List.Nodup.map_on (fun v hv w hw hsame => ?_) h.once.of_map
    obtain ⟨id, -, hv⟩ := h.sought v hv
    obtain ⟨id', -, hw⟩ := h.sought w hw
    rw [(findId_some hv.1).identity?_eq, (findId_some hw.1).identity?_eq] at hsame
    obtain rfl := Option.some.inj hsame
    exact Option.some.inj (Except.ok.inj (hv.1.symm.trans hw.1))
  have hperm : (vs.map (·.node.identity?)).Perm (ids.dedup.map some) := by
    refine (List.perm_ext_iff_of_nodup hnodup ((List.nodup_dedup ids).map fun _ _ => Option.some.inj)).mpr fun o => ?_
    cases o with
    | none =>
      refine iff_of_false (fun hmem => ?_) (by simp)
      obtain ⟨v, hv, hid⟩ := List.mem_map.mp hmem
      obtain ⟨id, -, hsought⟩ := h.sought v hv
      rw [(findId_some hsought.1).identity?_eq] at hid
      cases hid
    | some id => rw [h.mem_identities]; simp
  have hlength := hperm.length_eq
  rwa [List.length_map, List.length_map] at hlength

end Reaches

/-! ## The whole removal -/

/-- The identity of a visited element. -/
def identityOf (v : Visit) : String := v.node.identity?.getD ""

theorem Sought.identityOf {tree : Node} {id : String} {v : Visit} (h : Sought tree id v) : identityOf v = id := by
  rw [Edit.identityOf, (findId_some h.1).identity?_eq]
  rfl

/-- The places of the visits, with their identities, in the order in which the elements are taken out. -/
def schedule (vs : List Visit) : List (Path × String) := vs.reverse.map fun v => (v.path, identityOf v)

theorem places_schedule (vs : List Visit) : (schedule vs).map (·.1) = (vs.map (·.path)).reverse := by
  rw [schedule, List.map_map, ← List.map_reverse]
  rfl

theorem Reaches.mem_schedule {tree : Node} {ids : List String} {vs : List Visit} (h : Reaches tree ids vs)
    (id : String) : id ∈ (schedule vs).map (·.2) ↔ id ∈ ids := by
  simp only [schedule, List.map_map, List.mem_map, List.mem_reverse, Function.comp_apply]
  constructor
  · rintro ⟨v, hv, rfl⟩
    obtain ⟨id, hid, hsought⟩ := h.sought v hv
    rwa [hsought.identityOf]
  · intro hid
    obtain ⟨v, hv, hsought⟩ := h.found id hid
    exact ⟨v, hv, hsought.identityOf⟩

/-- A removal of several elements that can all be removed prunes the document by their identities. -/
theorem removeAll_eq {tree : Node} {ids : List String} (h : Orderly tree) (hids : ∀ id ∈ ids, ∃ v, Sought tree id v) :
    removeAll tree ids = .succeeded (tree.pruned (ids.contains ·))
      ("Removed " ++ intText ids.dedup.length ++ " elements")
      [("removed_count", .int ids.dedup.length), ("errors", .list [])] ∧
      ∀ id ∈ ids, tally (carries id) (tree.pruned (ids.contains ·)).under = 0 := by
  obtain ⟨t, ht, hnone⟩ := targets_of_sought hids
  have hreaches := reaches_of_targets ht hnone
  have htracks : ∀ e ∈ schedule t.visits, Tracks tree e.2 (some e.1) := by
    intro e he
    obtain ⟨v, hv, rfl⟩ := List.mem_map.mp he
    obtain ⟨id, -, hsought⟩ := hreaches.sought v (List.mem_reverse.mp hv)
    rw [hsought.identityOf]
    exact hsought.leadsTo
  have hgone : (fun id => ((schedule t.visits).map (·.2)).contains id) = (ids.contains ·) := by
    funext id
    rw [Bool.eq_iff_iff, List.contains_iff_mem, List.contains_iff_mem, hreaches.mem_schedule]
  obtain ⟨hrun, habsent⟩ := detachAll_eq_pruned h htracks
  rw [places_schedule, hgone] at hrun
  rw [hgone] at habsent
  refine ⟨?_, fun id hid => habsent id ((hreaches.mem_schedule id).mpr hid)⟩
  rw [removeAll, ht]
  dsimp only
  rw [hnone, hrun, hreaches.length_eq]
  rfl

/-- A removal that succeeds has found every element, inside markup. -/
theorem sought_of_succeeds {tree : Node} {ids : List String} (h : (removeAll tree ids).Succeeds) :
    ∀ id ∈ ids, ∃ v, Sought tree id v := by
  unfold removeAll at h
  split at h
  · exact absurd h (Reply.not_succeeds_fault _ _)
  · next t ht =>
    split at h
    · next hnone =>
      intro id hid
      obtain ⟨v, -, hv⟩ := (reaches_of_targets ht (List.isEmpty_iff.mp hnone)).found id hid
      exact ⟨v, hv⟩
    · exact absurd h (Reply.not_succeeds_failed _ _ _ _)

/-- A document that was just read is in order if its identities are unique. -/
theorem orderly_parse {text : String} {tree : Node} (h : Source.parse text = .ok tree)
    (hunique : tree.UniqueIdentities) : Orderly tree := by
  refine ⟨Source.document_of_parse h, fun id => ?_, foreign_of_mem_under tree (Source.flawless_parse h), fun m hm hk =>
    (Source.textsApart_parse h hm hk).spaced⟩
  rw [← count_identities, ← descendants_eq_under]
  exact List.nodup_iff_count_le_one.mp hunique id

/-- In a document that was just read and has no identity twice, a successful removal of several elements prunes the
lists of children of elements and fragments: they keep what does not go, without the white space directly before what
goes. The order of the identities does not count, nor that some are given twice. Afterwards none of them is found, and
as many elements are reported as there are different identities. -/
theorem removals_prune {text : String} {tree : Node} {ids : List String} (h : Source.parse text = .ok tree)
    (hunique : tree.UniqueIdentities) (hs : (removeAll tree ids).Succeeds) :
    (removeAll tree ids).tree = tree.pruned (ids.contains ·) ∧
    (∀ m ∈ (removeAll tree ids).tree.under, m.kind.isMarkup = true → ∃ m' ∈ tree.under, m = m'.pruned (ids.contains ·) ∧
      m.children = (kept (ids.contains ·) m'.children).map (pruned (ids.contains ·))) ∧
    (∀ ids', (∀ id, id ∈ ids' ↔ id ∈ ids) → removeAll tree ids' = removeAll tree ids) ∧
    (∀ id ∈ ids, ∀ v, (removeAll tree ids).tree.findId id ≠ .ok (some v)) ∧
    ((∀ m ∈ tree.under, m.Legible) → ∀ id ∈ ids, (removeAll tree ids).tree.findId id = .ok none) ∧
    ∃ message, (removeAll tree ids).result =
      .ok ⟨none, message, [("removed_count", .int ids.dedup.length), ("errors", .list [])]⟩ := by
  have horderly := orderly_parse h hunique
  have hsought := sought_of_succeeds hs
  obtain ⟨heq, habsent⟩ := removeAll_eq horderly hsought
  have hnone : ∀ id ∈ ids, ∀ m ∈ (tree.pruned (ids.contains ·)).under, m.identity? ≠ some id := fun id hid =>
    tally_carries_zero.mp (habsent id hid)
  rw [heq]
  refine ⟨rfl, fun m hm hk => ?_, fun ids' hsame => ?_, fun id hid => not_found_of_absent (hnone id hid),
    fun hlegible id hid => ?_, _, rfl⟩
  · obtain ⟨m', hm', rfl⟩ := mem_under_pruned _ tree m hm
    rw [kind_pruned] at hk
    exact ⟨m', hm', rfl, children_pruned hk _⟩
  · obtain ⟨heq', -⟩ := removeAll_eq horderly fun id hid => hsought id ((hsame id).mp hid)
    have hcontains : (ids'.contains ·) = (ids.contains ·) := by
      funext id
      rw [Bool.eq_iff_iff, List.contains_iff_mem, List.contains_iff_mem, hsame]
    have hlength : ids'.dedup.length = ids.dedup.length := by
      refine (List.perm_ext_iff_of_nodup (List.nodup_dedup _) (List.nodup_dedup _)).mpr (fun id => ?_) |>.length_eq
      rw [List.mem_dedup, List.mem_dedup, hsame]
    rw [heq', hcontains, hlength]
  · refine findId_absent (fun m hm => ?_) (hnone id hid)
    obtain ⟨m', hm', rfl⟩ := mem_under_pruned _ tree m hm
    exact (hlegible m' hm').pruned _

/-- A paragraph with two elements, each with a blank before it, and a text. -/
def twoParts : String := "x = <p> <b data-editable='a'/> <i data-editable='b'/>t</p>;"

theorem two_parts_removed : ∃ tree, Source.parse twoParts = .ok tree ∧
    (removeAll tree ["b", "a"]).tree = tree.pruned (["b", "a"].contains ·) ∧
    (removeAll tree ["b", "a"]).tree.write = "x = <p>t</p>;" ∧
    removeAll tree ["a", "b", "a"] = removeAll tree ["b", "a"] ∧
    (∀ v, (removeAll tree ["b", "a"]).tree.findId "b" ≠ .ok (some v)) ∧
    ∃ message, (removeAll tree ["b", "a"]).result =
      .ok ⟨none, message, [("removed_count", .int 2), ("errors", .list [])]⟩ := by
  obtain ⟨tree, htree⟩ := Source.exists_of_parse (by decide +kernel : (Source.parse twoParts).toBool = true)
  have hrun : (Source.parse twoParts).toOption.map (fun tree => (decide tree.UniqueIdentities,
      decide (removeAll tree ["b", "a"]).Succeeds, (removeAll tree ["b", "a"]).tree.write)) =
      some (true, true, "x = <p>t</p>;") := by
    decide +kernel
  rw [htree] at hrun
  obtain ⟨hunique, hrest⟩ := Prod.ext_iff.mp (Option.some.inj hrun)
  obtain ⟨hs, hwrite⟩ := Prod.ext_iff.mp hrest
  obtain ⟨hpruned, -, hsame, hgone, -, hresult⟩ :=
    removals_prune htree (of_decide_eq_true hunique) (of_decide_eq_true hs)
  have hcount : ["b", "a"].dedup.length = 2 := by decide +kernel
  rw [hcount] at hresult
  exact ⟨tree, htree, hpruned, hwrite, hsame _ (by simp), hgone "b" List.mem_cons_self, hresult⟩

end Edit
end JsxEdit
