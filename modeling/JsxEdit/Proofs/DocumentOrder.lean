import JsxEdit.Proofs.Command
import JsxEdit.Proofs.Lookup
import JsxEdit.Proofs.Made
import Mathlib.Data.List.Lex

/-
The order in which a search meets the nodes of a tree.

A place comes before all below it, attributes come before children, and children come in the order of their indices:
that is the lexicographic order of paths. A search finds a node if it can look at all that comes before, and none of
that is what it looks for. So where a tree is changed at one place, whether an element is found again is a question about
what now comes before it.
-/
set_option autoImplicit false

namespace JsxEdit

/-- Where a step leads among the lists of a node: its attributes come before its children. -/
def Step.rank : Step → Nat
  | .attributes => 0
  | .child i => i + 1

theorem Step.rank_injective : Function.Injective Step.rank := by
  intro a b h
  cases a <;> cases b <;> simp_all [Step.rank]

namespace Path

/-- The first place comes before the second in document order. -/
def Precedes (p q : Path) : Prop := p.map Step.rank < q.map Step.rank

theorem Precedes.irrefl (p : Path) : ¬Precedes p p := lt_irrefl (p.map Step.rank)

theorem Precedes.asymm {p q : Path} (h : Precedes p q) : ¬Precedes q p := lt_asymm h

theorem Precedes.trans {p q r : Path} (h : Precedes p q) (h' : Precedes q r) : Precedes p r := lt_trans h h'

theorem precedes_total {p q : Path} (h : p ≠ q) : Precedes p q ∨ Precedes q p :=
  lt_or_gt_of_ne fun heq => h (List.map_injective_iff.mpr Step.rank_injective heq)

theorem precedes_append_left (r : Path) {p q : Path} : Precedes (r ++ p) (r ++ q) ↔ Precedes p q := by
  induction r with
  | nil => rfl
  | cons step r ih =>
    rw [← ih, Precedes, Precedes, List.cons_append, List.cons_append, List.map_cons, List.map_cons,
      List.cons_lt_cons_self]

/-- A place comes before all that is below it. -/
theorem precedes_below (p : Path) {q : Path} (h : q ≠ []) : Precedes p (p ++ q) := by
  have := precedes_append_left p (p := []) (q := q)
  rw [List.append_nil] at this
  rw [this]
  cases q with
  | nil => exact absurd rfl h
  | cons step q => exact List.nil_lt_cons _ _

theorem not_precedes_of_isPrefix {p u : Path} (h : p <+: u) : ¬Precedes u p := by
  obtain ⟨q, rfl⟩ := h
  cases q with
  | nil =>
    rw [List.append_nil]
    exact Precedes.irrefl p
  | cons step q => exact (precedes_below p (List.cons_ne_nil step q)).asymm

/-- What is at a step or below comes before what is at a later step or below. -/
theorem precedes_of_rank {a b : Step} (h : a.rank < b.rank) (r p q : Path) :
    Precedes (r ++ a :: p) (r ++ b :: q) :=
  (precedes_append_left r).mpr (List.cons_lt_cons_iff.mpr (.inl h))

/-- A child comes after the children before it, with all that is below them, and after no others. -/
theorem precedes_child_iff {r q : Path} {i j : Nat} : Precedes (r ++ .child i :: q) (r ++ [Step.child j]) ↔ i < j := by
  rw [precedes_append_left, Precedes, List.map_cons, List.map_cons, List.map_nil, List.cons_lt_cons_iff]
  simp [Step.rank]

/-- A place that is not below another comes before all that is below that, or before nothing of it. -/
theorem precedes_append_of_not_isPrefix {p u : Path} (h : ¬p <+: u) (r : Path) :
    Precedes u (p ++ r) ↔ Precedes u p := by
  induction p generalizing u with
  | nil => exact absurd List.nil_prefix h
  | cons step p ih =>
    cases u with
    | nil => exact iff_of_true (List.nil_lt_cons _ _) (List.nil_lt_cons _ _)
    | cons step' u =>
      rw [List.cons_prefix_cons] at h
      rw [Precedes, Precedes, List.cons_append, List.map_cons, List.map_cons, List.map_cons, List.cons_lt_cons_iff,
        List.cons_lt_cons_iff]
      by_cases hstep : step = step'
      · subst hstep
        have := ih fun hp => h ⟨rfl, hp⟩
        rw [Precedes, Precedes] at this
        rw [this]
      · have hne : step'.rank ≠ step.rank := fun heq => hstep (Step.rank_injective heq).symm
        simp [hne]

/-- What is below a place comes before all that the place comes before, unless that is below it too. -/
theorem Precedes.append_of_not_isPrefix {p r : Path} (h : Precedes p r) (hne : ¬p <+: r) (q : Path) :
    Precedes (p ++ q) r := by
  refine (precedes_total ?_).resolve_right fun hr => h.asymm ((precedes_append_of_not_isPrefix hne q).mp hr)
  rintro rfl
  exact hne (List.prefix_append p q)

/-- A place that is not at a child or below one comes before all children or before none. -/
theorem precedes_child_congr {p u : Path} (h : ∀ k q, u ≠ p ++ .child k :: q) (i j : Nat) :
    Precedes u (p ++ [Step.child i]) ↔ Precedes u (p ++ [Step.child j]) := by
  by_cases hpre : p <+: u
  · obtain ⟨t, rfl⟩ := hpre
    rw [precedes_append_left, precedes_append_left]
    cases t with
    | nil => exact iff_of_true (List.nil_lt_cons _ _) (List.nil_lt_cons _ _)
    | cons step t =>
      cases step with
      | child k => exact absurd rfl (h k t)
      | attributes =>
        exact iff_of_true (List.cons_lt_cons_iff.mpr (.inl (Nat.succ_pos i)))
          (List.cons_lt_cons_iff.mpr (.inl (Nat.succ_pos j)))
  · rw [precedes_append_of_not_isPrefix hpre, precedes_append_of_not_isPrefix hpre]

end Path

namespace Node
open Path

/-! ## Visits in order -/

mutual

theorem visitsAt_ordered (path : Path) : (n : Node) → (n.visitsAt path).Pairwise fun v w => Precedes v.path w.path
  | .mk k i as cs => by
    rw [visitsAt, List.pairwise_append]
    refine ⟨visitsIn_ordered _ 0 as, visitsIn_ordered _ 0 cs, fun v hv w hw => ?_⟩
    obtain ⟨j, c, q, -, hq, -⟩ := path_of_visitsIn hv
    obtain ⟨j', c', q', -, hq', -⟩ := path_of_visitsIn hw
    rw [hq, hq', List.append_assoc]
    exact precedes_of_rank (a := .attributes) (b := .child j') (Nat.succ_pos j') path _ q'

theorem visitsIn_ordered (path : Path) (index : Nat) :
    (ns : List Node) → (visitsIn path index ns).Pairwise fun v w => Precedes v.path w.path
  | [] => List.Pairwise.nil
  | n :: ns => by
    have hhere : ∀ v ∈ (⟨path, index, n⟩ : Visit) :: n.visitsAt (path ++ [Step.child index]),
        ∃ q, v.path = path ++ .child index :: q := by
      intro v hv
      rcases List.mem_cons.mp hv with rfl | hv
      · exact ⟨[], rfl⟩
      · obtain ⟨q, hq⟩ := prefix_of_visitsAt hv
        exact ⟨q, by rw [← hq, List.append_assoc]; rfl⟩
    rw [visitsIn, List.pairwise_append, List.pairwise_cons]
    refine ⟨⟨fun v hv => ?_, visitsAt_ordered _ n⟩, visitsIn_ordered path (index + 1) ns, fun v hv w hw => ?_⟩
    · obtain ⟨q, hq, hfound⟩ := visitsAt_found _ n v hv
      rw [Visit.path, Visit.path, hq, List.append_assoc]
      exact precedes_below _ (by simp)
    · obtain ⟨q, hq⟩ := hhere v hv
      obtain ⟨j, c, -, hw⟩ := mem_visitsIn hw
      have hafter : ∃ q', w.path = path ++ .child (index + 1 + j) :: q' := by
        rcases hw with rfl | hw
        · exact ⟨[], rfl⟩
        · obtain ⟨q', hq'⟩ := prefix_of_visitsAt hw
          exact ⟨q', by rw [← hq', List.append_assoc]; rfl⟩
      obtain ⟨q', hq'⟩ := hafter
      rw [hq, hq']
      exact precedes_of_rank (by simp only [Step.rank]; omega) path q q'

end

/-- Two visits to one place are the same. -/
theorem visit_of_path {n : Node} {v w : Visit} (hv : v ∈ n.visits) (hw : w ∈ n.visits) (h : v.path = w.path) :
    v = w := by
  obtain ⟨before, after, hsplit⟩ := List.append_of_mem hv
  have hordered := visitsAt_ordered [] n
  rw [visits] at hsplit hw
  rw [hsplit] at hordered hw
  obtain ⟨-, hafter, hbefore⟩ := List.pairwise_append.mp hordered
  rcases List.mem_append.mp hw with hw | hw
  · exact absurd (h ▸ hbefore w hw v List.mem_cons_self) (Precedes.irrefl _)
  · rcases List.mem_cons.mp hw with rfl | hw
    · rfl
    · exact absurd (h ▸ (List.pairwise_cons.mp hafter).1 w hw) (Precedes.irrefl _)

/-! ## Searches -/

theorem firstVisit_eq_some {p : Visit → Except Fault Bool} {vs : List Visit} {v : Visit} :
    firstVisit p vs = .ok (some v) ↔
      ∃ before after, vs = before ++ v :: after ∧ p v = .ok true ∧
        ∀ u ∈ before, p u = .ok false ∧ u.node.isForeign = false := by
  induction vs with
  | nil =>
    refine iff_of_false (by rw [firstVisit]; exact fun h => Option.some_ne_none v (Except.ok.inj h).symm) ?_
    rintro ⟨before, after, h, -⟩
    simp at h
  | cons w vs ih =>
    rw [firstVisit]
    constructor
    · intro h
      obtain ⟨b, hb, h⟩ := bind_eq_ok h
      cases b with
      | true =>
        cases h
        exact ⟨[], vs, rfl, hb, List.forall_mem_nil _⟩
      | false =>
        rw [if_neg Bool.false_ne_true] at h
        cases hw : w.node.isForeign with
        | true =>
          rw [hw] at h
          cases h
        | false =>
          rw [hw] at h
          obtain ⟨before, after, rfl, hv, hbefore⟩ := ih.mp h
          exact ⟨w :: before, after, rfl, hv, List.forall_mem_cons.mpr ⟨⟨hb, hw⟩, hbefore⟩⟩
    · rintro ⟨before, after, hsplit, hv, hbefore⟩
      cases before with
      | nil =>
        obtain ⟨rfl, -⟩ := List.cons.inj hsplit
        rw [hv]
        rfl
      | cons u before =>
        obtain ⟨rfl, rfl⟩ := List.cons.inj hsplit
        obtain ⟨⟨hu, hnode⟩, hbefore⟩ := List.forall_mem_cons.mp hbefore
        rw [hu, hnode]
        exact ih.mpr ⟨before, after, rfl, hv, hbefore⟩


/-- A search by an identity asks every node it meets for it. -/
theorem findId_eq (tree : Node) (id : String) :
    tree.findId id = firstVisit (fun v => v.node.elementIdentity.map (· == some id)) tree.visits := by
  rw [findId, findIdentity, find]
  congr 1
  funext v
  rw [elementIdentity]
  split
  · cases v.node.identity <;> rfl
  · rfl

theorem passes_iff {n : Node} {id : String} :
    n.elementIdentity.map (· == some id) = .ok false ∧ n.isForeign = false ↔ n.Legible ∧ n.identity? ≠ some id := by
  rw [Edit.identity?_eq]
  constructor
  · rintro ⟨hid, hnode⟩
    cases hfound : n.elementIdentity with
    | error f =>
      rw [hfound] at hid
      cases hid
    | ok found =>
      rw [hfound] at hid
      exact ⟨⟨hnode, found, hfound⟩, fun heq => by simp_all [Except.map, Except.toOption]⟩
  · rintro ⟨⟨hnode, found, hfound⟩, hne⟩
    rw [hfound] at hne ⊢
    exact ⟨congrArg Except.ok (beq_eq_false_iff_ne.mpr hne), hnode⟩

theorem hits_iff {n : Node} {id : String} :
    n.elementIdentity.map (· == some id) = .ok true ↔ n.elementIdentity = .ok (some id) := by
  cases n.elementIdentity with
  | error f => exact iff_of_false (fun h => nomatch h) (fun h => nomatch h)
  | ok found => simp [Except.map]

/-- An element is found if it has the identity and every node before it in document order can be looked at and has
another. -/
theorem findId_eq_some {tree : Node} {id : String} {v : Visit} : tree.findId id = .ok (some v) ↔
    v ∈ tree.visits ∧ v.node.elementIdentity = .ok (some id) ∧
      ∀ u ∈ tree.visits, Precedes u.path v.path → u.node.Legible ∧ u.node.identity? ≠ some id := by
  have hordered : tree.visits.Pairwise _ := visitsAt_ordered [] tree
  rw [findId_eq, firstVisit_eq_some]
  constructor
  · rintro ⟨before, after, hsplit, hv, hbefore⟩
    rw [hsplit] at hordered ⊢
    obtain ⟨-, hrest, -⟩ := List.pairwise_append.mp hordered
    refine ⟨by simp, hits_iff.mp hv, fun u hu hprec => passes_iff.mp ?_⟩
    rcases List.mem_append.mp hu with hu | hu
    · exact hbefore u hu
    · rcases List.mem_cons.mp hu with rfl | hu
      · exact absurd hprec (Precedes.irrefl _)
      · exact absurd hprec ((List.pairwise_cons.mp hrest).1 u hu).asymm
  · rintro ⟨hv, hid, hbefore⟩
    obtain ⟨before, after, hsplit⟩ := List.append_of_mem hv
    refine ⟨before, after, hsplit, hits_iff.mpr hid, fun u hu => passes_iff.mpr ?_⟩
    rw [hsplit] at hordered hbefore
    exact hbefore u (List.mem_append_left _ hu)
      ((List.pairwise_append.mp hordered).2.2 u hu v List.mem_cons_self)

/-- If one element alone has the identity, and the search for it cannot look at a node before it, the search fails. -/
theorem findId_error {tree : Node} {id : String} {v u : Visit} (hv : v ∈ tree.visits)
    (hid : v.node.elementIdentity = .ok (some id)) (hone : ∀ w ∈ tree.visits, w.node.identity? = some id → w = v)
    (hu : u ∈ tree.visits) (hprec : Precedes u.path v.path) (hbad : ¬u.node.Legible) :
    ∃ f, tree.findId id = .error f := by
  cases hfind : tree.findId id with
  | error f => exact ⟨f, rfl⟩
  | ok found =>
    cases found with
    | none => exact absurd hid (Edit.findId_none hfind v.node (node_mem_under hv))
    | some w =>
      obtain rfl := hone w (Edit.findId_some hfind).mem (Edit.findId_some hfind).identity?_eq
      exact absurd ((findId_eq_some.mp hfind).2.2 u hu hprec).1 hbad

/-! ## Visits to a changed tree -/

/-- Two nodes that a search by an identity treats in the same way. -/
structure Alike (a b : Node) : Prop where
  node : a.isForeign = b.isForeign
  identity : a.elementIdentity = b.elementIdentity

namespace Alike

variable {a b : Node} (h : Alike a b)

theorem refl (a : Node) : Alike a a := ⟨rfl, rfl⟩

include h

theorem trans {c : Node} (h' : Alike b c) : Alike a c := ⟨h.node.trans h'.node, h.identity.trans h'.identity⟩

theorem legible (ha : a.Legible) : b.Legible := ⟨h.node ▸ ha.node, h.identity ▸ ha.identity⟩

theorem identity?_eq : a.identity? = b.identity? := by rw [Edit.identity?_eq, Edit.identity?_eq, h.identity]

end Alike

/-- A visit to a list with one node changed is to that, to what is below it, or to what was there before. -/
theorem mem_visitsIn_modify {f : Node → Node} {path : Path} {ns : List Node} {i : Nat} {c : Node} (hc : ns[i]? = some c)
    {v : Visit} (hv : v ∈ visitsIn path 0 (ns.modify i f)) :
    v = ⟨path, i, f c⟩ ∨ v ∈ (f c).visitsAt (path ++ [Step.child i]) ∨
      v ∈ visitsIn path 0 ns ∧ ∃ j q, j ≠ i ∧ v.path = path ++ .child j :: q := by
  obtain ⟨j, d, hd, hcase⟩ := mem_visitsIn hv
  rw [Nat.zero_add] at hcase
  rw [List.getElem?_modify] at hd
  by_cases hij : i = j
  · subst hij
    have hd : f c = d := by simpa [hc] using hd
    subst hd
    exact hcase.imp_right .inl
  · have hd : ns[j]? = some d := by simpa [hij] using hd
    obtain ⟨hhere, hbelow⟩ := mem_visitsIn_of_getElem? path 0 hd
    rw [Nat.zero_add] at hhere hbelow
    rcases hcase with rfl | hv
    · exact .inr (.inr ⟨hhere, j, [], Ne.symm hij, rfl⟩)
    · obtain ⟨q, hq⟩ := prefix_of_visitsAt hv
      exact .inr (.inr ⟨hbelow v hv, j, q, Ne.symm hij, by rw [← hq, List.append_assoc]; rfl⟩)

section

variable {f : Node → Node} {m : Node} (hm : m.kind.isMarkup = true) (hf : (f m).kind.isMarkup = true)
include hm hf

theorem alike_modify {p : Path} {n : Node} (hp : p ≠ []) (h : n.get? p = some m) : Alike n (n.modify f p) where
  node := by rw [isForeign, isForeign, kind_modify f hp]
  identity := elementIdentity_congr (by rw [kind_modify f hp]) (entries_attributes_modify hm hf hp h).symm

/-- A visit to a changed tree is to the changed node, to what is below that, or to a node that was visited before and is
not at the place of the change or below it. -/
theorem mem_visitsAt_modify {p : Path} {n : Node} (path : Path) (h : n.get? p = some m) {v : Visit}
    (hv : v ∈ (n.modify f p).visitsAt path) :
    v.path = path ++ p ∧ v.node = f m ∨ v ∈ (f m).visitsAt (path ++ p) ∨
      ∃ u ∈ n.visitsAt path, u.path = v.path ∧ ¬path ++ p <+: u.path ∧ Alike u.node v.node := by
  induction p generalizing n path with
  | nil =>
    cases h
    exact .inr (.inl (by rwa [List.append_nil]))
  | cons step p ih =>
    have hstep : path ++ step :: p = path ++ [step] ++ p := by simp
    -- Nodes that are reached by another step stay as they are.
    have hother : ∀ {step' : Step} {q : Path}, v.path = path ++ step' :: q → step' ≠ step → v ∈ n.visitsAt path →
        ∃ u ∈ n.visitsAt path, u.path = v.path ∧ ¬path ++ step :: p <+: u.path ∧ Alike u.node v.node := by
      intro step' q hq hne hv
      refine ⟨v, hv, rfl, fun hpre => hne ?_, .refl _⟩
      rw [hq, List.prefix_append_right_inj, List.cons_prefix_cons] at hpre
      exact hpre.1.symm
    cases step with
    | child i =>
      obtain ⟨c, hc, h⟩ := Option.bind_eq_some_iff.mp h
      rw [modify_child] at hv
      rcases mem_visitsAt.mp hv with hv | hv
      · rw [attributes_withChildren] at hv
        obtain ⟨j, d, q, -, hq, -⟩ := path_of_visitsIn hv
        rw [List.append_assoc] at hq
        exact .inr (.inr (hother hq (by simp) (mem_visitsAt.mpr (.inl hv))))
      · rw [children_withChildren] at hv
        obtain ⟨hhere, hbelow⟩ := mem_visitsIn_of_getElem? path 0 hc
        rw [Nat.zero_add] at hhere hbelow
        rcases mem_visitsIn_modify hc hv with rfl | hv | ⟨hv, j, q, hj, hq⟩
        · by_cases hp : p = []
          · subst hp
            cases h
            exact .inl ⟨rfl, rfl⟩
          · refine .inr (.inr ⟨⟨path, i, c⟩, mem_visitsAt.mpr (.inr hhere), rfl, fun hpre => hp ?_,
              alike_modify hm hf hp h⟩)
            have := hpre.length_le
            simpa [Visit.path] using this
        · rw [hstep]
          rcases ih (path ++ [Step.child i]) h hv with hv | hv | ⟨u, hu, hrest⟩
          · exact .inl hv
          · exact .inr (.inl hv)
          · exact .inr (.inr ⟨u, mem_visitsAt.mpr (.inr (hbelow u hu)), hrest⟩)
        · exact .inr (.inr (hother hq (by simpa using hj) (mem_visitsAt.mpr (.inr hv))))
    | attributes =>
      rw [get?_attributes] at h
      split at h
      · next helement =>
        rw [modify_attributes, if_pos helement] at hv
        rcases mem_visitsAt.mp hv with hv | hv
        · rw [attributes_withAttributes] at hv
          rw [hstep]
          rcases ih (path ++ [Step.attributes]) h (mem_visitsAt.mpr (.inr hv)) with hv | hv | ⟨u, hu, hrest⟩
          · exact .inl hv
          · exact .inr (.inl hv)
          · refine .inr (.inr ⟨u, mem_visitsAt.mpr (.inl ?_), hrest⟩)
            rcases mem_visitsAt.mp hu with hu | hu
            · exact nomatch hu
            · exact hu
        · rw [children_withAttributes] at hv
          obtain ⟨j, d, q, -, hq, -⟩ := path_of_visitsIn hv
          exact .inr (.inr (hother hq (by simp) (mem_visitsAt.mpr (.inr hv))))
      · cases h

theorem mem_visits_modify {p : Path} {tree : Node} (h : tree.get? p = some m) {v : Visit}
    (hv : v ∈ (tree.modify f p).visits) :
    v.path = p ∧ v.node = f m ∨ v ∈ (f m).visitsAt p ∨
      ∃ u ∈ tree.visits, u.path = v.path ∧ ¬p <+: u.path ∧ Alike u.node v.node :=
  mem_visitsAt_modify hm hf [] h hv

end

/-- What is below the node at a place is visited. -/
theorem visitsAt_of_get? {p : Path} {n m : Node} (path : Path) (h : n.get? p = some m) {v : Visit}
    (hv : v ∈ m.visitsAt (path ++ p)) : v ∈ n.visitsAt path := by
  induction p generalizing n path with
  | nil =>
    cases h
    rwa [List.append_nil] at hv
  | cons step p ih =>
    have hstep : path ++ step :: p = path ++ [step] ++ p := by simp
    rw [hstep] at hv
    cases step with
    | child i =>
      obtain ⟨c, hc, h⟩ := Option.bind_eq_some_iff.mp h
      have hbelow := (mem_visitsIn_of_getElem? path 0 hc).2
      rw [Nat.zero_add] at hbelow
      exact mem_visitsAt.mpr (.inr (hbelow v (ih _ h hv)))
    | attributes =>
      rw [get?_attributes] at h
      split at h
      · rcases mem_visitsAt.mp (ih _ h hv) with hv | hv
        · exact nomatch hv
        · exact mem_visitsAt.mpr (.inl hv)
      · cases h

/-- The node that was put at a child's place is there. -/
theorem get?_set_child {q : Path} {i : Nat} {n m : Node} (h : n.get? (q ++ [Step.child i]) = some m) (x : Node) :
    (n.set (q ++ [Step.child i]) x).get? (q ++ [Step.child i]) = some x := by
  induction q generalizing n with
  | nil =>
    obtain ⟨c, hc, -⟩ := Option.bind_eq_some_iff.mp h
    rw [set, List.nil_append, modify_child, get?_child, children_withChildren, List.getElem?_modify_eq, hc]
    rfl
  | cons step q ih =>
    rw [set]
    cases step with
    | child j =>
      obtain ⟨c, hc, h⟩ := Option.bind_eq_some_iff.mp h
      rw [List.cons_append, modify_child, get?_child, children_withChildren, List.getElem?_modify_eq, hc]
      exact ih h
    | attributes =>
      rw [List.cons_append, get?_attributes] at h
      split at h
      · next helement =>
        rw [List.cons_append, modify_attributes, if_pos helement, get?_attributes, kind_withAttributes, if_pos helement,
          attributeList, attributes_withAttributes, ← modify_attributeList _ (by simp)]
        exact ih h
      · cases h

theorem visitsIn_append (path : Path) (index : Nat) (ns ms : List Node) :
    visitsIn path index (ns ++ ms) = visitsIn path index ns ++ visitsIn path (index + ns.length) ms := by
  induction ns generalizing index with
  | nil => rfl
  | cons n ns ih =>
    rw [List.cons_append, visitsIn, visitsIn, ih, List.append_assoc, List.length_cons, Nat.add_assoc,
      Nat.add_comm 1 ns.length]

/-- The node at the place of a visit is visited there. -/
theorem mem_visits_of_path {tree m : Node} {v : Visit} (h : tree.get? v.path = some m) :
    (⟨v.parent, v.index, m⟩ : Visit) ∈ tree.visits := by
  rw [Visit.path, get?_append] at h
  obtain ⟨k, hk, h⟩ := Option.bind_eq_some_iff.mp h
  obtain ⟨c, hc, h⟩ := Option.bind_eq_some_iff.mp h
  cases h
  exact mem_visits hk hc

section

variable {tree n : Node} {id : String} {v : Visit} (hv : tree.findId id = .ok (some v))
  (hget : tree.get? v.path = some v.node) (hn : n.kind.isElement = true)
include hv hget hn

/-- An element that was found is found again if another one with its identity is put in its place. -/
theorem findId_set_of_identity (hid : n.elementIdentity = v.node.elementIdentity) :
    (tree.set v.path n).findId id = .ok (some ⟨v.parent, v.index, n⟩) := by
  have hfound := Edit.findId_some hv
  obtain ⟨-, hvid, hbefore⟩ := findId_eq_some.mp hv
  refine findId_eq_some.mpr ⟨mem_visits_of_path (get?_set_child hget n), hid.trans hvid, fun u hu hprec => ?_⟩
  rcases mem_visits_modify hfound.markup (isMarkup_of_isElement hn) hget hu with
    ⟨hpath, -⟩ | hu | ⟨t, ht, hpath, -, halike⟩
  · exact absurd (hpath ▸ hprec) (Precedes.irrefl _)
  · exact absurd hprec (not_precedes_of_isPrefix (prefix_of_visitsAt hu))
  · obtain ⟨hlegible, hother⟩ := hbefore t ht (by rw [hpath]; exact hprec)
    exact ⟨halike.legible hlegible, by rwa [← halike.identity?_eq]⟩

theorem findId_set (hid : entriesOf n.attributes = entriesOf v.node.attributes) :
    (tree.set v.path n).findId id = .ok (some ⟨v.parent, v.index, n⟩) :=
  findId_set_of_identity hv hget hn (elementIdentity_congr (hn.trans (Edit.findId_some hv).element.symm) hid)

end

/-- With other children of markup, a visit is to one of these or below it, or to a node that was visited before and is
at no child of that markup and below none. -/
theorem mem_visits_modifyChildren {p : Path} {tree m : Node} (hm : tree.get? p = some m) (hk : m.kind.isMarkup = true)
    (cs : List Node) {v : Visit} (hv : v ∈ (tree.modifyChildren (fun _ => cs) p).visits) :
    v ∈ visitsIn p 0 cs ∨
      ∃ u ∈ tree.visits, u.path = v.path ∧ (∀ i q, u.path ≠ p ++ .child i :: q) ∧ Alike u.node v.node := by
  have hk' : (m.withChildren cs).kind.isMarkup = true := by rw [kind_withChildren]; exact hk
  rcases mem_visits_modify hk hk' hm hv with ⟨hpath, hnode⟩ | hv | ⟨u, hu, hpath, hne, halike⟩
  · refine .inr ⟨⟨v.parent, v.index, m⟩, mem_visits_of_path (by rw [hpath, hm]), rfl, fun i q hq => ?_, ?_⟩
    · have : p = p ++ .child i :: q := hpath.symm.trans hq
      simp at this
    · rw [hnode]
      exact ⟨by rw [isForeign, isForeign, kind_withChildren],
        elementIdentity_congr (by rw [kind_withChildren]) (by rw [attributes_withChildren])⟩
  · rcases mem_visitsAt.mp hv with hv | hv
    · rw [attributes_withChildren] at hv
      obtain ⟨j, c, q, -, hq, -⟩ := path_of_visitsIn hv
      refine .inr ⟨v, visitsAt_of_get? [] hm (mem_visitsAt.mpr (.inl hv)), rfl, fun i q' hq' => ?_, .refl _⟩
      rw [hq, List.append_assoc, List.append_cancel_left_eq] at hq'
      cases hq'
    · rw [children_withChildren] at hv
      exact .inl hv
  · exact .inr ⟨u, hu, hpath, fun i q hq => hne ⟨_, hq.symm⟩, halike⟩

/-- The first nodes of a list are visited there, with what is below them. -/
theorem exists_visit_within {p : Path} {tree m x : Node} {left right : List Node} (h : tree.get? p = some m)
    (hc : m.children = left ++ right) (hx : x ∈ within left) :
    ∃ v ∈ tree.visits, v.node = x ∧ ∃ i q, i < left.length ∧ v.path = p ++ .child i :: q := by
  rw [← visitsIn_nodes p 0] at hx
  obtain ⟨v, hv, rfl⟩ := List.mem_map.mp hx
  obtain ⟨i, c, q, hi, hq, -⟩ := path_of_visitsIn hv
  refine ⟨v, visitsAt_of_get? [] h (mem_visitsAt.mpr (.inr ?_)), rfl, i, q, (List.getElem?_eq_some_iff.mp hi).1, hq⟩
  rw [hc, visitsIn_append]
  exact List.mem_append_left _ hv

/-- A visit to one of the first nodes of a list is to one of these or to what is below it. -/
theorem mem_within_of_visitsIn {p q : Path} {left right : List Node} {i : Nat} {v : Visit}
    (hv : v ∈ visitsIn p 0 (left ++ right)) (hpath : v.path = p ++ .child i :: q) (hi : i < left.length) :
    v.node ∈ within left := by
  obtain ⟨j, c, q', hj, hq, hcase⟩ := path_of_visitsIn hv
  rw [hpath, List.append_cancel_left_eq] at hq
  obtain ⟨hij, -⟩ := List.cons.inj hq
  cases hij
  rw [List.getElem?_append_left hi] at hj
  refine mem_within (List.mem_of_getElem? hj) ?_
  rw [within_singleton]
  rcases hcase with ⟨-, rfl⟩ | hv
  · exact List.mem_cons_self
  · rw [← visitsAt_nodes (p ++ [Step.child i])]
    exact List.mem_cons_of_mem _ (List.mem_map_of_mem hv)

/-- A node at the place of a visit, and those below it, are all visited there. -/
theorem exists_visit_at {tree m x : Node} {w : Visit} (h : tree.get? w.path = some m) (hx : x ∈ within [m]) :
    ∃ u ∈ tree.visits, u.node = x ∧ w.path <+: u.path := by
  rw [within_singleton] at hx
  rcases List.mem_cons.mp hx with rfl | hx
  · exact ⟨_, mem_visits_of_path h, rfl, List.prefix_refl _⟩
  · rw [← visitsAt_nodes w.path] at hx
    obtain ⟨u, hu, rfl⟩ := List.mem_map.mp hx
    exact ⟨u, visitsAt_of_get? [] h hu, rfl, prefix_of_visitsAt hu⟩

/-! ## How often an identity occurs -/

/-- Markup that is exchanged for markup changes a count of what is below a tree by what it has more or less. -/
theorem tally_under_modify (g : List Entry → Nat) {f : Node → Node} {m : Node} (hm : m.kind.isMarkup = true)
    (hf : (f m).kind.isMarkup = true) {p : Path} {tree : Node} (h : tree.get? p = some m)
    (hroot : p = [] → own g (f m) = own g m) :
    tally g (tree.modify f p).under + total g [m] = tally g tree.under + total g [f m] := by
  have htotal := total_modify g hm hf h
  have hown : own g (tree.modify f p) = own g tree := by
    by_cases hp : p = []
    · subst hp
      cases h
      exact hroot rfl
    · exact own_congr g (by rw [kind_modify f hp]) (entries_attributes_modify hm hf hp h)
  have hsplit : ∀ n : Node, total g [n] = own g n + tally g n.under := fun n => by
    rw [total, within_singleton, tally]
  rw [hsplit, hsplit tree, hown] at htotal
  omega

theorem tally_under_modifyChildren (g : List Entry → Nat) {m : Node} (hk : m.kind.isMarkup = true) {p : Path}
    {tree : Node} (h : tree.get? p = some m) (cs : List Node) :
    tally g (tree.modifyChildren (fun _ => cs) p).under + total g m.children = tally g tree.under + total g cs := by
  have htree : tally g (tree.modifyChildren (fun _ => cs) p).under + total g [m] =
      tally g tree.under + total g [m.withChildren cs] :=
    tally_under_modify g hk (by rw [kind_withChildren]; exact hk) h fun _ =>
      own_congr g (by rw [kind_withChildren]) (by rw [attributes_withChildren])
  have hnode := total_withChildren g cs m
  omega

theorem UniqueIdentities.tally_le {tree : Node} (h : tree.UniqueIdentities) (id : String) :
    tally (carries id) tree.under ≤ 1 := by
  rw [← count_identities, ← descendants_eq_under]
  exact List.nodup_iff_count_le_one.mp h id

/-! ## An identity that cannot be read -/

/-- An element with a reference as its identity that is too long to be read. -/
def unreadable : Node := Edit.Command.identified "b" longReference []

theorem elementIdentity_unreadable : unreadable.elementIdentity = .error .badNumber := by
  have hid : unreadable.elementIdentity = (Literal.references longReference).map some := by rfl
  rw [hid, Literal.references, decodeReferences?_long]
  rfl

theorem not_legible_unreadable : ¬unreadable.Legible := by
  rintro ⟨-, id, hid⟩
  rw [elementIdentity_unreadable] at hid
  cases hid

theorem identity?_unreadable : unreadable.identity? = none := by
  rw [Edit.identity?_eq, elementIdentity_unreadable]
  rfl

/-- An unreadable identity conflicts with no other. -/
theorem uniqueIdentities_around {tree : Node} (before : List Node)
    (h : tree.descendants = before ++ unreadable :: unreadable.under) (hbefore : (before.filterMap identity?).Nodup) :
    tree.UniqueIdentities := by
  have hbelow : unreadable.under.filterMap identity? = [] := by rfl
  rw [UniqueIdentities, h, List.filterMap_append, List.filterMap_cons_none identity?_unreadable, hbelow,
    List.append_nil]
  exact hbefore

end Node
end JsxEdit
