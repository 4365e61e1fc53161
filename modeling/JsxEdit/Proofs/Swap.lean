import JsxEdit.Proofs.Growth
import JsxEdit.Proofs.Likeness

/-
Another element in the place of one.

A tree is compared with one that was read from a text in which one element is different. Positions are left out of the
comparison, since all that follows has moved; the element itself is known by the position at which it starts.
-/
set_option autoImplicit false

namespace JsxEdit

open List (Forall₂)

/-- The kind without the position of what could not be read. -/
def Kind.blind : Kind → Kind
  | .invalid reason _ => .invalid reason none
  | k => k

theorem Kind.blind_eq {k : Kind} (h : k.isInvalid = false) : k.blind = k := by
  cases k with
  | invalid => cases h
  | _ => rfl

theorem Kind.eq_of_blind {k l : Kind} (h : k.blind = l) (hl : l.isInvalid = false) : k = l := by
  cases k with
  | invalid =>
    subst h
    cases hl
  | _ => exact h

@[simp] theorem Kind.isInvalid_blind (k : Kind) : k.blind.isInvalid = k.isInvalid := by cases k <;> rfl

@[simp] theorem Kind.name_blind (k : Kind) : k.blind.name = k.name := by cases k <;> rfl

namespace Node

/-- Whether an element or fragment of this kind starts at such a position. -/
def starts (hit : Nat → Bool) (k : Kind) (i : Info) : Bool := k.isMarkup && i.head.any fun s => hit s.start

section

variable (hit : Nat → Bool) (new : Node)

mutual

/-- The tree without positions, with another node for the elements and fragments that start where said. -/
def swap : Node → Node
  | .mk k i as cs => if starts hit k i then new else .mk k.blind {} (allSwap as) (allSwap cs)

/-- The trees without positions, with another node for the elements and fragments that start where said. -/
def allSwap : List Node → List Node
  | [] => []
  | n :: ns => swap n :: allSwap ns

end

theorem allSwap_eq_map (ns : List Node) : allSwap hit new ns = ns.map (swap hit new) := by
  induction ns with
  | nil => rfl
  | cons n ns ih => rw [allSwap, ih, List.map_cons]

end

/-- The tree without positions. -/
def blind : Node → Node := swap (fun _ => false) default

@[simp] theorem starts_nowhere (k : Kind) (i : Info) : starts (fun _ => false) k i = false := by
  cases hi : i.head <;> simp [starts, hi]

@[simp] theorem blind_mk (k : Kind) (i : Info) (as cs : List Node) :
    blind (.mk k i as cs) = .mk k.blind {} (as.map blind) (cs.map blind) := by
  rw [blind, swap, starts_nowhere, if_neg Bool.false_ne_true, allSwap_eq_map, allSwap_eq_map]

theorem kind_blind (n : Node) : n.blind.kind = n.kind.blind := by
  cases n
  rw [blind_mk]
  rfl

theorem attributes_blind (n : Node) : n.blind.attributes = n.attributes.map blind := by
  cases n
  rw [blind_mk]
  rfl

theorem children_blind (n : Node) : n.blind.children = n.children.map blind := by
  cases n
  rw [blind_mk]
  rfl

/-- Whether the node is an element or fragment that starts at such a position. -/
def isHit (hit : Nat → Bool) (n : Node) : Bool := starts hit n.kind n.info

section

variable {hit : Nat → Bool} {new : Node}

theorem swap_hit {n : Node} (h : n.isHit hit = true) : swap hit new n = new := by
  obtain ⟨k, i, as, cs⟩ := n
  have hstarts : starts hit k i = true := h
  rw [swap, if_pos hstarts]

theorem swap_other {n : Node} (h : n.isHit hit = false) :
    swap hit new n = .mk n.kind.blind {} (n.attributes.map (swap hit new)) (n.children.map (swap hit new)) := by
  obtain ⟨k, i, as, cs⟩ := n
  have hstarts : starts hit k i = false := h
  rw [swap, hstarts, if_neg Bool.false_ne_true, allSwap_eq_map, allSwap_eq_map]
  rfl

theorem not_hit_of_kind {n : Node} (h : n.kind.isMarkup = false) : n.isHit hit = false := by
  rw [isHit, starts, h, Bool.false_and]

theorem markup_of_hit {n : Node} (h : n.isHit hit = true) : n.kind.isMarkup = true := by
  rw [isHit, starts, Bool.and_eq_true] at h
  exact h.1

/-! ## The same written -/

/-- Two texts are the same, or the same up to an opening angle. -/
def SameStart (s t : List Char) : Prop := s = t ∨ ∃ x y z, s = x ++ '<' :: y ∧ t = x ++ '<' :: z

theorem SameStart.append {s t s' t' : List Char} (h : SameStart s t) (h' : SameStart s' t') :
    SameStart (s ++ s') (t ++ t') := by
  rcases h with rfl | ⟨x, y, z, rfl, rfl⟩
  · rcases h' with rfl | ⟨x, y, z, rfl, rfl⟩
    · exact .inl rfl
    · exact .inr ⟨s ++ x, y, z, by simp, by simp⟩
  · exact .inr ⟨x, y ++ s', z ++ t', by simp, by simp⟩

theorem SameStart.isPrefixOf {s t p : List Char} (h : SameStart s t) (hp : '<' ∉ p) : p.isPrefixOf s = p.isPrefixOf t := by
  rcases h with rfl | ⟨x, y, z, rfl, rfl⟩
  · rfl
  · induction x generalizing p with
    | nil =>
      cases p with
      | nil => rfl
      | cons c p =>
        rw [List.mem_cons, not_or] at hp
        have hne : (c == '<') = false := beq_eq_false_iff_ne.mpr (Ne.symm hp.1)
        simp only [List.nil_append, List.isPrefixOf, hne, Bool.false_and]
    | cons d x ih =>
      cases p with
      | nil => rfl
      | cons c p =>
        rw [List.mem_cons, not_or] at hp
        simp only [List.cons_append, List.isPrefixOf, ih hp.2]

/-- What is written between the opening and the closing of a node, from the texts of its attributes and its children, these
also with commas between them. -/
def bodyText (k : Kind) (empty : Bool) (attributes children items : String) : String :=
  match k with
  | .element .. => attributes ++ k.tagEnd ++ children
  | .object _ => items
  | .attr .. => (if empty then "" else "=") ++ children
  | _ => children

theorem write_mk (k : Kind) (i : Info) (as cs : List Node) : write (.mk k i as cs) =
    k.opening ++ bodyText k cs.isEmpty (writeAll as) (writeAll cs) (writeItems cs) ++ k.closing := by
  cases k <;> simp only [write, bodyText, String.append_assoc]

/-- What is written for an element or fragment starts with an angle. -/
theorem write_markup {n : Node} (h : n.kind.isMarkup = true) : ∃ rest, n.write.toList = '<' :: rest := by
  obtain ⟨k, i, as, cs⟩ := n
  rw [write_mk, String.toList_append, String.toList_append]
  cases k with
  | element name =>
    rw [Kind.opening, String.toList_append]
    exact ⟨_, rfl⟩
  | fragment => exact ⟨_, rfl⟩
  | _ => cases h

/-- The texts around what is below a node do not depend on positions. -/
theorem texts_blind (k : Kind) : k.blind.opening = k.opening ∧ k.blind.closing = k.closing ∧ bodyText k.blind = bodyText k := by
  cases k <;> exact ⟨rfl, rfl, rfl⟩

theorem bodyText_sameStart (k : Kind) (empty : Bool) {as as' cs cs' items items' : String}
    (has : SameStart as.toList as'.toList) (hcs : SameStart cs.toList cs'.toList)
    (hitems : SameStart items.toList items'.toList) :
    SameStart (bodyText k empty as cs items).toList (bodyText k empty as' cs' items').toList := by
  have hsame (s : String) : SameStart s.toList s.toList := .inl rfl
  unfold bodyText
  split
  · simp only [String.toList_append]
    exact (has.append (hsame _)).append hcs
  · exact hitems
  · rw [String.toList_append, String.toList_append]
    exact (hsame _).append hcs
  · exact hcs

mutual

theorem write_blind : (n : Node) → n.blind.write = n.write
  | .mk k i as cs => by
    obtain ⟨hopening, hclosing, hbody⟩ := texts_blind k
    have hempty : (cs.map blind).isEmpty = cs.isEmpty := by cases cs <;> rfl
    rw [blind_mk, write_mk, write_mk, hopening, hclosing, hbody, hempty, writeAll_blind as, writeAll_blind cs,
      writeItems_blind cs]

theorem writeAll_blind : (ns : List Node) → writeAll (ns.map blind) = writeAll ns
  | [] => rfl
  | n :: ns => by rw [List.map_cons, writeAll, writeAll, write_blind n, writeAll_blind ns]

theorem writeItems_blind : (ns : List Node) → writeItems (ns.map blind) = writeItems ns
  | [] => rfl
  | [n] => write_blind n
  | n :: m :: ns => by
    rw [List.map_cons, List.map_cons, writeItems, writeItems, ← List.map_cons, write_blind n, writeItems_blind (m :: ns)]

end

mutual

theorem write_swap (hnew : new.kind.isElement = true) : (n : Node) → SameStart (swap hit new n).write.toList n.write.toList
  | .mk k i as cs => by
    by_cases hhit : (mk k i as cs).isHit hit = true
    · obtain ⟨y, hy⟩ := write_markup (isMarkup_of_isElement hnew)
      obtain ⟨z, hz⟩ := write_markup (markup_of_hit hhit)
      rw [swap_hit hhit]
      exact .inr ⟨[], y, z, hy, hz⟩
    · obtain ⟨hopening, hclosing, hbody⟩ := texts_blind k
      have hempty : (cs.map (swap hit new)).isEmpty = cs.isEmpty := by cases cs <;> rfl
      rw [swap_other (Bool.eq_false_iff.mpr hhit), kind_mk, attributes_mk, children_mk, write_mk, write_mk, hopening,
        hclosing, hbody, hempty]
      simp only [String.toList_append]
      exact (SameStart.append (.inl rfl)
        (bodyText_sameStart k _ (writeAll_swap hnew as) (writeAll_swap hnew cs) (writeItems_swap hnew cs))).append (.inl rfl)

theorem writeAll_swap (hnew : new.kind.isElement = true) :
    (ns : List Node) → SameStart (writeAll (ns.map (swap hit new))).toList (writeAll ns).toList
  | [] => .inl rfl
  | n :: ns => by
    rw [List.map_cons, writeAll, writeAll, String.toList_append, String.toList_append]
    exact (write_swap hnew n).append (writeAll_swap hnew ns)

theorem writeItems_swap (hnew : new.kind.isElement = true) :
    (ns : List Node) → SameStart (writeItems (ns.map (swap hit new))).toList (writeItems ns).toList
  | [] => .inl rfl
  | [n] => write_swap hnew n
  | n :: m :: ns => by
    rw [List.map_cons, List.map_cons, writeItems, writeItems, ← List.map_cons]
    simp only [String.toList_append]
    exact ((write_swap hnew n).append (.inl rfl)).append (writeItems_swap hnew (m :: ns))

end

end

section

variable {hit : Nat → Bool} (new : Node)

mutual

/-- Where no element or fragment starts at such a position, nothing is swapped. -/
theorem swap_eq_blind : (n : Node) → (∀ m ∈ within [n], m.isHit hit = false) → swap hit new n = n.blind
  | .mk k i as cs, h => by
    rw [within_singleton, List.forall_mem_cons, under_eq, List.forall_mem_append] at h
    rw [swap_other h.1, blind_mk, kind_mk, attributes_mk, children_mk, map_swap_eq_blind as h.2.1,
      map_swap_eq_blind cs h.2.2]

theorem map_swap_eq_blind : (ns : List Node) → (∀ m ∈ within ns, m.isHit hit = false) →
    ns.map (swap hit new) = ns.map blind
  | [], _ => rfl
  | n :: ns, h => by
    rw [within_cons, ← within_singleton, List.forall_mem_append] at h
    rw [List.map_cons, List.map_cons, swap_eq_blind n h.1, map_swap_eq_blind ns h.2]

end

end

/-! ## Alike but for the element -/

section

variable {hit : Nat → Bool} {new : Node}

theorem map_blind_of_forall₂ {ns ms : List Node} (h : Forall₂ (fun n m => blind m = swap hit new n) ns ms) :
    ms.map blind = ns.map (swap hit new) := by
  induction h with
  | nil => rfl
  | cons hn _ ih => rw [List.map_cons, List.map_cons, hn, ih]

theorem forall₂_of_map_blind {ns ms : List Node} (h : ms.map blind = ns.map (swap hit new)) :
    Forall₂ (fun n m => blind m = swap hit new n) ns ms := by
  induction ns generalizing ms with
  | nil =>
    rw [List.map_nil, List.map_eq_nil_iff] at h
    subst h
    exact .nil
  | cons n ns ih =>
    rw [List.map_cons, List.map_eq_cons_iff] at h
    obtain ⟨m, ms, rfl, hn, hns⟩ := h
    exact .cons hn (ih hns)

theorem blind_mk_eq {k : Kind} {i j : Info} {as bs cs ds : List Node} (hk : starts hit k i = false)
    (has : Forall₂ (fun n m => blind m = swap hit new n) as bs)
    (hcs : Forall₂ (fun n m => blind m = swap hit new n) cs ds) : blind (.mk k j bs ds) = swap hit new (.mk k i as cs) := by
  have hother : (mk k i as cs).isHit hit = false := hk
  rw [blind_mk, swap_other hother, map_blind_of_forall₂ has, map_blind_of_forall₂ hcs]
  rfl

end

theorem starts_inner {hit : Nat → Bool} {k : Kind} (hk : k.IsInner) (i : Info) : starts hit k i = false := by
  rw [starts, hk.1, Bool.false_and]

theorem Unplaced.not_hit {hit : Nat → Bool} {n : Node} (h : n.Unplaced) : ∀ m ∈ within [n], m.isHit hit = false :=
  fun m hm => not_hit_of_kind (h m hm).2.2

/-- Trees that are the same but for their positions and the elements and fragments that start where said, which are all the
same element. Tokens that stand there are left out. -/
def swapping (hit : Nat → Bool) (new : Node) (hnew : new.kind.isElement = true) : Likeness where
  tokens t u := u.kind = t.kind ∧ u.text = t.text ∧ hit t.pos = false
  nodes n m := blind m = swap hit new n
  kind h := h.1
  text h := h.2.1
  code {ts us} h := by
    have htexts : us.map (·.text) = ts.map (·.text) := by
      induction h with
      | nil => rfl
      | cons ht _ ih => rw [List.map_cons, List.map_cons, ht.2.1, ih]
    rw [Leaf.codeNode, Leaf.codeNode, htexts]
    exact blind_mk_eq rfl .nil .nil
  new hk h := blind_mk_eq (starts_inner hk _) .nil h
  invalid {t u} reason h := by
    rw [Markup.invalid, Markup.invalid]
    exact (blind_mk _ _ _ _).trans (swap_other (n := Markup.invalid reason t) rfl).symm
  leaf hk h := blind_mk_eq (starts_inner hk _) .nil .nil
  bracketed hk _ _ h := blind_mk_eq (starts_inner hk _) .nil h
  element h _ _ has hcs := blind_mk_eq (h.2.2) has hcs
  fragment h _ hcs := blind_mk_eq (h.2.2) .nil hcs
  shape {n m} h hk := by
    rw [swap_other (starts_inner hk n.info)] at h
    have hkind := congrArg Node.kind h
    have hchildren := congrArg Node.children h
    rw [kind_blind, kind_mk, Kind.blind_eq hk.2] at hkind
    rw [children_blind, children_mk] at hchildren
    exact ⟨Kind.eq_of_blind hkind hk.2, forall₂_of_map_blind hchildren⟩
  withChildren {n m cs ds} h hk hcs := by
    obtain ⟨k, i, as, cs'⟩ := n
    obtain ⟨k', i', as', cs''⟩ := m
    have hmk : starts hit k i = false := starts_inner hk i
    rw [blind_mk, swap_other (n := .mk k i as cs') hmk] at h
    obtain ⟨hkind, -, has, -⟩ := Node.mk.inj h
    have hkind' : k' = k := Kind.eq_of_blind (hkind.trans (Kind.blind_eq hk.2)) hk.2
    subst hkind'
    exact blind_mk_eq hmk (forall₂_of_map_blind has) hcs
  name {n m} h := by
    have hname : (blind m).kind.name = (swap hit new n).kind.name := congrArg (·.kind.name) h
    rw [kind_blind, Kind.name_blind] at hname
    rw [hname]
    cases hhit : n.isHit hit with
    | false => rw [swap_other hhit, kind_mk, Kind.name_blind]
    | true =>
      have hscript {k : Kind} (hk : k.isMarkup = true) : (k.name == "Script") = false := by
        cases k <;> first | rfl | cases hk
      rw [swap_hit hhit, hscript (isMarkup_of_isElement hnew), hscript (markup_of_hit hhit)]
  dots {n m} h := by
    rw [Text.startsWith, Text.startsWith, ← write_blind m, h]
    exact (write_swap hnew n).isPrefixOf (by decide)
  write {n m} h hn := by rw [← write_blind m, h, swap_eq_blind new n hn.not_hit, write_blind]

section

variable {hit : Nat → Bool} {new : Node}

mutual

theorem isValid_blind : (n : Node) → n.blind.isValid = n.isValid
  | .mk k i as cs => by
    rw [blind_mk, isValid, isValid, Kind.isInvalid_blind, allValid_blind as, allValid_blind cs]

theorem allValid_blind : (ns : List Node) → allValid (ns.map blind) = allValid ns
  | [] => rfl
  | n :: ns => by rw [List.map_cons, allValid, allValid, isValid_blind n, allValid_blind ns]

end

mutual

/-- With a valid element in the place of another, a valid tree stays valid. -/
theorem isValid_swap (hnew : new.isValid = true) : (n : Node) → n.isValid = true → (swap hit new n).isValid = true
  | .mk k i as cs, h => by
    cases hhit : (mk k i as cs).isHit hit with
    | true => rwa [swap_hit hhit]
    | false =>
      rw [isValid, Bool.and_eq_true, Bool.and_eq_true] at h
      rw [swap_other hhit, isValid, Bool.and_eq_true, Bool.and_eq_true]
      exact ⟨⟨by rw [Kind.isInvalid_blind]; exact h.1.1, allValid_swap hnew as h.1.2⟩, allValid_swap hnew cs h.2⟩

theorem allValid_swap (hnew : new.isValid = true) : (ns : List Node) → allValid ns = true →
    allValid (ns.map (swap hit new)) = true
  | [], _ => rfl
  | n :: ns, h => by
    rw [allValid, Bool.and_eq_true] at h
    rw [List.map_cons, allValid, isValid_swap hnew n h.1, allValid_swap hnew ns h.2]
    rfl

end

/-! ## Changing the element in place -/

/-- Changing the only element that starts at a position is putting the changed one in its place. -/
theorem blind_modify {f : Node → Node} {x : Node} (hx : x.isHit hit = true) (hf : blind (f x) = new) {path : Path}
    {n : Node} (h : n.get? path = some x) (honce : (within [n]).countP (isHit hit) ≤ 1) :
    blind (n.modify f path) = swap hit new n := by
  induction path generalizing n with
  | nil =>
    cases h
    rw [modify_nil, hf, swap_hit hx]
  | cons step path ih =>
    rw [within_singleton, under_eq, List.countP_cons, List.countP_append] at honce
    have hnone (ns : List Node) (hns : (within ns).countP (isHit hit) = 0) : ns.map blind = ns.map (swap hit new) :=
      (map_swap_eq_blind new ns fun m hm => by simpa using List.countP_eq_zero.mp hns m hm).symm
    cases step with
    | child i =>
      rw [get?_child] at h
      obtain ⟨c, hc, h⟩ := Option.bind_eq_some_iff.mp h
      obtain ⟨before, after, hcs, hi⟩ : ∃ before after, n.children = before ++ c :: after ∧ before.length = i := by
        obtain ⟨hlt, hget⟩ := List.getElem?_eq_some_iff.mp hc
        exact ⟨n.children.take i, n.children.drop (i + 1), by rw [← hget, List.getElem_cons_drop, List.take_append_drop],
          List.length_take_of_le (Nat.le_of_lt hlt)⟩
      have hpos : 0 < (within [c]).countP (isHit hit) :=
        List.countP_pos_iff.mpr ⟨x, mem_within_of_get? h (markup_of_hit hx), hx⟩
      rw [hcs, within_append, ← List.singleton_append, within_append, List.countP_append, List.countP_append] at honce
      have hother : n.isHit hit = false := by
        cases hn : n.isHit hit with
        | false => rfl
        | true =>
          rw [hn, if_pos rfl] at honce
          omega
      have hchild := ih h (by omega)
      have has := hnone n.attributes (by omega)
      have hbefore := hnone before (by omega)
      have hafter := hnone after (by omega)
      have hmodify : (before ++ c :: after).modify i (modify f path) = before ++ modify f path c :: after := by
        rw [← hi, List.modify_eq_take_cons_drop (by simp)]
        simp
      obtain ⟨k, j, as, cs⟩ := n
      rw [attributes_mk] at has
      rw [children_mk] at hcs
      rw [swap_other hother, modify_child, children_mk, hcs, hmodify, withChildren, blind_mk, kind_mk, attributes_mk, has]
      simp only [List.map_append, List.map_cons, hchild, hbefore, hafter]
    | attributes =>
      rw [get?_attributes] at h
      split at h
      · next helement =>
        have hlist : n.attributeList.isHit hit = false := not_hit_of_kind rfl
        have hmem := mem_within_of_get? h (markup_of_hit hx)
        have hwithin : within [n.attributeList] = n.attributeList :: within n.attributes := by
          rw [within_singleton, under_eq, attributeList, attributes_new, children_new]
          rfl
        have hpos : 0 < (within n.attributes).countP (isHit hit) := by
          rw [hwithin, List.mem_cons] at hmem
          refine List.countP_pos_iff.mpr ⟨x, hmem.resolve_left ?_, hx⟩
          rintro rfl
          rw [hlist] at hx
          cases hx
        have hother : n.isHit hit = false := by
          cases hn : n.isHit hit with
          | false => rfl
          | true =>
            rw [hn, if_pos rfl] at honce
            omega
        have hchild := ih h (by
          rw [hwithin, List.countP_cons, hlist, if_neg Bool.false_ne_true]
          omega)
        have hcs := hnone n.children (by omega)
        have has := congrArg Node.children hchild
        rw [children_blind, swap_other hlist, children_mk, children_attributeList] at has
        rw [modify_attributes, if_pos helement, swap_other hother]
        obtain ⟨k, j, as, cs⟩ := n
        rw [children_mk] at hcs
        rw [withAttributes, blind_mk, has, kind_mk, attributes_mk, children_mk, hcs]
      · cases h

/-! ## Finding the element -/

/-- A search finds the other element where it found the one in whose place that is. What it passes over brings nothing, or
the other element. -/
def Follows (new : Node) (x y : Except Fault (Option Visit)) (hit : Nat → Bool) : Prop :=
  (x = .ok none → y = .ok none ∨ ∃ v, y = .ok (some v) ∧ blind v.node = new) ∧
    ∀ v, x = .ok (some v) → v.node.isHit hit = true → ∃ v, y = .ok (some v) ∧ blind v.node = new

theorem firstVisit_append {p : Visit → Except Fault Bool} (vs ws : List Visit) : firstVisit p (vs ++ ws) =
    match firstVisit p vs with
    | .ok none => firstVisit p ws
    | found => found := by
  induction vs with
  | nil => rfl
  | cons v vs ih =>
    rw [List.cons_append, firstVisit, firstVisit]
    cases p v with
    | error f => rfl
    | ok b =>
      dsimp only [bind, Except.bind]
      split
      · rfl
      · split
        · rfl
        · exact ih

variable {p p' : Visit → Except Fault Bool}

theorem Follows.append {vs vs' ws ws' : List Visit} (h : Follows new (firstVisit p vs) (firstVisit p' vs') hit)
    (h' : Follows new (firstVisit p ws) (firstVisit p' ws') hit) :
    Follows new (firstVisit p (vs ++ ws)) (firstVisit p' (vs' ++ ws')) hit := by
  rw [firstVisit_append, firstVisit_append]
  obtain ⟨hnone, hsome⟩ := h
  cases hv : firstVisit p vs with
  | error f => exact ⟨fun h => (nomatch h), fun _ h _ => nomatch h⟩
  | ok found =>
    cases found with
    | none =>
      rcases hnone hv with hv' | ⟨v', hv', hblind⟩
      · rw [hv']
        exact h'
      · rw [hv']
        exact ⟨fun _ => .inr ⟨v', rfl, hblind⟩, fun _ _ _ => ⟨v', rfl, hblind⟩⟩
    | some v =>
      refine ⟨fun h => (nomatch h), fun w hw hhit => ?_⟩
      cases hw
      obtain ⟨v', hv', hblind⟩ := hsome v hv hhit
      rw [hv']
      exact ⟨v', rfl, hblind⟩

/-- Two searches that agree on all nodes but those that are swapped, of which the second one takes the first it meets. -/
structure Searches (hit : Nat → Bool) (new : Node) (p p' : Visit → Except Fault Bool) : Prop where
  other {v v' : Visit} : v.node.isHit hit = false → blind v'.node = swap hit new v.node → p' v' = p v
  hit {v' : Visit} : blind v'.node = new → p' v' = .ok true

mutual

theorem follows_below (hs : Searches hit new p p') (path path' : Path) : (n m : Node) → n.isHit hit = false →
    blind m = swap hit new n → Follows new (firstVisit p (n.visitsAt path)) (firstVisit p' (m.visitsAt path')) hit
  | .mk k i as cs, .mk k' i' as' cs', hhit, h => by
    rw [blind_mk, swap_other hhit] at h
    obtain ⟨-, -, has, hcs⟩ := Node.mk.inj h
    rw [visitsAt, visitsAt]
    exact (follows_in hs _ _ 0 0 as as' has).append (follows_in hs _ _ 0 0 cs cs' hcs)

theorem follows_in (hs : Searches hit new p p') (path path' : Path) (i i' : Nat) : (ns ms : List Node) →
    ms.map blind = ns.map (swap hit new) →
    Follows new (firstVisit p (visitsIn path i ns)) (firstVisit p' (visitsIn path' i' ms)) hit
  | [], ms, h => by
    rw [List.map_nil, List.map_eq_nil_iff] at h
    subst h
    exact ⟨fun _ => .inl rfl, fun _ h _ => nomatch h⟩
  | n :: ns, ms, h => by
    rw [List.map_cons, List.map_eq_cons_iff] at h
    obtain ⟨m, ms, rfl, hm, hms⟩ := h
    rw [visitsIn, visitsIn]
    refine Follows.append ?_ (follows_in hs path path' (i + 1) (i' + 1) ns ms hms)
    cases hhit : n.isHit hit with
    | true =>
      -- whatever the first search does here, the second one finds the element
      rw [swap_hit hhit] at hm
      have hfound : firstVisit p' (⟨path', i', m⟩ :: m.visitsAt (path' ++ [Step.child i'])) = .ok (some ⟨path', i', m⟩) := by
        rw [firstVisit, show p' ⟨path', i', m⟩ = .ok true from hs.hit hm]
        rfl
      rw [hfound]
      exact ⟨fun _ => .inr ⟨_, rfl, hm⟩, fun _ _ _ => ⟨_, rfl, hm⟩⟩
    | false =>
      have hkind := congrArg Node.kind hm
      rw [swap_other hhit, kind_blind, kind_mk] at hkind
      have hforeign : m.isForeign = n.isForeign := by
        have hblind : ∀ k : Kind, k.blind.isForeign = k.isForeign := fun k => by cases k <;> rfl
        rw [isForeign, isForeign, ← hblind, hkind, hblind]
      have hsame : p' ⟨path', i', m⟩ = p ⟨path, i, n⟩ := hs.other hhit hm
      have hbelow := follows_below hs (path ++ [Step.child i]) (path' ++ [Step.child i']) n m hhit hm
      rw [firstVisit, firstVisit, hsame]
      cases p ⟨path, i, n⟩ with
      | error f => exact ⟨fun h => (nomatch h), fun _ h _ => nomatch h⟩
      | ok b =>
        cases b with
        | true =>
          refine ⟨fun h => (nomatch h), fun v hv hv' => ?_⟩
          cases hv
          rw [hhit] at hv'
          cases hv'
        | false =>
          dsimp only [bind, Except.bind]
          rw [if_neg Bool.false_ne_true, if_neg Bool.false_ne_true, hforeign]
          split
          · exact ⟨fun h => (nomatch h), fun _ h _ => nomatch h⟩
          · exact hbelow

end

/-! ## Identities -/

theorem isAttr_blind (k : Kind) (name : String) : k.blind.isAttr name = k.isAttr name := by cases k <;> rfl

/-- Elements and fragments are no attributes, and stand for no text. -/
theorem plain_of_isMarkup {k : Kind} (h : k.isMarkup = true) (name : String) :
    k.isAttr name = false ∧ k.stringValue = .ok none ∧ k.isNothing = false := by
  cases k <;> first | exact ⟨rfl, rfl, rfl⟩ | cases h

theorem stringValue_blind (k : Kind) : k.blind.stringValue = k.stringValue ∧ k.blind.isNothing = k.isNothing := by
  cases k <;> exact ⟨rfl, rfl⟩

variable (hnew : new.kind.isElement = true)

include hnew

/-- What matters of the kind of a node for the identity of an element is not swapped. -/
theorem kinds_swap {n m : Node} (h : blind m = swap hit new n) (name : String) :
    m.kind.isAttr name = n.kind.isAttr name ∧ m.kind.stringValue = n.kind.stringValue ∧
      m.kind.isNothing = n.kind.isNothing := by
  have hkind := congrArg Node.kind h
  rw [kind_blind] at hkind
  cases hhit : n.isHit hit with
  | true =>
    rw [swap_hit hhit] at hkind
    obtain ⟨h₁, h₂, h₃⟩ := plain_of_isMarkup (isMarkup_of_isElement hnew) name
    obtain ⟨h₁', h₂', h₃'⟩ := plain_of_isMarkup (markup_of_hit hhit) name
    rw [← isAttr_blind, ← (stringValue_blind m.kind).1, ← (stringValue_blind m.kind).2, hkind, h₁, h₂, h₃, h₁', h₂', h₃']
    exact ⟨rfl, rfl, rfl⟩
  | false =>
    rw [swap_other hhit, kind_mk] at hkind
    rw [← isAttr_blind, ← (stringValue_blind m.kind).1, ← (stringValue_blind m.kind).2, hkind, isAttr_blind,
      (stringValue_blind n.kind).1, (stringValue_blind n.kind).2]
    exact ⟨rfl, rfl, rfl⟩

theorem attr?_swap {n m : Node} (h : blind m = swap hit new n) (hhit : n.isHit hit = false) (name : String) :
    Option.Rel (fun a b => blind b = swap hit new a) (n.attr? name) (m.attr? name) := by
  have has := congrArg Node.attributes h
  rw [attributes_blind, swap_other hhit, attributes_mk] at has
  rw [attr?, attr?]
  revert has
  generalize n.attributes = as
  generalize m.attributes = bs
  intro has
  induction forall₂_of_map_blind has with
  | nil => exact .none
  | cons ha hrest ih =>
    rw [List.find?_cons, List.find?_cons, (kinds_swap hnew ha name).1]
    split
    · exact .some ha
    · exact ih (map_blind_of_forall₂ hrest)

theorem value?_swap {n m : Node} (h : blind m = swap hit new n) (hhit : n.isHit hit = false) :
    Option.Rel (fun a b => blind b = swap hit new a) n.value? m.value? := by
  have hcs := congrArg Node.children h
  rw [children_blind, swap_other hhit, children_mk] at hcs
  rw [value?, value?]
  revert hcs
  generalize n.children = cs
  generalize m.children = ds
  intro hcs
  cases forall₂_of_map_blind hcs with
  | nil => exact .none
  | cons hc =>
    rw [List.head?_cons, List.head?_cons, Option.filter_some, Option.filter_some, (kinds_swap hnew hc "").2.2]
    split
    · exact .some hc
    · exact .none

/-- The identity of an element does not change if another one changes, even below it. -/
theorem identity_swap {n m : Node} (h : blind m = swap hit new n) (hhit : n.isHit hit = false) :
    m.identity = n.identity := by
  have hvalue : Option.Rel (fun a b => blind b = swap hit new a) ((n.attr? identityName).bind (·.value?))
      ((m.attr? identityName).bind (·.value?)) := by
    rcases rel_cases (attr?_swap hnew h hhit identityName) with ⟨hn, hm⟩ | ⟨a, b, hn, hm, hab⟩
    · rw [hn, hm]
      exact .none
    · have hattr : a.kind.isMarkup = false := by
        have hname := List.find?_some hn
        cases hk : a.kind.isMarkup with
        | false => rfl
        | true =>
          rw [(plain_of_isMarkup hk identityName).1] at hname
          cases hname
      rw [hn, hm]
      exact value?_swap hnew hab (not_hit_of_kind hattr)
  rw [identity, identity]
  rcases rel_cases hvalue with ⟨hn, hm⟩ | ⟨a, b, hn, hm, hab⟩
  · rw [hn, hm]
  · rw [hn, hm]
    exact (kinds_swap hnew hab "").2.1

/-- The other element is found by the identity of the one in whose place it is, if it has the same. -/
theorem findId_swap {tree tree' : Node} (h : blind tree' = swap hit new tree) (htree : tree.isHit hit = false) {id : String}
    {v : Visit} (hfound : tree.findId id = .ok (some v)) (hhit : v.node.isHit hit = true)
    (hid : ∀ m, blind m = new → m.identity = .ok (some id)) :
    ∃ v', tree'.findId id = .ok (some v') ∧ blind v'.node = new := by
  have helement : ∀ k : Kind, k.blind.isElement = k.isElement := fun k => by cases k <;> rfl
  have hsearches : Searches hit new
      (fun v => do if v.node.kind.isElement then return (← v.node.identity) == some id else return false)
      (fun v => do if v.node.kind.isElement then return (← v.node.identity) == some id else return false) := by
    constructor
    · intro v v' hother hv
      have hkind := congrArg Node.kind hv
      rw [kind_blind, swap_other hother, kind_mk] at hkind
      rw [identity_swap hnew hv hother, ← helement v'.node.kind, hkind, helement]
    · intro v' hv
      have hkind := congrArg Node.kind hv
      rw [kind_blind] at hkind
      rw [← helement v'.node.kind, hkind, if_pos hnew, hid _ hv]
      simp [bind, Except.bind, pure, Except.pure]
  exact (follows_below hsearches [] [] tree tree' htree h).2 v hfound hhit

end

end Node
end JsxEdit
