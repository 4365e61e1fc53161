import JsxEdit.Proofs.Lines
import JsxEdit.Proofs.Made
import JsxEdit.Proofs.Nesting
import JsxEdit.Proofs.Sound

/-
The element at a line and column of a document that was just read.

The search takes the last element with an identity around the position. Since elements are nested or apart and are met in
document order, it is the innermost one. Lines and columns that were worked out from a position lead back to it, so an
element is found where it starts.
-/
set_option autoImplicit false

namespace JsxEdit

/-! ## Searching a tree -/

namespace Node

section

variable {α : Type} {p : Visit → Except Fault (Option α)} {vs : List Visit}

theorem collect_cons {v : Visit} (h : v.node.isForeign = false) :
    collect p (v :: vs) = (do return (← p v).toList ++ (← collect p vs)) := by
  rw [collect, h]
  rfl

theorem exists_collect (hforeign : ∀ v ∈ vs, v.node.isForeign = false) (h : ∀ v ∈ vs, ∃ r, p v = .ok r) :
    ∃ out, collect p vs = .ok out := by
  induction vs with
  | nil => exact ⟨[], rfl⟩
  | cons v vs ih =>
    rw [List.forall_mem_cons] at hforeign h
    obtain ⟨r, hr⟩ := h.1
    obtain ⟨out, hout⟩ := ih hforeign.2 h.2
    rw [collect_cons hforeign.1, hr, hout]
    exact ⟨_, rfl⟩

/-- If all failures are the same, one of them makes the search fail so. -/
theorem collect_error {fault : Fault} (hforeign : ∀ v ∈ vs, v.node.isForeign = false)
    (hfault : ∀ v ∈ vs, ∀ f, p v = .error f → f = fault) (h : ∃ v ∈ vs, ∃ f, p v = .error f) :
    collect p vs = .error fault := by
  induction vs with
  | nil =>
    obtain ⟨v, hv, -⟩ := h
    cases hv
  | cons v vs ih =>
    rw [List.forall_mem_cons] at hforeign hfault
    rw [collect_cons hforeign.1]
    cases hv : p v with
    | error f =>
      rw [hfault.1 f hv]
      rfl
    | ok r =>
      obtain ⟨w, hw, f, hf⟩ := h
      rcases List.mem_cons.mp hw with rfl | hw
      · rw [hv] at hf
        cases hf
      · rw [ih hforeign.2 hfault.2 ⟨w, hw, f, hf⟩]
        rfl

end

theorem elementIdentity_error {n : Node} {f : Fault} (h : n.elementIdentity = .error f) : f = .badNumber := by
  unfold elementIdentity identity Kind.stringValue Literal.references at h
  repeat' split at h
  all_goals cases h
  rfl

theorem isElement_of_identity {n : Node} {id : String} (h : n.elementIdentity = .ok (some id)) :
    n.kind.isElement = true := by
  unfold elementIdentity at h
  split at h
  · assumption
  · cases h

/-! ## Around a position -/

/-- The position is in the range that the node was read from. -/
def Around (p : Int) (n : Node) : Prop := ∃ a b, n.Spans a b ∧ a ≤ p ∧ p < b

/-- The node lies inside the range of the other one. -/
def Inside (n m : Node) : Prop := ∃ a b c d, n.Spans a b ∧ m.Spans c d ∧ c ≤ a ∧ b ≤ d

theorem Spans.around_iff {a b : Nat} {n : Node} (h : n.Spans a b) {p : Int} : n.Around p ↔ a ≤ p ∧ p < b := by
  constructor
  · rintro ⟨c, d, hs, hp⟩
    obtain ⟨rfl, rfl⟩ := hs.unique h
    exact hp
  · exact fun hp => ⟨a, b, h, hp⟩

theorem Spans.covers {a b : Nat} {n : Node} (h : n.Spans a b) (p : Int) :
    n.covers p = .ok (decide ((a : Int) ≤ p) && decide (p < b)) := by
  rw [Node.covers, h.2.1, h.2.2]
  rfl

/-- Of two nodes around a position the later one is inside. -/
theorem Nests.inside {n m : Node} {p : Int} (h : n.Nests m) (hn : n.Around p) (hm : m.Around p) : m.Inside n := by
  obtain ⟨a, b, c, d, hspans, hspans', hnest⟩ := h
  have hp := hspans.around_iff.mp hn
  have hp' := hspans'.around_iff.mp hm
  exact ⟨c, d, a, b, hspans', hspans, by omega, by omega⟩

/-- A later node starts later. -/
theorem Nests.start_lt {n m : Node} {a b c d : Nat} (h : n.Nests m) (hn : n.Spans a b) (hm : m.Spans c d) : a < c := by
  obtain ⟨a', b', c', d', hspans, hspans', hnest⟩ := h
  obtain ⟨rfl, rfl⟩ := hspans.unique hn
  obtain ⟨rfl, rfl⟩ := hspans'.unique hm
  have := hspans.1
  omega

/-- What the search at a position takes from a visit. -/
def taken (p : Int) (v : Visit) : Except Fault (Option (String × Node)) := do
  match ← v.node.elementIdentity with
  | none => return none
  | some id => return if ← v.node.covers p then some (id, v.node) else none

theorem lastCovering_eq (p : Int) (tree : Node) :
    tree.lastCovering p = (collect (taken p) tree.visits).map List.getLast? := by
  show (collect (taken p) tree.visits >>= fun found => pure found.getLast?) = _
  cases collect (taken p) tree.visits <;> rfl

theorem taken_error {p : Int} {v : Visit} {f : Fault} (h : v.node.elementIdentity = .error f) : taken p v = .error f := by
  rw [taken, h]
  rfl

/-- Of an element with an identity the search takes both, if it is around the position. -/
theorem taken_some {p : Int} {v : Visit} {id : String} {a b : Nat} (h : v.node.elementIdentity = .ok (some id))
    (hs : v.node.Spans a b) : taken p v = .ok (if (a : Int) ≤ p ∧ p < b then some (id, v.node) else none) := by
  rw [taken, h]
  dsimp only [bind, Except.bind]
  rw [hs.covers]
  by_cases ha : (a : Int) ≤ p <;> by_cases hb : p < (b : Int) <;> simp [ha, hb, pure, Except.pure]

mutual

theorem foreign_of_mem_under : (n : Node) → n.Flawless → ∀ m ∈ n.under, m.isForeign = false
  | .mk k i as cs, h => by
    obtain ⟨-, has, hcs⟩ := flawless_mk.mp h
    rw [under, List.forall_mem_append]
    exact ⟨foreign_of_mem_within as has, foreign_of_mem_within cs hcs⟩

theorem foreign_of_mem_within : (ns : List Node) → (∀ n ∈ ns, n.Flawless) → ∀ m ∈ within ns, m.isForeign = false
  | [], _ => fun _ hm => nomatch hm
  | n :: ns, h => by
    rw [List.forall_mem_cons] at h
    rw [within, List.cons_append, List.forall_mem_cons, List.forall_mem_append]
    exact ⟨h.1.1, foreign_of_mem_under n h.1, foreign_of_mem_within ns h.2⟩

end

/-! ## Documents -/

/-- What the search needs of a document: it has its source, all that is below it are nodes, and the elements and
fragments among them stand in the source, nested or apart. -/
structure Charted (text : String) (tree : Node) : Prop where
  source : tree.kind = .document (some text)
  nodes : ∀ n ∈ tree.descendants, n.isForeign = false
  spans : ∀ n ∈ tree.descendants, n.kind.isMarkup = true → ∃ a b, n.Spans a b ∧ b ≤ text.length
  nested : tree.descendants.Pairwise fun n m => n.kind.isMarkup = true → m.kind.isMarkup = true → n.Nests m

/-- The identities of all elements can be worked out. -/
def IdentitiesKnown (tree : Node) : Prop := ∀ n ∈ tree.descendants, ∃ id, n.elementIdentity = .ok id

/-- An element with this identity that has the position in its range. -/
structure IdentifiedAt (tree : Node) (p : Int) (id : String) (n : Node) : Prop where
  mem : n ∈ tree.descendants
  identity : n.elementIdentity = .ok (some id)
  around : n.Around p

namespace Charted

variable {text : String} {tree : Node} (h : tree.Charted text) {p : Int}
include h

theorem spans_of_identity {n : Node} {id : String} (hn : n ∈ tree.descendants)
    (hid : n.elementIdentity = .ok (some id)) : ∃ a b, n.Spans a b ∧ b ≤ text.length :=
  h.spans n hn (isMarkup_of_isElement (isElement_of_identity hid))

theorem exists_taken {v : Visit} (hv : v.node ∈ tree.descendants) {id : Option String}
    (hid : v.node.elementIdentity = .ok id) : ∃ r, taken p v = .ok r := by
  cases id with
  | none =>
    rw [taken, hid]
    exact ⟨none, rfl⟩
  | some id =>
    obtain ⟨a, b, hs, -⟩ := h.spans_of_identity hv hid
    exact ⟨_, taken_some hid hs⟩

theorem taken_iff {v : Visit} (hv : v.node ∈ tree.descendants) {id : String} {n : Node} :
    taken p v = .ok (some (id, n)) ↔ n = v.node ∧ tree.IdentifiedAt p id n := by
  constructor
  · intro ht
    rcases hid : v.node.elementIdentity with f | _ | id'
    · rw [taken_error hid] at ht
      cases ht
    · rw [taken, hid] at ht
      cases ht
    · obtain ⟨a, b, hs, -⟩ := h.spans_of_identity hv hid
      rw [taken_some hid hs] at ht
      split at ht
      · next hp =>
        cases ht
        exact ⟨rfl, hv, hid, hs.around_iff.mpr hp⟩
      · cases ht
  · rintro ⟨rfl, -, hid, a, b, hs, hp⟩
    rw [taken_some hid hs, if_pos hp]

/-- The search gives the last of the elements around the position. These are met in document order. -/
theorem lastCovering_ok (hknown : tree.IdentitiesKnown) : ∃ found : List (String × Node),
    tree.lastCovering p = .ok found.getLast? ∧ (∀ id n, (id, n) ∈ found ↔ tree.IdentifiedAt p id n) ∧
      found.Pairwise fun x y => x.2.Nests y.2 := by
  have hmem : ∀ v ∈ tree.visits, v.node ∈ tree.descendants := fun v hv => List.mem_map_of_mem hv
  obtain ⟨found, hfound⟩ := exists_collect (p := taken p) (fun v hv => h.nodes v.node (hmem v hv)) fun v hv => by
    obtain ⟨id, hid⟩ := hknown v.node (hmem v hv)
    exact h.exists_taken (hmem v hv) hid
  obtain ⟨-, rfl⟩ := Edit.collect_eq hfound
  have htaken {v : Visit} {x : String × Node} (hx : (taken p v).toOption.join = some x) : taken p v = .ok (some x) := by
    cases ht : taken p v with
    | error f =>
      rw [ht] at hx
      cases hx
    | ok r =>
      rw [ht] at hx
      exact congrArg Except.ok hx
  refine ⟨_, by rw [lastCovering_eq, hfound]; rfl, ?_, ?_⟩
  · intro id n
    rw [List.mem_filterMap]
    constructor
    · rintro ⟨v, hv, hx⟩
      exact ((h.taken_iff (hmem v hv)).mp (htaken hx)).2
    · intro hat
      obtain ⟨v, hv, rfl⟩ := List.mem_map.mp hat.mem
      exact ⟨v, hv, by rw [(h.taken_iff hat.mem).mpr ⟨rfl, hat⟩]; rfl⟩
  · have hnested := h.nested
    rw [descendants, List.pairwise_map] at hnested
    refine List.pairwise_filterMap.mpr (hnested.imp_of_mem ?_)
    rintro v w hv hw hnest ⟨id, n⟩ hn ⟨id', m⟩ hm
    obtain ⟨rfl, hat⟩ := (h.taken_iff (hmem v hv)).mp (htaken hn)
    obtain ⟨rfl, hat'⟩ := (h.taken_iff (hmem w hw)).mp (htaken hm)
    exact hnest (isMarkup_of_isElement (isElement_of_identity hat.identity))
      (isMarkup_of_isElement (isElement_of_identity hat'.identity))

/-- One identity that cannot be worked out makes the search fail everywhere. -/
theorem lastCovering_error (hunknown : ¬ tree.IdentitiesKnown) : tree.lastCovering p = .error .badNumber := by
  have hmem : ∀ v ∈ tree.visits, v.node ∈ tree.descendants := fun v hv => List.mem_map_of_mem hv
  have hfault : ∀ v ∈ tree.visits, ∀ f, taken p v = .error f → f = .badNumber := by
    intro v hv f hf
    cases hid : v.node.elementIdentity with
    | error g =>
      rw [taken_error hid] at hf
      cases hf
      exact elementIdentity_error hid
    | ok id =>
      obtain ⟨r, hr⟩ := h.exists_taken (p := p) (hmem v hv) hid
      rw [hr] at hf
      cases hf
  have hexists : ∃ v ∈ tree.visits, ∃ f, taken p v = .error f := by
    by_contra hnone
    refine hunknown fun n hn => ?_
    obtain ⟨v, hv, rfl⟩ := List.mem_map.mp hn
    cases hid : v.node.elementIdentity with
    | error f => exact absurd ⟨v, hv, f, taken_error hid⟩ hnone
    | ok id => exact ⟨id, rfl⟩
  rw [lastCovering_eq, collect_error (fun v hv => h.nodes v.node (hmem v hv)) hfault hexists]
  rfl

theorem locationIn {n : Node} {a b : Nat} (hs : n.Spans a b) :
    tree.locationIn n = .ok (some ⟨Text.lineColumn text a, Text.lineColumn text b⟩) := by
  rw [Node.locationIn, Node.source, h.source, hs.2.1, hs.2.2]
  rfl

theorem editable {n : Node} {id : String} {a b : Nat} (hs : n.Spans a b) :
    tree.editable id n = .ok ⟨id, n, n.kind.head, some ⟨Text.lineColumn text a, Text.lineColumn text b⟩⟩ := by
  rw [Node.editable, h.locationIn hs]
  rfl

theorem elementAt_eq {line column : Int} (hp : Text.position text line column = some p) :
    tree.elementAt line column = (do
      match ← tree.lastCovering p with
      | none => return none
      | some (id, n) => return some (← tree.editable id n)) := by
  rw [elementAt, Node.source, h.source]
  dsimp only [bind, Except.bind]
  rewrite [hp]
  rfl

theorem elementAt_error (hunknown : ¬ tree.IdentitiesKnown) {line column : Int}
    (hp : Text.position text line column = some p) : tree.elementAt line column = .error .badNumber := by
  rw [h.elementAt_eq hp, h.lastCovering_error hunknown]
  rfl

/-- At a position there is nothing to be found, or an element that is found is inside all others around the position. -/
theorem elementAt_cases (hknown : tree.IdentitiesKnown) {line column : Int}
    (hp : Text.position text line column = some p) :
    (tree.elementAt line column = .ok none ∧ ∀ id n, ¬ tree.IdentifiedAt p id n) ∨
      ∃ id n l, tree.elementAt line column = .ok (some ⟨id, n, n.kind.head, some l⟩) ∧
        tree.locationIn n = .ok (some l) ∧ tree.IdentifiedAt p id n ∧
        ∀ id' m, tree.IdentifiedAt p id' m → m = n ∨ m.Nests n := by
  obtain ⟨found, hlast, hmem, hnested⟩ := h.lastCovering_ok (p := p) hknown
  rw [h.elementAt_eq hp, hlast]
  cases hfound : found.getLast? with
  | none =>
    refine .inl ⟨rfl, fun id n hat => ?_⟩
    have hin := (hmem id n).mpr hat
    rw [List.getLast?_eq_none_iff.mp hfound] at hin
    cases hin
  | some x =>
    obtain ⟨id, n⟩ := x
    obtain ⟨before, rfl⟩ := List.getLast?_eq_some_iff.mp hfound
    have hat := (hmem id n).mp (List.mem_append_right _ List.mem_cons_self)
    obtain ⟨a, b, hs, -⟩ := h.spans_of_identity hat.mem hat.identity
    refine .inr ⟨id, n, _, ?_, h.locationIn hs, hat, fun id' m hat' => ?_⟩
    · dsimp only [bind, Except.bind]
      rw [h.editable hs]
      rfl
    · rcases List.mem_append.mp ((hmem id' m).mpr hat') with hm | hm
      · exact .inr ((List.pairwise_append.mp hnested).2.2 _ hm _ List.mem_cons_self)
      · cases List.mem_singleton.mp hm
        exact .inl rfl

/-- An element is found where it starts, since none inside starts there. -/
theorem elementAt_start (hknown : tree.IdentitiesKnown) {n : Node} {id : String} (hn : n ∈ tree.descendants)
    (hid : n.elementIdentity = .ok (some id)) : ∃ l, tree.locationIn n = .ok (some l) ∧
      tree.elementAt l.start.line l.start.column = .ok (some ⟨id, n, n.kind.head, some l⟩) := by
  obtain ⟨a, b, hs, hb⟩ := h.spans_of_identity hn hid
  refine ⟨_, h.locationIn hs, ?_⟩
  have hp := Text.position_lineColumn (Nat.le_trans (Nat.le_of_lt hs.1) hb)
  have hat : tree.IdentifiedAt (a : Int) id n := ⟨hn, hid, a, b, hs, Int.le_refl _, Int.ofNat_lt.mpr hs.1⟩
  rcases h.elementAt_cases hknown hp with ⟨-, hnone⟩ | ⟨id', m, l, hfound, hl, hm, hall⟩
  · exact absurd hat (hnone id n)
  · obtain rfl : n = m := by
      refine (hall id n hat).resolve_right fun hnest => ?_
      -- the element found starts at or before the position, which is where `n` starts
      obtain ⟨c, d, hs', hc, -⟩ := hm.around
      have hlt := hnest.start_lt hs hs'
      omega
    cases hid.symm.trans hm.identity
    cases (h.locationIn hs).symm.trans hl
    exact hfound

end Charted

end Node

namespace Source

theorem charted_parse {text : String} {tree : Node} (h : parse text = .ok tree) : tree.Charted text := by
  have hflawless := flawless_parse h
  obtain ⟨rfl, hvalid⟩ := parse_eq_ok h
  refine ⟨by cases document text; rfl, ?_, ?_, ?_⟩
  · rw [Node.descendants_eq_under]
    exact Node.foreign_of_mem_under _ hflawless
  · intro n hn hmarkup
    rw [descendants_document] at hn
    obtain ⟨a, b, -, hs, hb, -⟩ := exists_piece hvalid (List.mem_filter.mpr ⟨hn, hmarkup⟩)
    exact ⟨a, b, hs, hb⟩
  · rw [descendants_document]
    exact List.pairwise_filter.mp (Markup.markups_nest hvalid)

end Source

/-! ## An element inside another -/

namespace Markup

open Scan

/-- An element with this raw text as its identity, whose children have the property. -/
def IsIdentified (raw : String) (P : List Node → Prop) (n : Node) : Prop :=
  ∃ k i j l cs, k.isElement = true ∧ P cs ∧
    n = .mk k i [.mk (.attr Node.identityName " ") j [] [.mk (.attributeString raw "\"") l [] []]] cs

theorem IsIdentified.valid {raw : String} {P : List Node → Prop} {n : Node} (h : IsIdentified raw P n)
    (hP : ∀ cs, P cs → Node.allValid cs = true) : n.isValid = true := by
  obtain ⟨k, i, j, l, cs, hk, hcs, rfl⟩ := h
  rw [Node.isValid, hP cs hcs, (Kind.plain_of_isMarkup (Node.isMarkup_of_isElement hk)).1]
  rfl

/-- Below the element are its children, and no other elements. -/
theorem IsIdentified.within {raw : String} {P : List Node → Prop} {n : Node} (h : IsIdentified raw P n) : ∃ cs, P cs ∧
    (∀ m ∈ Node.within cs, m ∈ Node.within [n]) ∧
      ∀ m ∈ Node.within [n], m.kind.isElement = true → m = n ∨ m ∈ Node.within cs := by
  obtain ⟨k, i, j, l, cs, -, hcs, rfl⟩ := h
  refine ⟨cs, hcs, fun m hm => ?_, fun m hm helement => ?_⟩
  · rw [Node.within_singleton, Node.under]
    exact List.mem_cons_of_mem _ (List.mem_append_right _ hm)
  · rw [Node.within_singleton, Node.under] at hm
    rcases List.mem_cons.mp hm with rfl | hm
    · exact .inl rfl
    · refine .inr ((List.mem_append.mp hm).resolve_left fun hm => ?_)
      rcases List.mem_cons.mp hm with rfl | hm
      · cases helement
      · cases List.mem_singleton.mp hm
        cases helement

theorem IsIdentified.identity {raw : String} {P : List Node → Prop} {n : Node} (h : IsIdentified raw P n) :
    n.elementIdentity = (Literal.references raw).map some := by
  obtain ⟨k, i, j, l, cs, hk, -, rfl⟩ := h
  show (if k.isElement = true then _ else _) = _
  rw [if_pos hk]
  rfl

/-- The text of an identity attribute. -/
def identityText (raw : String) : List Char :=
  " ".toList ++ (Node.identityName.toList ++ (['='] ++ ('"' :: (raw.toList ++ ['"']))))

theorem reads_identified {name raw : String} {selfClosing : Bool} {P : List Node → Prop} {z : List Char}
    (hname : Text.IsFullName .tag name) (hraw : '"' ∉ raw.toList) (hz : Leaves .tag z (EndsTag name selfClosing P))
    (hstart : ∃ c rest, z = c :: rest ∧ (c = '/' ∨ c = '>')) :
    Reads AtMarkup ('<' :: name.toList ++ (identityText raw ++ ("".toList ++ z))) (fun _ => True) fun ps =>
      ∃ p n, ps = [p] ∧ part p = .leaf (.node n) ∧ IsIdentified raw P n := by
  have hattributes : Reads (Inside .tag) (identityText raw) TagNext (GivesAttributes fun as => ∃ j l,
      as = [.mk (.attr Node.identityName " ") j [] [.mk (.attributeString raw "\"") l [] []]]) := by
    have hname : Text.IsFullName .attr Node.identityName := rfl
    have hspace : Text.isBlank " " = true := rfl
    refine (reads_valued hname hspace (by decide) (reads_quoted (.inl rfl) hraw)).weaken (fun _ _ => id)
      (fun _ _ => trivial) ?_
    rintro ps ⟨_, ⟨j, _, ⟨l, rfl⟩, rfl⟩, hgive⟩
    exact ⟨_, ⟨j, l, rfl⟩, hgive⟩
  refine (reads_tag hname rfl hattributes (fun rest _ => ⟨' ', _, rfl, .inl rfl⟩) hz hstart).imp ?_
  rintro ps ⟨p, last, i, _, cs, rfl, hpart, ⟨j, l, rfl⟩, hcs⟩
  exact ⟨p, _, rfl, hpart, _, i, j, l, cs, rfl, hcs, rfl⟩

/-- Two elements with identities, one inside the other, which has this raw text. -/
def nestedIdentities (raw : String) : String := "<a data-editable=\"x\"><b data-editable=\"" ++ raw ++ "\"/></a>"

theorem nodes_nestedIdentities {raw : String} (hraw : '"' ∉ raw.toList) : ∃ n m, nodes (nestedIdentities raw) = [n] ∧
    IsIdentified "x" (· = [m]) n ∧ IsIdentified raw (· = []) m := by
  have ha : Text.IsFullName .tag "a" := rfl
  have hb : Text.IsFullName .tag "b" := rfl
  have hinner := reads_identified hb hraw (ends_selfClosing "b" (P := (· = [])) rfl) ⟨'/', _, rfl, .inl rfl⟩
  have hcontent := ends_content ha (P := fun cs => ∃ m, cs = [m] ∧ IsIdentified raw (· = []) m) <|
    hinner.weaken (fun _ _ => Between.atMarkup) (fun _ _ => trivial) fun ps ⟨p, m, hps, hpart, hm⟩ =>
      ⟨m, by rw [hps, allParts, hpart]; rfl, hm⟩
  have hread := reads_identified ha (show '"' ∉ "x".toList by decide) hcontent ⟨'>', _, rfl, .inr rfl⟩
  have htext : (nestedIdentities raw).toList = '<' :: "a".toList ++ (identityText "x" ++ ("".toList ++ ('>' ::
      ('<' :: "b".toList ++ (identityText raw ++ ("".toList ++ ['/', '>'])) ++ closingTag "a")))) := by
    have hopen : "<a data-editable=\"x\"><b data-editable=\"".toList = '<' :: "a".toList ++ (identityText "x" ++
        ("".toList ++ ('>' :: ('<' :: "b".toList ++ (" ".toList ++ (Node.identityName.toList ++ ['=', '"'])))))) := by
      decide +kernel
    have hclose : "\"/></a>".toList = '"' :: ("".toList ++ (['/', '>'] ++ closingTag "a")) := by decide +kernel
    unfold nestedIdentities
    rewrite [String.toList_append, String.toList_append, hopen, hclose]
    simp only [identityText, List.append_assoc, List.cons_append, List.nil_append]
  rw [← htext] at hread
  obtain ⟨ps, ⟨p, n, rfl, hpart, k, i, j, l, _, hk, ⟨m, rfl, hm⟩, rfl⟩, hnodes⟩ := nodes_of_reads hread
  exact ⟨_, m, hnodes p _ rfl hpart, ⟨k, i, j, l, _, hk, rfl, rfl⟩, hm⟩

end Markup

namespace Source

open Markup (nodes nodes_placed nestedIdentities nodes_nestedIdentities)

theorem position_start (text : String) : Text.position text 1 0 = some 0 := by
  rw [Text.position, show ((1 : Int) - 1).toNat = 0 from rfl, Text.afterLines]
  exact congrArg some (by dsimp only; omega)

theorem parse_nestedIdentities {raw : String} (hraw : '"' ∉ raw.toList) : ∃ tree n m,
    parse (nestedIdentities raw) = .ok tree ∧ tree.IdentifiedAt 0 "x" n ∧ m ∈ tree.descendants ∧
      m.elementIdentity = (Literal.references raw).map some ∧
      ∀ k ∈ tree.descendants, k.kind.isElement = true → k = n ∨ k = m := by
  obtain ⟨n, m, hnodes, hn, hm⟩ := nodes_nestedIdentities hraw
  have hvalid : Node.allValid (nodes (nestedIdentities raw)) = true := by
    have hmvalid := hm.valid fun cs hcs => by rw [hcs]; rfl
    rw [hnodes, Node.allValid, hn.valid fun cs hcs => by rw [hcs, Node.allValid, hmvalid]; rfl]
    rfl
  have hends : ¬ Scan.EndsInBackslash (nestedIdentities raw) := by
    intro h
    have hlast := h.getLast?
    unfold nestedIdentities at hlast
    rw [String.toList_append, List.getLast?_append_of_ne_nil _ (by decide)] at hlast
    revert hlast
    decide
  obtain ⟨-, htiles, -⟩ := nodes_placed hvalid
  rw [hnodes] at htiles
  obtain ⟨b, hs, -⟩ := htiles hends
  have hparse := parse_of_allValid hvalid
  rw [hnodes] at hparse
  have hbelow : (Node.new (.document (some (nestedIdentities raw))) [n]).descendants = Node.within [n] :=
    Node.descendants_eq_under _
  obtain ⟨_, rfl, hin, helements⟩ := hn.within
  obtain ⟨_, rfl, -, helements'⟩ := hm.within
  have haround : n.Around 0 := hs.around_iff.mpr ⟨Int.le_refl 0, Int.ofNat_lt.mpr hs.1⟩
  refine ⟨_, n, m, hparse, ⟨?_, ?_, haround⟩, ?_, hm.identity, fun k hk helement => ?_⟩
  · rw [hbelow, Node.within_singleton]
    exact List.mem_cons_self
  · rw [hn.identity]
    rfl
  · rw [hbelow]
    refine hin m ?_
    rw [Node.within_singleton]
    exact List.mem_cons_self
  · rw [hbelow] at hk
    refine (helements k hk helement).imp_right fun hk => ?_
    exact (helements' k hk helement).resolve_right List.not_mem_nil

theorem quote_notMem_longReference : '"' ∉ longReference.toList := by
  rw [longReference, String.toList_ofList]
  simp [List.mem_replicate]

/-- With a reference that is too long as the inner one, only the outer identity can be worked out. -/
theorem parse_longIdentity : ∃ tree n, parse (nestedIdentities longReference) = .ok tree ∧ tree.IdentifiedAt 0 "x" n ∧
    (∀ id m, tree.IdentifiedAt 0 id m → m = n) ∧ ¬ tree.IdentitiesKnown := by
  obtain ⟨tree, n, m, hparse, hn, hm, hid, helements⟩ := parse_nestedIdentities quote_notMem_longReference
  rw [references_longReference] at hid
  refine ⟨tree, n, hparse, hn, fun id k hk => ?_, fun hknown => ?_⟩
  · refine (helements k hk.mem (Node.isElement_of_identity hk.identity)).resolve_right ?_
    rintro rfl
    cases hid.symm.trans hk.identity
  · obtain ⟨id, hknown⟩ := hknown m hm
    cases hid.symm.trans hknown

/-- In a document where all identities can be worked out, what is found at a line and column is the element with an
identity around the position that lies inside all the others, and nothing only if there is none; and each element with an
identity is found where it starts. One identity that cannot be worked out makes every such search fail. -/
theorem elementAt_innermost {text : String} {tree : Node} (h : parse text = .ok tree) :
    (tree.IdentitiesKnown →
      (∀ line column p, Text.position text line column = some p →
        (tree.elementAt line column = .ok none ↔ ¬ ∃ id n, tree.IdentifiedAt p id n) ∧
        ((∃ id n, tree.IdentifiedAt p id n) → ∃ id n l,
          tree.elementAt line column = .ok (some ⟨id, n, n.kind.head, some l⟩) ∧ tree.locationIn n = .ok (some l) ∧
          tree.IdentifiedAt p id n ∧ ∀ id' m, tree.IdentifiedAt p id' m → n.Inside m)) ∧
      ∀ n ∈ tree.descendants, ∀ id, n.elementIdentity = .ok (some id) → ∃ l, tree.locationIn n = .ok (some l) ∧
        tree.elementAt l.start.line l.start.column = .ok (some ⟨id, n, n.kind.head, some l⟩)) ∧
    (¬ tree.IdentitiesKnown → ∀ line column p, Text.position text line column = some p →
      tree.elementAt line column = .error .badNumber) := by
  have hcharted := charted_parse h
  refine ⟨fun hknown => ⟨fun line column p hp => ?_, fun n hn id => hcharted.elementAt_start hknown hn⟩,
    fun hunknown line column p => hcharted.elementAt_error hunknown⟩
  rcases hcharted.elementAt_cases hknown hp with ⟨hnone, hno⟩ | ⟨id, n, l, hfound, hl, hat, hall⟩
  · exact ⟨iff_of_true hnone fun ⟨id, n, hat⟩ => hno id n hat, fun ⟨id, n, hat⟩ => absurd hat (hno id n)⟩
  · refine ⟨iff_of_false (fun hnone => ?_) fun hno => hno ⟨id, n, hat⟩, fun _ => ⟨id, n, l, hfound, hl, hat, ?_⟩⟩
    · rw [hfound] at hnone
      cases hnone
    · intro id' m hat'
      rcases hall id' m hat' with rfl | hnest
      · obtain ⟨a, b, hs, -⟩ := hat.around
        exact ⟨a, b, a, b, hs, hs, Nat.le_refl a, Nat.le_refl b⟩
      · exact hnest.inside hat'.around hat.around

/-- The inner element is found where it starts. With a reference that is too long as its identity, nothing is found. -/
theorem nestedIdentities_found :
    (∃ tree m, parse (nestedIdentities "y") = .ok tree ∧ tree.IdentitiesKnown ∧
      (∃ id n l, tree.elementAt 1 0 = .ok (some ⟨id, n, n.kind.head, some l⟩) ∧ tree.IdentifiedAt 0 id n) ∧
      ∃ l, tree.locationIn m = .ok (some l) ∧
        tree.elementAt l.start.line l.start.column = .ok (some ⟨"y", m, m.kind.head, some l⟩)) ∧
    ∃ tree, parse (nestedIdentities longReference) = .ok tree ∧ ¬ tree.IdentitiesKnown ∧
      tree.elementAt 1 0 = .error .badNumber := by
  constructor
  · obtain ⟨tree, n, m, hparse, hn, hm, hid, helements⟩ := parse_nestedIdentities (show '"' ∉ "y".toList by decide)
    have hknown : tree.IdentitiesKnown := by
      intro k hk
      cases helement : k.kind.isElement with
      | false => exact ⟨none, by rw [Node.elementIdentity, helement]; rfl⟩
      | true =>
        rcases helements k hk helement with rfl | rfl
        · exact ⟨_, hn.identity⟩
        · exact ⟨_, hid⟩
    obtain ⟨hat, hstart⟩ := (elementAt_innermost hparse).1 hknown
    obtain ⟨id, k, l, hfound, -, hk, -⟩ := (hat 1 0 0 (position_start _)).2 ⟨"x", n, hn⟩
    exact ⟨tree, m, hparse, hknown, ⟨id, k, l, hfound, hk⟩, hstart m hm "y" hid⟩
  · obtain ⟨tree, n, hparse, -, -, hunknown⟩ := parse_longIdentity
    exact ⟨tree, hparse, hunknown, (elementAt_innermost hparse).2 hunknown 1 0 0 (position_start _)⟩

/-- An element whose identity is known need not be found, if there is another whose identity cannot be worked out. -/
theorem longIdentity_fails : ∃ tree n, parse (nestedIdentities longReference) = .ok tree ∧
    Text.position (nestedIdentities longReference) 1 0 = some 0 ∧ tree.IdentifiedAt 0 "x" n ∧
    (∀ id m, tree.IdentifiedAt 0 id m → m = n) ∧ tree.elementAt 1 0 = .error .badNumber := by
  obtain ⟨tree, n, hparse, hn, honly, hunknown⟩ := parse_longIdentity
  exact ⟨tree, n, hparse, position_start _, hn, honly, (charted_parse hparse).elementAt_error hunknown (position_start _)⟩

end Source
end JsxEdit
