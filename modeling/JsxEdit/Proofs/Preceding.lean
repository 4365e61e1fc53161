import JsxEdit.Proofs.Lines
import JsxEdit.Proofs.Transfer
import JsxEdit.Session
import Mathlib.Data.List.TakeWhile

/-
What is written before a node, and the line it starts on.

The text before a node is worked out without writing the tree to its end, so it has to be shown that the tree goes on
from there with the node itself. That text is also what a search comes to which writes the tree in order and stops at
the node, if no node is at two places. Nodes in attribute lists and in object literals are not come to that way. Where
there is such a text, the white space worked out from it is that of the line of the written tree on which the node
starts.
-/
set_option autoImplicit false

namespace JsxEdit

/-- Object literals. -/
def Kind.isObject : Kind → Bool
  | .object _ => true
  | _ => false

namespace Node

/-- The place is come to through lists of children, and not through those of an object literal; there the node is. -/
inductive Shown : Node → Path → Node → Prop where
  | here (n : Node) : Shown n [] n
  | child {n c m : Node} {i : Nat} {p : Path} (opens : n.kind.isObject = false)
      (found : n.children[i]? = some c) (below : Shown c p m) : Shown n (.child i :: p) m

/-- No mark is at two places of the tree. -/
def MarkedOnce (tree : Node) : Prop := ((within [tree]).filterMap fun n => n.info.mark).Nodup

/-- The text before the node with the mark, wherever that is. -/
def textBefore (mark : Nat) (tree : Node) : Option String :=
  (tree.markPath? mark).bind fun p => tree.precedingText p

/-- What a search has written when it ends. -/
inductive Sought where
  /-- What is before the node that it has come to. -/
  | before (text : String)
  /-- Everything. -/
  | all (text : String)

mutual

/-- A search for the node with the mark: it writes the tree in order, stops at the node, and looks at nothing inside an
object literal. -/
def seek (mark : Nat) : Node → Sought
  | .mk k i as cs =>
    if i.mark == some mark then .before ""
    else if k.isObject then .all (mk k i as cs).write
    else
      match seekIn mark cs with
      | .before s => .before ((mk k i as cs).openingText ++ s)
      | .all s => .all ((mk k i as cs).openingText ++ s ++ k.closing)

/-- The search through a list of nodes. -/
def seekIn (mark : Nat) : List Node → Sought
  | [] => .all ""
  | n :: ns =>
    match n.seek mark with
    | .before s => .before s
    | .all s =>
      match seekIn mark ns with
      | .before t => .before (s ++ t)
      | .all t => .all (s ++ t)

end

/-! ## The text before a place -/

theorem write_eq {n : Node} (h : n.kind.isObject = false) :
    n.write = n.openingText ++ writeAll n.children ++ n.kind.closing := by
  obtain ⟨k, i, as, cs⟩ := n
  cases k with
  | object trailing => cases h
  | _ => rfl

theorem precedingText_object {n : Node} (h : n.kind.isObject = true) (i : Nat) (p : Path) :
    n.precedingText (.child i :: p) = none := by
  rw [precedingText]
  cases hk : n.kind with
  | object trailing => rfl
  | _ =>
    rw [hk] at h
    cases h

theorem precedingText_child {n : Node} (h : n.kind.isObject = false) (i : Nat) (p : Path) :
    n.precedingText (.child i :: p) = (n.children[i]?).bind fun c =>
      (c.precedingText p).map fun s => n.openingText ++ writeAll (n.children.take i) ++ s := by
  rw [precedingText]
  cases n.children[i]? with
  | none => cases n.kind <;> rfl
  | some c =>
    cases hk : n.kind with
    | object trailing =>
      rw [hk] at h
      cases h
    | _ => rfl

theorem shown_of_precedingText {p : Path} {n : Node} {s : String} (h : n.precedingText p = some s) :
    ∃ m, n.Shown p m := by
  induction p generalizing n s with
  | nil => exact ⟨n, .here n⟩
  | cons step p ih =>
    cases step with
    | attributes => cases h
    | child i =>
      cases hk : n.kind.isObject with
      | true =>
        rw [precedingText_object hk] at h
        cases h
      | false =>
        rw [precedingText_child hk] at h
        obtain ⟨c, hc, h⟩ := Option.bind_eq_some_iff.mp h
        obtain ⟨t, ht, -⟩ := Option.map_eq_some_iff.mp h
        obtain ⟨m, hm⟩ := ih ht
        exact ⟨m, .child hk hc hm⟩

namespace Shown

variable {tree n : Node} {p : Path} (h : Shown tree p n)
include h

theorem get?_eq : tree.get? p = some n := by
  induction h with
  | here n => rfl
  | child opens found below ih => rw [get?_child, found, Option.bind_some, ih]

/-- The tree writes the text before the node, and then the node. -/
theorem written : ∃ before after, tree.precedingText p = some before ∧ tree.write = before ++ n.write ++ after := by
  induction h with
  | here n => exact ⟨"", "", rfl, by rw [String.empty_append, String.append_empty]⟩
  | @child n c m i p opens found below ih =>
    obtain ⟨before, after, hbefore, hwrite⟩ := ih
    obtain ⟨left, right, hsplit, rfl, -⟩ := split_at id found
    refine ⟨n.openingText ++ writeAll left ++ before, after ++ writeAll right ++ n.kind.closing, ?_, ?_⟩
    · rw [precedingText_child opens, found, Option.bind_some, hbefore, hsplit, List.take_left]
      rfl
    · rw [write_eq opens, hsplit, writeAll_around, hwrite]
      simp only [String.append_assoc]

end Shown

theorem precedingText_eq_none {tree : Node} {p : Path} : tree.precedingText p = none ↔ ¬∃ n, tree.Shown p n := by
  constructor
  · rintro h ⟨n, hn⟩
    obtain ⟨before, -, hbefore, -⟩ := hn.written
    rw [h] at hbefore
    cases hbefore
  · intro h
    cases hs : tree.precedingText p with
    | none => rfl
    | some s => exact absurd (shown_of_precedingText hs) h

/-! ## The search for a node -/

section

variable {mark : Nat}

theorem seek_of_mark {n : Node} (h : n.info.mark = some mark) : n.seek mark = .before "" := by
  obtain ⟨k, i, as, cs⟩ := n
  exact (seek.eq_1 mark k i as cs).trans (if_pos (beq_iff_eq.mpr h))

theorem seek_of_ne {n : Node} (h : n.info.mark ≠ some mark) : n.seek mark =
    if n.kind.isObject then .all n.write
    else
      match seekIn mark n.children with
      | .before s => .before (n.openingText ++ s)
      | .all s => .all (n.openingText ++ s ++ n.kind.closing) := by
  obtain ⟨k, i, as, cs⟩ := n
  exact (seek.eq_1 mark k i as cs).trans (if_neg (beq_iff_eq.not.mpr h))

mutual

/-- A search that does not come to the node writes the tree. -/
theorem seek_all : (n : Node) → ∀ s, n.seek mark = .all s → s = n.write
  | .mk k i as cs => by
    intro s h
    by_cases hmark : (mk k i as cs).info.mark = some mark
    · rw [seek_of_mark hmark] at h
      cases h
    · rw [seek_of_ne hmark] at h
      split at h
      · exact (Sought.all.inj h).symm
      · next hk =>
        rw [children_mk] at h
        cases hlist : seekIn mark cs with
        | before t =>
          rw [hlist] at h
          cases h
        | all t =>
          rw [hlist] at h
          obtain rfl := Sought.all.inj h
          rw [write_eq (Bool.eq_false_iff.mpr hk), children_mk, seekIn_all cs t hlist]

theorem seekIn_all : (ns : List Node) → ∀ s, seekIn mark ns = .all s → s = writeAll ns
  | [] => fun _ h => (Sought.all.inj h).symm
  | n :: ns => by
    intro s h
    rw [seekIn] at h
    cases hn : n.seek mark with
    | before t =>
      rw [hn] at h
      cases h
    | all t =>
      cases hlist : seekIn mark ns with
      | before u =>
        rw [hn, hlist] at h
        cases h
      | all u =>
        rw [hn, hlist] at h
        rw [← Sought.all.inj h, writeAll, seek_all n t hn, seekIn_all ns u hlist]

end

mutual

/-- A search that comes to a node has written what is before it. -/
theorem seek_before : (n : Node) → ∀ s, n.seek mark = .before s →
    ∃ p m, n.Shown p m ∧ m.info.mark = some mark ∧ n.precedingText p = some s
  | .mk k i as cs => by
    intro s h
    by_cases hmark : (mk k i as cs).info.mark = some mark
    · rw [seek_of_mark hmark] at h
      cases h
      exact ⟨[], _, .here _, hmark, rfl⟩
    · rw [seek_of_ne hmark] at h
      split at h
      · cases h
      · next hk =>
        rw [children_mk] at h
        cases hlist : seekIn mark cs with
        | all t =>
          rw [hlist] at h
          cases h
        | before t =>
          rw [hlist] at h
          obtain rfl := Sought.before.inj h
          obtain ⟨j, c, p, m, u, hc, hm, hmark, hu, rfl⟩ := seekIn_before cs t hlist
          refine ⟨.child j :: p, m, .child (Bool.eq_false_iff.mpr hk) hc hm, hmark, ?_⟩
          rw [precedingText_child (Bool.eq_false_iff.mpr hk), children_mk, hc, Option.bind_some, hu, Option.map_some,
            String.append_assoc]

theorem seekIn_before : (ns : List Node) → ∀ s, seekIn mark ns = .before s →
    ∃ j c p m t, ns[j]? = some c ∧ c.Shown p m ∧ m.info.mark = some mark ∧ c.precedingText p = some t ∧
      s = writeAll (ns.take j) ++ t
  | [] => fun _ h => nomatch h
  | n :: ns => by
    intro s h
    rw [seekIn] at h
    cases hn : n.seek mark with
    | before t =>
      rw [hn] at h
      obtain rfl := Sought.before.inj h
      obtain ⟨p, m, hm, hmark, ht⟩ := seek_before n t hn
      exact ⟨0, n, p, m, t, rfl, hm, hmark, ht, String.empty_append.symm⟩
    | all t =>
      cases hlist : seekIn mark ns with
      | all u =>
        rw [hn, hlist] at h
        cases h
      | before u =>
        rw [hn, hlist] at h
        obtain rfl := Sought.before.inj h
        obtain ⟨j, c, p, m, v, hc, hm, hmark, hv, rfl⟩ := seekIn_before ns u hlist
        refine ⟨j + 1, c, p, m, v, hc, hm, hmark, hv, ?_⟩
        rw [List.take_succ_cons, writeAll, seek_all n t hn, String.append_assoc]

end

theorem seekIn_of_getElem? {ns : List Node} {c : Node} {j : Nat} {s : String} (hc : ns[j]? = some c)
    (h : c.seek mark = .before s) : ∃ t, seekIn mark ns = .before t := by
  induction ns generalizing j with
  | nil => cases hc
  | cons n ns ih =>
    rw [seekIn]
    cases hn : n.seek mark with
    | before t => exact ⟨t, rfl⟩
    | all t =>
      cases j with
      | zero =>
        cases hc
        rw [hn] at h
        cases h
      | succ j =>
        obtain ⟨u, hu⟩ := ih hc
        rw [hu]
        exact ⟨t ++ u, rfl⟩

/-- A search comes to the node if the node is shown anywhere. -/
theorem Shown.exists_seek {n m : Node} {p : Path} (h : n.Shown p m) (hm : m.info.mark = some mark) :
    ∃ s, n.seek mark = .before s := by
  induction h with
  | here n => exact ⟨"", seek_of_mark hm⟩
  | @child n c m i p opens found below ih =>
    by_cases hn : n.info.mark = some mark
    · exact ⟨"", seek_of_mark hn⟩
    · obtain ⟨s, hs⟩ := ih hm
      obtain ⟨t, ht⟩ := seekIn_of_getElem? found hs
      rw [seek_of_ne hn, opens, if_neg Bool.false_ne_true, ht]
      exact ⟨_, rfl⟩

end

/-! ## Places of marks -/

/-- A marked node is the tree or visited, as attribute lists have no marks. -/
theorem eq_nil_or_visited {tree n : Node} {p : Path} {mark : Nat} (hn : tree.get? p = some n)
    (hmark : n.info.mark = some mark) : p = [] ∨ ∃ v ∈ tree.visits, v.path = p ∧ v.node = n := by
  rcases List.eq_nil_or_concat p with rfl | ⟨q, step, rfl⟩
  · exact .inl rfl
  · right
    rw [List.concat_eq_append, get?_append] at hn
    obtain ⟨m, hm, hn⟩ := Option.bind_eq_some_iff.mp hn
    cases step with
    | child i =>
      rw [get?_child] at hn
      obtain ⟨c, hc, hn⟩ := Option.bind_eq_some_iff.mp hn
      cases hn
      exact ⟨⟨q, i, n⟩, mem_visits hm hc, List.concat_eq_append.symm, rfl⟩
    | attributes =>
      rw [get?_attributes] at hn
      split at hn
      · cases hn
        cases hmark
      · cases hn

/-- The marks of the nodes and of all that is below them are different, and all in the range. -/
structure MarkedIn (a b : Nat) (ns : List Node) : Prop where
  le : a ≤ b
  nodup : ((within ns).filterMap fun n => n.info.mark).Nodup
  mem_range : ∀ k ∈ (within ns).filterMap fun n => n.info.mark, a ≤ k ∧ k < b

theorem MarkedIn.nil (a : Nat) : MarkedIn a a [] := ⟨Nat.le_refl a, List.nodup_nil, List.forall_mem_nil _⟩

theorem MarkedIn.append {a b c : Nat} {ns ms : List Node} (hn : MarkedIn a b ns) (hm : MarkedIn b c ms) :
    MarkedIn a c (ns ++ ms) := by
  have hab := hn.le
  have hbc := hm.le
  refine ⟨Nat.le_trans hab hbc, ?_, ?_⟩
  · rw [within_append, List.filterMap_append, List.nodup_append]
    refine ⟨hn.nodup, hm.nodup, ?_⟩
    rintro k hk _ hk' rfl
    have := hn.mem_range k hk
    have := hm.mem_range k hk'
    omega
  · rw [within_append, List.filterMap_append, List.forall_mem_append]
    refine ⟨fun k hk => ?_, fun k hk => ?_⟩
    · have := hn.mem_range k hk
      omega
    · have := hm.mem_range k hk
      omega

/-- A node may have the next mark after those below it. -/
theorem MarkedIn.node {a b : Nat} {as cs : List Node} (h : MarkedIn a b (as ++ cs)) (k : Kind) {i : Info}
    (hi : i.mark = some b) : MarkedIn a (b + 1) [.mk k i as cs] := by
  have hab := h.le
  have hmarks : ((within [Node.mk k i as cs]).filterMap fun n => n.info.mark) =
      b :: (within (as ++ cs)).filterMap fun n => n.info.mark := by
    rw [within_singleton, under_eq, attributes_mk, children_mk, ← within_append, List.filterMap_cons, info_mk, hi]
  refine ⟨Nat.le_succ_of_le hab, ?_, ?_⟩
  · rw [hmarks, List.nodup_cons]
    refine ⟨fun hb => ?_, h.nodup⟩
    have := h.mem_range b hb
    omega
  · rw [hmarks, List.forall_mem_cons]
    refine ⟨by omega, fun k hk => ?_⟩
    have := h.mem_range k hk
    omega

mutual

/-- Nodes without marks get different ones. -/
theorem markedIn_markAll : (n : Node) → (∀ m ∈ within [n], m.info.mark = none) → ∀ next,
    MarkedIn next (n.markAll next).2 [(n.markAll next).1]
  | .mk k i as cs => by
    intro h next
    rw [within_singleton, List.forall_mem_cons, under_eq, List.forall_mem_append] at h
    obtain ⟨hi, has, hcs⟩ := h
    have hbelow := (markedIn_markList as has next).append (markedIn_markList cs hcs _)
    rw [markAll, show i.mark = none from hi]
    exact hbelow.node k rfl

theorem markedIn_markList : (ns : List Node) → (∀ m ∈ within ns, m.info.mark = none) → ∀ next,
    MarkedIn next (markList next ns).2 (markList next ns).1
  | [] => fun _ next => .nil next
  | n :: ns => by
    intro h next
    rw [within_cons, List.forall_mem_append] at h
    have hn := markedIn_markAll n (by rw [within_singleton]; exact h.1) next
    exact hn.append (markedIn_markList ns h.2 _)

end

/-- In a tree that a session starts with, no mark is at two places. -/
theorem markedOnce_markAll {tree : Node} (h : ∀ n ∈ within [tree], n.info.mark = none) (next : Nat) :
    (tree.markAll next).1.MarkedOnce := (markedIn_markAll tree h next).nodup

section

variable {tree : Node} {mark : Nat} (honce : tree.MarkedOnce)
include honce

/-- The tree and the visited nodes have different marks, as far as they have any. -/
theorem MarkedOnce.split : (∀ k, tree.info.mark = some k → ∀ v ∈ tree.visits, v.node.info.mark ≠ some k) ∧
    tree.visits.Pairwise fun v w => ∀ k, v.node.info.mark = some k → w.node.info.mark ≠ some k := by
  rw [MarkedOnce, within_singleton, ← descendants_eq_under, descendants, List.Nodup, List.pairwise_filterMap,
    List.pairwise_cons, List.pairwise_map] at honce
  obtain ⟨hroot, hbelow⟩ := honce
  refine ⟨fun k hk v hv hvk => ?_, hbelow.imp fun {v w} h k hv hw => h k hv k hw rfl⟩
  exact hroot v.node (List.mem_map_of_mem hv) k hk k hvk rfl

/-- A mark leads to the only place that has it. -/
theorem MarkedOnce.markPath?_eq {n : Node} {p : Path} (hn : tree.get? p = some n) (hmark : n.info.mark = some mark) :
    tree.markPath? mark = some p := by
  obtain ⟨hroot, hbelow⟩ := honce.split
  rw [markPath?]
  rcases eq_nil_or_visited hn hmark with rfl | ⟨v, hv, rfl, rfl⟩
  · cases hn
    rw [if_pos (beq_iff_eq.mpr hmark)]
  · rw [if_neg fun h => hroot mark (eq_of_beq h) v hv hmark]
    obtain ⟨before, after, hsplit⟩ := List.append_of_mem hv
    have hfirst : ∀ w ∈ before, w.node.info.mark ≠ some mark := by
      intro w hw hwmark
      rw [hsplit] at hbelow
      exact (List.pairwise_append.mp hbelow).2.2 w hw v List.mem_cons_self mark hwmark hmark
    have hfind : tree.visits.find? (fun w => w.node.info.mark == some mark) = some v := by
      rw [List.find?_eq_some_iff_append]
      exact ⟨beq_iff_eq.mpr hmark, before, after, hsplit, fun w hw => by simpa using hfirst w hw⟩
    rw [hfind]
    rfl

end

/-- The place that a mark leads to has the mark, if there is a node. -/
theorem mark_of_markPath? {tree n : Node} {p : Path} {mark : Nat} (h : tree.markPath? mark = some p)
    (hn : tree.get? p = some n) : n.info.mark = some mark := by
  rw [markPath?] at h
  split at h
  · next hroot =>
    cases h
    cases hn
    exact eq_of_beq hroot
  · obtain ⟨v, hfind, rfl⟩ := Option.map_eq_some_iff.mp h
    have hv : v.node.info.mark = some mark := by simpa using List.find?_some hfind
    rcases get?_visit (List.mem_of_find?_eq_some hfind) with hget | hget
    · rw [hn] at hget
      rw [Option.some.inj hget, hv]
    · rw [hn] at hget
      cases hget

/-- A search writes what is before the place of the mark, or everything if there is no text before that. -/
theorem MarkedOnce.seek_eq {tree : Node} (honce : tree.MarkedOnce) (mark : Nat) :
    tree.seek mark = (tree.textBefore mark).elim (.all tree.write) .before := by
  cases hseek : tree.seek mark with
  | before s =>
    obtain ⟨p, n, hn, hmark, hs⟩ := seek_before tree s hseek
    rw [textBefore, honce.markPath?_eq hn.get?_eq hmark, Option.bind_some, hs]
    rfl
  | all s =>
    rw [seek_all tree s hseek]
    cases hbefore : tree.textBefore mark with
    | none => rfl
    | some t =>
      obtain ⟨p, hp, ht⟩ := Option.bind_eq_some_iff.mp hbefore
      obtain ⟨n, hn⟩ := shown_of_precedingText ht
      obtain ⟨u, hu⟩ := hn.exists_seek (mark_of_markPath? hp hn.get?_eq)
      rw [hseek] at hu
      cases hu

theorem MarkedOnce.textBefore_eq_none {tree : Node} (honce : tree.MarkedOnce) (mark : Nat) :
    tree.textBefore mark = none ↔ ¬∃ p n, tree.Shown p n ∧ n.info.mark = some mark := by
  have hseek := honce.seek_eq mark
  constructor
  · rintro hnone ⟨p, n, hn, hmark⟩
    obtain ⟨s, hs⟩ := hn.exists_seek hmark
    rw [hnone, hs] at hseek
    cases hseek
  · intro hnot
    cases hbefore : tree.textBefore mark with
    | none => rfl
    | some s =>
      rw [hbefore] at hseek
      obtain ⟨p, n, hn, hmark, -⟩ := seek_before tree s hseek
      exact absurd ⟨p, n, hn, hmark⟩ hnot

end Node

/-! ## The line of a place -/

namespace Text

/-- The position stands on the line that consists of the two parts, between them. -/
def StandsOn (text : String) (pos : Nat) (left right : List Char) : Prop :=
  ∃ n, (lines text)[n]? = some (left ++ right) ∧ lineColumn text pos = ⟨n + 1, left.length⟩

/-- The place where a text goes on is on a line that starts with the last line of the text. -/
theorem standsOn_append (before rest : String) :
    ∃ right, StandsOn (before ++ rest) before.length (lastLine before).toList right := by
  obtain ⟨front, part, heq, hfront, hpart⟩ := exists_ended before.toList
  have hcut : Cut (before ++ rest) front part rest.toList :=
    ⟨by rw [String.toList_append, heq, List.append_assoc], hfront, hpart⟩
  have hlast : (lastLine before).toList = part := by
    rw [lastLine, String.toList_ofList, heq, List.reverse_append, takeWhile_line (by simpa using hpart),
      takeWhile_ended_reverse, List.append_nil, List.reverse_reverse]
  have hlength : before.length = (ended front).length + part.length := by
    rw [← String.length_toList, heq, List.length_append]
  obtain ⟨right, back, hright⟩ := List.exists_cons_of_ne_nil (List.splitOn_ne_nil '\n' rest.toList)
  refine ⟨right, front.length, ?_, ?_⟩
  · rw [hcut.lines_eq, hright, hlast]
    simp
  · rw [hlength, hcut.lineColumn_eq, hlast]

/-- The white space at the beginning of a text goes on into what follows if there is nothing else in the text. -/
theorem lead_append (s t : String) : lead (s ++ t) = if isBlank s then lead s ++ lead t else lead s := by
  rw [lead, lead, lead, String.toList_append]
  by_cases h : isBlank s = true
  · have hall : ∀ c ∈ s.toList, isSpace c = true := List.all_eq_true.mp h
    rw [if_pos h, List.takeWhile_append_of_pos hall, List.takeWhile_eq_self_iff.mpr hall, String.ofList_append]
  · have hstops : (s.toList.takeWhile isSpace).length ≠ s.toList.length := fun hlength =>
      h (List.all_eq_true.mpr (List.takeWhile_eq_self_iff.mp ((List.takeWhile_prefix isSpace).eq_of_length hlength)))
    rw [if_neg h, List.takeWhile_append, if_neg hstops]

end Text

namespace Indent

/-- What is said of the place is true of a line that is divided in two where the node starts: whether there is nothing but
white space before the node on it, and which white space it starts with before the node. -/
structure Describes (tree : Node) (p : Path) (left right : List Char) : Prop where
  startsLine_eq : startsLine tree (some p) = Text.isBlank (.ofList left)
  indentation_eq : indentation tree (some p) = Text.lead (.ofList left)
  lead_eq : Text.lead (.ofList (left ++ right)) =
    if startsLine tree (some p) then indentation tree (some p) ++ Text.lead (.ofList right) else indentation tree (some p)

theorem describes_of_precedingText {tree : Node} {p : Path} {before : String} (h : tree.precedingText p = some before)
    (right : List Char) : Describes tree p (Text.lastLine before).toList right := by
  have hstarts : startsLine tree (some p) = Text.isBlank (Text.lastLine before) := by
    rw [startsLine, Option.bind_some, h]
  have hindentation : indentation tree (some p) = Text.lead (Text.lastLine before) := by
    rw [indentation, Option.bind_some, h]
  refine ⟨by rw [hstarts, String.ofList_toList], by rw [hindentation, String.ofList_toList], ?_⟩
  rw [String.ofList_append, String.ofList_toList, Text.lead_append, hstarts, hindentation]

end Indent

namespace Node

/-- In a tree of nodes nothing is in the way of the text before a place. There is such a text if and only if the place is
come to through lists of children and not through those of an object literal. Then the tree writes that text and the
node after it, and the white space worked out from that text is that of the line on which the node starts. If no mark is
at two places, a mark leads to its place, and a search for it has written the text before it when it comes there. -/
theorem preceding_text_written {tree : Node} (hnodes : tree.hasForeign = false) (honce : tree.MarkedOnce) :
    (∀ place, Indent.reach tree place = .ok ()) ∧
    (∀ p, tree.precedingText p = none ↔ ¬∃ n, tree.Shown p n) ∧
    (∀ p n, tree.Shown p n → tree.get? p = some n ∧ ∃ before after left right,
      tree.precedingText p = some before ∧ tree.write = before ++ n.write ++ after ∧
      Text.StandsOn tree.write before.length left right ∧ Indent.Describes tree p left right) ∧
    ∀ mark, (tree.textBefore mark = none ↔ ¬∃ p n, tree.Shown p n ∧ n.info.mark = some mark) ∧
      (∀ p n, tree.get? p = some n → n.info.mark = some mark → tree.markPath? mark = some p) ∧
      tree.seek mark = (tree.textBefore mark).elim (.all tree.write) .before := by
  refine ⟨reach_of_nodes hnodes, fun p => precedingText_eq_none, fun p n hn => ⟨hn.get?_eq, ?_⟩, fun mark =>
    ⟨honce.textBefore_eq_none mark, fun p n hn hmark => honce.markPath?_eq hn hmark, honce.seek_eq mark⟩⟩
  obtain ⟨before, after, hbefore, hwrite⟩ := hn.written
  obtain ⟨right, hright⟩ := Text.standsOn_append before (n.write ++ after)
  rw [← String.append_assoc, ← hwrite] at hright
  exact ⟨before, after, _, right, hbefore, hwrite, hright, Indent.describes_of_precedingText hbefore right⟩

/-- A paragraph with object literals in an attribute and among its children. -/
def objectParagraph : Node :=
  let object := new (.object " ") [new (.property "d" " " ": ") [new (.number "1") []]]
  element "p" [attr "a" (some (slot object))] [text "\n  ", element "b" [] [], slot object]

/-- The paragraph in a document, as a session starts with it. -/
def markedParagraph : Node := ((new (.document none) [code "x = ", objectParagraph]).markAll 0).1

theorem markedParagraph_written : markedParagraph.write = "x = <p a={{ d: 1 }}>\n  <b />{{ d: 1 }}</p>" ∧
    (∃ before after left right, markedParagraph.precedingText [.child 1, .child 1] = some before ∧
      markedParagraph.write = before ++ "<b />" ++ after ∧
      Text.StandsOn markedParagraph.write before.length left right ∧
      Indent.Describes markedParagraph [.child 1, .child 1] left right) ∧
    markedParagraph.precedingText [.child 1, .child 2, .child 0, .child 0] = none := by
  have honce : markedParagraph.MarkedOnce := markedOnce_markAll (by decide +kernel) 0
  have hnodes : markedParagraph.hasForeign = false := by decide +kernel
  obtain ⟨-, hnone, hshown, -⟩ := preceding_text_written hnodes honce
  refine ⟨by decide +kernel, ?_, (hnone _).mpr ?_⟩
  · have hbold : markedParagraph.Shown [.child 1, .child 1] _ := .child rfl rfl (.child rfl rfl (.here _))
    obtain ⟨-, before, after, left, right, hbefore, hwrite, hline⟩ := hshown _ _ hbold
    exact ⟨before, after, left, right, hbefore, hwrite, hline⟩
  · -- the place is inside the object literal among the children
    rintro ⟨n, _ | ⟨-, hparagraph, _ | ⟨-, hslot, _ | ⟨-, hobject, _ | ⟨hopens, -, -⟩⟩⟩⟩⟩
    obtain rfl := Option.some.inj hparagraph
    obtain rfl := Option.some.inj hslot
    obtain rfl := Option.some.inj hobject
    cases hopens

end Node
end JsxEdit
