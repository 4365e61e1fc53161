import JsxEdit.Proofs.Discipline
import Mathlib.Data.List.Chain

/-
The nodes of a list of children that are no white space.

They are what an edit counts and moves; the white space between them follows rules of its own. Merging white space
leaves them as they are, and changes nothing where no white space meets white space.
-/
set_option autoImplicit false

namespace JsxEdit
namespace Node

/-- The nodes that are no white space. -/
def solids (ns : List Node) : List Node := ns.filter fun n => !n.isWhitespace

@[simp] theorem solids_nil : solids [] = [] := rfl

@[simp] theorem solids_append (as bs : List Node) : solids (as ++ bs) = solids as ++ solids bs :=
  List.filter_append ..

theorem solids_cons_solid {n : Node} (h : n.isWhitespace = false) (ns : List Node) :
    solids (n :: ns) = n :: solids ns := by
  rw [solids, List.filter_cons, h]
  rfl

theorem solids_cons_blank {n : Node} (h : n.isWhitespace = true) (ns : List Node) : solids (n :: ns) = solids ns := by
  rw [solids, List.filter_cons, h]
  rfl

/-- Without a node that is no white space there is only white space. -/
theorem solids_eq_nil {ns : List Node} : solids ns = [] ↔ ∀ n ∈ ns, n.isWhitespace = true := by
  simp [solids, List.filter_eq_nil_iff]

theorem solid_of_mem_solids {n : Node} {ns : List Node} (h : n ∈ solids ns) : n.isWhitespace = false := by
  have := (List.mem_filter.mp h).2
  simpa using this

/-- The last node that is no white space has only white space after it. -/
theorem split_last_solid {ns : List Node} (h : solids ns ≠ []) :
    ∃ left y gap, ns = left ++ y :: gap ∧ y.isWhitespace = false ∧ ∀ n ∈ gap, n.isWhitespace = true := by
  induction ns with
  | nil => exact absurd rfl h
  | cons n ns ih =>
    by_cases hns : solids ns = []
    · cases hn : n.isWhitespace with
      | true => exact absurd (by rw [solids_cons_blank hn, hns]) h
      | false => exact ⟨[], n, ns, rfl, hn, solids_eq_nil.mp hns⟩
    · obtain ⟨left, y, gap, rfl, hy, hgap⟩ := ih hns
      exact ⟨n :: left, y, gap, rfl, hy, hgap⟩

/-- The first node that is no white space has only white space before it. -/
theorem split_first_solid {ns : List Node} (h : solids ns ≠ []) :
    ∃ gap y right, ns = gap ++ y :: right ∧ y.isWhitespace = false ∧ ∀ n ∈ gap, n.isWhitespace = true := by
  induction ns with
  | nil => exact absurd rfl h
  | cons n ns ih =>
    cases hn : n.isWhitespace with
    | false => exact ⟨[], n, ns, rfl, hn, fun m hm => by cases hm⟩
    | true =>
      rw [solids_cons_blank hn] at h
      obtain ⟨gap, y, right, rfl, hy, hgap⟩ := ih h
      refine ⟨n :: gap, y, right, rfl, hy, fun m hm => ?_⟩
      rcases List.mem_cons.mp hm with rfl | hm
      · exact hn
      · exact hgap m hm

/-- Markup is no white space. -/
theorem solid_of_isMarkup {n : Node} (h : n.kind.isMarkup = true) : n.isWhitespace = false := by
  rw [isWhitespace]
  cases hk : n.kind with
  | element => rfl
  | fragment => rfl
  | _ =>
    rw [hk] at h
    cases h

/-! ## Merged white space -/

theorem isWhitespace_text {s : String} : (text s).isWhitespace = Text.isBlank s := rfl

/-- White space before anything but white space stays by itself. -/
theorem prepend_apart {n : Node} {ns : List Node}
    (h : n.isWhitespace = false ∨ ∀ m ∈ ns.head?, m.isWhitespace = false) : prepend n ns = n :: ns := by
  unfold prepend
  split
  · rfl
  · next m ms =>
    split
    · next s t hs ht =>
      have hn : n.isWhitespace = Text.isBlank s := by rw [isWhitespace, hs]; rfl
      have hm : m.isWhitespace = Text.isBlank t := by rw [isWhitespace, ht]; rfl
      rw [hn] at h
      rcases h with h | h
      · rw [h, Bool.false_and, if_neg Bool.false_ne_true]
      · have := h m rfl
        rw [hm] at this
        rw [this, Bool.and_false, if_neg Bool.false_ne_true]
    · rfl

/-- White space before white space is merged with it to one node of white space. -/
theorem prepend_blank {n m : Node} (hn : n.isWhitespace = true) (hm : m.isWhitespace = true) (ms : List Node) :
    ∃ w, w.isWhitespace = true ∧ prepend n (m :: ms) = w :: ms := by
  unfold prepend
  dsimp only
  split
  · next s t hs ht =>
    have hs' : Text.isBlank s = true := by rw [isWhitespace, hs] at hn; exact hn
    have ht' : Text.isBlank t = true := by rw [isWhitespace, ht] at hm; exact hm
    refine ⟨n.withKind (.text (Whitespace.heavier s t)), ?_, ?_⟩
    · rw [isWhitespace, kind_withKind]
      exact Whitespace.isBlank_heavier hs' ht'
    · rw [hs', ht', Bool.and_self, if_pos rfl]
  · next hneither =>
    exfalso
    rw [isWhitespace] at hn hm
    cases hk : n.kind with
    | text s =>
      cases hl : m.kind with
      | text t => exact hneither s t hk hl
      | _ =>
        rw [hl] at hm
        cases hm
    | _ =>
      rw [hk] at hn
      cases hn

theorem solids_prepend (n : Node) (ns : List Node) : solids (prepend n ns) = solids (n :: ns) := by
  cases ns with
  | nil => rfl
  | cons m ms =>
    cases hn : n.isWhitespace with
    | false => rw [prepend_apart (.inl hn)]
    | true =>
      cases hm : m.isWhitespace with
      | false =>
        rw [prepend_apart (.inr _)]
        rintro _ ⟨⟩
        exact hm
      | true =>
        obtain ⟨w, hw, h⟩ := prepend_blank hn hm ms
        rw [h, solids_cons_blank hw, solids_cons_blank hn, solids_cons_blank hm]

/-- Merging leaves all that is no white space. -/
@[simp] theorem solids_mergeWhitespace (ns : List Node) : solids (mergeWhitespace ns) = solids ns := by
  induction ns with
  | nil => rfl
  | cons n ns ih =>
    have hmerge : mergeWhitespace (n :: ns) = prepend n (mergeWhitespace ns) := rfl
    rw [hmerge, solids_prepend]
    cases hn : n.isWhitespace with
    | true => rw [solids_cons_blank hn, solids_cons_blank hn, ih]
    | false => rw [solids_cons_solid hn, solids_cons_solid hn, ih]

/-- The list has no white space next to white space. -/
def Spaced (ns : List Node) : Prop := ns.IsChain fun a b => a.isWhitespace = true → b.isWhitespace = false

/-- Where no white space meets white space there is nothing to merge. -/
theorem mergeWhitespace_of_spaced {ns : List Node} (h : Spaced ns) : mergeWhitespace ns = ns := by
  induction ns with
  | nil => rfl
  | cons n ns ih =>
    have hmerge : mergeWhitespace (n :: ns) = prepend n (mergeWhitespace ns) := rfl
    rw [hmerge, ih (List.IsChain.tail h)]
    refine prepend_apart ?_
    cases hn : n.isWhitespace with
    | false => exact .inl rfl
    | true =>
      refine .inr fun m hm => ?_
      cases ns with
      | nil => cases hm
      | cons m' ms =>
        cases hm
        exact (List.isChain_cons_cons.mp h).1 hn

/-! ## Places -/

/-- A node of a list has nodes before and after it, and is changed between them. -/
theorem split_at (f : Node → Node) {ns : List Node} {i : Nat} {c : Node} (h : ns[i]? = some c) :
    ∃ left right, ns = left ++ c :: right ∧ left.length = i ∧ ns.modify i f = left ++ f c :: right := by
  obtain ⟨hi, -⟩ := List.getElem?_eq_some_iff.mp h
  obtain ⟨left, c', right, rfl, rfl, hmodify⟩ := List.exists_of_modify f hi
  rw [List.getElem?_append_right (Nat.le_refl _), Nat.sub_self] at h
  obtain rfl : c' = c := Option.some.inj h
  exact ⟨left, right, rfl, rfl, hmodify⟩

/-- Only what happens to the node at the place counts. -/
theorem modify_congr {f g : Node → Node} {p : Path} {n : Node} (h : ∀ m, n.get? p = some m → f m = g m) :
    n.modify f p = n.modify g p := by
  cases hm : n.get? p with
  | none => rw [modify_of_get?_none f hm, modify_of_get?_none g hm]
  | some m => rw [modify_eq_set f hm, modify_eq_set g hm, h m hm]

theorem modifyChildren_const {f : List Node → List Node} {p : Path} {n m : Node} (h : n.get? p = some m) :
    n.modifyChildren f p = n.modifyChildren (fun _ => f m.children) p := by
  refine modify_congr fun k hk => ?_
  rw [h] at hk
  cases hk
  rfl

end Node

namespace Edit
open Node

/-- White space before a node is taken out with it. -/
theorem detach_blank (left right : List Node) {w : Node} (hw : w.isWhitespace = true) (n : Node) :
    detach (left ++ w :: n :: right) (left.length + 1) = left ++ right := by
  have hbefore : whitespaceBefore (left ++ w :: n :: right) (left.length + 1) = true := by
    simp [whitespaceBefore, hw]
  rw [detach, detachRange, if_pos hbefore]
  simp

theorem detach_solid {left : List Node} (hleft : ∀ y ∈ left.getLast?, y.isWhitespace = false) (right : List Node)
    (n : Node) : detach (left ++ n :: right) left.length = left ++ right := by
  have hbefore : whitespaceBefore (left ++ n :: right) left.length = false := by
    rcases List.eq_nil_or_concat left with rfl | ⟨front, y, rfl⟩
    · rfl
    · simp [whitespaceBefore, hleft y (by simp)]
  rw [detach, detachRange, hbefore, if_neg Bool.false_ne_true]
  simp

/-- An element inside markup has siblings before and after it. -/
theorem Found.siblings_split {tree : Node} {id : String} {v : Visit} (hv : Found tree id v)
    (hp : isMarkupPlace tree v.parent = true) :
    ∃ m left right, tree.get? v.parent = some m ∧ m.kind.isMarkup = true ∧ m.children = left ++ v.node :: right ∧
      left.length = v.index := by
  rw [isMarkupPlace] at hp
  cases hm : tree.get? v.parent with
  | none =>
    rw [hm] at hp
    cases hp
  | some m =>
    rw [hm] at hp
    obtain ⟨left, right, hc, hi, -⟩ := split_at (fun n => n) (hv.among hm)
    exact ⟨m, left, right, rfl, hp, hc, hi⟩

end Edit

/-! ## Replies of edits that succeeded -/

namespace Reply

/-- The reply is the result of an edit that succeeded. -/
def Succeeds (r : Reply) : Prop := ∃ o, r.result = .ok o ∧ o.success = true

theorem succeeds_iff {r : Reply} : r.Succeeds ↔ r.result.toOption.any Outcome.success = true := by
  unfold Succeeds
  cases r.result with
  | error f => exact iff_of_false (fun ⟨o, ho, _⟩ => nomatch ho) Bool.false_ne_true
  | ok o => exact ⟨fun ⟨o', ho, hs⟩ => by cases ho; exact hs, fun hs => ⟨o, rfl, hs⟩⟩

instance (r : Reply) : Decidable r.Succeeds := decidable_of_iff' _ succeeds_iff

@[simp] theorem succeeds_succeeded (tree : Node) (message : String) (extra : Dict (Value Node)) :
    (succeeded tree message extra).Succeeds := ⟨_, rfl, rfl⟩

@[simp] theorem not_succeeds_failed (tree : Node) (kind : ErrorKind) (message : String) (extra : Dict (Value Node)) :
    ¬(failed tree kind message extra).Succeeds := by
  rintro ⟨o, ho, hs⟩
  cases ho
  cases hs

@[simp] theorem not_succeeds_notFound (tree : Node) (id : String) (extra : Dict (Value Node)) :
    ¬(notFound tree id extra).Succeeds := not_succeeds_failed tree _ _ extra

@[simp] theorem not_succeeds_invalid (tree : Node) (message : String) (extra : Dict (Value Node)) :
    ¬(invalid tree message extra).Succeeds := not_succeeds_failed tree _ message extra

@[simp] theorem not_succeeds_duplicate (tree : Node) (ids : List String) : ¬(duplicate tree ids).Succeeds :=
  not_succeeds_invalid tree _ []

@[simp] theorem not_succeeds_fault (tree : Node) (f : Fault) : ¬(fault tree f).Succeeds := by
  rintro ⟨o, ho, -⟩
  cases ho

@[simp] theorem succeeds_after (log : List Record) (r : Reply) : (after log r).Succeeds ↔ r.Succeeds := Iff.rfl

end Reply
end JsxEdit
