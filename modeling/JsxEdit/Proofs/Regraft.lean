import JsxEdit.Proofs.Graft
import JsxEdit.Proofs.Nesting
import JsxEdit.Proofs.TagText

/-
Exchanging parts of an opening tag.

Where some parts of an opening tag give their place to others, and what is read of the whole tag is again an element, the
text with the other parts is read as the document with the other element.
-/
set_option autoImplicit false

namespace JsxEdit

open Piece (allEvents allMarkups)
open Scan.Stand (InTag)
open Markup (part allParts elementFrom)
open List (Forall₂)

/-! ## One place for one element -/

namespace Node

theorem start_of_hit {p : Nat} {n : Node} (h : n.isHit (· == p) = true) : n.kind.isMarkup = true ∧ n.start = .ok (some p) := by
  obtain ⟨k, i, as, cs⟩ := n
  obtain ⟨hk, hhead⟩ := Bool.and_eq_true_iff.mp h
  obtain ⟨span, hspan, hp⟩ := (Option.any_eq_true _ _).mp hhead
  refine ⟨hk, ?_⟩
  rw [kind_mk, info_mk] at *
  rw [start, hspan]
  dsimp only
  rw [beq_iff_eq.mp hp]

theorem countP_le_one {α : Type} {p : α → Bool} {xs : List α} (h : xs.Pairwise fun x y => ¬ (p x = true ∧ p y = true)) :
    xs.countP p ≤ 1 := by
  induction h with
  | nil => exact Nat.zero_le 1
  | @cons x xs hx _ ih =>
    rw [List.countP_cons]
    split
    · next hp =>
      have hnone : xs.countP p = 0 := List.countP_eq_zero.mpr fun y hy hpy => hx y hy ⟨hp, hpy⟩
      rw [hnone]
    · exact ih

/-- No two elements of a document start at the same place. -/
theorem hit_once {text : String} {tree : Node} (h : Source.parse text = .ok tree) (p : Nat) :
    (within [tree]).countP (isHit (· == p)) ≤ 1 := by
  obtain ⟨rfl, hvalid⟩ := Source.parse_eq_ok h
  have hmarkups (ns : List Node) : (within ns).countP (isHit (· == p)) = (markups ns).countP (isHit (· == p)) := by
    rw [markups, List.countP_filter]
    refine List.countP_congr fun n _ => ?_
    rw [Bool.and_eq_true]
    exact ⟨fun hhit => ⟨hhit, (start_of_hit hhit).1⟩, fun hboth => hboth.1⟩
  rw [hmarkups]
  show (markups [.mk (.document (some text)) {} [] (Markup.nodes text)]).countP _ ≤ 1
  rw [markups_other rfl, markups_nil, List.nil_append]
  refine countP_le_one ((Markup.markups_nest hvalid).imp ?_)
  rintro n m ⟨a, b, c, d, ⟨hab, hn, -⟩, ⟨-, hm, -⟩, hlt⟩ ⟨hhit, hhit'⟩
  rw [(start_of_hit hhit).2] at hn
  rw [(start_of_hit hhit').2] at hm
  obtain rfl := Option.some.inj (Except.ok.inj hn)
  obtain rfl := Option.some.inj (Except.ok.inj hm)
  omega

end Node

/-! ## The other element -/

section

variable {text text' : String} {tree e new : Node} {angle name : Token} {A G G' B : List Piece}

theorem hit_element (h : e = elementFrom angle name ⟨[], "", false⟩ (allParts (A ++ G ++ B))) (hk : e.kind.isElement = true)
    (hvalid : e.isValid = true) : e.isHit (· == angle.pos) = true := by
  subst h
  rw [Node.isHit, Node.starts, Markup.head_elementFrom hvalid, Node.isMarkup_of_isElement hk]
  simp [Markup.spanOf]

/-- What the other parts of a tag have to be read as. -/
structure Exchanges (angle name : Token) (A G' B : List Piece) (new : Node) : Prop where
  kind : new.kind.isElement = true
  valid : new.isValid = true
  node : ∀ B', Forall₂ (Likeness.elsewhere.Pieces fun _ _ => False) B B' →
    (elementFrom angle name ⟨[], "", false⟩ (allParts (A ++ G' ++ B'))).blind = new
  kept : ∀ B', Forall₂ (Likeness.elsewhere.Pieces fun _ _ => False) B B' →
    Judged.keepsTag name.text false (judgeAll (A ++ G' ++ B')) = true

theorem Exchanges.judgement (h : Exchanges angle name A G' B new) (hk : e.kind.isElement = true) (hvalid : e.isValid = true)
    (he : e = elementFrom angle name ⟨[], "", false⟩ (allParts (A ++ G ++ B)))
    (hkept : (judge (.stretch .tag (.token angle :: .token name :: (A ++ G ++ B)))).markup = true) {B' : List Piece}
    (hB : Forall₂ (Likeness.elsewhere.Pieces fun _ _ => False) B B') :
    (Node.swapping (· == angle.pos) new h.kind).Judgements (judge (.stretch .tag (.token angle :: .token name :: (A ++ G ++ B))))
      (judge (.stretch .tag (.token angle :: .token name :: (A ++ G' ++ B')))) := by
  refine ⟨?_, ?_, rfl, rfl⟩
  · rw [Judged.part_judge, Judged.part_judge]
    have hpart (ps : List Piece) : part (.stretch .tag (.token angle :: .token name :: ps)) =
        .leaf (.node (elementFrom angle name ⟨[], "", false⟩ (allParts ps))) := rfl
    rw [hpart, hpart, ← he]
    refine .leaf (.node ?_)
    show Node.blind _ = Node.swap _ new e
    rw [h.node B' hB, Node.swap_hit (hit_element he hk hvalid)]
  · rw [hkept]
    exact h.kept B' hB

/-- The pieces of a tag are well-formed. -/
theorem formed_of_tag {angle name : Token} {ps : List Piece}
    (h : Piece.Formed (.stretch .tag (.token angle :: .token name :: ps))) :
    ∀ p ∈ ps, p.Formed := by
  generalize hq : Piece.stretch .tag (.token angle :: .token name :: ps) = q at h
  cases h with
  | token => cases hq
  | stretch opens ends accepted inner outer =>
    obtain ⟨rfl, hitems⟩ := Piece.stretch.inj hq
    cases opens with
    | tag =>
      simp only [List.cons_append, List.nil_append] at hitems
      obtain ⟨-, hrest⟩ := List.cons.inj hitems
      obtain ⟨-, rfl⟩ := List.cons.inj hrest
      exact List.forall_mem_append.mpr ⟨inner, outer⟩

/-- The text with other parts in a tag is read as the document with the other element, and written as it is. -/
theorem Exchanges.exists_document (h : Exchanges angle name A G' B new) (hparse : Source.parse text = .ok tree)
    (hkept : keeps text = true)
    (hq : .stretch .tag (.token angle :: .token name :: (A ++ G ++ B)) ∈ allMarkups (Piece.ofText text))
    (he : e = elementFrom angle name ⟨[], "", false⟩ (allParts (A ++ G ++ B))) (hk : e.kind.isElement = true)
    (hvalid : e.isValid = true) {x S S' Z : List Char} {around : List Mode} {es₁ es₂ : List Event} {s : Scan.Stand}
    (htext : text.toList = x ++ (S ++ Z)) (htext' : text'.toList = x ++ (S' ++ Z))
    (hs : s = Scan.Stand.start.after (S ++ Z) x)
    (hfence : Scan.Stand.start.brings (S' ++ Z) x = Scan.Stand.start.brings (S ++ Z) x ∧
      Scan.Stand.start.after (S' ++ Z) x = Scan.Stand.start.after (S ++ Z) x)
    (hbefore : Scan.Stand.start.brings (S ++ Z) x = es₁ ++ .enter .tag :: .token angle :: .token name :: allEvents A)
    (hin : InTag around s) (hold : s.brings Z S = allEvents G ∧ InTag around (s.after Z S))
    (hnew : s.brings Z S' = allEvents G' ∧ InTag around (s.after Z S'))
    (hrest : (s.after Z S).run Z = allEvents B ++ .leave :: es₂)
    (hcovers : (∀ p ∈ G', p.Formed) → (Event.allText (allEvents G')).length = S'.length) :
    ∃ tree', Source.parse text' = .ok tree' ∧ tree'.write = text' ∧
      (tree'.withKind tree.kind).blind = Node.swap (· == angle.pos) new tree := by
  obtain ⟨B', hB, hgraft⟩ := exists_graft htext htext' hs hfence hold.2 hnew.2 hbefore hold.1 hnew.1 hrest
  have hunread : Scan.unread text = [] := by
    rw [keeps, Bool.and_eq_true] at hkept
    exact List.isEmpty_iff.mp hkept.1
  have hformed := formed_of_tag (Markup.formed_of_mem_allMarkups (hgraft.mem List.mem_cons_self hq))
  have hlength := hcovers fun p hp => hformed p (List.mem_append_left _ (List.mem_append_right _ hp))
  have hunread' := unread_graft htext htext' hs hfence hold.2 hnew.2 hin hunread (by rw [hnew.1]; exact hlength)
  exact hgraft.exists_document hparse hkept hunread' h.kind h.valid
    (h.judgement hk hvalid he (markup_of_keeps hkept _ hq) hB)

end

end JsxEdit
