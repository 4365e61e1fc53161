import JsxEdit.Proofs.Bracing
import JsxEdit.Proofs.Regraft

/-
The text of the elements of a document.

An element of a document has pieces that stand in its text. After some of its attributes there comes another one, white
space or the end of the tag.
-/
set_option autoImplicit false

namespace JsxEdit

open Piece (allEvents allMarkups)
open Scan (Begins)
open Scan.Stand (InTag IsPending)
open Markup (part allParts elementFrom Through)
open List (Forall₂)

/-! ## The parts of a tag -/

theorem judgeAll_inTag {ps : List Piece} (h : ∀ p ∈ ps, p.Accepts .tag ∧ p.Formed) : ∀ x ∈ judgeAll ps, Tag.InTag x := by
  intro x hx
  obtain ⟨p, hp, rfl⟩ := Judged.mem_judgeAll hx
  exact Judged.inTag_of_accepts (h p hp).1 (Judged.judge_sound (h p hp).2)

theorem judgeAll_ending {ps : List Piece} (h : Piece.Ends .tag ps) (hformed : ∀ p ∈ ps, p.Formed) :
    Tag.Ending (judgeAll ps) := by
  cases h with
  | none => exact .none
  | selfClosing kind text => exact .selfClosing kind text
  | opened kind text => exact .opened kind text
  | content kind text =>
    exact .content kind text rfl (Judged.judge_sound (hformed _ (List.mem_cons_of_mem _ List.mem_cons_self)))

/-- Where an element goes on, there is an event of its own. -/
theorem begins_rest {angle name : Token} {o : Markup.Opening} {items last : List Piece}
    (h : ∀ p ∈ items, p.Accepts .tag ∧ p.Formed) (hlast : Piece.Ends .tag last)
    (hvalid : (elementFrom angle name o (allParts (items ++ last))).isValid = true) :
    ∃ e es, allEvents (items ++ last) = e :: es ∧ Begins e := by
  have hdelimiter {t : Token} (hkind : t.kind = .delimiter) (ps : List Piece) :
      ∃ e es, allEvents (.token t :: ps) = e :: es ∧ Begins e :=
    exists_begins (.token t) nofun (fun u hu => by
      obtain rfl := Piece.token.inj hu
      rw [hkind]
      exact ⟨nofun, nofun⟩) ps
  cases items with
  | nil =>
    cases hlast with
    | none =>
      rw [List.nil_append, allParts, elementFrom, Tag.invalid_isValid] at hvalid
      cases hvalid
    | selfClosing kind | opened kind | content kind => exact hdelimiter kind _
  | cons p items =>
    obtain ⟨haccepts, hformed⟩ := h p List.mem_cons_self
    have hin := Judged.inTag_of_accepts haccepts (Judged.judge_sound hformed)
    rw [List.cons_append, allParts, ← Judged.part_judge] at hvalid
    obtain ⟨o', hpasses⟩ := Markup.exists_passes hin hvalid
    refine exists_begins hformed ?_ (fun t ht => ?_) _
    · rintro its rfl
      cases haccepts.1
    · subst ht
      exact hpasses.kind hin rfl

/-! ## The rest of a tag -/

/-- Attributes are neither elements nor what could not be read. -/
theorem Markup.Through.inner {o o' : Markup.Opening} {ps : List Part} (h : Through o ps o')
    (ho : ∀ a ∈ o.attributes, a.kind.IsInner) : ∀ a ∈ o'.attributes, a.kind.IsInner := by
  induction h with
  | nil => exact ho
  | @cons o o' o'' p ps first _ ih =>
    refine ih ?_
    have hgive (v : Node) : ∀ a ∈ (o.giveValue v).attributes, a.kind.IsInner := by
      unfold Markup.Opening.giveValue
      split
      · exact ho
      · next a as has =>
        rw [has, List.forall_mem_cons] at ho
        refine List.forall_mem_cons.mpr ⟨?_, ho.2⟩
        rw [Node.kind_withChildren]
        exact ho.1
    cases first with
    | space | equals | angle | node => exact ho
    | name => exact List.forall_mem_cons.mpr ⟨⟨rfl, rfl⟩, ho⟩
    | quoted | value => exact hgive _
    | spread free reads =>
      obtain ⟨⟨space, hkind⟩, -⟩ := Markup.kind_spread reads
      refine List.forall_mem_cons.mpr ⟨?_, ho⟩
      rw [hkind]
      exact ⟨rfl, rfl⟩

theorem Likeness.elsewhere_self (n : Node) : elsewhere.nodes n n :=
  (Node.swap_eq_blind _ n fun _ _ => Node.starts_nowhere _ _).symm

section

variable {B B' : List Piece} (hB : Forall₂ (Likeness.elsewhere.Pieces fun _ _ => False) B B') (hformed : ∀ p ∈ B, p.Formed)
include hB hformed

theorem judgeAll_elsewhere : Forall₂ Likeness.elsewhere.Judgements (judgeAll B) (judgeAll B') := by
  rw [Likeness.judgeAll_eq_map, Likeness.judgeAll_eq_map, List.forall₂_map_left_iff, List.forall₂_map_right_iff]
  refine ((List.forall₂_and_left _ _).mpr ⟨hformed, hB⟩).imp fun p p' hp => ?_
  exact Likeness.judge_alike (fun _ _ hfalse => hfalse.elim) hp.1 hp.2

/-- What is read of the rest of a tag elsewhere is the same. -/
theorem elementFrom_elsewhere {o : Markup.Opening} (ho : ∀ a ∈ o.attributes, a.kind.IsInner) (angle name : Token) :
    (elementFrom angle name o (allParts B')).blind = (elementFrom angle name o (allParts B)).blind := by
  refine Likeness.elsewhere_nodes (Likeness.elementFrom_alike (Likeness.elsewhere_tokens rfl rfl)
    (Likeness.elsewhere_tokens rfl rfl) ⟨?_, rfl, rfl⟩ ?_ fun p hp => ?_)
  · exact List.forall₂_same.mpr fun a ha => ⟨Likeness.elsewhere_self a, ho a ha⟩
  · have hparts := Likeness.parts_alike (judgeAll_elsewhere hB hformed)
    rwa [Judged.parts_judgeAll, Judged.parts_judgeAll] at hparts
  · rw [Markup.allParts_eq_map] at hp
    obtain ⟨q, hq, rfl⟩ := List.mem_map.mp hp
    exact Markup.reads_part (hformed q hq)

end

/-! ## Elements of a document -/

/-- An element of a document that is kept, with the pieces that it was read from. -/
structure Drawn (text : String) (angle name : Token) (items last : List Piece) (e : Node) : Prop where
  mem : .stretch .tag (.token angle :: .token name :: (items ++ last)) ∈ allMarkups (Piece.ofText text)
  tagged : Tagged angle name items last e
  element : e.kind.isElement = true
  valid : e.isValid = true
  kept : Judged.keepsTag name.text false (judgeAll (items ++ last)) = true

theorem exists_drawn {text : String} {tree e : Node} (h : Source.parse text = .ok tree) (hkept : keeps text = true)
    (he : e ∈ tree.under) (hk : e.kind.isElement = true) : ∃ angle name items last, Drawn text angle name items last e := by
  obtain ⟨q, hq, hpart⟩ := Source.exists_markup_piece h he (Node.isMarkup_of_isElement hk)
  obtain ⟨angle, name, items, last, rfl, htagged⟩ := exists_tagged (Markup.formed_of_mem_allMarkups hq) hpart hk
  obtain ⟨rfl, hvalid⟩ := Source.parse_eq_ok h
  refine ⟨angle, name, items, last, hq, htagged, hk, ?_, markup_of_keeps hkept _ hq⟩
  refine Node.isValid_of_mem_under _ ?_ e he
  show Node.isValid (.mk (.document (some text)) {} [] (Markup.nodes text)) = true
  rw [Node.isValid, hvalid]
  rfl

theorem Drawn.part {text : String} {angle name : Token} {items last : List Piece} {e : Node}
    (h : Drawn text angle name items last e) :
    part (.stretch .tag (.token angle :: .token name :: (items ++ last))) = .leaf (.node e) := by
  rw [h.tagged.node]
  rfl

/-- A tag can be cut before some of its parts, as long as what is before them can be read. -/
theorem Drawn.exists_place {text : String} {angle name : Token} {items last A B : List Piece} {e : Node}
    (h : Drawn text angle name items last e) (hitems : items ++ last = A ++ B) {o : Markup.Opening}
    (hA : ∀ p ∈ A, p.Accepts .tag ∧ p.Formed) (hthrough : Through ⟨[], "", false⟩ (allParts A) o)
    (hB : ∃ e es, allEvents B = e :: es ∧ Begins e) : ∃ x r around es₁ es₂, text.toList = x ++ r ∧
      Scan.Stand.start.brings r x = es₁ ++ .enter .tag :: .token angle :: .token name :: allEvents A ∧
      InTag around (Scan.Stand.start.after r x) ∧
      (Scan.Stand.start.after r x).run r = allEvents B ++ .leave :: es₂ := by
  have hmem := h.mem
  have hpart := h.part
  rw [hitems] at hmem hpart
  refine JsxEdit.exists_place hmem (fun n hn => ?_) (fun p hp t ht => ?_) hB
  · rw [hpart] at hn
    obtain rfl := Leaf.node.inj (Part.leaf.inj hn)
    have helement := h.element
    cases hk : e.kind with
    | element => rfl
    | _ => rw [hk] at helement; cases helement
  · subst ht
    rw [← Judged.parts_judgeAll] at hthrough
    refine hthrough.kinds (judgeAll_inTag hA) (judge (.token t)) ?_ t rfl
    rw [Likeness.judgeAll_eq_map]
    exact List.mem_map_of_mem hp

/-! ## Parts of a tag and their text -/

/-- Tokens that stand one after the other stop where their text does. -/
theorem Token.Tiles.stop_eq {text : String} {a b : Nat} {es : List Event} (h : Tiles text a (Event.tokens es) b) :
    b = a + (Event.allText es).length := by
  induction es generalizing a with
  | nil => exact Eq.symm h
  | cons e es ih =>
    cases e with
    | token t =>
      obtain ⟨rfl, -, -, hrest⟩ := h
      rw [ih hrest, Token.stop, Nat.add_assoc]
      congr 1
      show _ = (t.text.toList ++ Event.allText es).length
      rw [List.length_append, String.length_toList]
    | enter mode => exact ih h
    | leave => exact ih h

mutual

theorem Piece.tokens_events : (p : Piece) → Event.tokens p.events = p.tokens
  | .token t => rfl
  | .stretch mode items => by
    have hitems := Piece.tokens_allEvents items
    rw [Piece.events, Piece.tokens, ← List.singleton_append, Event.tokens_append, Event.tokens_append, hitems]
    exact List.append_nil _

theorem Piece.tokens_allEvents : (ps : List Piece) → Event.tokens (allEvents ps) = Piece.allTokens ps
  | [] => rfl
  | p :: ps => by rw [allEvents, Event.tokens_append, Piece.tokens_events p, Piece.tokens_allEvents ps, Piece.allTokens]

end

/-- No string and no comment is open in the text where the element starts, and what starts in the element ends as well. -/
def Node.StandsClear (e : Node) (text : String) : Prop := ∃ a b, e.Spans a b ∧ Scan.closes a b text = true

/-- Some parts of a tag with their text: what comes before it, and how the run goes on after it. -/
structure Stands (text : String) (angle name : Token) (A G B : List Piece) (x S Z : List Char) (around : List Mode)
    (es₁ es₂ : List Event) : Prop where
  text : text.toList = x ++ (S ++ Z)
  before : Scan.Stand.start.brings (S ++ Z) x = es₁ ++ .enter .tag :: .token angle :: .token name :: allEvents A
  inTag : InTag around (Scan.Stand.start.after (S ++ Z) x)
  parts : (Scan.Stand.start.after (S ++ Z) x).brings Z S = allEvents G
  after : InTag around ((Scan.Stand.start.after (S ++ Z) x).after Z S)
  rest : ((Scan.Stand.start.after (S ++ Z) x).after Z S).run Z = allEvents B ++ .leave :: es₂

section

variable {text : String} {angle name : Token} {A G B : List Piece} {x S Z : List Char} {around : List Mode}
  {es₁ es₂ : List Event}

theorem Stands.unread (h : Stands text angle name A G B x S Z around es₁ es₂) (hunread : Scan.unread text = []) :
    (Scan.Stand.start.after (S ++ Z) x).unread (S ++ Z) = [] := by
  have hstart : Scan.Stand.start.unread (x ++ (S ++ Z)) = [] := by
    rw [← h.text]
    exact hunread
  exact (Scan.Stand.brings_covers hstart h.inTag.skip).2

theorem Stands.covers (h : Stands text angle name A G B x S Z around es₁ es₂) (hunread : Scan.unread text = []) :
    Event.allText (allEvents G) = S := by
  have hcovers := (Scan.Stand.brings_covers (h.unread hunread) h.after.skip).1
  rwa [h.parts, h.after.pending, h.inTag.pending, h.inTag.skip, List.reverse_nil, List.append_nil, List.nil_append,
    List.drop_zero] at hcovers

theorem Stands.closes {a b : Nat} (h : Stands text angle name A G B x S Z around es₁ es₂)
    (hcloses : Scan.closes a b text = true) :
    (Scan.Stand.start.after (S ++ Z) x).closes a b (S ++ Z) = true := by
  rw [Scan.closes, h.text] at hcloses
  exact Scan.Stand.closes_after hcloses

/-- The text of parts of an element stands between the positions where the element starts and stops. -/
theorem Stands.bounds (h : Stands text angle name A G B x S Z around es₁ es₂) {items last : List Piece} {e : Node}
    (hdrawn : Drawn text angle name items last e) (hitems : items ++ last = A ++ G ++ B) (hunread : Scan.unread text = [])
    {a b : Nat} (hspans : e.Spans a b) : a ≤ x.length ∧ x.length + S.length ≤ b := by
  have hx : Event.allText (Scan.Stand.start.brings (S ++ Z) x) = x := by
    have hstart : Scan.Stand.start.unread (x ++ (S ++ Z)) = [] := by
      rw [← h.text]
      exact hunread
    have hcovers := (Scan.Stand.brings_covers hstart h.inTag.skip).1
    rwa [h.inTag.pending, List.reverse_nil, List.append_nil] at hcovers
  have hS := h.covers hunread
  have hevents : Scan.events text =
      es₁ ++ ((Piece.stretch .tag (.token angle :: .token name :: (A ++ G ++ B))).events ++ es₂) := by
    show Scan.Stand.start.run text.toList = _
    rw [h.text, Scan.Stand.run_append, Scan.Stand.run_append, h.before, h.parts, h.rest]
    simp [Piece.events, allEvents, Piece.allEvents_append]
  obtain ⟨stop, htiles, -⟩ := Markup.exists_tiles_ofText text
  rw [Piece.allTokens_ofText, hevents, Event.tokens_append, Event.tokens_append, Piece.tokens_events] at htiles
  obtain ⟨p, hbefore, htiles⟩ := Token.Tiles.append_iff.mp htiles
  obtain ⟨q, helement, -⟩ := Token.Tiles.append_iff.mp htiles
  have hmem := hdrawn.mem
  have hpart := hdrawn.part
  rw [hitems] at hmem hpart
  obtain ⟨-, hstart, hstop⟩ := Markup.spans_of_tiles (Markup.formed_of_mem_allMarkups hmem) hpart hdrawn.valid helement
  obtain rfl := Option.some.inj (Except.ok.inj (hstart.symm.trans hspans.2.1))
  obtain rfl := Option.some.inj (Except.ok.inj (hstop.symm.trans hspans.2.2))
  rw [← Piece.tokens_events] at helement
  have hp := hbefore.stop_eq
  have hq := helement.stop_eq
  have hparts : (Piece.stretch .tag (.token angle :: .token name :: (A ++ G ++ B))).events =
      (.enter .tag :: .token angle :: .token name :: allEvents A) ++ allEvents G ++ (allEvents B ++ [.leave]) := by
    simp [Piece.events, allEvents, Piece.allEvents_append]
  rw [h.before] at hx
  rw [hparts] at hq
  simp only [Scan.allText_append, List.length_append] at hq
  rw [← hx, ← hS, Scan.allText_append, List.length_append]
  omega

/-- Where the parts of a tag have other parts in their place, the text is read with another element. -/
theorem Stands.exchanged (h : Stands text angle name A G B x S Z around es₁ es₂) {items last : List Piece} {e : Node}
    (hdrawn : Drawn text angle name items last e) (hitems : items ++ last = A ++ G ++ B) {tree : Node}
    (hparse : Source.parse text = .ok tree) (hkept : keeps text = true) (hclear : e.StandsClear text)
    {G' : List Piece} {new : Node} (hnew : Exchanges angle name A G' B new) {S' : List Char} {c : Char}
    (hlast : x.getLast? = some c) (halike : Scan.Alike c (S ++ Z) (S' ++ Z))
    (hline : Scan.endsInLine (.token name :: allEvents A) = false)
    (hparts : (Scan.Stand.start.after (S ++ Z) x).brings Z S' = allEvents G' ∧
      InTag around ((Scan.Stand.start.after (S ++ Z) x).after Z S'))
    (hcovers : (∀ p ∈ G', p.Formed) → Event.allText (allEvents G') = S') :
    ∃ tree', Source.parse (.ofList (x ++ (S' ++ Z))) = .ok tree' ∧ tree'.write = .ofList (x ++ (S' ++ Z)) ∧
      (tree'.withKind tree.kind).blind = Node.swap (· == angle.pos) new tree := by
  have hends : Scan.endsInLine (Scan.Stand.start.brings (S ++ Z) x) = false := by
    rw [h.before, Scan.endsInLine, List.getLast?_append_cons, List.getLast?_cons_cons, List.getLast?_cons_cons]
    exact hline
  have hunread : Scan.unread text = [] := by
    rw [keeps, Bool.and_eq_true] at hkept
    exact List.isEmpty_iff.mp hkept.1
  obtain ⟨a, b, hspans, hcloses⟩ := hclear
  obtain ⟨ha, hb⟩ := h.bounds hdrawn hitems hunread hspans
  have hfence := Scan.Stand.fence (.inr hlast) halike h.inTag.skip (by rw [← h.text]; exact hcloses)
    (ha.trans (Nat.le_add_left _ _))
    (by show 0 + x.length ≤ b; omega) fun hcomment => by
      rw [hends] at hcomment
      cases hcomment
  have hmem := hdrawn.mem
  have hnode := hdrawn.tagged.node
  rw [hitems] at hmem hnode
  exact hnew.exists_document hparse hkept hmem hnode hdrawn.element hdrawn.valid h.text (String.toList_ofList ..) rfl hfence
    h.before h.inTag ⟨h.parts, h.after⟩ hparts h.rest fun hformed => by rw [hcovers hformed]

end

end JsxEdit
