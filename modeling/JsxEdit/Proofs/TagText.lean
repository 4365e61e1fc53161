import JsxEdit.Proofs.TagFrame
import JsxEdit.Proofs.Site
import JsxEdit.Proofs.Inner

/-
The text of an opening tag.

An opening tag can be cut after its name and after each of its attributes. What stands before the cut is then read as the
parts before it, and ends as attributes do.
-/
set_option autoImplicit false

namespace JsxEdit

open Piece (allEvents allMarkups)
open Scan (Begins)
open Scan.Stand (InTag)
open Markup (part allParts elementFrom)

/-! ## The parts of an element -/

/-- The pieces that an element is read from. -/
structure Tagged (angle name : Token) (items last : List Piece) (e : Node) : Prop where
  isName : Text.nameLength? .tag name.text.toList = some name.text.toList.length
  ends : Piece.Ends .tag last
  inner : ∀ p ∈ items, p.Accepts .tag ∧ p.Formed
  outer : ∀ p ∈ last, p.Formed
  node : e = elementFrom angle name ⟨[], "", false⟩ (allParts (items ++ last))

theorem exists_tagged {q : Piece} (h : Piece.Formed q) {e : Node} (hpart : part q = .leaf (.node e))
    (hk : e.kind.isElement = true) : ∃ angle name items last,
    q = .stretch .tag (.token angle :: .token name :: (items ++ last)) ∧ Tagged angle name items last e := by
  cases h with
  | token t => cases hpart
  | @stretch mode first items last opens ends accepted inner outer =>
    cases opens with
    | @tag angle name text isName =>
      refine ⟨angle, name, items, last, by simp, isName, ends, fun p hp => ⟨accepted p hp, inner p hp⟩, outer, ?_⟩
      have hparts : part (.stretch .tag ([.token angle, .token name] ++ items ++ last)) =
          .leaf (.node (elementFrom angle name ⟨[], "", false⟩ (allParts (items ++ last)))) := by
        rw [List.append_assoc]
        rfl
      rw [hparts] at hpart
      exact (Leaf.node.inj (Part.leaf.inj hpart)).symm
    | @fragment t text =>
      have hparts : part (.stretch .fragment ([.token t] ++ items ++ last)) =
          .leaf (.node (Markup.fragment (allParts ([.token t] ++ items ++ last)))) := by rw [part]; rfl
      rw [hparts] at hpart
      obtain rfl := Leaf.node.inj (Part.leaf.inj hpart)
      rw [List.append_assoc, List.singleton_append, allParts, part, Markup.fragment] at hk
      split at hk
      · cases hk
      · split at hk <;> cases hk
    | content => cases hpart
    | braces => cases hpart
    | group => cases hpart
    | template => cases hpart

/-! ## Cuts -/

/-- A part of a tag that can be read begins with an event of its own. -/
theorem exists_begins {p : Piece} (h : Piece.Formed p) (hcontent : ∀ items, p ≠ .stretch .content items)
    (hkind : ∀ t, p = .token t → t.kind ≠ .invalid ∧ t.kind ≠ .text) (ps : List Piece) :
    ∃ e es, allEvents (p :: ps) = e :: es ∧ Begins e := by
  cases p with
  | token t =>
    obtain ⟨hinvalid, htext⟩ := hkind t rfl
    refine ⟨.token t, allEvents ps, rfl, fun ⟨u, hu, hpending⟩ => ?_, nofun, nofun⟩
    obtain rfl := Event.token.inj hu
    exact hpending.elim htext hinvalid
  | stretch mode items =>
    refine ⟨.enter mode, _, rfl, (fun ⟨u, hu, _⟩ => (by cases hu)), nofun, fun heq => ?_⟩
    exact hcontent items (by rw [Event.enter.inj heq])

/-- An opening tag can be cut before a part, as long as that and what is before it can be read. -/
theorem exists_place {text : String} {angle name : Token} {A B : List Piece}
    (hq : .stretch .tag (.token angle :: .token name :: (A ++ B)) ∈ allMarkups (Piece.ofText text))
    (hvalid : ∀ n, part (.stretch .tag (.token angle :: .token name :: (A ++ B))) = .leaf (.node n) → n.kind.isInvalid = false)
    (hA : ∀ p ∈ A, ∀ t, p = .token t → t.kind ≠ .invalid) (hB : ∃ e es, allEvents B = e :: es ∧ Begins e) :
    ∃ x r around es₁ es₂, text.toList = x ++ r ∧
      Scan.Stand.start.brings r x = es₁ ++ .enter .tag :: .token angle :: .token name :: allEvents A ∧
      InTag around (Scan.Stand.start.after r x) ∧
      (Scan.Stand.start.after r x).run r = allEvents B ++ .leave :: es₂ := by
  obtain ⟨e, es, hB, he⟩ := hB
  obtain ⟨es₁, es₂, hevents⟩ := Piece.exists_events hq hvalid
  have hrun : Scan.Stand.start.run text.toList = es₁ ++ .enter .tag ::
      (.token angle :: .token name :: (allEvents A ++ e :: (es ++ .leave :: es₂))) := by
    rw [show Scan.Stand.start.run text.toList = Scan.events text from rfl, hevents]
    simp only [Piece.events, allEvents, Piece.allEvents_append, hB, List.append_assoc, List.cons_append, List.nil_append]
  obtain ⟨x, r, around, t, u, hx, hbrings, hin, hsame, -⟩ := Scan.Stand.exists_inTag hrun
  obtain ⟨hangle, htail⟩ := List.cons.inj hsame
  obtain ⟨hname, hrest⟩ := List.cons.inj htail
  obtain rfl := Event.token.inj hangle
  obtain rfl := Event.token.inj hname
  obtain ⟨y, r', rfl, -, hy, hin', hrun'⟩ := hin.exists_stop hrest.symm he hA
  refine ⟨x ++ y, r', around, es₁, es₂, by rw [hx, List.append_assoc], ?_, ?_, ?_⟩
  · rw [Scan.Stand.brings_append, hbrings, hy, List.append_assoc]
    rfl
  · rw [Scan.Stand.after_append]
    exact hin'
  · rw [Scan.Stand.after_append, hrun', hB, List.cons_append]

/-! ## What stands before a cut -/

/-- What attributes and names end in; what follows cannot change how it is read. -/
structure IsEdge (c : Char) : Prop where
  solid : Text.isSpace c = false
  single : c ∉ ['<', '=', '/']

theorem IsEdge.of_namePart {c : Char} (h : Text.isNamePart c = true) : IsEdge c where
  solid := by
    cases hspace : Text.isSpace c with
    | false => rfl
    | true =>
      rw [Text.isNamePart_of_isSpace hspace] at h
      cases h
  single hmem := by
    simp only [List.mem_cons, List.not_mem_nil, or_false] at hmem
    rcases hmem with rfl | rfl | rfl <;> revert h <;> decide

/-- What stands before a cut ends as the last events there do. -/
theorem getLast?_place {text : String} {x r : List Char} {around : List Mode} (h : Scan.unread text = [])
    (hx : text.toList = x ++ r) (hin : InTag around (Scan.Stand.start.after r x)) {es fs : List Event}
    (hbrings : Scan.Stand.start.brings r x = es ++ fs) {w : List Char} {c : Char} (hfs : Event.allText fs = w ++ [c]) :
    x.getLast? = some c := by
  have hunread : Scan.Stand.start.unread (x ++ r) = [] := by
    rw [← hx]
    exact h
  have htext := (Scan.Stand.brings_covers hunread hin.skip).1
  rw [hin.pending, hbrings, Scan.allText_append, hfs, List.reverse_nil, List.append_nil, ← List.append_assoc] at htext
  have hsame : (Event.allText es ++ w) ++ [c] = x := htext
  rw [← hsame, List.getLast?_concat]

/-- What an attribute ends in. -/
theorem exists_edge {p : Piece} (haccepts : p.Accepts .tag) (hformed : p.Formed) (h : Markup.IsFirm (part p)) :
    ∃ w c, Event.allText p.events = w ++ [c] ∧ IsEdge c := by
  rcases h with ⟨t, ht, hkind⟩ | ⟨g, hg, htail⟩
  · obtain rfl : p = .token t := token_of_part (by rw [ht]; rfl)
    have hfits : Scan.Fits .tag t.kind t.text.toList := haccepts
    have htext : Event.allText (Piece.token t).events = t.text.toList := List.append_nil _
    rw [htext]
    rcases hkind with hkind | hkind
    · rw [hkind] at hfits
      obtain ⟨w, c, hw, hc⟩ := Text.namePart_of_name hfits
      exact ⟨w, c, hw, .of_namePart hc⟩
    · have hquoted : ∃ q body, t.text.toList = q :: body ++ [q] ∧ (q = '"' ∨ q = '\'') := by
        rcases hkind with hkind | hkind <;> rw [hkind] at hfits <;> exact hfits
      obtain ⟨q, body, hw, hq⟩ := hquoted
      refine ⟨q :: body, q, hw, ?_⟩
      rcases hq with rfl | rfl <;> exact ⟨by decide, by decide⟩
  · cases p with
    | token t => cases hg
    | stretch mode items =>
      obtain ⟨rfl, -⟩ := haccepts
      obtain ⟨head, ps, tail, rfl, htext, -⟩ := exists_closed hformed hg htail
      refine ⟨(Piece.allSource (.token head :: ps)).toList, '\x7d', ?_, by decide, by decide⟩
      rw [Piece.allText_events, Piece.source, ← List.cons_append, Piece.allSource_append, String.toList_append]
      simp [Piece.allSource, Piece.source, htext]

end JsxEdit
