import JsxEdit.Proofs.Siblings
import Mathlib.Data.List.SplitBy
import Mathlib.Data.Prod.Lex

/-
Runs of white space as one node each.

Of two stretches of white space the weightier is kept, the first if they weigh the same. That may be bracketed in any
way, so a run that is merged from its end comes to the first of the weightiest texts in it, wherever that stands. The
nodes around the run are left as they are, and so is a list without white space next to white space.
-/
set_option autoImplicit false

namespace JsxEdit

namespace Whitespace

/-! ## Weights -/

/-- Weights are compared by their line feeds first. -/
theorem outweighed_iff {s t : String} : outweighed s t = true ↔ toLex (weight s) < toLex (weight t) := by
  rw [Prod.Lex.toLex_lt_toLex, outweighed]
  simp

theorem heavier_of_lt {s t : String} (h : toLex (weight s) < toLex (weight t)) : heavier s t = t := by
  rw [heavier, if_pos (outweighed_iff.mpr h)]

theorem heavier_of_le {s t : String} (h : toLex (weight t) ≤ toLex (weight s)) : heavier s t = s := by
  rw [heavier, if_neg]
  intro hlt
  exact absurd (outweighed_iff.mp hlt) (not_lt_of_ge h)

/-- Of three texts the first of the weightiest is kept, whichever two are compared first. -/
theorem heavier_assoc (r s t : String) : heavier (heavier r s) t = heavier r (heavier s t) := by
  rcases lt_or_ge (toLex (weight r)) (toLex (weight s)) with hrs | hrs
  · rw [heavier_of_lt hrs]
    rcases lt_or_ge (toLex (weight s)) (toLex (weight t)) with hst | hst
    · rw [heavier_of_lt hst, heavier_of_lt (hrs.trans hst)]
    · rw [heavier_of_le hst, heavier_of_lt hrs]
  · rw [heavier_of_le hrs]
    rcases lt_or_ge (toLex (weight s)) (toLex (weight t)) with hst | hst
    · rw [heavier_of_lt hst]
    · rw [heavier_of_le hst, heavier_of_le hrs, heavier_of_le (hst.trans hrs)]

instance : Std.Associative heavier := ⟨heavier_assoc⟩

theorem heaviest_cons (s : String) {ss : List String} (h : ss ≠ []) :
    heaviest (s :: ss) = heavier s (heaviest ss) := by
  obtain ⟨t, ts, rfl⟩ := List.exists_cons_of_ne_nil h
  rw [heaviest, heaviest, List.foldl_cons, List.foldl_assoc]

/-- The text is the first of the weightiest: all before it weigh less, and none after it weighs more. -/
def IsHeaviest (ss : List String) (s : String) : Prop :=
  ∃ before after, ss = before ++ s :: after ∧ (∀ r ∈ before, toLex (weight r) < toLex (weight s)) ∧
    ∀ t ∈ after, toLex (weight t) ≤ toLex (weight s)

theorem isHeaviest_heaviest {ss : List String} (h : ss ≠ []) : IsHeaviest ss (heaviest ss) := by
  induction ss with
  | nil => exact absurd rfl h
  | cons s ss ih =>
    by_cases hss : ss = []
    · subst hss
      exact ⟨[], [], rfl, List.forall_mem_nil _, List.forall_mem_nil _⟩
    · obtain ⟨before, after, hsplit, hbefore, hafter⟩ := ih hss
      rw [heaviest_cons s hss]
      rcases lt_or_ge (toLex (weight s)) (toLex (weight (heaviest ss))) with hlt | hle
      · rw [heavier_of_lt hlt]
        exact ⟨s :: before, after, congrArg (s :: ·) hsplit, List.forall_mem_cons.mpr ⟨hlt, hbefore⟩, hafter⟩
      · rw [heavier_of_le hle]
        refine ⟨[], ss, rfl, List.forall_mem_nil _, ?_⟩
        intro t ht
        rw [hsplit, List.mem_append, List.mem_cons] at ht
        rcases ht with ht | rfl | ht
        · exact (hbefore t ht).le.trans hle
        · exact hle
        · exact (hafter t ht).trans hle

theorem IsHeaviest.mem {ss : List String} {s : String} (h : IsHeaviest ss s) : s ∈ ss := by
  obtain ⟨before, after, rfl, -⟩ := h
  exact List.mem_append_right before List.mem_cons_self

end Whitespace

namespace Node
open Whitespace

/-! ## Runs -/

/-- Whether two nodes that stand side by side belong to one run. -/
def bothBlank (n m : Node) : Bool := n.isWhitespace && m.isWhitespace

/-- What becomes of a run: a node that is no white space stays by itself, and white space becomes its first node with the
first of the weightiest of its texts. -/
inductive JoinsTo : List Node → Node → Prop where
  | solid {n : Node} (solid : n.isWhitespace = false) : JoinsTo [n] n
  | blank {n : Node} {ns : List Node} {texts : List String} (kinds : (n :: ns).map kind = texts.map .text)
    (blank : ∀ m ∈ n :: ns, m.isWhitespace = true) (first : IsHeaviest texts (heaviest texts)) :
    JoinsTo (n :: ns) (n.withKind (.text (heaviest texts)))

theorem exists_texts {ns : List Node} (h : ∀ n ∈ ns, n.isWhitespace = true) :
    ∃ texts : List String, ns.map kind = texts.map .text := by
  induction ns with
  | nil => exact ⟨[], rfl⟩
  | cons n ns ih =>
    rw [List.forall_mem_cons] at h
    obtain ⟨texts, htexts⟩ := ih h.2
    obtain ⟨s, hs⟩ : ∃ s, n.kind = .text s := by
      have hn := h.1
      rw [isWhitespace] at hn
      cases hk : n.kind with
      | text s => exact ⟨s, rfl⟩
      | _ =>
        rw [hk] at hn
        cases hn
    exact ⟨s :: texts, by rw [List.map_cons, List.map_cons, hs, htexts]⟩

theorem isBlank_of_kinds {ns : List Node} {texts : List String} (hkinds : ns.map kind = texts.map .text)
    (h : ∀ n ∈ ns, n.isWhitespace = true) : ∀ s ∈ texts, Text.isBlank s = true := by
  intro s hs
  have hmem : Kind.text s ∈ ns.map kind := by
    rw [hkinds]
    exact List.mem_map_of_mem hs
  obtain ⟨n, hn, hk⟩ := List.mem_map.mp hmem
  have hblank := h n hn
  rw [isWhitespace, hk] at hblank
  exact hblank

theorem prepend_text {n m : Node} {s t : String} (hn : n.kind = .text s) (hm : m.kind = .text t)
    (hs : Text.isBlank s = true) (ht : Text.isBlank t = true) (ms : List Node) :
    prepend n (m :: ms) = n.withKind (.text (heavier s t)) :: ms := by
  rw [prepend, hn, hm]
  dsimp only
  rw [hs, ht, Bool.and_self, if_pos rfl]

/-- A run of white space before other nodes becomes its first node. -/
theorem foldr_prepend_blank {n : Node} {ns rest : List Node} {texts : List String}
    (hkinds : (n :: ns).map kind = texts.map .text) (hblank : ∀ m ∈ n :: ns, m.isWhitespace = true)
    (hrest : ∀ m ∈ rest.head?, m.isWhitespace = false) :
    (n :: ns).foldr prepend rest = n.withKind (.text (heaviest texts)) :: rest := by
  induction ns generalizing n texts with
  | nil =>
    obtain ⟨s, more, rfl, hn, hnil⟩ := List.map_eq_cons_iff.mp hkinds.symm
    obtain rfl := List.map_eq_nil_iff.mp hnil
    rw [List.foldr_cons, List.foldr_nil, prepend_apart (.inr hrest)]
    have hsame : n.withKind (.text (heaviest [s])) = n := by
      obtain ⟨k, i, as, cs⟩ := n
      obtain rfl : Kind.text s = k := hn
      rfl
    rw [hsame]
  | cons m ns ih =>
    obtain ⟨s, texts, rfl, hn, htail⟩ := List.map_eq_cons_iff.mp hkinds.symm
    have hne : texts ≠ [] := by
      rintro rfl
      cases htail
    have hall := isBlank_of_kinds hkinds hblank
    rw [List.forall_mem_cons] at hall hblank
    have hmerged := ih htail.symm hblank.2
    rw [List.foldr_cons, hmerged, heaviest_cons s hne]
    exact prepend_text hn.symm (kind_withKind _ m) hall.1 (hall.2 _ (isHeaviest_heaviest hne).mem) rest

/-- A list of runs: each is one node, or white space only, and it does not go on with the next. -/
structure AreRuns (runs : List (List Node)) : Prop where
  nonempty : [] ∉ runs
  inside : ∀ run ∈ runs, run.IsChain fun n m => bothBlank n m = true
  between : runs.IsChain fun r r' => ∃ h h', bothBlank (r.getLast h) (r'.head h') = false

theorem areRuns_splitBy (ns : List Node) : AreRuns (ns.splitBy bothBlank) where
  nonempty := List.nil_notMem_splitBy bothBlank ns
  inside _ h := List.isChain_of_mem_splitBy h
  between := List.isChain_getLast_head_splitBy bothBlank ns

/-- A run is one node that is no white space, or it is white space from the first to the last node. -/
theorem solid_or_blank {n : Node} {ns : List Node} (h : (n :: ns).IsChain fun n m => bothBlank n m = true) :
    (ns = [] ∧ n.isWhitespace = false) ∨ ∀ m ∈ n :: ns, m.isWhitespace = true := by
  induction ns generalizing n with
  | nil =>
    cases hn : n.isWhitespace with
    | false => exact .inl ⟨rfl, rfl⟩
    | true => exact .inr (List.forall_mem_singleton.mpr hn)
  | cons m ns ih =>
    obtain ⟨hnm, hrest⟩ := List.isChain_cons_cons.mp h
    obtain ⟨hn, hm⟩ := Bool.and_eq_true_iff.mp hnm
    rcases ih hrest with ⟨-, hsolid⟩ | hblank
    · rw [hsolid] at hm
      cases hm
    · exact .inr (List.forall_mem_cons.mpr ⟨hn, hblank⟩)

theorem isWhitespace_of_joinsTo {n : Node} {run : List Node} (h : JoinsTo run n) :
    ∃ m ms, run = m :: ms ∧ n.isWhitespace = m.isWhitespace := by
  cases h with
  | solid solid => exact ⟨n, [], rfl, rfl⟩
  | @blank m ms texts kinds blank first =>
    refine ⟨m, ms, rfl, ?_⟩
    rw [isWhitespace, kind_withKind, blank m List.mem_cons_self]
    exact isBlank_of_kinds kinds blank _ first.mem

/-- Each run is merged to one node, from the last to the first. -/
theorem joinsTo_merged {runs : List (List Node)} (h : AreRuns runs) :
    List.Forall₂ JoinsTo runs (mergeWhitespace runs.flatten) := by
  induction runs with
  | nil => exact .nil
  | cons run runs ih =>
    have hrest : AreRuns runs := by
      refine ⟨fun hmem => h.nonempty (List.mem_cons_of_mem run hmem), ?_, h.between.tail⟩
      intro r hr
      exact h.inside r (List.mem_cons_of_mem run hr)
    have hmerged := ih hrest
    obtain ⟨n, ns, rfl⟩ := List.exists_cons_of_ne_nil fun hnil : run = [] =>
      h.nonempty (by rw [hnil]; exact List.mem_cons_self)
    have hsplit : mergeWhitespace ((n :: ns) :: runs).flatten =
        (n :: ns).foldr prepend (mergeWhitespace runs.flatten) := by
      rw [mergeWhitespace, mergeWhitespace, List.flatten_cons, List.foldr_append]
    rw [hsplit]
    rcases solid_or_blank (h.inside _ List.mem_cons_self) with ⟨rfl, hsolid⟩ | hblank
    · rw [List.foldr_cons, List.foldr_nil, prepend_apart (.inl hsolid)]
      exact .cons (.solid hsolid) hmerged
    · obtain ⟨texts, hkinds⟩ := exists_texts hblank
      have hne : texts ≠ [] := by
        rintro rfl
        cases hkinds
      -- the next run does not start with white space, or it would belong to this one
      have hnext : ∀ m ∈ (mergeWhitespace runs.flatten).head?, m.isWhitespace = false := by
        intro m hm
        obtain ⟨ms, hms⟩ := List.head?_eq_some_iff.mp hm
        rw [hms] at hmerged
        cases hmerged with
        | @cons run' m' runs' ms' hjoins hmore =>
          obtain ⟨k, ks, rfl, hsame⟩ := isWhitespace_of_joinsTo hjoins
          obtain ⟨hlast, hfirst, hapart⟩ := (List.isChain_cons_cons.mp h.between).1
          have hboth : (((n :: ns).getLast hlast).isWhitespace && k.isWhitespace) = false := hapart
          rw [hblank _ (List.getLast_mem hlast), Bool.true_and] at hboth
          rw [hsame, hboth]
      rw [foldr_prepend_blank hkinds hblank hnext]
      exact .cons (.blank hkinds hblank (isHeaviest_heaviest hne)) hmerged

/-! ## No white space next to white space -/

theorem spaced_prepend (n : Node) {ns : List Node} (h : Spaced ns) : Spaced (prepend n ns) := by
  cases ns with
  | nil => exact List.isChain_singleton n
  | cons m ms =>
    cases hn : n.isWhitespace with
    | false =>
      rw [prepend_apart (.inl hn)]
      refine List.isChain_cons_cons.mpr ⟨?_, h⟩
      intro hblank
      rw [hn] at hblank
      cases hblank
    | true =>
      cases hm : m.isWhitespace with
      | false =>
        have hapart : ∀ k ∈ (m :: ms).head?, k.isWhitespace = false := by
          rintro _ ⟨⟩
          exact hm
        rw [prepend_apart (.inr hapart)]
        exact List.isChain_cons_cons.mpr ⟨fun _ => hm, h⟩
      | true =>
        obtain ⟨w, hw, hmerged⟩ := prepend_blank hn hm ms
        rw [hmerged]
        cases ms with
        | nil => exact List.isChain_singleton w
        | cons k ks =>
          obtain ⟨hmk, hrest⟩ := List.isChain_cons_cons.mp h
          exact List.isChain_cons_cons.mpr ⟨fun _ => hmk hm, hrest⟩

theorem spaced_mergeWhitespace (ns : List Node) : Spaced (mergeWhitespace ns) := by
  induction ns with
  | nil => exact List.isChain_nil
  | cons n ns ih => exact spaced_prepend n ih

/-- Merging white space makes one node of every run that is as long as it can be, its first node with the first of the
weightiest texts, and leaves the other nodes where they are. There is no white space next to white space after that, and
merging again changes nothing. -/
theorem mergeWhitespace_joins_runs (ns : List Node) :
    List.Forall₂ JoinsTo (ns.splitBy bothBlank) (mergeWhitespace ns) ∧ Spaced (mergeWhitespace ns) ∧
      mergeWhitespace (mergeWhitespace ns) = mergeWhitespace ns := by
  have hspaced := spaced_mergeWhitespace ns
  refine ⟨?_, hspaced, mergeWhitespace_of_spaced hspaced⟩
  have hjoins := joinsTo_merged (areRuns_splitBy ns)
  rw [List.flatten_splitBy] at hjoins
  exact hjoins

end Node
end JsxEdit
