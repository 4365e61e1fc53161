import JsxEdit.Node.Span
import JsxEdit.Proofs.FlawlessSource
import JsxEdit.Proofs.Standalone

/-
Nodes in the places where they were read.

A node spans what lies between the positions where it starts and stops. Code is made of tokens that stand one after the
other, so it spans them all and has the text that stands there. Nodes that are made up for a simple expression have no
place, and neither they nor what is below them is markup.
-/
set_option autoImplicit false

namespace JsxEdit

/-- Texts and code, which have the text that they were read from. -/
def Kind.isSource : Kind → Bool
  | .text _ | .code _ => true
  | _ => false

/-- Elements that close themselves. -/
def Kind.isSelfClosing : Kind → Bool
  | .element _ selfClosing .. => selfClosing
  | _ => false

/-- The name of an element; a fragment has the empty one. -/
def Kind.tagName : Kind → String
  | .element name .. => name
  | _ => ""

namespace Node

/-! ## Markup among nodes -/

/-- The elements and fragments among the nodes and below them, in document order. -/
def markups (ns : List Node) : List Node := (within ns).filter (·.kind.isMarkup)

@[simp] theorem markups_nil : markups [] = [] := rfl

theorem markups_append (ns ms : List Node) : markups (ns ++ ms) = markups ns ++ markups ms := by
  rw [markups, within_append, List.filter_append]
  rfl

theorem markups_cons (n : Node) (ns : List Node) : markups (n :: ns) = markups [n] ++ markups ns := markups_append [n] ns

theorem markups_mk (k : Kind) (i : Info) (as cs : List Node) :
    markups [mk k i as cs] = (if k.isMarkup then [mk k i as cs] else []) ++ (markups as ++ markups cs) := by
  rw [markups, within_singleton, under, List.filter_cons, List.filter_append]
  show (if k.isMarkup = true then _ else _) = _
  split <;> rfl

theorem markups_other {k : Kind} (h : k.isMarkup = false) (i : Info) (as cs : List Node) :
    markups [mk k i as cs] = markups as ++ markups cs := by
  rw [markups_mk, h]
  rfl

theorem exists_of_mem_within {m : Node} {ns : List Node} (h : m ∈ within ns) : ∃ n ∈ ns, m ∈ within [n] := by
  induction ns with
  | nil => cases h
  | cons n ns ih =>
    rw [← List.singleton_append, within_append] at h
    rcases List.mem_append.mp h with h | h
    · exact ⟨n, List.mem_cons_self, h⟩
    · obtain ⟨k, hk, hm⟩ := ih h
      exact ⟨k, List.mem_cons_of_mem n hk, hm⟩

/-! ## Places -/

/-- The node starts and stops at the positions. -/
def Spans (a : Nat) (n : Node) (b : Nat) : Prop := a < b ∧ n.start = .ok (some a) ∧ n.stop = .ok (some b)

/-- The nodes stand one after the other from one position to another. -/
def Tiles : Nat → List Node → Nat → Prop
  | a, [], b => a = b
  | a, n :: ns, b => ∃ c, n.Spans a c ∧ Tiles c ns b

theorem Tiles.append {a b c : Nat} {ns ms : List Node} (h : Tiles a ns b) (h' : Tiles b ms c) : Tiles a (ns ++ ms) c := by
  induction ns generalizing a with
  | nil =>
    obtain rfl : a = b := h
    exact h'
  | cons n ns ih =>
    obtain ⟨d, hn, hrest⟩ := h
    exact ⟨d, hn, ih hrest⟩

theorem Tiles.singleton {a b : Nat} {n : Node} (h : n.Spans a b) : Tiles a [n] b := ⟨b, h, rfl⟩

theorem Tiles.le {a b : Nat} {ns : List Node} (h : Tiles a ns b) : a ≤ b := by
  induction ns generalizing a with
  | nil => exact Nat.le_of_eq h
  | cons n ns ih =>
    obtain ⟨c, hn, hrest⟩ := h
    exact Nat.le_trans (Nat.le_of_lt hn.1) (ih hrest)

theorem spans_head {k : Kind} {a b : Nat} (h : a < b) : (mk k { head := some ⟨a, b⟩ } [] []).Spans a b := ⟨h, rfl, rfl⟩

theorem spans_tail {k : Kind} {a b c d : Nat} {mark : Option Nat} {as cs : List Node} (h : a < d) :
    (mk k ⟨some ⟨a, b⟩, some ⟨c, d⟩, mark⟩ as cs).Spans a d := ⟨h, rfl, rfl⟩

/-- Where the parts of a node stand in the text: text and code with an origin are the text that they span; the nodes
between two tags fill the place between them, up to the closing tag. -/
structure Seated (text : String) (n : Node) : Prop where
  content : n.kind.isSource = true → n.info.head ≠ none ∨ n.info.tail ≠ none →
    ∃ a b, n.Spans a b ∧ n.kind.head = .str (Text.slice text a b)
  children : n.kind.isMarkup = true → n.kind.isSelfClosing = false →
    ∃ a c d b, n.Spans a b ∧ a < c ∧ Tiles c n.children d ∧ d < b ∧ n.info.tail = some ⟨d, b⟩ ∧
      Markup.closingName (Text.slice text d b) = n.kind.tagName

/-- All nodes among and below these are in their places. -/
def AllSeated (text : String) (ns : List Node) : Prop := ∀ n ∈ within ns, n.Seated text

variable {text : String}

theorem AllSeated.append {ns ms : List Node} (h : AllSeated text ns) (h' : AllSeated text ms) :
    AllSeated text (ns ++ ms) := by
  intro n hn
  rw [within_append] at hn
  rcases List.mem_append.mp hn with hn | hn
  · exact h n hn
  · exact h' n hn

theorem AllSeated.nil : AllSeated text [] := fun _ hn => absurd hn List.not_mem_nil

theorem allSeated_of_forall {ns : List Node} (h : ∀ n ∈ ns, AllSeated text [n]) : AllSeated text ns := by
  intro m hm
  obtain ⟨n, hn, hm⟩ := exists_of_mem_within hm
  exact h n hn m hm

theorem allSeated_mk {k : Kind} {i : Info} {as cs : List Node} (hk : (mk k i as cs).Seated text)
    (has : AllSeated text as) (hcs : AllSeated text cs) : AllSeated text [mk k i as cs] := by
  intro n hn
  rw [within_singleton, under] at hn
  rcases List.mem_cons.mp hn with rfl | hn
  · exact hk
  · exact has.append hcs n (by rwa [within_append])

/-- Other kinds have nothing to fit in. -/
theorem seated_other {n : Node} (h : n.kind.isSource = false ∧ n.kind.isMarkup = false) : n.Seated text where
  content := fun hs => by
    rw [h.1] at hs
    cases hs
  children := fun hm => by
    rw [h.2] at hm
    cases hm

theorem allSeated_other {k : Kind} (h : k.isSource = false ∧ k.isMarkup = false) {i : Info} {as cs : List Node}
    (has : AllSeated text as) (hcs : AllSeated text cs) : AllSeated text [mk k i as cs] :=
  allSeated_mk (seated_other h) has hcs

/-! ## Nodes without a place -/

/-- Neither the node nor what is below it was read from a place of its own, and there is no markup among them. -/
def Unplaced (n : Node) : Prop := ∀ m ∈ within [n], m.info.head = none ∧ m.info.tail = none ∧ m.kind.isMarkup = false

theorem unplaced_new {k : Kind} {cs : List Node} (hk : k.isMarkup = false) (hcs : ∀ c ∈ cs, c.Unplaced) :
    (new k cs).Unplaced := by
  intro m hm
  rw [within_singleton, new, under, within_nil, List.nil_append] at hm
  rcases List.mem_cons.mp hm with rfl | hm
  · exact ⟨rfl, rfl, hk⟩
  · obtain ⟨c, hc, hm⟩ := exists_of_mem_within hm
    exact hcs c hc m hm

theorem Unplaced.allSeated {n : Node} (h : n.Unplaced) : AllSeated text [n] := by
  intro m hm
  obtain ⟨hhead, htail, hmarkup⟩ := h m hm
  exact ⟨fun _ horigin => (horigin.elim (· hhead) (· htail)).elim, fun hm => by rw [hmarkup] at hm; cases hm⟩

theorem Unplaced.markups {n : Node} (h : n.Unplaced) : Node.markups [n] = [] :=
  List.filter_eq_nil_iff.mpr fun m hm => by simp [(h m hm).2.2]

end Node

open Node (Unplaced unplaced_new)

theorem Expression.unplaced_script (s : String) : (script s).Unplaced := by
  refine unplaced_new rfl (List.forall_mem_singleton.mpr ?_)
  exact unplaced_new rfl (List.forall_mem_nil _)

theorem Expression.unplaced_ofText (s : String) : (ofText s).Unplaced := by
  unfold ofText
  dsimp only
  split
  · next k hk =>
    refine unplaced_new ?_ (List.forall_mem_nil _)
    unfold kind? at hk
    dsimp only at hk
    repeat' split at hk
    all_goals first | (cases hk; rfl) | cases hk
  · exact unplaced_script _

/-! ## Code -/

namespace Leaf

/-- The token or node stands between the positions. -/
def Sits (text : String) (a : Nat) : Leaf → Nat → Prop
  | .token t, b => Token.Tiles text a [t] b
  | .node n, b => n.Spans a b

/-- The tokens and nodes stand one after the other from one position to another. -/
def Tiles (text : String) : Nat → List Leaf → Nat → Prop
  | a, [], b => a = b
  | a, l :: ls, b => ∃ c, l.Sits text a c ∧ Tiles text c ls b

/-- What is below a node among the leaves is in its place. -/
def Seated (text : String) : Leaf → Prop
  | .token _ => True
  | .node n => Node.AllSeated text [n]

/-- The elements and fragments that the leaf is and that are below it. -/
def markups : Leaf → List Node
  | .token _ => []
  | .node n => Node.markups [n]

variable {text : String}

theorem Sits.lt {a b : Nat} {l : Leaf} (h : l.Sits text a b) : a < b := by
  cases l with
  | token t => exact Token.Tiles.lt h (List.cons_ne_nil _ _)
  | node n => exact h.1

theorem Tiles.le {a b : Nat} {ls : List Leaf} (h : Tiles text a ls b) : a ≤ b := by
  induction ls generalizing a with
  | nil => exact Nat.le_of_eq h
  | cons l ls ih =>
    obtain ⟨c, hl, hrest⟩ := h
    exact Nat.le_trans (Nat.le_of_lt hl.lt) (ih hrest)

theorem Tiles.append_iff {a c : Nat} {ls ms : List Leaf} :
    Tiles text a (ls ++ ms) c ↔ ∃ b, Tiles text a ls b ∧ Tiles text b ms c := by
  induction ls generalizing a with
  | nil =>
    constructor
    · exact fun h => ⟨a, rfl, h⟩
    · rintro ⟨b, rfl, h⟩
      exact h
  | cons l ls ih =>
    rw [List.cons_append, Tiles]
    constructor
    · rintro ⟨d, hl, h⟩
      obtain ⟨b, h, h'⟩ := ih.mp h
      exact ⟨b, ⟨d, hl, h⟩, h'⟩
    · rintro ⟨b, ⟨d, hl, h⟩, h'⟩
      exact ⟨d, hl, ih.mpr ⟨b, h, h'⟩⟩

theorem markups_tokens {ls : List Leaf} (h : AllTokens ls) : ls.flatMap markups = [] := by
  rw [List.flatMap_eq_nil_iff]
  intro l hl
  obtain ⟨t, rfl⟩ := h l hl
  rfl

/-- The code made of tokens spans them all. -/
theorem codeNode_eq {a b : Nat} {ts : List Token} (h : Token.Tiles text a ts b) (hne : ts ≠ []) :
    codeNode ts = .mk (.code (some (Text.slice text a b))) { head := some ⟨a, b⟩ } [] [] := by
  obtain ⟨t, us, rfl⟩ := List.exists_cons_of_ne_nil hne
  have hfirst : t.pos = a := h.1
  obtain ⟨last, hlast⟩ : ∃ last, (t :: us).getLast? = some last := ⟨_, List.getLast?_eq_some_getLast hne⟩
  have hstop : last.stop = b := by
    obtain ⟨front, hfront⟩ := List.getLast?_eq_some_iff.mp hlast
    rw [hfront] at h
    obtain ⟨c, -, h⟩ := Token.Tiles.append_iff.mp h
    exact (Token.Tiles.singleton.mp h).2.1
  rw [codeNode, h.join, hlast]
  simp [hfirst, hstop]

/-- The code between nodes is in its place. -/
theorem code_seated {a b : Nat} {ts : List Token} (h : Token.Tiles text a ts b) (hne : ts ≠ []) :
    (codeNode ts).Spans a b ∧ Node.AllSeated text [codeNode ts] ∧ Node.markups [codeNode ts] = [] := by
  have hlt := h.lt hne
  rw [codeNode_eq h hne]
  refine ⟨Node.spans_head hlt, Node.allSeated_mk ?_ .nil .nil, rfl⟩
  refine ⟨fun _ _ => ⟨a, b, Node.spans_head hlt, rfl⟩, ?_⟩
  intro hm
  cases hm

/-- Code and nodes stand one after the other, as the tokens and nodes that they are made of. -/
theorem codeFrom_tiles {a b c : Nat} {pending : List Token} {ls : List Leaf}
    (hpending : Token.Tiles text a pending.reverse b) (h : Tiles text b ls c) (hseated : ∀ l ∈ ls, l.Seated text) :
    Node.Tiles a (codeFrom pending ls) c ∧ Node.AllSeated text (codeFrom pending ls) ∧
      Node.markups (codeFrom pending ls) = ls.flatMap markups := by
  induction ls generalizing pending a b with
  | nil =>
    obtain rfl : b = c := h
    rw [codeFrom]
    split
    · next hnil =>
      obtain rfl := List.isEmpty_iff.mp hnil
      exact ⟨hpending, .nil, rfl⟩
    · next hne =>
      obtain ⟨hspans, hcode, hmarkups⟩ := code_seated hpending (by simpa using hne)
      exact ⟨.singleton hspans, hcode, hmarkups⟩
  | cons l ls ih =>
    obtain ⟨d, hl, hrest⟩ := h
    rw [List.forall_mem_cons] at hseated
    cases l with
    | token t =>
      rw [codeFrom]
      have hmore : Token.Tiles text a (t :: pending).reverse d := by
        rw [List.reverse_cons]
        exact hpending.append hl
      exact ih hmore hrest hseated.2
    | node n =>
      obtain ⟨htiles, hcode, hmarkups⟩ := ih (show Token.Tiles text d ([] : List Token).reverse d from rfl) hrest hseated.2
      rw [codeFrom, List.flatMap_cons]
      split
      · next hnil =>
        obtain rfl := List.isEmpty_iff.mp hnil
        obtain rfl : a = b := hpending
        refine ⟨⟨d, hl, htiles⟩, ?_, ?_⟩
        · rw [← List.singleton_append]
          exact Node.AllSeated.append hseated.1 hcode
        · rw [Node.markups_cons, hmarkups]
          rfl
      · next hne =>
        obtain ⟨hspans, hfirst, hnone⟩ := code_seated hpending (by simpa using hne)
        refine ⟨⟨b, hspans, d, hl, htiles⟩, ?_, ?_⟩
        · rw [← List.singleton_append, ← List.singleton_append]
          exact Node.AllSeated.append hfirst (Node.AllSeated.append hseated.1 hcode)
        · rw [Node.markups_cons, hnone, List.nil_append, Node.markups_cons, hmarkups]
          rfl

theorem code_tiles {a b : Nat} {ls : List Leaf} (h : Tiles text a ls b) (hseated : ∀ l ∈ ls, l.Seated text) :
    Node.Tiles a (code ls) b ∧ Node.AllSeated text (code ls) ∧ Node.markups (code ls) = ls.flatMap markups :=
  codeFrom_tiles (show Token.Tiles text a ([] : List Token).reverse a from rfl) h hseated

end Leaf
end JsxEdit
