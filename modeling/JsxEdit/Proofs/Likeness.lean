import JsxEdit.Proofs.Bracket
import JsxEdit.Proofs.Faithful
import JsxEdit.Proofs.Shift
import Mathlib.Data.List.Forall2

/-
Two sources that are read alike.

Where the tokens of two sources have the same kinds and texts, the same is read from them, wherever they stand. The same
goes if a node in one is not the same as in the other: what is read around it does not depend on what it is.
-/
set_option autoImplicit false

namespace JsxEdit

open List (Forall₂)

/-! ## Lists -/

section

variable {α β : Type} {R : α → β → Prop}

theorem rel_cases {x : Option α} {y : Option β} (h : Option.Rel R x y) :
    (x = none ∧ y = none) ∨ ∃ a b, x = some a ∧ y = some b ∧ R a b := by
  cases h with
  | none => exact .inl ⟨rfl, rfl⟩
  | some h => exact .inr ⟨_, _, rfl, rfl, h⟩

theorem forall₂_cases {xs : List α} {ys : List β} (h : Forall₂ R xs ys) :
    (xs = [] ∧ ys = []) ∨ ∃ x xs' y ys', xs = x :: xs' ∧ ys = y :: ys' ∧ R x y ∧ Forall₂ R xs' ys' := by
  cases h with
  | nil => exact .inl ⟨rfl, rfl⟩
  | cons h hs => exact .inr ⟨_, _, _, _, rfl, rfl, h, hs⟩

theorem forall₂_getLast? {xs : List α} {ys : List β} (h : Forall₂ R xs ys) : Option.Rel R xs.getLast? ys.getLast? := by
  rw [← List.head?_reverse, ← List.head?_reverse]
  rcases forall₂_cases (List.forall₂_reverse_iff.mpr h) with ⟨hx, hy⟩ | ⟨x, xs', y, ys', hx, hy, hxy, -⟩
  · rw [hx, hy]
    exact .none
  · rw [hx, hy]
    exact .some hxy

theorem forall₂_dropLast {xs : List α} {ys : List β} (h : Forall₂ R xs ys) : Forall₂ R xs.dropLast ys.dropLast := by
  rw [List.dropLast_eq_take, List.dropLast_eq_take, h.length_eq]
  exact List.forall₂_take _ h

theorem forall₂_filter {p : α → Bool} {q : β → Bool} (hpq : ∀ x y, R x y → q y = p x) {xs : List α} {ys : List β}
    (h : Forall₂ R xs ys) : Forall₂ R (xs.filter p) (ys.filter q) := by
  induction h with
  | nil => exact .nil
  | @cons x y xs ys hx _ ih =>
    rw [List.filter_cons, List.filter_cons, hpq x y hx]
    split
    · exact .cons hx ih
    · exact ih

theorem forall₂_isEmpty {xs : List α} {ys : List β} (h : Forall₂ R xs ys) : ys.isEmpty = xs.isEmpty := by
  cases h <;> rfl

theorem forall₂_all {p : α → Bool} {q : β → Bool} (hpq : ∀ x y, R x y → q y = p x) {xs : List α} {ys : List β}
    (h : Forall₂ R xs ys) : ys.all q = xs.all p := by
  induction h with
  | nil => rfl
  | @cons x y xs ys hx _ ih => rw [List.all_cons, List.all_cons, hpq x y hx, ih]

theorem forall₂_findIdx? {p : α → Bool} {q : β → Bool} (hpq : ∀ x y, R x y → q y = p x) {xs : List α} {ys : List β}
    (h : Forall₂ R xs ys) : ys.findIdx? q = xs.findIdx? p := by
  induction h with
  | nil => rfl
  | @cons x y xs ys hx _ ih => rw [List.findIdx?_cons, List.findIdx?_cons, hpq x y hx, ih]

theorem forall₂_flatMap {γ δ : Type} {S : γ → δ → Prop} {f : α → List γ} {g : β → List δ}
    (hfg : ∀ x y, R x y → Forall₂ S (f x) (g y)) {xs : List α} {ys : List β} (h : Forall₂ R xs ys) :
    Forall₂ S (xs.flatMap f) (ys.flatMap g) := by
  induction h with
  | nil => exact .nil
  | @cons x y xs ys hx _ ih => exact List.rel_append (hfg x y hx) ih

theorem forall₂_mapM {γ δ : Type} {S : γ → δ → Prop} {f : α → Option γ} {g : β → Option δ}
    (hfg : ∀ x y, R x y → Option.Rel S (f x) (g y)) {xs : List α} {ys : List β} (h : Forall₂ R xs ys) :
    Option.Rel (Forall₂ S) (xs.mapM f) (ys.mapM g) := by
  induction h with
  | nil => exact .some .nil
  | @cons x y xs ys hx _ ih =>
    rw [List.mapM_cons, List.mapM_cons]
    rcases rel_cases (hfg x y hx) with ⟨hf, hg⟩ | ⟨c, d, hf, hg, hcd⟩
    · rw [hf, hg]
      exact .none
    · rw [hf, hg]
      rcases rel_cases ih with ⟨hfs, hgs⟩ | ⟨cs, ds, hfs, hgs, hcds⟩
      · rw [hfs, hgs]
        exact .none
      · rw [hfs, hgs]
        exact .some (.cons hcd hcds)

theorem rel_filter_option {p : α → Bool} {q : β → Bool} (hpq : ∀ x y, R x y → q y = p x) {x : Option α} {y : Option β}
    (h : Option.Rel R x y) : Option.Rel R (x.filter p) (y.filter q) := by
  cases h with
  | none => exact .none
  | @some x y h =>
    rw [Option.filter_some, Option.filter_some, hpq x y h]
    split
    · exact .some h
    · exact .none

theorem rel_isSome {x : Option α} {y : Option β} (h : Option.Rel R x y) : y.isSome = x.isSome := by
  cases h <;> rfl

theorem rel_bind {γ δ : Type} {S : γ → δ → Prop} {f : α → Option γ} {g : β → Option δ}
    (hfg : ∀ x y, R x y → Option.Rel S (f x) (g y)) {x : Option α} {y : Option β} (h : Option.Rel R x y) :
    Option.Rel S (x.bind f) (y.bind g) := by
  cases h with
  | none => exact .none
  | some h => exact hfg _ _ h

theorem rel_toList {x : Option α} {y : Option β} (h : Option.Rel R x y) : Forall₂ R x.toList y.toList := by
  cases h with
  | none => exact .nil
  | some h => exact .cons h .nil

end

/-! ## Likeness -/

/-- Kinds of nodes that are neither markup nor a place that is no markup. -/
def Kind.IsInner (k : Kind) : Prop := k.isMarkup = false ∧ k.isInvalid = false

open Markup (spanOf)

/-- When tokens and nodes are alike. Nodes made of what is alike are alike. Of a node that is not made here, all that
matters is whether it is a script, whether it starts with dots, and what it is if there is no markup in it. -/
structure Likeness where
  tokens : Token → Token → Prop
  nodes : Node → Node → Prop
  kind {t u : Token} : tokens t u → u.kind = t.kind
  text {t u : Token} : tokens t u → u.text = t.text
  code {ts us : List Token} : Forall₂ tokens ts us → nodes (Leaf.codeNode ts) (Leaf.codeNode us)
  new {k : Kind} {cs ds : List Node} : k.IsInner → Forall₂ nodes cs ds → nodes (.new k cs) (.new k ds)
  invalid {t u : Token} (reason : String) : tokens t u → nodes (Markup.invalid reason t) (Markup.invalid reason u)
  leaf {k : Kind} {t u : Token} : k.IsInner → tokens t u →
    nodes (.mk k { head := some (spanOf t t) } [] []) (.mk k { head := some (spanOf u u) } [] [])
  bracketed {k : Kind} {t u t' u' : Token} {cs ds : List Node} : k.IsInner → tokens t u → tokens t' u' →
    Forall₂ nodes cs ds → nodes (.mk k ⟨some (spanOf t t), some (spanOf t' t'), none⟩ [] cs)
      (.mk k ⟨some (spanOf u u), some (spanOf u' u'), none⟩ [] ds)
  element {name spaceEnd : String} {selfClosing : Bool} {closing : Option String} {a b a' b' t u : Token}
    {as bs cs ds : List Node} : tokens a b → tokens a' b' → tokens t u → Forall₂ nodes as bs → Forall₂ nodes cs ds →
    nodes (.mk (.element name selfClosing spaceEnd closing) ⟨some (spanOf a a'), some (spanOf t t), none⟩ as cs)
      (.mk (.element name selfClosing spaceEnd closing) ⟨some (spanOf b b'), some (spanOf u u), none⟩ bs ds)
  fragment {a b t u : Token} {cs ds : List Node} : tokens a b → tokens t u → Forall₂ nodes cs ds →
    nodes (.mk .fragment ⟨some (spanOf a a), some (spanOf t t), none⟩ [] cs)
      (.mk .fragment ⟨some (spanOf b b), some (spanOf u u), none⟩ [] ds)
  shape {n m : Node} : nodes n m → n.kind.IsInner → m.kind = n.kind ∧ Forall₂ nodes n.children m.children
  withChildren {n m : Node} {cs ds : List Node} : nodes n m → n.kind.IsInner → Forall₂ nodes cs ds →
    nodes (n.withChildren cs) (m.withChildren ds)
  name {n m : Node} : nodes n m → (m.kind.name == "Script") = (n.kind.name == "Script")
  dots {n m : Node} : nodes n m → Text.startsWith m.write "..." = Text.startsWith n.write "..."
  write {n m : Node} : nodes n m → n.Unplaced → m.write = n.write

namespace Likeness

variable (L : Likeness)

/-- Tokens or nodes that are alike. -/
inductive Leaves : Leaf → Leaf → Prop where
  | token {t u : Token} (h : L.tokens t u) : Leaves (.token t) (.token u)
  | node {n m : Node} (h : L.nodes n m) : Leaves (.node n) (.node m)

/-- Expressions that are alike. -/
structure Readings (r s : Reading) : Prop where
  lead : s.lead = r.lead
  node : Option.Rel L.nodes r.node s.node
  trail : s.trail = r.trail

/-- Bracketed parts that are alike. -/
structure Groups (g h : Group) : Prop where
  head : L.tokens g.head h.head
  inside : Forall₂ L.Leaves g.inside h.inside
  tail : Option.Rel L.tokens g.tail h.tail
  reading : L.Readings g.reading h.reading
  object : Option.Rel L.nodes g.object h.object

/-- Parts that are alike. -/
inductive Parts : Part → Part → Prop where
  | leaf {l m : Leaf} (like : L.Leaves l m) : Parts (.leaf l) (.leaf m)
  | group {g h : Group} (like : L.Groups g h) : Parts (.group g) (.group h)
  | content {nodes nodes' : List Node} {close close' : Option Token} (like : Forall₂ L.nodes nodes nodes')
    (closes : Option.Rel L.tokens close close') : Parts (.content nodes close) (.content nodes' close')

variable {L}

/-! ## Code -/

theorem texts_eq {ts us : List Token} (h : Forall₂ L.tokens ts us) : us.map (·.text) = ts.map (·.text) := by
  induction h with
  | nil => rfl
  | cons ht _ ih => rw [List.map_cons, List.map_cons, L.text ht, ih]

theorem tokenText?_eq {ls ms : List Leaf} (h : Forall₂ L.Leaves ls ms) : Leaf.tokenText? ms = Leaf.tokenText? ls := by
  have htokens : Option.Rel (Forall₂ L.tokens) (ls.mapM Leaf.token?) (ms.mapM Leaf.token?) := by
    refine forall₂_mapM (fun l m hl => ?_) h
    cases hl with
    | token ht => exact .some ht
    | node => exact .none
  rw [Leaf.tokenText?, Leaf.tokenText?]
  rcases rel_cases htokens with ⟨hls, hms⟩ | ⟨ts, us, hls, hms, htexts⟩
  · rw [hls, hms]
  · rw [hls, hms, Option.map_some, Option.map_some, texts_eq htexts]

theorem codeFrom_alike {pending pending' : List Token} {ls ms : List Leaf} (hpending : Forall₂ L.tokens pending pending')
    (h : Forall₂ L.Leaves ls ms) : Forall₂ L.nodes (Leaf.codeFrom pending ls) (Leaf.codeFrom pending' ms) := by
  induction h generalizing pending pending' with
  | nil =>
    rw [Leaf.codeFrom, Leaf.codeFrom, forall₂_isEmpty hpending]
    split
    · exact .nil
    · exact .cons (L.code (List.rel_reverse hpending)) .nil
  | cons hl _ ih =>
    cases hl with
    | token ht => exact ih (.cons ht hpending)
    | node hn =>
      rw [Leaf.codeFrom, Leaf.codeFrom, forall₂_isEmpty hpending]
      split
      · exact .cons hn (ih .nil)
      · exact .cons (L.code (List.rel_reverse hpending)) (.cons hn (ih .nil))

theorem code_alike {ls ms : List Leaf} (h : Forall₂ L.Leaves ls ms) : Forall₂ L.nodes (Leaf.code ls) (Leaf.code ms) :=
  codeFrom_alike .nil h

/-! ## Parts of expressions -/

theorem ofText_alike (text : String) : L.nodes (Expression.ofText text) (Expression.ofText text) := by
  have hnew {k : Kind} (hk : k.IsInner) : L.nodes (.new k []) (.new k []) := L.new hk .nil
  unfold Expression.ofText
  dsimp only
  split
  · next k hk =>
    refine hnew ?_
    unfold Expression.kind? at hk
    dsimp only at hk
    repeat' split at hk
    all_goals cases hk
    all_goals exact ⟨rfl, rfl⟩
  · exact L.new ⟨rfl, rfl⟩ (.cons (hnew ⟨rfl, rfl⟩) .nil)

theorem token?_alike {p q : Part} (h : L.Parts p q) : Option.Rel L.tokens p.token? q.token? := by
  cases h with
  | leaf h =>
    cases h with
    | token ht => exact .some ht
    | node => exact .none
  | group => exact .none
  | content => exact .none

theorem leaves_alike {p q : Part} (h : L.Parts p q) : Forall₂ L.Leaves p.leaves q.leaves := by
  cases h with
  | leaf h => exact .cons h .nil
  | group hg =>
    refine .cons (.token hg.head) (List.rel_append hg.inside ?_)
    rcases rel_cases hg.tail with ⟨hx, hy⟩ | ⟨t, u, hx, hy, ht⟩
    · rw [hx, hy]
      exact .nil
    · rw [hx, hy]
      exact .cons (.token ht) .nil
  | content => exact .nil

theorem allLeaves_alike {ps qs : List Part} (h : Forall₂ L.Parts ps qs) :
    Forall₂ L.Leaves (Part.allLeaves ps) (Part.allLeaves qs) :=
  forall₂_flatMap (fun _ _ hp => leaves_alike hp) h

theorem isBlank_eq {p q : Part} (h : L.Parts p q) : q.isBlank = p.isBlank := by
  rw [Part.isBlank, Part.isBlank]
  rcases rel_cases (token?_alike h) with ⟨hp, hq⟩ | ⟨t, u, hp, hq, ht⟩
  · rw [hp, hq]
  · rw [hp, hq, Option.any_some, Option.any_some, L.text ht]

theorem isSeparator_eq (text : String) {p q : Part} (h : L.Parts p q) : q.isSeparator text = p.isSeparator text := by
  rw [Part.isSeparator, Part.isSeparator]
  rcases rel_cases (token?_alike h) with ⟨hp, hq⟩ | ⟨t, u, hp, hq, ht⟩
  · rw [hp, hq]
  · rw [hp, hq, Option.any_some, Option.any_some, L.text ht, L.kind ht]

theorem object?_alike {ps qs : List Part} (h : Forall₂ L.Parts ps qs) :
    Option.Rel L.nodes (Part.object? ps) (Part.object? qs) := by
  have hfilter : Forall₂ L.Parts (ps.filter fun p => !p.isBlank) (qs.filter fun q => !q.isBlank) :=
    forall₂_filter (fun p q hp => congrArg not (isBlank_eq hp)) h
  unfold Part.object?
  revert hfilter
  generalize ps.filter (fun p => !p.isBlank) = ps
  generalize qs.filter (fun q => !q.isBlank) = qs
  intro hfilter
  cases hfilter with
  | nil => exact .none
  | cons hp hrest =>
    cases hp with
    | leaf => exact .none
    | content => exact .none
    | group hg =>
      cases hrest with
      | cons => exact .none
      | nil =>
        dsimp only
        rw [L.text hg.head, rel_isSome hg.tail]
        split
        · exact hg.object
        · exact .none

theorem reading_alike {ps qs : List Part} (h : Forall₂ L.Parts ps qs) : L.Readings (Part.reading ps) (Part.reading qs) := by
  have hscript : Kind.script.IsInner := ⟨rfl, rfl⟩
  rw [Part.reading, Part.reading, tokenText?_eq (allLeaves_alike h)]
  cases Leaf.tokenText? (Part.allLeaves ps) with
  | none => exact ⟨rfl, .some (L.new hscript (code_alike (allLeaves_alike h))), rfl⟩
  | some text =>
    dsimp only
    split
    · exact ⟨rfl, .none, rfl⟩
    · refine ⟨rfl, ?_, rfl⟩
      dsimp only
      refine .some ?_
      rcases rel_cases (object?_alike h) with ⟨hp, hq⟩ | ⟨o, o', hp, hq, ho⟩
      · rw [hp, hq, Option.getD_none]
        exact ofText_alike text
      · rw [hp, hq, Option.getD_some, Option.getD_some]
        exact ho

theorem splitOn_alike {f : Part → Bool} (hf : ∀ p q, L.Parts p q → f q = f p) {ps qs : List Part}
    (h : Forall₂ L.Parts ps qs) : Forall₂ (Forall₂ L.Parts) (Part.splitOn f ps) (Part.splitOn f qs) := by
  induction h with
  | nil => exact .cons .nil .nil
  | @cons p q ps qs hp _ ih =>
    rw [Part.splitOn, Part.splitOn, hf p q hp]
    split
    · exact .cons .nil ih
    · rcases forall₂_cases ih with ⟨hps, hqs⟩ | ⟨first, rest, first', rest', hps, hqs, hfirst, hrest⟩
      · rw [hps, hqs]
        exact .cons (.cons hp .nil) .nil
      · rw [hps, hqs]
        exact .cons (.cons hp hfirst) hrest

/-- Properties that are alike, with the same white space after them. -/
def Properties (L : Likeness) (x y : Node × String) : Prop := L.nodes x.1 y.1 ∧ y.2 = x.2

theorem property?_alike {ps qs : List Part} (h : Forall₂ L.Parts ps qs) :
    Option.Rel L.Properties (Part.property? ps) (Part.property? qs) := by
  unfold Part.property?
  rw [forall₂_findIdx? (fun _ _ hp => isSeparator_eq ":" hp) h]
  cases ps.findIdx? (Part.isSeparator ":") with
  | none => exact .none
  | some colon =>
    dsimp only [Option.bind_eq_bind, Option.bind_some]
    refine rel_bind (fun ts us hts => ?_) (forall₂_mapM (fun _ _ hp => token?_alike hp) (List.forall₂_take colon h))
    rw [texts_eq hts]
    have hvalue := reading_alike (List.forall₂_drop (colon + 1) h)
    split
    · exact .none
    · rw [hvalue.lead, hvalue.trail]
      refine rel_bind (fun n m hn => ?_) hvalue.node
      exact .some ⟨L.new ⟨rfl, rfl⟩ (.cons hn .nil), rfl⟩

theorem asObject_alike {ps qs : List Part} (h : Forall₂ L.Parts ps qs) :
    Option.Rel L.nodes (Part.asObject ps) (Part.asObject qs) := by
  have hsplit := splitOn_alike (fun _ _ hp => isSeparator_eq "," hp) h
  have hlast : ((Part.splitOn (Part.isSeparator ",") qs).getLast?.map Part.allLeaves).bind Leaf.tokenText? =
      ((Part.splitOn (Part.isSeparator ",") ps).getLast?.map Part.allLeaves).bind Leaf.tokenText? := by
    rcases rel_cases (forall₂_getLast? hsplit) with ⟨hp, hq⟩ | ⟨item, item', hp, hq, hitem⟩
    · rw [hp, hq]
    · rw [hp, hq]
      exact tokenText?_eq (allLeaves_alike hitem)
  unfold Part.asObject
  dsimp only
  rw [hlast]
  generalize ((Part.splitOn (Part.isSeparator ",") ps).getLast?.map Part.allLeaves).bind Leaf.tokenText? = last
  have hitems : Forall₂ (Forall₂ L.Parts)
      (if (last.filter Text.isBlank).isSome then (Part.splitOn (Part.isSeparator ",") ps).dropLast
        else Part.splitOn (Part.isSeparator ",") ps)
      (if (last.filter Text.isBlank).isSome then (Part.splitOn (Part.isSeparator ",") qs).dropLast
        else Part.splitOn (Part.isSeparator ",") qs) := by
    split
    · exact forall₂_dropLast hsplit
    · exact hsplit
  rw [forall₂_isEmpty hitems]
  refine rel_bind (fun found found' hfound => ?_) (forall₂_mapM (fun _ _ hp => property?_alike hp) hitems)
  have htrail : (found'.getLast?.map (·.2)).getD "" = (found.getLast?.map (·.2)).getD "" := by
    rcases rel_cases (forall₂_getLast? hfound) with ⟨hp, hq⟩ | ⟨e, e', hp, hq, he⟩
    · rw [hp, hq]
    · rw [hp, hq]
      exact he.2
  rw [htrail]
  refine .some (L.new ⟨rfl, rfl⟩ ?_)
  rw [List.forall₂_map_left_iff, List.forall₂_map_right_iff]
  exact hfound.imp fun _ _ he => he.1

/-- A group starts with its opening bracket. -/
theorem asGroup_alike (closers : List String) {t u : Token} {ps qs : List Part} (ht : L.tokens t u)
    (h : Forall₂ L.Parts ps qs) :
    L.Parts (Part.asGroup closers (.leaf (.token t) :: ps)) (Part.asGroup closers (.leaf (.token u) :: qs)) := by
  have hall : Forall₂ L.Parts (.leaf (.token t) :: ps) (.leaf (.token u) :: qs) := .cons (.leaf (.token ht)) h
  have hlast : Option.Rel L.tokens
      (((Part.leaf (.token t) :: ps).getLast?.bind Part.token?).filter (closers.contains ·.text))
      (((Part.leaf (.token u) :: qs).getLast?.bind Part.token?).filter (closers.contains ·.text)) :=
    rel_filter_option (fun _ _ ht => by rw [L.text ht]) (rel_bind (fun _ _ hp => token?_alike hp) (forall₂_getLast? hall))
  unfold Part.asGroup
  dsimp only
  rw [← hall.length_eq]
  have htail : Option.Rel L.tokens
      (if (Part.leaf (.token t) :: ps).length > 1 then
        ((Part.leaf (.token t) :: ps).getLast?.bind Part.token?).filter (closers.contains ·.text) else none)
      (if (Part.leaf (.token t) :: ps).length > 1 then
        ((Part.leaf (.token u) :: qs).getLast?.bind Part.token?).filter (closers.contains ·.text) else none) := by
    split
    · exact hlast
    · exact .none
  revert htail
  generalize (if (Part.leaf (.token t) :: ps).length > 1 then
    ((Part.leaf (.token t) :: ps).getLast?.bind Part.token?).filter (closers.contains ·.text) else none) = tail
  generalize (if (Part.leaf (.token t) :: ps).length > 1 then
    ((Part.leaf (.token u) :: qs).getLast?.bind Part.token?).filter (closers.contains ·.text) else none) = tail'
  intro htail
  rw [rel_isSome htail]
  have hinside : Forall₂ L.Parts
      (if tail.isSome then ((Part.leaf (.token t) :: ps).drop 1).dropLast else (Part.leaf (.token t) :: ps).drop 1)
      (if tail.isSome then ((Part.leaf (.token u) :: qs).drop 1).dropLast else (Part.leaf (.token u) :: qs).drop 1) := by
    split
    · exact forall₂_dropLast h
    · exact h
  exact .group ⟨ht, allLeaves_alike hinside, htail, reading_alike hinside, asObject_alike hinside⟩

/-! ## Markup -/

open Markup

theorem slot_alike {g h : Group} (hg : L.Groups g h) : L.nodes (slot g) (slot h) := by
  unfold slot
  cases htail : g.tail with
  | none =>
    have hrel := hg.tail
    rw [htail] at hrel
    cases hother : h.tail with
    | none => exact L.invalid _ hg.head
    | some => rw [hother] at hrel; cases hrel
  | some tail =>
    have hrel := hg.tail
    rw [htail] at hrel
    cases hother : h.tail with
    | none => rw [hother] at hrel; cases hrel
    | some tail' =>
      rw [hother] at hrel
      cases hrel with
      | some ht =>
        dsimp only
        rw [hg.reading.lead, hg.reading.trail]
        exact L.bracketed ⟨rfl, rfl⟩ hg.head ht (rel_toList hg.reading.node)

/-- What came of reading two things that are alike. -/
inductive Outcomes {α : Type} (L : Likeness) (R : α → α → Prop) : Except Node α → Except Node α → Prop where
  | error {n m : Node} (h : L.nodes n m) : Outcomes L R (.error n) (.error m)
  | ok {a b : α} (h : R a b) : Outcomes L R (.ok a) (.ok b)

theorem outcomes_cases {α : Type} {R : α → α → Prop} {x y : Except Node α} (h : Outcomes L R x y) :
    (∃ n m, x = .error n ∧ y = .error m ∧ L.nodes n m) ∨ ∃ a b, x = .ok a ∧ y = .ok b ∧ R a b := by
  cases h with
  | error h => exact .inl ⟨_, _, rfl, rfl, h⟩
  | ok h => exact .inr ⟨_, _, rfl, rfl, h⟩

/-- Attributes, which are no markup themselves. -/
def Attributes (L : Likeness) (a b : Node) : Prop := L.nodes a b ∧ a.kind.IsInner

/-- What a spread attribute is does not depend on the markup in it. -/
theorem spread_alike (space : String) {g h : Group} (hg : L.Groups g h) (hreads : g.Reads) :
    Outcomes L L.Attributes (spread space g) (spread space h) := by
  unfold spread
  have hrel := hg.tail
  cases htail : g.tail with
  | none =>
    rw [htail] at hrel
    cases hother : h.tail with
    | none => exact .error (L.invalid _ hg.head)
    | some => rw [hother] at hrel; cases hrel
  | some tail =>
    rw [htail] at hrel
    cases hother : h.tail with
    | none => rw [hother] at hrel; cases hrel
    | some tail' =>
      rw [hother] at hrel
      cases hrel with
      | some ht =>
        dsimp only
        have hnode := hg.reading.node
        have hof := hreads.reading
        revert hnode hof
        cases hn : g.reading.node with
        | none =>
          cases hm : h.reading.node with
          | some => exact fun hnode _ => nomatch hnode
          | none =>
            intro _ _
            exact .error (L.invalid _ hg.head)
        | some n =>
          cases hm : h.reading.node with
          | none => exact fun hnode _ => nomatch hnode
          | some m =>
            intro hnode hof
            have hlike : L.nodes n m := by cases hnode; assumption
            simp only [Option.map_some, Option.getD_some, L.dots hlike, L.name hlike]
            split
            · refine .ok ⟨?_, rfl, rfl⟩
              refine L.bracketed ⟨rfl, rfl⟩ hg.head ht (.cons ?_ .nil)
              split
              · exact hlike
              · next hscript =>
                -- without markup in it, the expression is written alike
                have hplain : n.Unplaced := by
                  rcases hof with ⟨-, hplain⟩ | hof
                  · exact hplain n hn
                  · rw [hn] at hof
                    cases hof
                    exact absurd rfl hscript
                rw [L.write hlike hplain]
                exact L.new ⟨rfl, rfl⟩ (.cons (L.new ⟨rfl, rfl⟩ .nil) .nil)
            · exact .error (L.invalid _ hg.head)

/-- What was read of two opening tags that are alike. -/
structure Openings (L : Likeness) (o o' : Opening) : Prop where
  attributes : Forall₂ L.Attributes o.attributes o'.attributes
  space : o'.space = o.space
  waiting : o'.waiting = o.waiting

theorem giveValue_alike {o o' : Opening} {v w : Node} (h : L.Openings o o') (hv : L.nodes v w) :
    L.Openings (o.giveValue v) (o'.giveValue w) := by
  obtain ⟨attributes, space, waiting⟩ := o
  obtain ⟨attributes', space', waiting'⟩ := o'
  obtain ⟨hattributes, hspace, hwaiting⟩ := h
  dsimp only at hattributes hspace hwaiting
  cases hattributes with
  | nil => exact ⟨.nil, hspace, rfl⟩
  | cons ha has =>
    obtain ⟨hkind, hchildren⟩ := L.shape ha.1 ha.2
    refine ⟨.cons ⟨L.withChildren ha.1 ha.2 (List.rel_append hchildren (.cons hv .nil)), ?_⟩ has, hspace, rfl⟩
    rw [Node.kind_withChildren]
    exact ha.2

theorem takesValue_eq {o o' : Opening} (h : L.Openings o o') : o'.takesValue = o.takesValue := by
  obtain ⟨attributes, space, waiting⟩ := o
  obtain ⟨attributes', space', waiting'⟩ := o'
  obtain ⟨hattributes, hspace, -⟩ := h
  dsimp only at hattributes hspace
  subst hspace
  cases hattributes with
  | nil => rfl
  | cons ha has =>
    obtain ⟨hkind, hchildren⟩ := L.shape ha.1 ha.2
    simp only [Opening.takesValue, hkind, forall₂_isEmpty hchildren]

theorem readToken_alike {o o' : Opening} {t u : Token} (h : L.Openings o o') (ht : L.tokens t u) :
    Outcomes L L.Openings (readToken o t) (readToken o' u) := by
  have hvalue : L.Openings (o.giveValue (stringValue t)) (o'.giveValue (stringValue u)) := by
    refine giveValue_alike h ?_
    rw [stringValue, stringValue, L.text ht]
    exact L.leaf ⟨rfl, rfl⟩ ht
  unfold readToken
  simp only [L.kind ht, L.text ht, h.space, h.waiting, takesValue_eq h]
  split
  · exact .ok ⟨h.attributes, rfl, rfl⟩
  · exact .ok ⟨h.attributes, rfl, rfl⟩
  · split
    · exact .error (L.invalid _ ht)
    · exact .ok ⟨.cons ⟨L.leaf ⟨rfl, rfl⟩ ht, rfl, rfl⟩ h.attributes, rfl, rfl⟩
  · split
    · exact .ok ⟨h.attributes, rfl, rfl⟩
    · exact .error (L.invalid _ ht)
  · split
    · exact .ok hvalue
    · exact .error (L.invalid _ ht)
  · split
    · exact .ok hvalue
    · exact .error (L.invalid _ ht)
  · split
    · split
      · exact .error (L.invalid _ ht)
      · exact .ok h
    · exact .error (L.invalid _ ht)

theorem attributes_reverse {o o' : Opening} (h : L.Openings o o') :
    Forall₂ L.nodes o.attributes.reverse o'.attributes.reverse :=
  List.rel_reverse (h.attributes.imp fun _ _ ha => ha.1)

theorem elementFrom_alike {angle angle' name name' : Token} {o o' : Opening} {ps qs : List Part}
    (hangle : L.tokens angle angle') (hname : L.tokens name name') (ho : L.Openings o o') (h : Forall₂ L.Parts ps qs)
    (hreads : ∀ p ∈ ps, p.Reads) : L.nodes (elementFrom angle name o ps) (elementFrom angle' name' o' qs) := by
  induction h generalizing o o' with
  | nil =>
    rw [elementFrom, elementFrom, L.text hname]
    exact L.invalid _ hangle
  | cons hp _ ih =>
    rw [List.forall_mem_cons] at hreads
    have ih := fun {o o'} ho => @ih o o' ho hreads.2
    cases hp with
    | leaf hl =>
      cases hl with
      | node => exact ih ho
      | token ht =>
        rw [elementFrom, elementFrom]
        rcases outcomes_cases (readToken_alike ho ht) with ⟨n, m, hp, hq, hn⟩ | ⟨o₁, o₁', hp, hq, ho'⟩
        · rw [hp, hq]
          exact hn
        · rw [hp, hq]
          dsimp only
          rw [L.kind ht, L.text ht]
          split
          · rw [L.text hname, ho'.space]
            exact L.element hangle hname ht (attributes_reverse ho') .nil
          · exact ih ho'
    | group hg =>
      rw [elementFrom, elementFrom, ho.waiting, ho.space]
      split
      · exact ih (giveValue_alike ho (slot_alike hg))
      · rcases outcomes_cases (spread_alike _ hg hreads.1) with ⟨n, m, hp, hq, hn⟩ | ⟨a, b, hp, hq, ha⟩
        · rw [hp, hq]
          exact hn
        · rw [hp, hq]
          exact ih ⟨.cons ha ho.attributes, rfl, rfl⟩
    | content hnodes hclose =>
      cases hclose with
      | none =>
        rw [elementFrom, elementFrom, L.text hname]
        exact L.invalid _ hangle
      | some ht =>
        rw [elementFrom, elementFrom, L.text hname, L.text ht, ho.space]
        split
        · exact L.element hangle hname ht (attributes_reverse ho) hnodes
        · exact L.invalid _ ht

theorem contentNode_alike {p q : Part} (h : L.Parts p q) : Forall₂ L.nodes (contentNode p) (contentNode q) := by
  cases h with
  | leaf hl =>
    cases hl with
    | node hn => exact .cons hn .nil
    | token ht =>
      rw [contentNode, contentNode, L.kind ht, L.text ht]
      split
      · exact .cons (L.leaf ⟨rfl, rfl⟩ ht) .nil
      · exact .cons (L.invalid _ ht) .nil
  | group hg => exact .cons (slot_alike hg) .nil
  | content => exact .nil

theorem closeTag?_alike {ps qs : List Part} (h : Forall₂ L.Parts ps qs) :
    Option.Rel L.tokens (closeTag? ps) (closeTag? qs) :=
  rel_filter_option (fun _ _ ht => by rw [L.kind ht]) (rel_bind (fun _ _ hp => token?_alike hp) (forall₂_getLast? h))

theorem content_alike {ps qs : List Part} (h : Forall₂ L.Parts ps qs) :
    Forall₂ L.nodes (content ps).1 (content qs).1 ∧ Option.Rel L.tokens (content ps).2 (content qs).2 := by
  unfold content
  cases hp : closeTag? ps with
  | none =>
    have hclose := closeTag?_alike h
    rw [hp] at hclose
    cases hq : closeTag? qs with
    | some => rw [hq] at hclose; cases hclose
    | none => exact ⟨forall₂_flatMap (fun _ _ hp => contentNode_alike hp) h, .none⟩
  | some t =>
    have hclose := closeTag?_alike h
    rw [hp] at hclose
    cases hq : closeTag? qs with
    | none => rw [hq] at hclose; cases hclose
    | some u =>
      rw [hq] at hclose
      exact ⟨forall₂_flatMap (fun _ _ hp => contentNode_alike hp) (forall₂_dropLast h), hclose⟩

theorem fragment_alike {t u : Token} {ps qs : List Part} (ht : L.tokens t u) (h : Forall₂ L.Parts ps qs) :
    L.nodes (Markup.fragment (.leaf (.token t) :: ps)) (Markup.fragment (.leaf (.token u) :: qs)) := by
  obtain ⟨hnodes, hclose⟩ := content_alike h
  rw [Markup.fragment, Markup.fragment]
  revert hnodes hclose
  rcases content ps with ⟨nodes, close⟩
  rcases content qs with ⟨nodes', close'⟩
  dsimp only
  intro hnodes hclose
  cases hclose with
  | none => exact L.invalid _ ht
  | some hc =>
    dsimp only
    rw [L.text hc]
    split
    · exact L.fragment ht hc hnodes
    · exact L.invalid _ hc

/-! ## What is kept -/

/-- Parts that are alike, of which the same is kept. -/
structure Judgements (L : Likeness) (x y : Judged) : Prop where
  part : L.Parts x.part y.part
  markup : y.markup = x.markup
  reading : y.reading = x.reading
  object : y.object = x.object

variable {xs ys : List Judged}

theorem parts_alike (h : Forall₂ L.Judgements xs ys) : Forall₂ L.Parts (Judged.parts xs) (Judged.parts ys) := by
  rw [Judged.parts, Judged.parts, List.forall₂_map_left_iff, List.forall₂_map_right_iff]
  exact h.imp fun _ _ hx => hx.part

theorem markup_eq (h : Forall₂ L.Judgements xs ys) : ys.all (·.markup) = xs.all (·.markup) :=
  forall₂_all (fun _ _ hx => hx.markup) h

theorem keepsExpression_eq (h : Forall₂ L.Judgements xs ys) : Judged.keepsExpression ys = Judged.keepsExpression xs := by
  have hobjects : ys.all (fun y => y.part.isBlank || y.object) = xs.all fun x => x.part.isBlank || x.object :=
    forall₂_all (fun _ _ hx => by rw [isBlank_eq hx.part, hx.object]) h
  unfold Judged.keepsExpression
  rw [tokenText?_eq (allLeaves_alike (parts_alike h)), markup_eq h, hobjects]
  rcases rel_cases (object?_alike (parts_alike h)) with ⟨hp, hq⟩ | ⟨o, o', hp, hq, -⟩
  · rw [hp, hq]
  · rw [hp, hq]

theorem judgedSplit_alike {f : Part → Bool} (hf : ∀ p q, L.Parts p q → f q = f p) (h : Forall₂ L.Judgements xs ys) :
    Forall₂ (Forall₂ L.Judgements) (Judged.splitOn f xs) (Judged.splitOn f ys) := by
  induction h with
  | nil => exact .cons .nil .nil
  | @cons x y xs ys hx _ ih =>
    rw [Judged.splitOn, Judged.splitOn, hf _ _ hx.part]
    split
    · exact .cons .nil ih
    · rcases forall₂_cases ih with ⟨hps, hqs⟩ | ⟨first, rest, first', rest', hps, hqs, hfirst, hrest⟩
      · rw [hps, hqs]
        exact .cons (.cons hx .nil) .nil
      · rw [hps, hqs]
        exact .cons (.cons hx hfirst) hrest

theorem value_alike (h : Forall₂ L.Judgements xs ys) : Forall₂ L.Judgements (Judged.value xs) (Judged.value ys) := by
  unfold Judged.value
  rw [forall₂_findIdx? (fun _ _ hx => isSeparator_eq ":" hx.part) h]
  split
  · exact List.forall₂_drop _ h
  · exact .nil

theorem keepsObject_eq (h : Forall₂ L.Judgements xs ys) : Judged.keepsObject ys = Judged.keepsObject xs := by
  have hitems := judgedSplit_alike (fun _ _ hp => isSeparator_eq "," hp) h
  rw [Judged.keepsObject, Judged.keepsObject]
  refine congrArg₂ (· && ·) ?_ ?_
  · exact forall₂_all (fun _ _ hitem => keepsExpression_eq (value_alike hitem)) hitems
  · refine forall₂_all (fun _ _ hitem => ?_) (forall₂_dropLast hitems)
    rw [(reading_alike (parts_alike (value_alike hitem))).trail]

theorem isEquals_eq {x y : Judged} (h : L.Judgements x y) : y.isEquals = x.isEquals := by
  rw [Judged.isEquals, Judged.isEquals]
  rcases rel_cases (token?_alike h.part) with ⟨hp, hq⟩ | ⟨t, u, hp, hq, ht⟩
  · rw [hp, hq]
  · rw [hp, hq, Option.any_some, Option.any_some, L.kind ht]

theorem keepsInTag_eq (name : String) (afterEquals : Bool) {x y : Judged} (h : L.Judgements x y) :
    y.keepsInTag name afterEquals = x.keepsInTag name afterEquals := by
  obtain ⟨part, source, markup, reading, object⟩ := x
  obtain ⟨part', source', markup', reading', object'⟩ := y
  obtain ⟨hpart, hmarkup, hreading, hobject⟩ := h
  dsimp only at hpart hmarkup hreading hobject
  subst hmarkup hreading hobject
  unfold Judged.keepsInTag
  cases hpart with
  | leaf hl =>
    cases hl with
    | token ht => simp only [L.kind ht]
    | node => rfl
  | group hg => simp only [hg.reading.lead, hg.reading.trail]
  | content _ hclose =>
    cases hclose with
    | none => rfl
    | some ht => simp only [Option.all_some, L.text ht]

theorem keepsTag_eq (name : String) (afterEquals : Bool) (h : Forall₂ L.Judgements xs ys) :
    Judged.keepsTag name afterEquals ys = Judged.keepsTag name afterEquals xs := by
  induction h generalizing afterEquals with
  | nil => rfl
  | cons hx _ ih => rw [Judged.keepsTag, Judged.keepsTag, keepsInTag_eq name afterEquals hx, isEquals_eq hx, ih]

theorem keepsInContent_eq {x y : Judged} (h : L.Judgements x y) : y.keepsInContent = x.keepsInContent := by
  obtain ⟨part, source, markup, reading, object⟩ := x
  obtain ⟨part', source', markup', reading', object'⟩ := y
  obtain ⟨hpart, hmarkup, hreading, hobject⟩ := h
  dsimp only at hpart hmarkup hreading hobject
  subst hmarkup hreading hobject
  unfold Judged.keepsInContent
  cases hpart <;> rfl

theorem keepsElement_eq (h : Forall₂ L.Judgements xs ys) : Judged.keepsElement ys = Judged.keepsElement xs := by
  cases h with
  | nil => rfl
  | cons _ h =>
    cases h with
    | nil => rfl
    | @cons x y xs ys hx h =>
      obtain ⟨part, source, markup, reading, object⟩ := x
      obtain ⟨part', source', markup', reading', object'⟩ := y
      obtain ⟨hpart, -, -, -⟩ := hx
      dsimp only at hpart
      cases hpart with
      | leaf hl =>
        cases hl with
        | token ht =>
          rw [Judged.keepsElement, Judged.keepsElement, L.text ht]
          exact keepsTag_eq _ _ h
        | node => rfl
      | group => rfl
      | content => rfl

theorem keepsFragment_eq (h : Forall₂ L.Judgements xs ys) : Judged.keepsFragment ys = Judged.keepsFragment xs := by
  rw [Judged.keepsFragment, Judged.keepsFragment, forall₂_all (fun _ _ hx => keepsInContent_eq hx) h]
  rcases rel_cases (closeTag?_alike (parts_alike (List.forall₂_drop 1 h))) with ⟨hp, hq⟩ | ⟨t, u, hp, hq, ht⟩
  · rw [hp, hq]
  · rw [hp, hq, Option.all_some, Option.all_some, L.text ht]

theorem inside_alike (closers : List String) (h : Forall₂ L.Judgements xs ys) :
    Forall₂ L.Judgements (Judged.inside closers xs) (Judged.inside closers ys) := by
  have hlast : Option.Rel L.tokens ((xs.getLast?.bind (·.part.token?)).filter (closers.contains ·.text))
      ((ys.getLast?.bind (·.part.token?)).filter (closers.contains ·.text)) :=
    rel_filter_option (fun _ _ ht => by rw [L.text ht])
      (rel_bind (fun _ _ hx => token?_alike hx.part) (forall₂_getLast? h))
  unfold Judged.inside
  dsimp only
  have htail : (if ys.length > 1 then (ys.getLast?.bind (·.part.token?)).filter (closers.contains ·.text) else none).isSome =
      (if xs.length > 1 then (xs.getLast?.bind (·.part.token?)).filter (closers.contains ·.text) else none).isSome := by
    rw [← h.length_eq]
    split
    · exact rel_isSome hlast
    · rfl
  rw [htail]
  generalize (if xs.length > 1 then (xs.getLast?.bind (·.part.token?)).filter (closers.contains ·.text) else none).isSome =
    closed
  cases closed
  · exact List.forall₂_drop 1 h
  · exact forall₂_dropLast (List.forall₂_drop 1 h)

theorem ofGroup_alike (closers : List String) {p q : Part} (hpart : L.Parts p q) (h : Forall₂ L.Judgements xs ys) :
    L.Judgements (.ofGroup p closers xs) (.ofGroup q closers ys) :=
  ⟨hpart, markup_eq h, keepsExpression_eq (inside_alike closers h), keepsObject_eq (inside_alike closers h)⟩

theorem ofStretch_alike (mode : Mode) (hpart : L.Parts (assemble mode (Judged.parts xs)) (assemble mode (Judged.parts ys)))
    (h : Forall₂ L.Judgements xs ys) : L.Judgements (.ofStretch mode xs) (.ofStretch mode ys) := by
  cases mode with
  | tag => exact ⟨hpart, keepsElement_eq h, rfl, rfl⟩
  | fragment => exact ⟨hpart, keepsFragment_eq h, rfl, rfl⟩
  | content => exact ⟨hpart, forall₂_all (fun _ _ hx => keepsInContent_eq hx) h, rfl, rfl⟩
  | braces => exact ofGroup_alike _ hpart h
  | group => exact ofGroup_alike _ hpart h
  | template => exact ofGroup_alike _ hpart h
  | script => exact ⟨hpart, rfl, rfl, rfl⟩
  | markup => exact ⟨hpart, rfl, rfl, rfl⟩

/-! ## Pieces -/

/-- Pieces that are alike: they are made up in the same way of tokens that are, and of stretches of which it is known. -/
inductive Pieces (L : Likeness) (B : Piece → Piece → Prop) : Piece → Piece → Prop where
  | token {t u : Token} (like : L.tokens t u) : Pieces L B (.token t) (.token u)
  | stretch {items items' : List Piece} (mode : Mode) (like : Forall₂ (Pieces L B) items items') :
    Pieces L B (.stretch mode items) (.stretch mode items')
  | base {mode : Mode} {items : List Piece} {q : Piece} (known : B (.stretch mode items) q) :
    Pieces L B (.stretch mode items) q

variable {B : Piece → Piece → Prop}

theorem pieces_token {t : Token} {q : Piece} (h : L.Pieces B (.token t) q) : ∃ u, q = .token u ∧ L.tokens t u := by
  cases h with
  | token ht => exact ⟨_, rfl, ht⟩

theorem judgeAll_eq_map (ps : List Piece) : judgeAll ps = ps.map judge := by
  induction ps with
  | nil => rfl
  | cons p ps ih => rw [judgeAll, List.map_cons, ih]

theorem token_of_opens {mode : Mode} {first : List Piece} (h : Piece.Opens mode first) {p : Piece} (hp : p ∈ first) :
    ∃ t, p = .token t := by
  cases h with
  | tag =>
    rcases List.mem_pair.mp hp with rfl | rfl
    · exact ⟨_, rfl⟩
    · exact ⟨_, rfl⟩
  | content => cases hp
  | fragment | braces | group | template =>
    rw [List.mem_singleton.mp hp]
    exact ⟨_, rfl⟩

theorem judgement_token {t u : Token} (ht : L.tokens t u) : L.Judgements (judge (.token t)) (judge (.token u)) :=
  ⟨.leaf (.token ht), rfl, rfl, rfl⟩

/-- A stretch is read alike from what opens it and the rest. -/
theorem assemble_alike {mode : Mode} {first rest items' : List Piece} (opens : Piece.Opens mode first)
    (hreads : ∀ p ∈ rest, (part p).Reads) (h : Forall₂ (L.Pieces B) (first ++ rest) items')
    (hrest : ∀ p ∈ rest, ∀ q, L.Pieces B p q → L.Parts (part p) (part q)) :
    L.Parts (assemble mode (allParts (first ++ rest))) (assemble mode (allParts items')) := by
  have hparts : ∀ {qs}, Forall₂ (L.Pieces B) rest qs → Forall₂ L.Parts (allParts rest) (allParts qs) := by
    intro qs hqs
    rw [allParts_eq_map, allParts_eq_map, List.forall₂_map_left_iff, List.forall₂_map_right_iff]
    exact (List.forall₂_and_left _ _ |>.mpr ⟨hrest, hqs⟩).imp fun p q hpq => hpq.1 q hpq.2
  have hreads' : ∀ p ∈ allParts rest, p.Reads := by
    rw [allParts_eq_map]
    exact List.forall_mem_map.mpr hreads
  cases opens with
  | tag text isName =>
    rw [List.cons_append, List.singleton_append, List.forall₂_cons_left_iff] at h
    obtain ⟨q, qs, hangle, h, rfl⟩ := h
    rw [List.forall₂_cons_left_iff] at h
    obtain ⟨q', qs, hname, h, rfl⟩ := h
    obtain ⟨angle', rfl, ha⟩ := pieces_token hangle
    obtain ⟨name', rfl, hn⟩ := pieces_token hname
    exact .leaf (.node (elementFrom_alike ha hn ⟨.nil, rfl, rfl⟩ (hparts h) hreads'))
  | content =>
    obtain ⟨hnodes, hclose⟩ := content_alike (hparts h)
    exact .content hnodes hclose
  | fragment text =>
    rw [List.singleton_append, List.forall₂_cons_left_iff] at h
    obtain ⟨q, qs, ht, h, rfl⟩ := h
    obtain ⟨u, rfl, hu⟩ := pieces_token ht
    exact .leaf (.node (fragment_alike hu (hparts h)))
  | braces =>
    rw [List.singleton_append, List.forall₂_cons_left_iff] at h
    obtain ⟨q, qs, ht, h, rfl⟩ := h
    obtain ⟨u, rfl, hu⟩ := pieces_token ht
    exact asGroup_alike _ hu (hparts h)
  | group text =>
    rw [List.singleton_append, List.forall₂_cons_left_iff] at h
    obtain ⟨q, qs, ht, h, rfl⟩ := h
    obtain ⟨u, rfl, hu⟩ := pieces_token ht
    exact asGroup_alike _ hu (hparts h)
  | template text =>
    rw [List.singleton_append, List.forall₂_cons_left_iff] at h
    obtain ⟨q, qs, ht, h, rfl⟩ := h
    obtain ⟨u, rfl, hu⟩ := pieces_token ht
    exact asGroup_alike _ hu (hparts h)

/-- From pieces that are alike the same is read, and the same of it is kept. -/
theorem judge_alike (hB : ∀ p q, B p q → L.Judgements (judge p) (judge q)) {p q : Piece} (hp : Piece.Formed p)
    (h : L.Pieces B p q) : L.Judgements (judge p) (judge q) := by
  induction hp generalizing q with
  | token t =>
    obtain ⟨u, rfl, ht⟩ := pieces_token h
    exact judgement_token ht
  | @stretch mode first items last opens ends accepted inner outer ihinner ihouter =>
    cases h with
    | base known => exact hB _ _ known
    | stretch _ h =>
      have hrest : ∀ p ∈ items ++ last, ∀ q, L.Pieces B p q → L.Judgements (judge p) (judge q) := by
        intro p hp q hpq
        rcases List.mem_append.mp hp with hp | hp
        · exact ihinner p hp hpq
        · exact ihouter p hp hpq
      have hfirst : ∀ p ∈ first, ∀ q, L.Pieces B p q → L.Judgements (judge p) (judge q) := by
        intro p hp q hpq
        obtain ⟨t, rfl⟩ := token_of_opens opens hp
        obtain ⟨u, rfl, ht⟩ := pieces_token hpq
        exact judgement_token ht
      rw [List.append_assoc] at h ⊢
      have hall := List.forall_mem_append.mpr ⟨hfirst, hrest⟩
      rw [judge, judge]
      refine ofStretch_alike mode ?_ ?_
      · rw [Judged.parts_judgeAll, Judged.parts_judgeAll]
        refine assemble_alike opens (fun p hp => ?_) h fun p hp q hpq => ?_
        · rcases List.mem_append.mp hp with hp | hp
          · exact reads_part (inner p hp)
          · exact reads_part (outer p hp)
        · rw [← Judged.part_judge, ← Judged.part_judge]
          exact (hrest p hp q hpq).part
      · rw [judgeAll_eq_map, judgeAll_eq_map, List.forall₂_map_left_iff, List.forall₂_map_right_iff]
        exact (List.forall₂_and_left _ _ |>.mpr ⟨hall, h⟩).imp fun p q hpq => hpq.1 q hpq.2

/-! ## Events -/

/-- Events that are alike. -/
inductive Events (L : Likeness) : Event → Event → Prop where
  | token {t u : Token} (like : L.tokens t u) : Events L (.token t) (.token u)
  | enter (mode : Mode) : Events L (.enter mode) (.enter mode)
  | leave : Events L .leave .leave

/-- Open stretches that are alike, each with the pieces before it. -/
def Frames (L : Likeness) (B : Piece → Piece → Prop) (frame frame' : Mode × List Piece) : Prop :=
  frame'.1 = frame.1 ∧ Forall₂ (L.Pieces B) frame.2 frame'.2

theorem close_alike (mode : Mode) {items items' outer outer' : List Piece} (h : Forall₂ (L.Pieces B) items items')
    (houter : Forall₂ (L.Pieces B) outer outer') :
    Forall₂ (L.Pieces B) (Piece.close mode items outer) (Piece.close mode items' outer') := by
  rw [Piece.close, Piece.close, forall₂_isEmpty h]
  split
  · exact houter
  · exact .cons (.stretch mode (List.rel_reverse h)) houter

/-- Events that are alike are nested alike. -/
theorem nest_alike {items items' : List Piece} {frames frames' : List (Mode × List Piece)} {es es' : List Event}
    (h : Forall₂ (L.Pieces B) items items') (hframes : Forall₂ (L.Frames B) frames frames')
    (hes : Forall₂ L.Events es es') : Forall₂ (L.Pieces B) (Piece.nest items frames es) (Piece.nest items' frames' es') := by
  induction hes generalizing items items' frames frames' with
  | nil =>
    rw [Piece.nest, Piece.nest]
    induction hframes generalizing items items' with
    | nil => exact List.rel_reverse h
    | @cons frame frame' frames frames' hframe _ ih =>
      obtain ⟨mode, outer⟩ := frame
      obtain ⟨mode', outer'⟩ := frame'
      obtain ⟨rfl, houter⟩ := hframe
      exact ih (close_alike mode' h houter)
  | cons he _ ih =>
    cases he with
    | token ht => exact ih (.cons (.token ht) h) hframes
    | enter mode => exact ih .nil (.cons ⟨rfl, h⟩ hframes)
    | leave =>
      cases hframes with
      | nil => exact ih h .nil
      | @cons frame frame' frames frames' hframe hrest =>
        obtain ⟨mode, outer⟩ := frame
        obtain ⟨mode', outer'⟩ := frame'
        obtain ⟨rfl, houter⟩ := hframe
        exact ih (close_alike mode' h houter) hrest

end Likeness
end JsxEdit
