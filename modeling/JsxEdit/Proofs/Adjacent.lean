import JsxEdit.Proofs.Positions
import JsxEdit.Proofs.Siblings

/-
Texts between tags do not meet.

A text between tags goes on up to the next angle or brace, so that the token after it is no text. Elements, fragments
and expressions in braces are never empty, so that two texts in a list of children have one of these between them. In
the lists of children of a document there is no white space next to white space.
-/
set_option autoImplicit false

namespace JsxEdit

/-! ## Tokens of texts -/

/-- Of two tokens in a row not both are texts. -/
def Token.Apart (t t' : Token) : Prop := t.kind = .text → t'.kind ≠ .text

namespace Scan

/-- A match without a token of text. -/
def Match.Wordless (m : Match) : Prop := ∀ part ∈ m.parts, part.1 ≠ .text

theorem wordless_one {kind : TokenKind} {n : Nat} {move : Move} {m : Match} (h : one kind n move = some m)
    (hkind : kind ≠ .text) : m.Wordless := by
  rw [one_eq h]
  intro part hpart
  rw [List.mem_singleton.mp hpart]
  exact hkind

theorem wordless_markup? {cs : List Char} {m : Match} (h : markup? cs = some m) : m.Wordless := by
  obtain ⟨rest, -, rfl | ⟨n, rfl⟩⟩ := markup?_cases h
  · exact fun part hpart => by simp_all
  · intro part hpart
    rcases List.mem_cons.mp hpart with rfl | hpart
    · exact fun hk => by cases hk
    · rw [List.mem_singleton.mp hpart]
      exact fun hk => by cases hk

theorem wordless_comment? {cs : List Char} {m : Match} (h : comment? cs = some m) : m.Wordless := by
  obtain ⟨n, rest, rfl, -⟩ := comment?_spec h
  exact wordless_one rfl (by decide)

theorem wordless_literal? {cs : List Char} {m : Match} (h : literal? cs = some m) : m.Wordless := by
  unfold literal? at h
  rcases orElse_some h with hs | h
  · unfold scriptString? at hs
    split at hs
    · obtain ⟨n, -, hn⟩ := Option.bind_eq_some_iff.mp hs
      exact wordless_one hn (by decide)
    · obtain ⟨n, -, hn⟩ := Option.bind_eq_some_iff.mp hs
      exact wordless_one hn (by decide)
    · cases hs
  · rcases orElse_some h with ht | hc
    · split at ht
      · exact wordless_one ht (by decide)
      · cases ht
    · exact wordless_comment? hc

theorem wordless_lead? {before : Option Char} {cs : List Char} {m : Match} (h : lead? before cs = some m) :
    m.Wordless := by
  obtain ⟨n, -, hm⟩ := Option.bind_eq_some_iff.mp h
  exact wordless_one hm (by decide)

theorem wordless_expression? {closers : List Char} {before : Option Char} {cs : List Char} {m : Match}
    (h : expression? closers before cs = some m) : m.Wordless := by
  unfold expression? at h
  split at h
  · cases h
  · split at h
    · exact wordless_one h (by decide)
    · rcases orElse_some h with hl | h
      · exact wordless_lead? hl
      · split at h
        · exact wordless_one h (by decide)
        · split at h
          · exact wordless_one h (by decide)
          · split at h
            · exact wordless_one h (by decide)
            · exact wordless_literal? h

theorem wordless_template? {cs : List Char} {m : Match} (h : template? cs = some m) : m.Wordless := by
  unfold template? at h
  split at h
  · cases h
  · exact wordless_one h (by decide)
  · exact wordless_one h (by decide)
  · exact wordless_one h (by decide)
  · cases h
  · exact wordless_one h (by decide)
  · exact wordless_one h (by decide)

/-- In an opening tag no token is a text. -/
theorem wordless_tag? {cs : List Char} {m : Match} (h : tag? cs = some m) : m.Wordless := by
  cases tag?_rule h with
  | @token kind n pos fits =>
    refine wordless_one rfl ?_
    rintro rfl
    exact fits
  | announce pos script => cases script
  | tag text place => exact absurd rfl place
  | closeExpression place => rcases place with place | place | place <;> cases place
  | _ => exact wordless_one rfl (by decide)

/-- Modes between tags. -/
def isContent : Mode → Bool
  | .content | .fragment => true
  | _ => false

/-- The text that stands here between tags. -/
def wordLength (cs : List Char) : Nat := (cs.takeWhile fun d => d != '<' && d != '\x7b').length

theorem word_of_content? {count : Nat} {cs : List Char} {m : Match} (h : content? count cs = some m) :
    m.Wordless ∨ m = ⟨[(.text, wordLength cs)], .stay⟩ := by
  rcases content?_cases h with ⟨n, -, rfl⟩ | hmarkup | ⟨rest, -, rfl⟩ | rfl | rfl
  · exact .inl (wordless_one rfl (by decide))
  · exact .inl (wordless_markup? hmarkup)
  · exact .inl (wordless_one rfl (by decide))
  · exact .inl (wordless_one rfl (by decide))
  · exact .inr rfl

/-- Only between tags a match is a text, and then it goes up to the next angle or brace. -/
theorem word_of_match {mode : Mode} {atStart : Bool} {before : Option Char} {cs : List Char} {m : Match}
    (h : match? mode atStart before cs = some m) :
    m.Wordless ∨ (isContent mode = true ∧ m = ⟨[(.text, wordLength cs)], .stay⟩) := by
  unfold match? at h
  split at h
  · refine .inl ?_
    rcases orElse_some h with hf | h
    · split at hf
      · unfold firstMarkup? at hf
        dsimp only at hf
        split at hf
        · exact wordless_one hf (by decide)
        · exact wordless_markup? hf
      · cases hf
    · rcases orElse_some h with hl | h
      · exact wordless_lead? hl
      · exact wordless_literal? h
  · refine .inl ?_
    split at h
    · exact wordless_markup? h
    · exact wordless_one h (by decide)
  · exact .inl (wordless_tag? h)
  · exact (word_of_content? h).imp_right fun hm => ⟨rfl, hm⟩
  · exact (word_of_content? h).imp_right fun hm => ⟨rfl, hm⟩
  · exact .inl (wordless_expression? h)
  · exact .inl (wordless_expression? h)
  · exact .inl (wordless_template? h)

theorem takeWhile_drop (p : Char → Bool) (cs : List Char) : (cs.drop (cs.takeWhile p).length).takeWhile p = [] := by
  induction cs with
  | nil => rfl
  | cons c cs ih =>
    by_cases hc : p c = true
    · rw [List.takeWhile_cons_of_pos hc, List.length_cons, List.drop_succ_cons]
      exact ih
    · rw [List.takeWhile_cons_of_neg hc, List.length_nil, List.drop_zero, List.takeWhile_cons_of_neg hc]

/-- Behind the text that stands here no text starts. -/
theorem wordLength_drop (cs : List Char) : wordLength (cs.drop (wordLength cs)) = 0 :=
  congrArg List.length (takeWhile_drop _ cs)

/-! ## Tokens without a text among them -/

theorem kind_of_tokens {pos : Nat} {cs : List Char} {parts : List (TokenKind × Nat)} {t : Token}
    (h : t ∈ Event.tokens (tokens pos cs parts)) : ∃ part ∈ parts, t.kind = part.1 := by
  induction parts generalizing pos cs with
  | nil => cases h
  | cons part parts ih =>
    rcases List.mem_cons.mp h with rfl | h
    · exact ⟨part, List.mem_cons_self, rfl⟩
    · obtain ⟨part', hpart, hkind⟩ := ih h
      exact ⟨part', List.mem_cons_of_mem _ hpart, hkind⟩

theorem tokens_ne_nil {mode : Mode} (pos : Nat) {cs : List Char} {m : Match} (h : Rule mode cs m) :
    Event.tokens (tokens pos cs m.parts) ≠ [] := by
  have hpos := h.length_pos
  unfold Match.length at hpos
  cases hparts : m.parts with
  | nil =>
    rw [hparts] at hpos
    exact absurd hpos (Nat.lt_irrefl 0)
  | cons part parts => exact List.cons_ne_nil _ _

/-- Tokens that are no texts may come after any. -/
theorem apart_append {ts us : List Token} (h : ts.IsChain Token.Apart) (hus : ∀ t ∈ us, t.kind ≠ .text) :
    (ts ++ us).IsChain Token.Apart := by
  refine h.append ?_ fun _ _ t ht _ => hus t (List.mem_of_mem_head? ht)
  induction us with
  | nil => exact .nil
  | cons t us ih =>
    rw [List.forall_mem_cons] at hus
    exact (ih hus.2).cons fun _ _ hkind => absurd hkind hus.1

/-! ## Steps -/

/-- Where no text starts: at the end of the source, or between tags before an angle or a brace. -/
def State.AtBorder (s : State) : Prop :=
  s.rest = [] ∨ (isContent (current s.stack) = true ∧ wordLength s.rest = 0)

theorem State.not_atBorder {s : State} (hmode : isContent (current s.stack) = false) (hmore : s.rest ≠ []) :
    ¬s.AtBorder := by
  rintro (hend | ⟨hcontent, -⟩)
  · exact hmore hend
  · rw [hmode] at hcontent
    cases hcontent

theorem State.not_atBorder_of_word {s : State} (h : 0 < wordLength s.rest) : ¬s.AtBorder := by
  rintro (hend | ⟨-, hnone⟩)
  · rw [hend] at h
    exact absurd h (Nat.lt_irrefl 0)
  · rw [hnone] at h
    exact absurd h (Nat.lt_irrefl 0)

/-- The tokens so far have no text next to a text, and after a text none starts here. -/
structure State.Follows (s : State) (ts : List Token) : Prop where
  apart : ts.IsChain Token.Apart
  border : ∀ t ∈ ts.getLast?, t.kind = .text → s.AtBorder

/-- Where a text can start, the last token is none. -/
theorem State.Follows.snoc {s : State} {ts : List Token} (h : s.Follows ts) (hborder : ¬s.AtBorder) (t : Token) :
    (ts ++ [t]).IsChain Token.Apart :=
  h.apart.append (.singleton t) fun u hu _ _ hkind => absurd (h.border u hu hkind) hborder

theorem follows_append {s : State} {ts us : List Token} (h : ts.IsChain Token.Apart) (hus : ∀ t ∈ us, t.kind ≠ .text)
    (hne : us ≠ []) : s.Follows (ts ++ us) := by
  refine ⟨apart_append h hus, fun t ht hkind => ?_⟩
  rw [List.getLast?_append_of_ne_nil _ hne] at ht
  exact absurd hkind (hus t (List.mem_of_mem_getLast? ht))

/-- Between tags nothing is passed over. -/
theorem isContent_of_rest? {mode : Mode} (h : (rest? mode).isSome = true) : isContent mode = false := by
  cases mode <;> first | rfl | cases h

/-- What a step passes over is one token. -/
theorem tokens_pending {mode : Mode} (pos : Nat) {w : List Char} (hne : w ≠ []) (hgap : (rest? mode).isSome = true) :
    ∃ t, Event.tokens (pendingToken mode pos w.reverse) = [t] := by
  obtain ⟨kind, hkind⟩ := Option.isSome_iff_exists.mp hgap
  unfold pendingToken
  rw [hkind]
  dsimp only
  rw [if_neg (by simpa using hne)]
  exact ⟨_, rfl⟩

/-- What is passed over before a match has no text next to it. -/
theorem State.Follows.gap {s : State} {ts : List Token} (hs : s.Follows ts) {w r : List Char} (hsplit : s.rest = w ++ r)
    (hgap : w = [] ∨ (rest? (current s.stack)).isSome = true) (pos : Nat) :
    (ts ++ Event.tokens (pendingToken (current s.stack) pos w.reverse)).IsChain Token.Apart := by
  by_cases hw : w = []
  · rw [hw, List.reverse_nil, pendingToken_nil, Event.tokens, List.filterMap_nil, List.append_nil]
    exact hs.apart
  · have hsome := hgap.resolve_left hw
    obtain ⟨t, ht⟩ := tokens_pending pos hw hsome
    rw [ht]
    exact hs.snoc (State.not_atBorder (isContent_of_rest? hsome) (by rw [hsplit]; simp [hw])) t

/-- A step brings no text next to a text. -/
theorem Step.follows {s s' : State} {es : List Event} {ts : List Token} (h : Step s es s') (hs : s.Follows ts) :
    s'.Follows (ts ++ Event.tokens es) := by
  cases h with
  | leave mode more =>
    rw [Event.tokens, List.filterMap_nil, List.append_nil]
    have hborder : ¬s.AtBorder := State.not_atBorder (by rw [mode]; rfl) more
    exact ⟨hs.apart, fun t ht hkind => absurd (hs.border t ht hkind) hborder⟩
  | @take w r m before before' split found gap =>
    have hrule := rule_of_match found
    rw [Event.tokens_append, tokens_events, ← List.append_assoc]
    rcases word_of_match found with hword | ⟨hmode, rfl⟩
    · -- a match that is no text, perhaps with a text before it
      refine follows_append (hs.gap split gap _) (fun t ht => ?_) (tokens_ne_nil _ hrule)
      obtain ⟨part, hpart, hkind⟩ := kind_of_tokens ht
      rw [hkind]
      exact hword part hpart
    · -- a text between tags goes up to where none starts
      obtain rfl : w = [] := by
        rcases gap with hw | hgap
        · exact hw
        · rw [isContent_of_rest? hgap] at hmode
          cases hmode
      rw [List.nil_append] at split
      have hborder : ¬s.AtBorder := State.not_atBorder_of_word (by rw [split]; exact hrule.length_pos)
      rw [List.reverse_nil, pendingToken_nil, Event.tokens, List.filterMap_nil, List.append_nil]
      exact ⟨hs.snoc hborder _, fun _ _ _ => .inr ⟨hmode, wordLength_drop r⟩⟩
  | finish more gap =>
    exact ⟨hs.gap (List.append_nil _).symm (.inr gap) _, fun _ _ _ => .inl rfl⟩
  | lose mode last =>
    rw [Event.tokens, List.filterMap_nil, List.append_nil]
    exact ⟨hs.apart, fun _ _ _ => .inl rfl⟩

/-- A run brings no text next to a text. -/
theorem follows_run {s : State} {ts : List Token} (h : s.Follows ts) (n : Nat) :
    (s.run n).2.Follows (ts ++ Event.tokens (s.run n).1) := by
  induction n generalizing s ts with
  | zero =>
    rw [State.run, Event.tokens, List.filterMap_nil, List.append_nil]
    exact h
  | succ n ih =>
    rw [State.run]
    cases hstep : s.step? with
    | none =>
      rw [Event.tokens, List.filterMap_nil, List.append_nil]
      exact h
    | some next =>
      obtain ⟨es, s'⟩ := next
      have hnext := ih ((step_of_step? hstep).follows h)
      dsimp only
      rw [Event.tokens_append, ← List.append_assoc]
      exact hnext

/-- In a source no text comes directly after a text. -/
theorem apart_events (text : String) : (Event.tokens (events text)).IsChain Token.Apart := by
  have hstart : (State.start text).Follows [] := ⟨.nil, fun _ ht => nomatch ht⟩
  have hrun := follows_run hstart (2 * text.length)
  rw [(run_start text).2, List.nil_append] at hrun
  exact hrun.apart

end Scan

/-! ## Texts in a list of nodes -/

namespace Node

/-- The list has no text next to a text. -/
def TextsApart (ns : List Node) : Prop := ns.IsChain fun a b => a.kind.isText = true → b.kind.isText = false

theorem isText_of_isWhitespace {n : Node} (h : n.isWhitespace = true) : n.kind.isText = true := by
  rw [isWhitespace] at h
  cases hk : n.kind with
  | text s => rfl
  | _ =>
    rw [hk] at h
    cases h

/-- Where no text meets a text, no white space meets white space. -/
theorem TextsApart.spaced {ns : List Node} (h : TextsApart ns) : Spaced ns := by
  refine List.IsChain.imp (fun a b hab ha => ?_) h
  have hb := hab (isText_of_isWhitespace ha)
  cases hblank : b.isWhitespace with
  | false => rfl
  | true =>
    rw [isText_of_isWhitespace hblank] at hb
    cases hb

end Node

namespace Markup

open Node (TextsApart)

/-- The node is markup, or a place that is none, and its children, if it has any, are those of a part. -/
def TakesChildren (parts : List Part) (n : Node) : Prop :=
  (n.kind.isMarkup || n.kind.isInvalid) = true ∧ (n.children = [] ∨ ∃ close, Part.content n.children close ∈ parts)

theorem takesChildren_invalid (parts : List Part) (reason : String) (t : Token) :
    TakesChildren parts (invalid reason t) := ⟨rfl, .inl rfl⟩

theorem takesChildren_readToken {o : Opening} {t : Token} {n : Node} (h : readToken o t = .error n)
    (parts : List Part) : TakesChildren parts n := by
  unfold readToken at h
  split at h
  · cases h
  · cases h
  all_goals
    repeat' split at h
    all_goals first | cases h; exact takesChildren_invalid _ _ _ | cases h

theorem takesChildren_spread {space : String} {g : Group} {n : Node} (h : spread space g = .error n)
    (parts : List Part) : TakesChildren parts n := by
  unfold spread at h
  split at h
  · cases h
    exact takesChildren_invalid _ _ _
  · dsimp only at h
    split at h
    · cases h
    · cases h
      exact takesChildren_invalid _ _ _

theorem TakesChildren.cons {parts : List Part} {n : Node} (p : Part) (h : TakesChildren parts n) :
    TakesChildren (p :: parts) n :=
  ⟨h.1, h.2.imp_right fun ⟨close, hmem⟩ => ⟨close, List.mem_cons_of_mem p hmem⟩⟩

/-- An element takes its children from what is between its tags. -/
theorem elementFrom_takes (angle name : Token) (o : Opening) (parts : List Part) :
    TakesChildren parts (elementFrom angle name o parts) := by
  induction parts generalizing o with
  | nil => exact takesChildren_invalid _ _ _
  | cons p ps ih =>
    cases p with
    | leaf l =>
      cases l with
      | node n => exact (ih o).cons _
      | token t =>
        rw [elementFrom]
        split
        · next hread => exact takesChildren_readToken hread _
        · split
          · exact ⟨rfl, .inl rfl⟩
          · exact (ih _).cons _
    | group g =>
      rw [elementFrom]
      split
      · exact (ih _).cons _
      · split
        · next hspread => exact takesChildren_spread hspread _
        · exact (ih _).cons _
    | content nodes close =>
      unfold elementFrom
      split
      · exact takesChildren_invalid _ _ _
      · split
        · exact ⟨rfl, .inr ⟨_, List.mem_cons_self⟩⟩
        · exact takesChildren_invalid _ _ _

theorem isText_of_markup {k : Kind} (h : (k.isMarkup || k.isInvalid) = true) : k.isText = false := by
  cases k <;> first | rfl | cases h

theorem isText_element (parts : List Part) : (element parts).kind.isText = false := by
  unfold element
  split
  · exact isText_of_markup (elementFrom_takes _ _ _ _).1
  · rfl

/-- A fragment has the nodes between its tags. -/
theorem fragment_takes (head : Token) (parts : List Part) :
    ((fragment (.leaf (.token head) :: parts)).kind.isMarkup ||
        (fragment (.leaf (.token head) :: parts)).kind.isInvalid) = true ∧
      ((fragment (.leaf (.token head) :: parts)).children = [] ∨
        (fragment (.leaf (.token head) :: parts)).children = (content parts).1) := by
  rw [fragment]
  split
  · exact ⟨rfl, .inl rfl⟩
  · next nodes close hcontent =>
    split
    · exact ⟨rfl, .inr (by rw [hcontent]; rfl)⟩
    · exact ⟨rfl, .inl rfl⟩

theorem isText_fragment (parts : List Part) : (fragment parts).kind.isText = false := by
  unfold fragment
  split
  · next head rest => exact isText_of_markup (fragment_takes head rest).1
  · rfl

theorem isText_slot (g : Group) : (slot g).kind.isText = false := by
  unfold slot
  split <;> rfl

/-! ## Between tags -/

section

variable {mode : Mode} (hmode : Scan.isContent mode = true)
include hmode

/-- What is accepted between tags is read as one node, which is a text only if it is a token of text. -/
theorem contentNode_of_accepts {p : Piece} (h : Piece.Accepts mode p) : ∃ n, contentNode (part p) = [n] ∧
    (n.kind.isText = true → ∃ t, p = .token t ∧ t.kind = .text) := by
  cases p with
  | token t =>
    rw [part, contentNode]
    split
    · next hkind => exact ⟨_, rfl, fun _ => ⟨t, rfl, eq_of_beq hkind⟩⟩
    · exact ⟨_, rfl, fun htext => absurd htext Bool.false_ne_true⟩
  | stretch inner items =>
    have hinner : inner = .tag ∨ inner = .fragment ∨ inner = .braces := by
      cases mode with
      | content => exact h.imp_right (Or.imp_right And.left)
      | fragment => exact h.imp_right (Or.imp_right And.left)
      | _ => cases hmode
    rcases hinner with rfl | rfl | rfl
    · refine ⟨_, rfl, fun htext => ?_⟩
      rw [isText_element] at htext
      cases htext
    · refine ⟨_, rfl, fun htext => ?_⟩
      rw [isText_fragment] at htext
      cases htext
    · refine ⟨_, rfl, fun htext => ?_⟩
      rw [isText_slot] at htext
      cases htext

theorem textsApart_nodes {items : List Piece} (accepted : ∀ p ∈ items, Piece.Accepts mode p)
    (h : (Piece.allTokens items).IsChain Token.Apart) : TextsApart ((allParts items).flatMap contentNode) := by
  induction items with
  | nil => exact .nil
  | cons p ps ih =>
    rw [List.forall_mem_cons] at accepted
    obtain ⟨n, hn, htext⟩ := contentNode_of_accepts hmode accepted.1
    rw [allParts, List.flatMap_cons, hn, List.singleton_append]
    refine (ih accepted.2 h.right_of_append).cons fun m hm hnt => ?_
    cases ps with
    | nil => cases hm
    | cons q qs =>
      obtain ⟨m', hm', htext'⟩ := contentNode_of_accepts hmode (List.forall_mem_cons.mp accepted.2).1
      rw [allParts, List.flatMap_cons, hm'] at hm
      obtain rfl : m' = m := Option.some.inj hm
      obtain ⟨t, rfl, ht⟩ := htext hnt
      rw [← Bool.not_eq_true]
      intro hmt
      obtain ⟨t', rfl, ht'⟩ := htext' hmt
      exact (List.isChain_cons_cons.mp h).1 ht ht'

/-- The nodes between two tags. -/
theorem textsApart_content {items : List Piece} (accepted : ∀ p ∈ items, Piece.Accepts mode p)
    (h : (Piece.allTokens items).IsChain Token.Apart) : TextsApart (content (allParts items)).1 := by
  have hall := textsApart_nodes hmode accepted h
  unfold content
  split
  · rcases List.eq_nil_or_concat items with rfl | ⟨front, last, rfl⟩
    · exact hall
    · rw [List.concat_eq_append] at accepted h ⊢
      rw [Piece.allTokens_append] at h
      rw [allParts_eq_map, List.map_append, List.map_singleton, List.dropLast_concat, ← allParts_eq_map]
      exact textsApart_nodes hmode (List.forall_mem_append.mp accepted).1 h.left_of_append
  · exact hall

end

/-- What stands between two tags is accepted there. -/
theorem accepted_content {items : List Piece} (h : Piece.Formed (.stretch .content items)) :
    ∀ p ∈ items, Piece.Accepts .content p := by
  generalize hp : Piece.stretch .content items = p at h
  cases h with
  | token => cases hp
  | stretch opens ends accepted =>
    cases hp
    cases opens
    cases ends
    simpa using accepted

/-- What stands before the closing tag comes last in an element, and has no text next to a text. -/
theorem textsApart_last {last : List Piece} {cs : List Node} {close : Option Token} (ends : Piece.Ends .tag last)
    (formed : ∀ p ∈ last, Piece.Formed p) (h : (Piece.allTokens last).IsChain Token.Apart)
    (hmem : Part.content cs close ∈ allParts last) : TextsApart cs := by
  cases ends with
  | none => cases hmem
  | selfClosing => cases List.mem_singleton.mp hmem
  | opened => cases List.mem_singleton.mp hmem
  | @content t items _ _ =>
    rcases List.mem_cons.mp hmem with htoken | hmem
    · cases htoken
    · have hcontent : Part.content cs close = .content (content (allParts items)).1 (content (allParts items)).2 :=
        List.mem_singleton.mp hmem
      injection hcontent with hcs
      rw [hcs]
      have hitems := formed _ (List.mem_cons_of_mem _ List.mem_cons_self)
      have htokens : (t :: (Piece.allTokens items ++ [])).IsChain Token.Apart := h
      rw [List.append_nil] at htokens
      exact textsApart_content rfl (accepted_content hitems) htokens.tail

/-- The children of an element or fragment that is read from a piece have no text next to a text. -/
theorem textsApart_part {q : Piece} {n : Node} (hq : Piece.Formed q) (hn : part q = .leaf (.node n))
    (h : q.tokens.IsChain Token.Apart) : TextsApart n.children := by
  cases hq with
  | token t => cases hn
  | @stretch mode first items last opens ends accepted inner outer =>
    rw [Piece.tokens, Piece.allTokens_append, Piece.allTokens_append] at h
    rw [part] at hn
    cases opens with
    | @tag angle name =>
      have hparts : allParts ([.token angle, .token name] ++ items ++ last) =
          .leaf (.token angle) :: .leaf (.token name) :: (allParts items ++ allParts last) := by
        rw [allParts_eq_map, allParts_eq_map, allParts_eq_map, List.append_assoc, List.map_append, List.map_append]
        rfl
      rw [hparts] at hn
      cases hn
      obtain ⟨-, hnone | ⟨close, hmem⟩⟩ :=
        elementFrom_takes angle name ⟨[], "", false⟩ (allParts items ++ allParts last)
      · rw [element, hnone]
        exact .nil
      · -- only the last piece of an element is what is between its tags
        rcases List.mem_append.mp hmem with hmem | hmem
        · obtain ⟨p, hp, hpart⟩ := mem_allParts hmem
          have hinline := inline_of_accepts (accepted p hp)
          rw [hpart] at hinline
          cases hinline
        · rw [element]
          exact textsApart_last ends outer h.right_of_append hmem
    | content => cases hn
    | @fragment t text =>
      obtain rfl : last = [] := by
        cases ends
        rfl
      rw [List.append_nil, List.singleton_append, allParts, part] at hn
      cases hn
      rcases (fragment_takes t (allParts items)).2 with hnone | hcontent
      · rw [hnone]
        exact .nil
      · rw [hcontent]
        exact textsApart_content rfl accepted (h.left_of_append.right_of_append)
    | braces => cases hn
    | group => cases hn
    | template => cases hn

theorem apart_of_mem {ps : List Piece} {p : Piece} (h : p ∈ ps) (hapart : (Piece.allTokens ps).IsChain Token.Apart) :
    p.tokens.IsChain Token.Apart := by
  obtain ⟨before, after, rfl⟩ := List.append_of_mem h
  rw [Piece.allTokens_append, Piece.allTokens] at hapart
  exact hapart.right_of_append.left_of_append

/-- The tokens of markup within a piece stand together in it, so they stay apart as those of the piece do. -/
theorem apart_of_mem_markups {p q : Piece} (hp : Piece.Formed p) (hq : q ∈ p.markups)
    (hapart : p.tokens.IsChain Token.Apart) : q.tokens.IsChain Token.Apart := by
  induction hp with
  | token t => cases hq
  | @stretch mode first items last opens ends accepted inner outer ihinner ihouter =>
    rcases Piece.mem_markups_stretch hq with ⟨-, rfl⟩ | ⟨p, hp, hq⟩
    · exact hapart
    · rw [Piece.tokens] at hapart
      have hpapart := apart_of_mem hp hapart
      rcases List.mem_append.mp hp with hp | hp
      · rcases List.mem_append.mp hp with hp | hp
        · have hnone := Piece.mem_allMarkups.mpr ⟨p, hp, hq⟩
          rw [Piece.allMarkups_opens opens] at hnone
          cases hnone
        · exact ihinner p hp hq hpapart
      · exact ihouter p hp hq hpapart

end Markup

namespace Source

open Markup (nodes part)

/-- Every element or fragment of a document is read from a piece of its text. -/
theorem exists_markup_piece {text : String} {tree n : Node} (h : parse text = .ok tree) (hn : n ∈ tree.under)
    (hk : n.kind.isMarkup = true) : ∃ q ∈ Piece.allMarkups (Piece.ofText text), part q = .leaf (.node n) := by
  obtain ⟨rfl, hvalid⟩ := parse_eq_ok h
  rw [← Node.descendants_eq_under, descendants_document] at hn
  have hmem : Part.leaf (.node n) ∈ (Piece.allMarkups (Piece.ofText text)).map part := by
    rw [(Markup.nodes_placed hvalid).2.2]
    exact List.mem_map_of_mem (List.mem_filter.mpr ⟨hn, hk⟩)
  exact List.mem_map.mp hmem

/-- In a document, no list of children of an element or fragment has a text next to a text. -/
theorem textsApart_parse {text : String} {tree n : Node} (h : parse text = .ok tree) (hn : n ∈ tree.under)
    (hk : n.kind.isMarkup = true) : Node.TextsApart n.children := by
  obtain ⟨q, hq, hpart⟩ := exists_markup_piece h hn hk
  obtain ⟨p, hp, hqp⟩ := Piece.mem_allMarkups.mp hq
  have hapart : (Piece.allTokens (Piece.ofText text)).IsChain Token.Apart := by
    rw [Piece.allTokens_ofText]
    exact Scan.apart_events text
  have hinner := Markup.apart_of_mem_markups (Piece.ofText_formed text p hp).2 hqp (Markup.apart_of_mem hp hapart)
  exact Markup.textsApart_part (Markup.formed_of_mem_allMarkups hq) hpart hinner

theorem document_of_parse {text : String} {tree : Node} (h : parse text = .ok tree) :
    ∃ source, tree.kind = .document source :=
  ⟨some text, by rw [(parse_eq_ok h).1, Node.kind_withKind]⟩

end Source
end JsxEdit
