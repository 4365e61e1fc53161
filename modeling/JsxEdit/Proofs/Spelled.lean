import JsxEdit.Proofs.Halt
import JsxEdit.Proofs.Made

/-
Plain text in an expression in braces.

Words, numbers, white space and strings are read as tokens, whatever comes before them, and whatever comes after them if
that is no markup. So what they are can be told from the text alone.
-/
set_option autoImplicit false

namespace JsxEdit.Scan

open Piece (allEvents)

/-! ## Characters that start nothing -/

/-- Characters with which nothing starts in an expression, unless they are those of a word that announces markup. -/
def isMute (c : Char) : Bool := !(isLeadChar c || ['\x7b', '\x7d', '"', '\'', '`', '/', '<'].contains c)

theorem isMute_eq {c : Char} (h : isMute c = true) :
    isLeadChar c = false ∧ c ≠ '\x7b' ∧ c ≠ '\x7d' ∧ c ≠ '"' ∧ c ≠ '\'' ∧ c ≠ '`' ∧ c ≠ '/' ∧ c ≠ '<' := by
  simpa only [isMute, Bool.not_eq_true', Bool.or_eq_false_iff, List.contains_eq_mem, decide_eq_false_iff_not,
    List.mem_cons, List.not_mem_nil, or_false, not_or] using h

/-- Nothing but mute characters comes before one with which something starts, and that is no markup. -/
def Halts (r : List Char) : Prop :=
  ∃ u d v, r = u ++ d :: v ∧ (∀ c ∈ u, isMute c = true) ∧ isMute d = false ∧ d ≠ '<'

theorem Halts.here {d : Char} (hd : isMute d = false) (hangle : d ≠ '<') (v : List Char) : Halts (d :: v) :=
  ⟨[], d, v, rfl, List.forall_mem_nil _, hd, hangle⟩

theorem Halts.mute {w r : List Char} (hw : ∀ c ∈ w, isMute c = true) (h : Halts r) : Halts (w ++ r) := by
  obtain ⟨u, d, v, rfl, hu, hd, hangle⟩ := h
  exact ⟨w ++ u, d, v, (List.append_assoc w u (d :: v)).symm, List.forall_mem_append.mpr ⟨hw, hu⟩, hd, hangle⟩

theorem Halts.head {r : List Char} (h : Halts r) : ∀ c ∈ r.head?, c ≠ '<' := by
  obtain ⟨u, d, v, rfl, hu, -, hangle⟩ := h
  cases u with
  | nil =>
    rintro c hc
    obtain rfl := Option.some.inj hc
    exact hangle
  | cons e u =>
    rintro c hc
    obtain rfl := Option.some.inj hc
    exact (isMute_eq (hu e List.mem_cons_self)).2.2.2.2.2.2.2

theorem Halts.tail {c : Char} {r : List Char} (h : Halts (c :: r)) (hc : isMute c = true) : Halts r := by
  obtain ⟨u, d, v, heq, hu, hd, hangle⟩ := h
  cases u with
  | nil =>
    obtain ⟨rfl, -⟩ := List.cons.inj heq
    rw [hc] at hd
    cases hd
  | cons e u =>
    obtain ⟨-, rfl⟩ := List.cons.inj heq
    exact ⟨u, d, v, rfl, (List.forall_mem_cons.mp hu).2, hd, hangle⟩

theorem Halts.drop {w r : List Char} (h : Halts (w ++ r)) (hw : ∀ c ∈ w, isMute c = true) : Halts r := by
  induction w with
  | nil => exact h
  | cons c w ih =>
    rw [List.forall_mem_cons] at hw
    exact ih (h.tail hw.1) hw.2

theorem isMute_of_isSpace {c : Char} (h : Text.isSpace c = true) : isMute c = true := by
  have hne (d : Char) (hd : Text.isSpace d = false) : c ≠ d := ne_of_isSpace h hd
  simp [isMute, isLeadChar, hne '(' (by decide), hne '[' (by decide), hne ',' (by decide), hne ';' (by decide),
    hne ':' (by decide), hne '?' (by decide), hne '=' (by decide), hne '&' (by decide), hne '|' (by decide),
    hne '!' (by decide), hne '\x7b' (by decide), hne '\x7d' (by decide), hne '"' (by decide), hne '\'' (by decide),
    hne '`' (by decide), hne '/' (by decide), hne '<' (by decide)]

theorem Halts.not_startsMarkup {r : List Char} (h : Halts r) : startsMarkup (r.dropWhile Text.isSpace) = false := by
  induction r with
  | nil => rfl
  | cons c r ih =>
    cases hc : Text.isSpace c with
    | true =>
      rw [List.dropWhile_cons_of_pos hc]
      exact ih (h.tail (isMute_of_isSpace hc))
    | false =>
      have hangle : c ≠ '<' := h.head c rfl
      rw [List.dropWhile_cons_of_neg (by simp [hc])]
      simp [startsMarkup, hangle]

theorem lead?_mute {c : Char} {r : List Char} (hc : isMute c = true) (h : Halts (c :: r)) (before : Option Char) :
    lead? before (c :: r) = none := by
  have hword {p : List Char} {n : Nat} (hp : ∀ d ∈ p, isMute d = true) (hn : p.length = n) :
      (p.isPrefixOf (c :: r) && startsMarkup (((c :: r).drop n).dropWhile Text.isSpace)) = false := by
    cases hprefix : p.isPrefixOf (c :: r) with
    | false => rfl
    | true =>
      obtain ⟨t, ht⟩ := List.isPrefixOf_iff_prefix.mp hprefix
      rw [← ht] at h ⊢
      rw [← hn, List.drop_left, (h.drop hp).not_startsMarkup]
      rfl
  have hreturn := hword (p := "return".toList) (n := 6) (List.all_eq_true.mp (by decide)) (by decide)
  have hyield := hword (p := "yield".toList) (n := 5) (List.all_eq_true.mp (by decide)) (by decide)
  obtain ⟨hlead, -⟩ := isMute_eq hc
  have harrow : "=>".toList.isPrefixOf (c :: r) = false := by
    have hne : c ≠ '=' := by
      rintro rfl
      cases hlead
    simp [List.isPrefixOf, Ne.symm hne]
  simp only [lead?, leadLength?, Bool.and_assoc, hreturn, hyield, harrow, Bool.and_false, Bool.false_and, List.head?_cons,
    Option.any_some, hlead, Bool.false_eq_true, if_false, Option.bind_none]

theorem expression?_mute {c : Char} {r : List Char} (hc : isMute c = true) (h : Halts (c :: r)) (before : Option Char) :
    expression? ['\x7d'] before (c :: r) = none := by
  obtain ⟨hlead, hopen, hclose, hdouble, hsingle, hback, hslash, -⟩ := isMute_eq hc
  have hne (d : Char) (hd : isLeadChar d = true) : c ≠ d := by
    rintro rfl
    rw [hlead] at hd
    cases hd
  have hliteral : literal? (c :: r) = none := by simp [literal?, scriptString?, comment?, hdouble, hsingle, hback, hslash]
  simp [expression?, lead?_mute hc h, hclose, hopen, hliteral, hne '(' (by decide), hne '[' (by decide),
    hne ',' (by decide), hne ':' (by decide)]

/-! ## Passages in braces -/

namespace Stand

/-- The run is in an expression in braces, and not in the middle of a match. -/
structure InBraces (base : List Mode) (s : Stand) : Prop where
  stack : s.stack = .braces :: base
  skip : s.skip = 0

variable {base : List Mode} {s : Stand}

theorem At.inBraces (h : s.At (.braces :: base)) : InBraces base s := ⟨h.stack, h.skip⟩

theorem InBraces.settle_eq (h : InBraces base s) (cs : List Char) : settle cs s.stack = .braces :: base := by
  rw [h.stack]
  exact Piece.Opened.settle_eq cs (show Mode.braces ≠ .markup by decide)

theorem InBraces.matched?_eq (h : InBraces base s) (cs : List Char) : s.matched? cs = expression? ['\x7d'] s.before cs := by
  rw [matched?, h.settle_eq]
  rfl

theorem InBraces.pends_eq (h : InBraces base s) (cs : List Char) : s.pends cs = pendingToken .braces s.pos s.pending := by
  rw [pends, h.settle_eq]
  rfl

theorem step_mute (h : InBraces base s) {c : Char} {r : List Char} (hc : isMute c = true) (hr : Halts (c :: r)) :
    s.step c r = ([], ⟨.braces :: base, some c, s.pos + 1, 0, c :: s.pending⟩) := by
  rw [step_none h.skip (by rw [h.matched?_eq, expression?_mute hc hr]), h.settle_eq]

/-- A match that leaves the modes alone. -/
theorem step_stay (h : InBraces base s) {c : Char} {r : List Char} {kind : TokenKind} {n : Nat}
    (hm : expression? ['\x7d'] s.before (c :: r) = one kind (n + 1) .stay) : s.step c r =
      (pendingToken .braces s.pos s.pending ++ [.token ⟨kind, s.pos, .ofList ((c :: r).take (n + 1))⟩],
        ⟨.braces :: base, some c, s.pos + 1, n, []⟩) := by
  rw [step_match h.skip (m := ⟨[(kind, n + 1)], .stay⟩) (by rw [h.matched?_eq, hm]; rfl), h.settle_eq, h.pends_eq]
  rfl

/-- Mute characters are left unmatched. -/
theorem passes_mute {w r : List Char} (h : InBraces base s) (hw : ∀ c ∈ w, isMute c = true) (hr : Halts r) :
    s.brings r w = [] ∧ InBraces base (s.after r w) ∧ (s.after r w).pending = w.reverse ++ s.pending := by
  induction w generalizing s with
  | nil => exact ⟨rfl, h, rfl⟩
  | cons c w ih =>
    rw [List.forall_mem_cons] at hw
    have hstep : s.step c (w ++ r) = _ := step_mute h hw.1 (hr.mute (List.forall_mem_cons.mpr hw))
    obtain ⟨hbrings, hafter, hpending⟩ :=
      ih (s := ⟨.braces :: base, some c, s.pos + 1, 0, c :: s.pending⟩) ⟨rfl, rfl⟩ hw.2
    rw [brings, after, hstep, hbrings]
    refine ⟨rfl, hafter, ?_⟩
    rw [hpending, List.reverse_cons, List.append_assoc]
    rfl

/-- The rest of a match is passed over. -/
theorem passes_skip {x r : List Char} (h : s.skip = x.length) :
    s.brings r x = [] ∧ (s.after r x).stack = s.stack ∧ (s.after r x).skip = 0 ∧ (s.after r x).pending = s.pending := by
  induction x generalizing s with
  | nil => exact ⟨rfl, rfl, h, rfl⟩
  | cons c x ih =>
    obtain ⟨hbrings, hstack, hskip, hpending⟩ := ih (s := { s with before := some c, pos := s.pos + 1, skip := x.length }) rfl
    rw [brings, after, step_skip h, hbrings]
    exact ⟨rfl, hstack, hskip, hpending⟩

end Stand

/-! ## Text that is read as tokens -/

/-- The tokens bring the text, and none of them divides anything. -/
structure Spells (ts : List Token) (text : List Char) : Prop where
  text : Event.allText (ts.map .token) = text
  whole : ∀ t ∈ ts, t.kind ≠ .separator

theorem Spells.nil : Spells [] [] := ⟨rfl, List.forall_mem_nil _⟩

theorem Spells.append {ts us : List Token} {w x : List Char} (h : Spells ts w) (h' : Spells us x) :
    Spells (ts ++ us) (w ++ x) :=
  ⟨by rw [List.map_append, allText_append, h.text, h'.text], List.forall_mem_append.mpr ⟨h.whole, h'.whole⟩⟩

/-- The token of the unmatched characters before a position. -/
def restTokens (pos : Nat) (pending : List Char) : List Token :=
  if pending.isEmpty then [] else [⟨.text, pos - pending.length, .ofList pending.reverse⟩]

theorem pendingToken_braces (pos : Nat) (pending : List Char) :
    pendingToken .braces pos pending = (restTokens pos pending).map .token := by
  cases pending <;> rfl

theorem spells_restTokens (pos : Nat) (pending : List Char) : Spells (restTokens pos pending) pending.reverse := by
  cases pending with
  | nil => exact .nil
  | cons c pending =>
    refine ⟨?_, List.forall_mem_singleton.mpr fun h => nomatch h⟩
    rw [restTokens, if_neg (by simp)]
    exact (List.append_nil _).trans String.toList_ofList

/-- In braces, the text is read as tokens that do not divide, and as characters that are left unmatched. -/
structure Spelled (w : List Char) : Prop where
  halts : ∀ r, Halts r → Halts (w ++ r)
  passes : ∀ base s r, Stand.InBraces base s → Halts r → ∃ ts, s.brings r w = ts.map .token ∧
    Stand.InBraces base (s.after r w) ∧ ∃ x, Spells ts x ∧ x ++ (s.after r w).pending.reverse = s.pending.reverse ++ w

theorem Spelled.mute {w : List Char} (hw : ∀ c ∈ w, isMute c = true) : Spelled w where
  halts _ hr := hr.mute hw
  passes _ s r hs hr := by
    obtain ⟨hbrings, hafter, hpending⟩ := Stand.passes_mute hs hw hr
    refine ⟨[], hbrings, hafter, [], .nil, ?_⟩
    rw [hpending, List.reverse_append, List.reverse_reverse]
    rfl

theorem Spelled.blank {w : List Char} (hw : w.all Text.isSpace = true) : Spelled w :=
  .mute fun c hc => isMute_of_isSpace (List.all_eq_true.mp hw c hc)

theorem Spelled.string {q : Char} {raw : String} (hq : Text.IsQuote q) (hraw : Literal.IsBody q raw) :
    Spelled (q :: (raw.toList ++ [q])) where
  halts r _ := by rcases hq with rfl | rfl <;> exact .here (by decide) (by decide) _
  passes base s r hs _ := by
    have hm : expression? ['\x7d'] s.before (q :: (raw.toList ++ [q] ++ r)) =
        one (quotedKind q) (raw.toList.length + 1 + 1) .stay := expression?_string hq hraw s.before r
    have hstep := Stand.step_stay hs hm
    have hlength : raw.toList.length + 1 = (raw.toList ++ [q]).length := by simp
    have htake : (q :: (raw.toList ++ [q] ++ r)).take (raw.toList.length + 1 + 1) = q :: (raw.toList ++ [q]) := by
      rw [hlength, List.take_succ_cons, List.take_left]
    obtain ⟨hbrings, hstack, hskip, hpending⟩ :=
      Stand.passes_skip (s := ⟨.braces :: base, some q, s.pos + 1, raw.toList.length + 1, []⟩) (r := r) hlength
    rw [htake, pendingToken_braces] at hstep
    rw [Stand.brings, Stand.after, hstep]
    dsimp only
    rw [hbrings, List.append_nil]
    refine ⟨restTokens s.pos s.pending ++ [⟨quotedKind q, s.pos, .ofList (q :: (raw.toList ++ [q]))⟩], ?_, ⟨hstack, hskip⟩,
      s.pending.reverse ++ (q :: (raw.toList ++ [q])), (spells_restTokens _ _).append ⟨?_, ?_⟩, ?_⟩
    · rw [List.map_append]
      rfl
    · exact (List.append_nil _).trans String.toList_ofList
    · refine List.forall_mem_singleton.mpr ?_
      rcases hq with rfl | rfl <;> exact TokenKind.noConfusion
    · rw [hpending, List.reverse_nil, List.append_nil]

theorem Spelled.append {w x : List Char} (h : Spelled w) (h' : Spelled x) : Spelled (w ++ x) where
  halts r hr := by
    rw [List.append_assoc]
    exact h.halts _ (h'.halts r hr)
  passes base s r hs hr := by
    obtain ⟨ts, hbrings, hafter, y, hy, htext⟩ := h.passes base s (x ++ r) hs (h'.halts r hr)
    obtain ⟨us, hbrings', hafter', y', hy', htext'⟩ := h'.passes base (s.after (x ++ r) w) r hafter hr
    rw [Stand.brings_append, Stand.after_append]
    refine ⟨ts ++ us, by rw [hbrings, hbrings', List.map_append], hafter', y ++ y', hy.append hy', ?_⟩
    rw [List.append_assoc, htext', ← List.append_assoc, htext, List.append_assoc]

end JsxEdit.Scan
