import JsxEdit.Proofs.LastMatch
import Mathlib.Data.List.DropRight

/-
Passages in an expression in braces that hold no markup.

In such a passage only parts of the expression are open: further braces, parentheses and template literals. Markup is
announced only where it follows, so that the mode for announced markup does not outlast the announcement either.
-/
set_option autoImplicit false

namespace JsxEdit.Scan

/-- Modes of the parts of an expression. -/
def isExpressive : Mode → Bool
  | .braces | .group | .template => true
  | _ => false

theorem depth_expressive {inner : List Mode} (h : ∀ mode ∈ inner, isExpressive mode = true) : depth inner = inner.length := by
  refine List.countP_eq_length.mpr fun mode hmode => ?_
  have hexpressive := h mode hmode
  cases mode <;> first | rfl | cases hexpressive

/-- What announces markup is followed by markup. -/
theorem announced_of_leadLength? {before : Option Char} {cs : List Char} {n : Nat} (h : leadLength? before cs = some n) :
    startsMarkup ((cs.drop n).dropWhile Text.isSpace) = true := by
  unfold leadLength? at h
  dsimp only at h
  split at h
  · next hreturn =>
    obtain rfl := Option.some.inj h
    exact (Bool.and_eq_true_iff.mp hreturn).2
  · split at h
    · next hyield =>
      obtain rfl := Option.some.inj h
      exact (Bool.and_eq_true_iff.mp hyield).2
    · split at h
      · next harrow =>
        obtain rfl := Option.some.inj h
        exact (Bool.and_eq_true_iff.mp harrow).2
      · split at h
        · next hmark =>
          obtain rfl := Option.some.inj h
          exact (Bool.and_eq_true_iff.mp hmark).2
        · cases h

theorem announced_of_expression? {closers : List Char} {before : Option Char} {cs : List Char} {m : Match}
    (h : expression? closers before cs = some m) (hmove : m.move = .enter .markup) :
    startsMarkup ((cs.drop m.length).dropWhile Text.isSpace) = true := by
  have hother {kind : TokenKind} {n : Nat} {move : Move} (hone : one kind n move = some m) (hne : move ≠ .enter .markup) :
      False := by
    rw [← Option.some.inj hone] at hmove
    exact hne hmove
  unfold expression? at h
  split at h
  · cases h
  · split at h
    · exact (hother h (by decide)).elim
    · rcases orElse_some h with hlead | h
      · obtain ⟨n, hn, hone⟩ := Option.bind_eq_some_iff.mp hlead
        rw [← Option.some.inj hone]
        exact announced_of_leadLength? hn
      · split at h
        · exact (hother h (by decide)).elim
        · split at h
          · exact (hother h (by decide)).elim
          · split at h
            · exact (hother h (by decide)).elim
            · rcases literal?_spec h with ⟨kind, n, rfl⟩ | ⟨rfl, -⟩ <;> cases hmove

theorem announced_of_match {mode : Mode} (hmode : isExpressive mode = true) {atStart : Bool} {before : Option Char}
    {cs : List Char} {m : Match} (h : match? mode atStart before cs = some m) (hmove : m.move = .enter .markup) :
    startsMarkup ((cs.drop m.length).dropWhile Text.isSpace) = true := by
  cases mode with
  | braces | group => exact announced_of_expression? h hmove
  | template =>
    have hrule := template?_rule h
    cases hrule with
    | announce _ script => cases script
    | _ => cases hmove
  | _ => cases hmode

/-- Where markup starts, the rule for markup enters a tag or a fragment. -/
theorem enters_of_startsMarkup {cs : List Char} (h : startsMarkup cs = true) :
    ∃ m, markup? cs = some m ∧ (m.move = .enter .tag ∨ m.move = .enter .fragment) := by
  unfold startsMarkup at h
  split at h
  · next c cs =>
    rw [markup?]
    split
    · exact ⟨_, rfl, .inr rfl⟩
    · next hfragment =>
      have hc : Text.isNameStart c = true := by
        have hangle : c ≠ '>' := by
          rintro rfl
          exact hfragment rfl
        simpa [hangle] using h
      exact ⟨_, by rw [openingTag?, Text.nameLength?, if_pos hc]; rfl, .inl rfl⟩
  · cases h

theorem drop_spaceLength (cs : List Char) : cs.drop (spaceLength cs) = cs.dropWhile Text.isSpace := by
  calc cs.drop (spaceLength cs)
      = (cs.takeWhile Text.isSpace ++ cs.dropWhile Text.isSpace).drop (cs.takeWhile Text.isSpace).length := by
        rw [List.takeWhile_append_dropWhile]
        rfl
    _ = cs.dropWhile Text.isSpace := List.drop_left

namespace Stand

/-- Above the base nothing is open but parts of an expression, or markup was announced there and is to come. -/
inductive Expressive (s : Stand) (cs : List Char) : List Mode → Prop where
  | plain {inner : List Mode} (modes : ∀ mode ∈ inner, isExpressive mode = true) : Expressive s cs inner
  | announced {inner : List Mode} (modes : ∀ mode ∈ inner, isExpressive mode = true)
    (follows : startsMarkup ((cs.drop s.skip).dropWhile Text.isSpace) = true) : Expressive s cs (.markup :: inner)

/-- The event does not enter markup. -/
def Unmarked (e : Event) : Prop := e ≠ .enter .tag ∧ e ≠ .enter .fragment

theorem unmarked_token (t : Token) : Unmarked (.token t) := ⟨nofun, nofun⟩

theorem unmarked_leave : Unmarked .leave := ⟨nofun, nofun⟩

variable {base inner : List Mode} {s : Stand}

/-- The rules that enter a tag or a fragment say so first. -/
theorem marked_of_move {m : Match} {pos : Nat} {cs : List Char} (h : m.move = .enter .tag ∨ m.move = .enter .fragment) :
    ¬ ∀ e ∈ m.events pos cs, Unmarked e := by
  intro hno
  rcases h with hmove | hmove
  · rw [Match.events, hmove] at hno
    exact (hno _ List.mem_cons_self).1 rfl
  · rw [Match.events, hmove] at hno
    exact (hno _ List.mem_cons_self).2 rfl

theorem Expressive.step_plain (hstack : s.stack = inner ++ base) (hbase : isExpressive (current base) = true) (hpos : s.pos ≠ 0)
    (hskip : s.skip = 0) (h : ∀ mode ∈ inner, isExpressive mode = true) {c : Char} {cs : List Char} {n : Nat}
    (hlevel : level (depth inner) (s.step c cs).1 = some n) (hno : ∀ e ∈ (s.step c cs).1, Unmarked e) :
    ∃ inner', (s.step c cs).2.stack = inner' ++ base ∧ Expressive (s.step c cs).2 cs inner' ∧ depth inner' = n := by
  have hmode : isExpressive (current (inner ++ base)) = true := by
    cases inner with
    | nil => exact hbase
    | cons mode inner => exact h mode List.mem_cons_self
  have hsettle : settle (c :: cs) s.stack = inner ++ base := by
    rw [hstack]
    refine Piece.Opened.settle_eq _ fun hmarkup => ?_
    rw [hmarkup] at hmode
    cases hmode
  cases hm : s.matched? (c :: cs) with
  | none =>
    rw [step_none hskip hm] at hlevel ⊢
    exact ⟨inner, hsettle, .plain h, Option.some.inj hlevel⟩
  | some m =>
    rw [step_match hskip hm] at hlevel hno ⊢
    rw [matched?, hsettle, beq_false_of_ne hpos] at hm
    have hrule := rule_of_match hm
    rw [hsettle]
    rw [level_append, pends, level_pendingToken] at hlevel
    rw [List.forall_mem_append] at hno
    have hentered {mode : Mode} (hmode : mode ≠ .markup) {k : Nat} (hk : depth inner + 1 = k) : depth (mode :: inner) = k := by
      rw [← hk]
      exact List.countP_cons_of_pos (by simpa using hmode)
    cases hrule with
    | token => exact ⟨inner, rfl, .plain h, Option.some.inj hlevel⟩
    | @announce kind k pos script =>
      refine ⟨.markup :: inner, rfl, .announced h ?_, Option.some.inj hlevel⟩
      have hfollows := announced_of_match hmode hm rfl
      obtain ⟨j, rfl⟩ : ∃ j, k = j + 1 := Nat.exists_eq_succ_of_ne_zero (Nat.ne_of_gt pos)
      exact hfollows
    | fragment => exact absurd hno.2 (marked_of_move (.inr rfl))
    | tag => exact absurd hno.2 (marked_of_move (.inl rfl))
    | braces | substitution | group | template =>
      exact ⟨_ :: inner, rfl, .plain (List.forall_mem_cons.mpr ⟨rfl, h⟩), hentered (by decide) (Option.some.inj hlevel)⟩
    | content text place | selfClose text place | closeElement pos fits place | closeFragment pos fits place =>
      rw [place] at hmode
      cases hmode
    | closeExpression =>
      -- a part is left, and not the base
      rw [depth_expressive h] at hlevel
      cases inner with
      | nil => cases hlevel
      | cons mode inner =>
        rw [List.forall_mem_cons] at h
        refine ⟨inner, rfl, .plain h.2, ?_⟩
        rw [depth_expressive h.2]
        exact Option.some.inj hlevel

/-- Where markup was announced and follows, it starts, or there is white space before it. -/
theorem matched?_announced {stack : List Mode} (hstack : s.stack = .markup :: stack) {c : Char} {cs : List Char}
    (hfollows : startsMarkup ((c :: cs).dropWhile Text.isSpace) = true) :
    settle (c :: cs) s.stack = .markup :: stack ∧ ∃ m, s.matched? (c :: cs) = some m ∧
      (m = ⟨[(.space, spaceLength (c :: cs))], .stay⟩ ∨ m.move = .enter .tag ∨ m.move = .enter .fragment) := by
  have hmatched {m : Match} (hm : ∀ atStart before, match? .markup atStart before (c :: cs) = some m) :
      settle (c :: cs) s.stack = .markup :: stack ∧ s.matched? (c :: cs) = some m := by
    have hsettle : settle (c :: cs) s.stack = .markup :: stack := by
      rw [hstack, settle, hm]
      rfl
    exact ⟨hsettle, by rw [matched?, hsettle]; exact hm _ _⟩
  cases hc : Text.isSpace c with
  | true =>
    have hlength : 0 < spaceLength (c :: cs) := spaceLength_pos hc
    obtain ⟨hsettle, hm⟩ := hmatched (m := ⟨[(.space, spaceLength (c :: cs))], .stay⟩) fun atStart before => by
      rw [match?, if_neg (by simpa using Nat.ne_of_gt hlength)]
      rfl
    exact ⟨hsettle, _, hm, .inl rfl⟩
  | false =>
    rw [List.dropWhile_cons_of_neg (by simp [hc])] at hfollows
    obtain ⟨m, hm, hmove⟩ := enters_of_startsMarkup hfollows
    have hspace : spaceLength (c :: cs) = 0 := by simp [spaceLength, hc]
    obtain ⟨hsettle, hm⟩ := hmatched (m := m) fun atStart before => by
      rw [match?, hspace]
      exact hm
    exact ⟨hsettle, m, hm, .inr hmove⟩

theorem Expressive.step_announced (hstack : s.stack = .markup :: (inner ++ base)) (hskip : s.skip = 0)
    (h : ∀ mode ∈ inner, isExpressive mode = true) {c : Char} {cs : List Char}
    (hfollows : startsMarkup ((c :: cs).dropWhile Text.isSpace) = true) {n : Nat}
    (hlevel : level (depth (.markup :: inner)) (s.step c cs).1 = some n) (hno : ∀ e ∈ (s.step c cs).1, Unmarked e) :
    ∃ inner', (s.step c cs).2.stack = inner' ++ base ∧ Expressive (s.step c cs).2 cs inner' ∧ depth inner' = n := by
  obtain ⟨hsettle, m, hm, hcases⟩ := matched?_announced hstack hfollows
  rw [step_match hskip hm] at hlevel hno ⊢
  rw [level_append, pends, level_pendingToken] at hlevel
  rw [List.forall_mem_append] at hno
  rw [hsettle]
  rcases hcases with rfl | hmove
  · refine ⟨.markup :: inner, rfl, .announced h ?_, Option.some.inj hlevel⟩
    have hrest : cs.drop (spaceLength (c :: cs) - 1) = (c :: cs).dropWhile Text.isSpace := by
      have hlength := (rule_of_match hm).length_pos
      obtain ⟨k, hk⟩ := Nat.exists_eq_succ_of_ne_zero (Nat.ne_of_gt hlength)
      rw [← drop_spaceLength, show spaceLength (c :: cs) = k + 1 from hk]
      rfl
    show startsMarkup ((cs.drop (spaceLength (c :: cs) - 1)).dropWhile Text.isSpace) = true
    rw [hrest, List.dropWhile_idempotent, hfollows]
  · exact absurd hno.2 (marked_of_move hmove)

/-- One step does not leave the expression, if no markup starts. -/
theorem Expressive.step (hstack : s.stack = inner ++ base) (hbase : isExpressive (current base) = true) (hpos : s.pos ≠ 0)
    {c : Char} {cs : List Char} (h : Expressive s (c :: cs) inner) {n : Nat}
    (hlevel : level (depth inner) (s.step c cs).1 = some n) (hno : ∀ e ∈ (s.step c cs).1, Unmarked e) :
    ∃ inner', (s.step c cs).2.stack = inner' ++ base ∧ Expressive (s.step c cs).2 cs inner' ∧ depth inner' = n := by
  cases hskip : s.skip with
  | succ k =>
    rw [step_skip hskip] at hlevel ⊢
    refine ⟨inner, hstack, ?_, Option.some.inj hlevel⟩
    cases h with
    | plain modes => exact .plain modes
    | announced modes follows =>
      rw [hskip] at follows
      exact .announced modes follows
  | zero =>
    cases h with
    | plain modes => exact Expressive.step_plain hstack hbase hpos hskip modes hlevel hno
    | announced modes follows =>
      rw [hskip] at follows
      exact Expressive.step_announced hstack hskip modes follows hlevel hno

/-- A passage does not leave the expression, if no markup starts. -/
theorem Expressive.passage {r : List Char} (hstack : s.stack = inner ++ base) (hbase : isExpressive (current base) = true)
    (hpos : s.pos ≠ 0) {x : List Char} (h : Expressive s (x ++ r) inner) {n : Nat}
    (hlevel : level (depth inner) (s.brings r x) = some n) (hno : ∀ e ∈ s.brings r x, Unmarked e) :
    ∃ inner', (s.after r x).stack = inner' ++ base ∧ Expressive (s.after r x) r inner' ∧ depth inner' = n := by
  induction x generalizing s inner with
  | nil => exact ⟨inner, hstack, h, Option.some.inj hlevel⟩
  | cons c x ih =>
    rw [brings] at hlevel hno
    rw [List.forall_mem_append] at hno
    obtain ⟨k, hstep, hrest⟩ := exists_level hlevel
    obtain ⟨inner', hstack', h', rfl⟩ := h.step hstack hbase hpos hstep hno.1
    exact ih hstack' (by rw [pos_step]; exact Nat.succ_ne_zero _) h' hrest hno.2

/-- Where no markup follows and all parts are closed, nothing is open above the base. -/
theorem Expressive.eq_nil {cs : List Char} (h : Expressive s cs inner) (hdepth : depth inner = 0)
    (hcs : startsMarkup ((cs.drop s.skip).dropWhile Text.isSpace) = false) : inner = [] := by
  cases h with
  | plain modes =>
    rw [depth_expressive modes] at hdepth
    exact List.eq_nil_of_length_eq_zero hdepth
  | announced modes follows =>
    rw [hcs] at follows
    cases follows

/-! ## White space at the end -/

/-- A match in braces that takes more than the solid characters at the end of a passage, and ends in the white space after
them, is a line comment. -/
theorem line_of_braces {before : Option Char} {c : Char} {z e r : List Char} {m : Match}
    (hm : expression? ['\x7d'] before (c :: (z ++ (e ++ r))) = some m) (he : ∀ d ∈ e, Text.isSpace d = true)
    (hr : r ≠ [] ∧ r.head? ≠ some '\n') {k : Nat} (hk : m.length = (c :: z).length + (k + 1)) (hle : k + 1 ≤ e.length) :
    "//".toList <+: c :: z ∧ '\n' ∈ e := by
  obtain ⟨d, e', rfl⟩ : ∃ d e', e = d :: e' := List.exists_cons_of_length_pos (Nat.lt_of_lt_of_le (Nat.succ_pos k) hle)
  have htake : (c :: (z ++ (d :: e' ++ r))).take m.length = c :: z ++ (d :: e').take (k + 1) := by
    rw [hk, ← List.cons_append, List.take_length_add_append, List.take_append_of_le_length hle]
  obtain ⟨f, hf, hlast⟩ : ∃ f ∈ d :: e', (c :: z ++ (d :: e').take (k + 1)).getLast? = some f := by
    rw [List.getLast?_append_of_ne_nil _ (by simp)]
    refine ⟨_, ?_, List.getLast?_eq_some_getLast (by simp)⟩
    exact List.mem_of_mem_take (List.getLast_mem _)
  rw [← htake] at hlast
  obtain ⟨w, hw, hlength⟩ := line_of_expression? hm hlast (he f hf) (by rw [hk, List.length_cons]; omega)
  -- the second slash is no white space
  obtain ⟨rfl, htail⟩ := List.cons.inj hw
  cases z with
  | nil =>
    have hslash : d = '/' := (List.cons.inj htail).1
    exact absurd (hslash ▸ he d List.mem_cons_self) (by decide)
  | cons a z =>
    have hslash : a = '/' := (List.cons.inj htail).1
    have hrest : z ++ (d :: e' ++ r) = w := (List.cons.inj htail).2
    refine ⟨⟨z, by rw [hslash]; rfl⟩, ?_⟩
    -- the comment ends where the line does, and that is in the white space
    have hsplit : z ++ (d :: e' ++ r) = z ++ (d :: e').take (k + 1) ++ ((d :: e').drop (k + 1) ++ r) := by
      rw [List.append_assoc, ← List.append_assoc (List.take _ _), List.take_append_drop]
    rw [hk, ← hrest, hsplit] at hlength
    simp only [List.length_cons] at hlength hle
    have hfeed := head?_of_takeWhile (z := z ++ (d :: e').take (k + 1)) (r := (d :: e').drop (k + 1) ++ r)
      (by rw [List.length_append, List.length_take, List.length_cons]; omega)
    cases hdrop : (d :: e').drop (k + 1) with
    | nil =>
      rw [hdrop, List.nil_append] at hfeed
      exact (hfeed.elim hr.1 hr.2).elim
    | cons b rest =>
      rw [hdrop] at hfeed
      have hb : b = '\n' := Option.some.inj (hfeed.resolve_left (by simp))
      refine List.mem_of_mem_drop (i := k + 1) ?_
      rw [hdrop, hb]
      exact List.mem_cons_self

/-- A match that takes more than the last solid characters of a passage, and ends in the white space after it, is a line
comment. -/
theorem line_of_straddle {s : Stand} (hstack : s.stack = inner ++ .braces :: base) (hskip : s.skip = 0)
    {c : Char} {z e r : List Char} (h : Expressive s (c :: (z ++ (e ++ r))) inner) {m : Match}
    (hm : s.matched? (c :: (z ++ (e ++ r))) = some m) (hno : ∀ ev ∈ m.events s.pos (c :: (z ++ (e ++ r))), Unmarked ev)
    (hlevel : level (depth inner) (m.events s.pos (c :: (z ++ (e ++ r)))) = some 0)
    (hz : ∀ d ∈ (c :: z).getLast?, Text.isSpace d = false) (he : ∀ d ∈ e, Text.isSpace d = true)
    (hr : r ≠ [] ∧ r.head? ≠ some '\n') (hlonger : z.length + 1 < m.length) (hle : m.length ≤ z.length + 1 + e.length) :
    "//".toList <+: c :: z ∧ '\n' ∈ e := by
  cases h with
  | plain modes =>
    have hmode : isExpressive (current (inner ++ .braces :: base)) = true := by
      cases inner with
      | nil => rfl
      | cons mode inner => exact modes mode List.mem_cons_self
    have hsettle (cs : List Char) : settle cs s.stack = inner ++ .braces :: base := by
      rw [hstack]
      refine Piece.Opened.settle_eq _ fun hmarkup => ?_
      rw [hmarkup] at hmode
      cases hmode
    rw [matched?, hsettle] at hm
    -- no part is left by such a match, nor is one entered
    have hclosed : depth inner = 0 := by
      cases rule_of_match hm with
      | token | announce => exact Option.some.inj hlevel
      | fragment => exact absurd hno (marked_of_move (.inr rfl))
      | tag => exact absurd hno (marked_of_move (.inl rfl))
      | braces | substitution | group | template => exact absurd (Option.some.inj hlevel) (Nat.succ_ne_zero _)
      | content text place | selfClose text place | closeElement pos fits place | closeFragment pos fits place =>
        rw [place] at hmode
        cases hmode
      | closeExpression => exact absurd hlonger (by simp [Match.length])
    rw [depth_expressive modes] at hclosed
    obtain rfl := List.eq_nil_of_length_eq_zero hclosed
    obtain ⟨k, hk⟩ : ∃ k, m.length = (c :: z).length + (k + 1) := ⟨m.length - (z.length + 2), by rw [List.length_cons]; omega⟩
    exact line_of_braces hm he hr hk (by rw [List.length_cons] at hk; omega)
  | announced modes follows =>
    rw [hskip] at follows
    obtain ⟨-, m', hm', hcases⟩ := matched?_announced hstack follows
    obtain rfl := Option.some.inj (hm.symm.trans hm')
    rcases hcases with rfl | hmove
    · -- the solid character at the end is no white space
      have hlength : (c :: z).length < ((c :: z ++ (e ++ r)).takeWhile Text.isSpace).length := hlonger
      rw [List.takeWhile_append] at hlength
      split at hlength
      · next hall =>
        have hlast := hz _ (List.getLast?_eq_some_getLast (List.cons_ne_nil c z))
        have htakeWhile : (c :: z).takeWhile Text.isSpace = c :: z :=
          (List.takeWhile_prefix _).eq_of_length hall
        rw [List.takeWhile_eq_self_iff.mp htakeWhile _ (List.getLast_mem _)] at hlast
        cases hlast
      · exact absurd hlength (Nat.not_lt.mpr (List.takeWhile_prefix _).length_le)
    · exact absurd hno (marked_of_move hmove)

theorem pos_after_ne {s : Stand} (h : s.pos ≠ 0) (r x : List Char) : (s.after r x).pos ≠ 0 := by
  induction x generalizing s with
  | nil => exact h
  | cons c x ih => exact ih (by rw [pos_step]; exact Nat.succ_ne_zero _)

/-- Before the white space at its end a passage does not leave the expression, if no line comment stands there. -/
theorem before_blank {s : Stand} (hs : s.At (.braces :: base)) {y e r : List Char} (hskip : (s.after r (y ++ e)).skip = 0)
    (hlevel : level 0 (s.brings r (y ++ e)) = some 0) (hno : ∀ ev ∈ s.brings r (y ++ e), Unmarked ev)
    (hy : ∀ d ∈ y.getLast?, Text.isSpace d = false) (he : ∀ d ∈ e, Text.isSpace d = true)
    (hr : startsMarkup (r.dropWhile Text.isSpace) = false) (hfeed : r ≠ [] ∧ r.head? ≠ some '\n')
    (hline : '\n' ∉ e ∨ ¬ "//".toList <:+: y) :
    (s.after (e ++ r) y).stack = .braces :: base ∧ (s.after (e ++ r) y).skip = 0 ∧
      level 0 (s.brings (e ++ r) y) = some 0 := by
  rw [brings_append] at hlevel hno
  rw [List.forall_mem_append] at hno
  have hpos (x w : List Char) : (s.after w x).pos ≠ 0 := pos_after_ne hs.inText w x
  obtain ⟨k, hlevel, hblank⟩ := exists_level hlevel
  rw [level_tokens (brings_blank (hpos y (e ++ r)) he r)] at hblank
  obtain rfl := Option.some.inj hblank
  have hpassage {w x : List Char} (hno : ∀ ev ∈ s.brings w x, Unmarked ev) {n : Nat}
      (hlevel : level 0 (s.brings w x) = some n) : ∃ inner, (s.after w x).stack = inner ++ .braces :: base ∧
        Expressive (s.after w x) w inner ∧ depth inner = n :=
    Expressive.passage hs.stack rfl hs.inText (.plain (List.forall_mem_nil _)) hlevel hno
  have hmid : (s.after (e ++ r) y).skip = 0 := by
    by_contra hne
    rcases exists_lastMatch hs.skip (e ++ r) y with ⟨-, hzero, -⟩ | ⟨x, c, z, m, hx⟩
    · exact hne hzero
    · have hlast := hx.skip
      rw [hx.brings] at hlevel hno
      rw [List.forall_mem_append, List.forall_mem_append] at hno
      obtain ⟨j, hlevel, hmatch⟩ := exists_level hlevel
      obtain ⟨inner, hstack, hexpressive, hdepth⟩ := hpassage hno.1.1 hlevel
      rw [level_append, pends, level_pendingToken, ← hdepth] at hmatch
      have hle : m.length ≤ z.length + 1 + e.length := by
        have hstart := hx.start
        have hmatched := hx.matched
        rw [← List.append_assoc z e r] at hstart hmatched
        rw [hx.text, List.append_assoc, after_append] at hskip
        have hle : m.length ≤ (c :: z ++ e).length := match_le hskip hstart hmatched
        rwa [List.length_append, List.length_cons] at hle
      have hsolid : ∀ d ∈ (c :: z).getLast?, Text.isSpace d = false := by
        rwa [hx.text, List.getLast?_append_of_ne_nil _ (List.cons_ne_nil c z)] at hy
      obtain ⟨hslashes, hmem⟩ :=
        line_of_straddle hstack hx.start hexpressive hx.matched hno.1.2.2 hmatch hsolid he hfeed (by omega) hle
      rcases hline with hline | hline
      · exact hline hmem
      · exact hline (hx.text ▸ hslashes.isInfix.trans (List.suffix_append x (c :: z)).isInfix)
  obtain ⟨inner, hstack, hexpressive, hdepth⟩ := hpassage hno.1 hlevel
  have hfollows : startsMarkup (((e ++ r).drop (s.after (e ++ r) y).skip).dropWhile Text.isSpace) = false := by
    rw [hmid, List.drop_zero, List.dropWhile_append_of_pos he, hr]
  obtain rfl := hexpressive.eq_nil hdepth hfollows
  exact ⟨hstack, hmid, hlevel⟩

end Stand
end JsxEdit.Scan
