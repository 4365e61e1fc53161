import JsxEdit.Proofs.Halt
import Mathlib.Data.List.Induction

/-
The last match of a passage.

What a passage ends in is told by its last match: how much of the text after the passage belongs to it, and what of the
passage comes after it. No match that ends in white space is of any kind but a few, and none that starts with it.
-/
set_option autoImplicit false

namespace JsxEdit.Scan

namespace Stand

/-- The last match of a passage starts after the characters `x`, and no other one is made on the way through `z`. -/
structure LastMatch (s : Stand) (r y x : List Char) (c : Char) (z : List Char) (m : Match) : Prop where
  text : y = x ++ c :: z
  start : (s.after (c :: (z ++ r)) x).skip = 0
  matched : (s.after (c :: (z ++ r)) x).matched? (c :: (z ++ r)) = some m
  brings : s.brings r y = s.brings (c :: (z ++ r)) x ++
    ((s.after (c :: (z ++ r)) x).pends (c :: (z ++ r)) ++ m.events (s.after (c :: (z ++ r)) x).pos (c :: (z ++ r)))
  skip : (s.after r y).skip = m.length - (z.length + 1)
  pending : (s.after r y).pending = (z.drop (m.length - 1)).reverse

/-- A character at which no match is made. -/
theorem LastMatch.snoc {s : Stand} {d : Char} {r y x z : List Char} {c : Char} {m : Match}
    (h : LastMatch s (d :: r) y x c z m) (hbrings : s.brings r (y ++ [d]) = s.brings (d :: r) y)
    (hskip : (s.after r (y ++ [d])).skip = (s.after (d :: r) y).skip - 1)
    (hpending : (s.after r (y ++ [d])).pending =
      if (s.after (d :: r) y).skip = 0 then d :: (s.after (d :: r) y).pending else (s.after (d :: r) y).pending) :
    LastMatch s r (y ++ [d]) x c (z ++ [d]) m := by
  have hrest : c :: (z ++ [d] ++ r) = c :: (z ++ d :: r) := by rw [List.append_assoc]; rfl
  refine ⟨?_, ?_, ?_, ?_, ?_, ?_⟩
  · rw [h.text, List.append_assoc]
    rfl
  · rw [hrest, h.start]
  · rw [hrest, h.matched]
  · rw [hrest, hbrings, h.brings]
  · rw [hskip, h.skip, List.length_append, List.length_singleton]
    omega
  · rw [hpending, h.skip, h.pending]
    split
    · next hzero =>
      rw [List.drop_append_of_le_length (by omega), List.reverse_append]
      rfl
    · rw [List.drop_eq_nil_of_le (by omega), List.drop_eq_nil_of_le (by simp; omega)]

/-- A passage has a last match, or none at all. -/
theorem exists_lastMatch {s : Stand} (hs : s.skip = 0) (r y : List Char) :
    (s.brings r y = [] ∧ (s.after r y).skip = 0 ∧ (s.after r y).pending = y.reverse ++ s.pending) ∨
      ∃ x c z m, LastMatch s r y x c z m := by
  induction y using List.reverseRecOn generalizing r with
  | nil => exact .inl ⟨rfl, hs, rfl⟩
  | append_singleton y d ih =>
    have hbrings : s.brings r (y ++ [d]) = s.brings (d :: r) y ++ ((s.after (d :: r) y).step d r).1 := by
      rw [brings_append]
      exact congrArg _ (List.append_nil _)
    have hafter : s.after r (y ++ [d]) = ((s.after (d :: r) y).step d r).2 := by
      rw [after_append]
      rfl
    cases hskip : (s.after (d :: r) y).skip with
    | succ k =>
      have hstep := step_skip hskip d r
      rw [hstep] at hbrings hafter
      rcases ih (d :: r) with ⟨-, hzero, -⟩ | ⟨x, c, z, m, hx⟩
      · rw [hzero] at hskip
        cases hskip
      · refine .inr ⟨x, c, z ++ [d], m, hx.snoc (hbrings.trans (List.append_nil _)) ?_ ?_⟩
        · rw [hafter, hskip]
          rfl
        · rw [hafter, if_neg (by omega)]
    | zero =>
      cases hm : (s.after (d :: r) y).matched? (d :: r) with
      | none =>
        have hstep := step_none hskip hm
        rw [hstep, List.append_nil] at hbrings
        rw [hstep] at hafter
        rcases ih (d :: r) with ⟨hnone, -, hpending⟩ | ⟨x, c, z, m, hx⟩
        · refine .inl ⟨hbrings.trans hnone, by rw [hafter], ?_⟩
          rw [hafter, hpending, List.reverse_append]
          rfl
        · refine .inr ⟨x, c, z ++ [d], m, hx.snoc hbrings ?_ ?_⟩
          · rw [hafter, hskip]
          · rw [hafter, if_pos hskip]
      | some m =>
        have hstep := step_match hskip hm
        rw [hstep] at hbrings hafter
        exact .inr ⟨y, d, [], m, rfl, hskip, hm, hbrings, by rw [hafter]; rfl, by rw [hafter, List.drop_nil]; rfl⟩

end Stand

/-! ## Line comments -/

/-- A comment that starts with two slashes is one up to the end of the line. -/
theorem match?_line {mode : Mode} {atStart : Bool} {before : Option Char} {w : List Char} {n : Nat} {move : Move}
    (h : match? mode atStart before ('/' :: '/' :: w) = some ⟨[(.comment, n)], move⟩) :
    n = (w.takeWhile (· != '\n')).length + 2 := by
  have hlead : lead? before ('/' :: '/' :: w) = none := lead?_eq_none (by decide) (by decide) (by decide) before _
  have hcomment {k : Nat} (hk : one .comment k .stay = some ⟨[(.comment, n)], move⟩) : n = k := by
    cases hk
    rfl
  cases mode with
  | script =>
    have hscript : match? .script atStart before ('/' :: '/' :: w) =
        one .comment ((w.takeWhile (· != '\n')).length + 2) .stay := by
      rw [match?, hlead]
      cases atStart <;> rfl
    exact hcomment (hscript.symm.trans h)
  | markup => cases h
  | tag => exact hcomment h
  | content | fragment | template => cases h
  | braces | group =>
    rw [match?, expression?, hlead] at h
    exact hcomment h

theorem Rule.events_ne_nil {mode : Mode} {cs : List Char} {m : Match} (h : Rule mode cs m) (pos : Nat) :
    m.events pos cs ≠ [] := by
  obtain ⟨t, (h | h | h | h) | ⟨inner, h⟩ | ⟨inner, u, h⟩⟩ := h.events_cases pos <;> simp [h]

theorem head?_of_takeWhile {z r : List Char} (h : ((z ++ r).takeWhile (· != '\n')).length = z.length) :
    r = [] ∨ r.head? = some '\n' := by
  rw [List.takeWhile_append] at h
  cases r with
  | nil => exact .inl rfl
  | cons c r =>
    right
    split at h
    · by_cases hc : c = '\n'
      · rw [hc]
        rfl
      · simp [hc] at h
    · next hz => exact absurd h hz

namespace Stand

theorem getLast?_events {m : Match} {mode : Mode} {cs : List Char} (hrule : Rule mode cs m) {pos : Nat} {t : Token}
    (h : (m.events pos cs).getLast? = some (.token t)) (hkind : t.kind = .comment) :
    ∃ n move, m = ⟨[(.comment, n)], move⟩ ∧ t.text = .ofList (cs.take n) := by
  cases hrule with
  | token | announce =>
    obtain rfl := Event.token.inj (Option.some.inj h)
    cases hkind
    exact ⟨_, _, rfl, rfl⟩
  | fragment | tag | braces | substitution | group | template =>
    obtain rfl := Event.token.inj (Option.some.inj h)
    cases hkind
  | content | selfClose | closeElement | closeFragment | closeExpression => cases Option.some.inj h

/-- A line comment at the end of a passage ends where the line does. -/
theorem line_ends {s : Stand} (hs : s.skip = 0) {r y : List Char} (hskip : (s.after r y).skip = 0)
    (hpending : (s.after r y).pending = []) (h : endsInLine (s.brings r y) = true) : r = [] ∨ r.head? = some '\n' := by
  rcases exists_lastMatch hs r y with ⟨hnone, -, -⟩ | ⟨x, c, z, m, hx⟩
  · rw [hnone] at h
    cases h
  · have hrule := rule_of_match hx.matched
    obtain ⟨e, he, hline⟩ := (Option.any_eq_true _ _).mp h
    rw [hx.brings, ← List.append_assoc, List.getLast?_append_of_ne_nil _ (hrule.events_ne_nil _)] at he
    unfold isLineComment at hline
    split at hline
    · next t =>
      rw [Bool.and_eq_true] at hline
      obtain ⟨hkind, hslashes⟩ := hline
      obtain ⟨n, move, rfl, htext⟩ := getLast?_events hrule he (eq_of_beq hkind)
      rw [htext, String.toList_ofList, String.toList_ofList] at hslashes
      -- the passage ends with the comment, which is longer than the two slashes
      have hn : Match.length ⟨[(.comment, n)], move⟩ = n := rfl
      have hlength := hx.skip.symm.trans hskip
      have hnone : (z.drop (n - 1)).reverse = [] := hx.pending.symm.trans hpending
      rw [List.reverse_eq_nil_iff, List.drop_eq_nil_iff] at hnone
      have hpos : 2 ≤ n := (List.isPrefixOf_iff_prefix.mp hslashes).length_le.trans (List.length_take_le ..)
      obtain ⟨d, z', rfl⟩ : ∃ d z', z = d :: z' := List.exists_cons_of_length_pos (by omega)
      rw [List.length_cons] at hnone hlength
      obtain ⟨k, rfl⟩ : ∃ k, n = k + 2 := ⟨n - 2, by omega⟩
      obtain ⟨rfl, rfl⟩ : c = '/' ∧ d = '/' := by
        obtain ⟨v, hv⟩ := List.isPrefixOf_iff_prefix.mp hslashes
        rw [List.cons_append, List.cons_append, List.cons_append, List.take_succ_cons, List.take_succ_cons] at hv
        obtain ⟨hc, hd⟩ := List.cons.inj hv
        exact ⟨hc.symm, (List.cons.inj hd).1.symm⟩
      have hline : k + 2 = ((z' ++ r).takeWhile (· != '\n')).length + 2 := match?_line hx.matched
      exact head?_of_takeWhile (z := z') (by omega)
    · cases hline

end Stand

/-! ## White space -/

/-- A match that starts with white space enters and leaves nothing, but at the start of a text. -/
theorem match?_space {mode : Mode} {before : Option Char} {c : Char} {cs : List Char} (hc : Text.isSpace c = true)
    {m : Match} (h : match? mode false before (c :: cs) = some m) : m.move = .stay := by
  have hne (d : Char) (hd : Text.isSpace d = false) : c ≠ d := ne_of_isSpace hc hd
  have hlead : lead? before (c :: cs) = none := lead?_eq_none
    (by simp [isLeadChar, hne '(' (by decide), hne '[' (by decide), hne ',' (by decide), hne ';' (by decide),
      hne ':' (by decide), hne '?' (by decide), hne '=' (by decide), hne '&' (by decide), hne '|' (by decide),
      hne '!' (by decide)]) (hne 'r' (by decide)) (hne 'y' (by decide)) before cs
  have hliteral : literal? (c :: cs) = none := by
    simp [literal?, scriptString?, comment?, hne '"' (by decide), hne '\'' (by decide), hne '`' (by decide),
      hne '/' (by decide)]
  have hmarkup : markup? (c :: cs) = none := by
    simp [markup?, openingTag?, List.isPrefixOf, (hne '<' (by decide)).symm, hne '<' (by decide)]
  have hclosing : closingTagLength? (c :: cs) = none := by simp [closingTagLength?, hne '<' (by decide)]
  have hstay {kind : TokenKind} {n : Nat} (hone : one kind n .stay = some m) : m.move = .stay := by
    cases hone
    rfl
  cases mode with
  | script => simp [match?, hlead, hliteral] at h
  | markup =>
    rw [match?, hmarkup] at h
    split at h
    · cases h
    · exact hstay h
  | tag =>
    rw [match?, tag?, if_pos hc] at h
    exact hstay h
  | content | fragment =>
    simp only [match?, content?, hclosing, hmarkup, hne '\x7b' (by decide), hne '<' (by decide), none_orElse,
      beq_eq_false_iff_ne.mpr, ne_eq, not_false_eq_true, Bool.false_eq_true, if_false] at h
    exact hstay h
  | braces | group =>
    simp [match?, expression?, hlead, hliteral, hne '\x7b' (by decide), hne '\x7d' (by decide), hne '(' (by decide),
      hne ')' (by decide), hne '[' (by decide), hne ']' (by decide), hne ',' (by decide), hne ':' (by decide)] at h
  | template =>
    rw [match?] at h
    unfold template? at h
    split at h
    · cases h
    · next heq => exact absurd (List.cons.inj heq).1 (hne '`' (by decide))
    · next heq => exact absurd (List.cons.inj heq).1 (hne '$' (by decide))
    · next heq => exact absurd (List.cons.inj heq).1 (hne '$' (by decide))
    · next heq => exact absurd (List.cons.inj heq).1 (hne '\\' (by decide))
    · next heq => exact absurd (List.cons.inj heq).1 (hne '\\' (by decide))
    · exact hstay h

namespace Stand

/-- White space brings tokens only. -/
theorem brings_blank {s : Stand} (hpos : s.pos ≠ 0) {x : List Char} (hx : ∀ c ∈ x, Text.isSpace c = true) (r : List Char) :
    ∀ e ∈ s.brings r x, ∃ t, e = .token t := by
  induction x generalizing s with
  | nil => exact List.forall_mem_nil _
  | cons c x ih =>
    rw [List.forall_mem_cons] at hx
    rw [brings, List.forall_mem_append]
    refine ⟨?_, ih (by rw [pos_step]; exact Nat.succ_ne_zero _) hx.2⟩
    cases hskip : s.skip with
    | succ k =>
      rw [step_skip hskip]
      exact List.forall_mem_nil _
    | zero =>
      cases hm : s.matched? (c :: (x ++ r)) with
      | none =>
        rw [step_none hskip hm]
        exact List.forall_mem_nil _
      | some m =>
        rw [step_match hskip hm, List.forall_mem_append]
        refine ⟨fun e he => ?_, ?_⟩
        · obtain ⟨t, ht, -⟩ := isPending_of_mem he
          exact ⟨t, ht⟩
        · rw [matched?, beq_false_of_ne hpos] at hm
          have hmove := match?_space hx.1 hm
          intro e he
          rw [Match.events, hmove] at he
          exact mem_tokens he

end Stand
theorem blockCommentRest?_eq_some {cs : List Char} {n : Nat} (h : blockCommentRest? cs = some n) :
    ∃ body rest, cs = body ++ '/' :: rest ∧ n = body.length + 1 := by
  fun_induction blockCommentRest? cs generalizing n with
  | case1 => cases h
  | case2 => cases h
  | case3 c d cs hend =>
    rw [Bool.and_eq_true, beq_iff_eq, beq_iff_eq] at hend
    obtain ⟨rfl, rfl⟩ := hend
    cases h
    exact ⟨['*'], cs, rfl, rfl⟩
  | case4 c d cs hend ih =>
    obtain ⟨k, hk, rfl⟩ := Option.map_eq_some_iff.mp h
    obtain ⟨body, rest, hbody, rfl⟩ := ih hk
    exact ⟨c :: body, rest, by rw [hbody]; rfl, rfl⟩

/-- A match in braces that ends in white space is a line comment. -/
theorem line_of_expression? {before : Option Char} {cs : List Char} {m : Match}
    (h : expression? ['\x7d'] before cs = some m) {d : Char} (hd : (cs.take m.length).getLast? = some d)
    (hspace : Text.isSpace d = true) (hlength : 2 ≤ m.length) :
    ∃ w, cs = '/' :: '/' :: w ∧ m.length = (w.takeWhile (· != '\n')).length + 2 := by
  have hlast {w rest : List Char} {e : Char} (hcs : cs = w ++ e :: rest) (hm : m.length = w.length + 1)
      (he : Text.isSpace e = false) : False := by
    have htake : cs.take m.length = w ++ [e] := by
      rw [hcs, hm, List.take_length_add_append]
      rfl
    rw [htake, List.getLast?_concat] at hd
    rw [← Option.some.inj hd, he] at hspace
    cases hspace
  have hshort {kind : TokenKind} {move : Move} (hone : one kind 1 move = some m) : False := by
    rw [← Option.some.inj hone] at hlength
    exact absurd (show 2 ≤ 1 from hlength) (by decide)
  unfold expression? at h
  split at h
  · cases h
  · next c cs =>
    split at h
    · exact (hshort h).elim
    · rcases orElse_some h with hlead | h
      · obtain ⟨n, hn, hone⟩ := Option.bind_eq_some_iff.mp hlead
        have hm : m.length = n := by rw [← Option.some.inj hone]; rfl
        have hword {p : List Char} {e : Char} (hp : (p ++ [e]).isPrefixOf (c :: cs) = true) (he : Text.isSpace e = false)
            (hpn : n = p.length + 1) : False := by
          obtain ⟨t, ht⟩ := List.isPrefixOf_iff_prefix.mp hp
          exact hlast (w := p) (by rw [← ht, List.append_assoc]; rfl) (hm.trans hpn) he
        unfold leadLength? at hn
        dsimp only at hn
        split at hn
        · next hreturn =>
          simp only [Bool.and_eq_true] at hreturn
          exact (hword (p := "retur".toList) hreturn.1.2 (by decide) (Option.some.inj hn).symm).elim
        · split at hn
          · next hyield =>
            simp only [Bool.and_eq_true] at hyield
            exact (hword (p := "yiel".toList) hyield.1.2 (by decide) (Option.some.inj hn).symm).elim
          · split at hn
            · next harrow =>
              simp only [Bool.and_eq_true] at harrow
              exact (hword (p := ['=']) harrow.1 (by decide) (Option.some.inj hn).symm).elim
            · split at hn
              · rw [← Option.some.inj hn] at hone
                exact (hshort hone).elim
              · cases hn
      · split at h
        · exact (hshort h).elim
        · split at h
          · exact (hshort h).elim
          · split at h
            · exact (hshort h).elim
            · have hquoted {q : Char} {kind : TokenKind} {rest : List Char} (hcs : c :: cs = q :: rest)
                  (hq : Text.isSpace q = false) (hone : ((Expression.quotedLength? false q rest).bind fun n =>
                    one kind (n + 1) .stay) = some m) : False := by
                obtain ⟨n, hn, hone⟩ := Option.bind_eq_some_iff.mp hone
                obtain ⟨body, rest', rfl, rfl⟩ := Expression.quotedLength?_eq_some hn
                refine hlast (w := q :: body) hcs ?_ hq
                rw [← Option.some.inj hone]
                rfl
              rcases orElse_some h with hstring | h
              · unfold scriptString? at hstring
                split at hstring
                · next heq => exact (hquoted heq (by decide) hstring).elim
                · next heq => exact (hquoted heq (by decide) hstring).elim
                · cases hstring
              · rcases orElse_some h with htemplate | hcomment
                · split at htemplate
                  · exact (hshort htemplate).elim
                  · cases htemplate
                · unfold comment? at hcomment
                  split at hcomment
                  · next w heq => exact ⟨w, heq, by rw [← Option.some.inj hcomment]; rfl⟩
                  · next w heq =>
                    split at hcomment
                    · next n hn =>
                      obtain ⟨body, rest, rfl, rfl⟩ := blockCommentRest?_eq_some hn
                      refine (hlast (w := '/' :: '*' :: body) heq ?_ (by decide)).elim
                      rw [← Option.some.inj hcomment]
                      rfl
                    · cases hcomment
                  · cases hcomment

end JsxEdit.Scan
