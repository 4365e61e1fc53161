import JsxEdit.Proofs.Agree
import JsxEdit.Proofs.Rule

/-
How far a match reaches, and where there is none.

A match takes only characters that are there. Text for which no rule of the mode has a match becomes a token of its own,
or ends the announced markup. The one other case is a backslash at the end of the text in a template literal.
-/
set_option autoImplicit false

namespace JsxEdit.Scan

/-! ## The length of a match -/

theorem takeWhile_length_le (p : Char → Bool) (cs : List Char) : (cs.takeWhile p).length ≤ cs.length :=
  (List.takeWhile_prefix p).length_le

theorem blockCommentRest?_le {cs : List Char} {n : Nat} (h : blockCommentRest? cs = some n) : n ≤ cs.length := by
  fun_induction blockCommentRest? cs generalizing n with
  | case1 => cases h
  | case2 => cases h
  | case3 c d cs =>
    cases h
    exact Nat.le_add_left 2 _
  | case4 c d cs _ ih =>
    obtain ⟨k, hk, rfl⟩ := Option.map_eq_some_iff.mp h
    exact Nat.succ_le_succ (ih hk)

theorem comment?_le {cs : List Char} {m : Match} (h : comment? cs = some m) : m.length ≤ cs.length := by
  unfold comment? at h
  split at h
  · next cs =>
    obtain rfl := one_eq h
    exact Nat.add_le_add_right (takeWhile_length_le _ cs) 2
  · split at h
    · next n hn =>
      obtain rfl := one_eq h
      exact Nat.add_le_add_right (blockCommentRest?_le hn) 2
    · cases h
  · cases h

theorem quotedLength?_le {quote : Char} {cs : List Char} {n : Nat}
    (h : Expression.quotedLength? false quote cs = some n) : n ≤ cs.length := by
  obtain ⟨body, rest, rfl, rfl⟩ := Expression.quotedLength?_eq_some h
  rw [List.length_append, List.length_cons]
  omega

theorem scriptString?_le {cs : List Char} {m : Match} (h : scriptString? cs = some m) : m.length ≤ cs.length := by
  unfold scriptString? at h
  split at h
  · obtain ⟨n, hn, hm⟩ := Option.bind_eq_some_iff.mp h
    obtain rfl := one_eq hm
    exact Nat.succ_le_succ (quotedLength?_le hn)
  · obtain ⟨n, hn, hm⟩ := Option.bind_eq_some_iff.mp h
    obtain rfl := one_eq hm
    exact Nat.succ_le_succ (quotedLength?_le hn)
  · cases h

theorem quoted_le {quote : Char} {cs : List Char} (h : cs.contains quote = true) :
    (cs.takeWhile (· != quote)).length + 2 ≤ (quote :: cs).length := by
  obtain ⟨left, right, rfl, hl⟩ := List.eq_append_cons_of_mem (List.contains_iff_mem.mp h)
  have hall : ∀ c ∈ left, (c != quote) = true := fun c hc => bne_iff_ne.mpr fun he => hl (he ▸ hc)
  rw [List.takeWhile_append_of_pos hall, List.takeWhile_cons_of_neg (by simp), List.append_nil, List.length_cons,
    List.length_append, List.length_cons]
  omega

theorem attributeString?_le {cs : List Char} {m : Match} (h : attributeString? cs = some m) :
    m.length ≤ cs.length := by
  unfold attributeString? at h
  split at h
  · split at h
    · next hq =>
      obtain rfl := one_eq h
      exact quoted_le hq
    · cases h
  · split at h
    · next hq =>
      obtain rfl := one_eq h
      exact quoted_le hq
    · cases h
  · cases h

theorem literal?_le {cs : List Char} {m : Match} (h : literal? cs = some m) : m.length ≤ cs.length := by
  unfold literal? at h
  rcases orElse_some h with hs | h
  · exact scriptString?_le hs
  · rcases orElse_some h with ht | hc
    · split at ht
      · next htick =>
        obtain ⟨rest, rfl⟩ := List.head?_eq_some_iff.mp (eq_of_beq htick)
        obtain rfl := one_eq ht
        exact Nat.le_add_left 1 _
      · cases ht
    · exact comment?_le hc

theorem leadLength?_le {before : Option Char} {cs : List Char} {n : Nat} (h : leadLength? before cs = some n) :
    n ≤ cs.length := by
  have hword : ∀ {p : List Char}, p.isPrefixOf cs = true → p.length ≤ cs.length := fun hp =>
    (List.isPrefixOf_iff_prefix.mp hp).length_le
  unfold leadLength? at h
  dsimp only at h
  split at h
  · next hc =>
    cases h
    rw [Bool.and_eq_true, Bool.and_eq_true] at hc
    exact hword hc.1.2
  · split at h
    · next hc =>
      cases h
      rw [Bool.and_eq_true, Bool.and_eq_true] at hc
      exact hword hc.1.2
    · split at h
      · next hc =>
        cases h
        rw [Bool.and_eq_true] at hc
        exact hword hc.1
      · split at h
        · next hc =>
          cases h
          rw [Bool.and_eq_true] at hc
          cases cs with
          | nil => cases hc.1
          | cons c cs => exact Nat.le_add_left 1 _
        · cases h

theorem lead?_le {before : Option Char} {cs : List Char} {m : Match} (h : lead? before cs = some m) :
    m.length ≤ cs.length := by
  obtain ⟨n, hn, hm⟩ := Option.bind_eq_some_iff.mp h
  obtain rfl := one_eq hm
  exact leadLength?_le hn

theorem nameLength?_le {kind : Text.NameKind} {cs : List Char} {n : Nat} (h : Text.nameLength? kind cs = some n) :
    n ≤ cs.length := by
  unfold Text.nameLength? at h
  split at h
  · cases h
  · next c cs =>
    split at h
    · cases h
      exact Nat.succ_le_succ (nameTail_take kind cs).2
    · cases h

theorem markup?_le {cs : List Char} {m : Match} (h : markup? cs = some m) : m.length ≤ cs.length := by
  unfold markup? at h
  split at h
  · next hp =>
    obtain rfl := one_eq h
    exact (List.isPrefixOf_iff_prefix.mp hp).length_le
  · unfold openingTag? at h
    split at h
    · obtain ⟨n, hn, rfl⟩ := Option.map_eq_some_iff.mp h
      show 1 + n ≤ _ + 1
      have hle := nameLength?_le hn
      omega
    · cases h

theorem tag?_le {cs : List Char} {m : Match} (h : tag? cs = some m) : m.length ≤ cs.length := by
  unfold tag? at h
  split at h
  · cases h
  · split at h
    · obtain rfl := one_eq h
      exact takeWhile_length_le _ _
    · split at h
      · next hp =>
        obtain rfl := one_eq h
        exact (List.isPrefixOf_iff_prefix.mp hp).length_le
      · split at h
        · obtain rfl := one_eq h
          exact Nat.le_add_left 1 _
        · split at h
          · obtain rfl := one_eq h
            exact Nat.le_add_left 1 _
          · split at h
            · obtain rfl := one_eq h
              exact Nat.le_add_left 1 _
            · rcases orElse_some h with ha | h
              · obtain ⟨n, hn, hm⟩ := Option.bind_eq_some_iff.mp ha
                obtain rfl := one_eq hm
                exact nameLength?_le hn
              · rcases orElse_some h with hs | hc
                · exact attributeString?_le hs
                · exact comment?_le hc

theorem content?_le {count : Nat} {cs : List Char} {m : Match} (h : content? count cs = some m) :
    m.length ≤ cs.length := by
  unfold content? at h
  split at h
  · next n hn =>
    obtain rfl := one_eq h
    exact (closingTagLength?_spec hn).2
  · rcases orElse_some h with hm | h
    · exact markup?_le hm
    · split at h
      · cases h
      · split at h
        · obtain rfl := one_eq h
          exact Nat.le_add_left 1 _
        · split at h
          · obtain rfl := one_eq h
            exact Nat.le_add_left 1 _
          · obtain rfl := one_eq h
            exact takeWhile_length_le _ _

theorem expression?_le {closers : List Char} {before : Option Char} {cs : List Char} {m : Match}
    (h : expression? closers before cs = some m) : m.length ≤ cs.length := by
  unfold expression? at h
  split at h
  · cases h
  · split at h
    · obtain rfl := one_eq h
      exact Nat.le_add_left 1 _
    · rcases orElse_some h with hl | h
      · exact lead?_le hl
      · split at h
        · obtain rfl := one_eq h
          exact Nat.le_add_left 1 _
        · split at h
          · obtain rfl := one_eq h
            exact Nat.le_add_left 1 _
          · split at h
            · obtain rfl := one_eq h
              exact Nat.le_add_left 1 _
            · exact literal?_le h

theorem template?_le {cs : List Char} {m : Match} (h : template? cs = some m) : m.length ≤ cs.length := by
  unfold template? at h
  split at h
  · cases h
  · obtain rfl := one_eq h
    exact Nat.le_add_left 1 _
  · obtain rfl := one_eq h
    exact Nat.le_add_left 2 _
  · obtain rfl := one_eq h
    exact Nat.le_add_left 1 _
  · cases h
  · obtain rfl := one_eq h
    exact Nat.le_add_left 2 _
  · obtain rfl := one_eq h
    exact takeWhile_length_le _ _

/-- A match takes only characters that are there. -/
theorem match?_le {mode : Mode} {atStart : Bool} {before : Option Char} {cs : List Char} {m : Match}
    (h : match? mode atStart before cs = some m) : m.length ≤ cs.length := by
  unfold match? at h
  split at h
  · rcases orElse_some h with hf | h
    · split at hf
      · unfold firstMarkup? at hf
        dsimp only at hf
        split at hf
        · obtain rfl := one_eq hf
          exact takeWhile_length_le _ _
        · exact markup?_le hf
      · cases hf
    · rcases orElse_some h with hl | h
      · exact lead?_le hl
      · exact literal?_le h
  · split at h
    · exact markup?_le h
    · obtain rfl := one_eq h
      exact takeWhile_length_le _ _
  · exact tag?_le h
  · exact content?_le h
  · exact content?_le h
  · exact expression?_le h
  · exact expression?_le h
  · exact template?_le h

/-- Each token of a match has a character. -/
theorem Rule.parts_pos {mode : Mode} {cs : List Char} {m : Match} (h : Rule mode cs m) :
    ∀ part ∈ m.parts, 0 < part.2 := by
  cases h with
  | tag text place name =>
    have hpos := nameLength?_pos name
    rw [List.length_take] at hpos
    simp only [List.forall_mem_cons]
    exact ⟨Nat.zero_lt_one, by omega, List.forall_mem_nil _⟩
  | token pos => exact List.forall_mem_singleton.mpr pos
  | announce pos => exact List.forall_mem_singleton.mpr pos
  | closeElement pos => exact List.forall_mem_singleton.mpr pos
  | closeFragment pos => exact List.forall_mem_singleton.mpr pos
  | closeExpression => exact List.forall_mem_singleton.mpr Nat.zero_lt_one
  | _ => exact List.forall_mem_singleton.mpr (by decide)

/-! ## Places without a match -/

/-- Between tags there is a match everywhere. -/
theorem content?_ne_none (count : Nat) (c : Char) (cs : List Char) : content? count (c :: cs) ≠ none := by
  unfold content?
  split
  · exact Option.some_ne_none _
  · cases markup? (c :: cs) with
    | some m => exact Option.some_ne_none _
    | none =>
      show (if c == '\x7b' then _ else _) ≠ none
      split
      · exact Option.some_ne_none _
      · split <;> exact Option.some_ne_none _

/-- In a template literal there is a match everywhere but at a backslash with nothing after it. -/
theorem template?_eq_none {c : Char} {cs : List Char} (h : template? (c :: cs) = none) : c :: cs = ['\\'] := by
  unfold template? at h
  split at h
  · next heq => cases heq
  · cases h
  · cases h
  · cases h
  · next heq => exact heq
  · cases h
  · cases h

/-- Where no rule has a match, there is a token for unmatched text, or announced markup is over, or a template literal
breaks off after a backslash. -/
theorem match?_eq_none {mode : Mode} {atStart : Bool} {before : Option Char} {c : Char} {cs : List Char}
    (h : match? mode atStart before (c :: cs) = none) :
    (rest? mode).isSome = true ∨ mode = .markup ∨ (mode = .template ∧ c :: cs = ['\\']) := by
  cases mode with
  | markup => exact .inr (.inl rfl)
  | content => exact absurd h (content?_ne_none 2 c cs)
  | fragment => exact absurd h (content?_ne_none 1 c cs)
  | template => exact .inr (.inr ⟨rfl, template?_eq_none h⟩)
  | _ => exact .inl rfl

end JsxEdit.Scan
