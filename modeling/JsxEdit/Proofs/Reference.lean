import JsxEdit.Node.Literal
import JsxEdit.Proofs.Text

/-
Attribute strings stand for the values they are made of.

Where ampersands are escaped, all of them are, and each reads back as itself. Where they are not, nothing in the
value was a reference, and the double quotes that are written as references make none of what stands before them:
a name that ends at a quote was looked at as the beginning of a longer name before.
-/
set_option autoImplicit false

namespace JsxEdit.Text

/-! ## The tables of names -/

theorem common_short : ∀ e ∈ commonNames, e.2.length ≤ 2 := by decide

theorem further_short (c : Char) : ∀ e ∈ furtherNames c, e.2.length ≤ 2 := by
  unfold furtherNames
  split <;> decide +kernel

theorem bare_long : ∀ s ∈ bareNames, 2 ≤ s.toList.length := by decide +kernel

theorem mem_of_lookup {table : NameTable} {name : String} {codes : List Nat}
    (h : table.lookup name = some codes) : (name, codes) ∈ table := by
  obtain ⟨left, right, rfl, -⟩ := List.lookup_eq_some_iff.mp h
  simp

/-- No name stands for more than two characters. -/
theorem codesOfName?_short {name : String} {codes : List Nat} (h : codesOfName? name = some codes) :
    codes.length ≤ 2 := by
  rw [codesOfName?] at h
  cases hc : commonNames.lookup name with
  | some found =>
    rw [hc] at h
    cases h
    exact common_short _ (mem_of_lookup hc)
  | none =>
    rw [hc] at h
    obtain ⟨c, -, hf⟩ := Option.bind_eq_some_iff.mp h
    exact further_short c _ (mem_of_lookup hf)

theorem charsOfName?_short {closed : Bool} {name out : List Char} (h : charsOfName? closed name = some out) :
    out.length ≤ 2 := by
  rw [charsOfName?] at h
  split at h
  · obtain ⟨codes, hc, rfl⟩ := Option.map_eq_some_iff.mp h
    rw [List.length_map]
    exact codesOfName?_short hc
  · cases h

/-- A name that is known without its semicolon has two characters at least. -/
theorem charsOfName?_bare_long {name out : List Char} (h : charsOfName? false name = some out) :
    2 ≤ name.length := by
  rw [charsOfName?] at h
  split at h
  · next hb =>
    have hm : String.ofList name ∈ bareNames := by simpa using hb
    simpa using bare_long _ hm
  · cases h

/-! ## What a reference can stand for -/

/-- A known beginning is taken from the longest on, so that none is known if nothing is found. -/
theorem longestName?_none {name : List Char} {n : Nat} (h : longestName? name n = none) {x : Nat} (hx : 2 ≤ x)
    (hn : x ≤ n) : charsOfName? false (name.take x) = none := by
  induction n with
  | zero => omega
  | succ n ih =>
    cases n with
    | zero => omega
    | succ n =>
      rw [longestName?] at h
      split at h
      · cases h
      · next hc =>
        rcases Nat.lt_or_ge x (n + 2) with hlt | hge
        · exact ih h (by omega)
        · obtain rfl : x = n + 2 := by omega
          exact hc

theorem longestName?_of_none {name : List Char} {n : Nat}
    (h : ∀ x, 2 ≤ x → x ≤ n → charsOfName? false (name.take x) = none) : longestName? name n = none := by
  induction n with
  | zero => rfl
  | succ n ih =>
    cases n with
    | zero => rfl
    | succ n =>
      rw [longestName?, h (n + 2) (by omega) (by omega)]
      exact ih fun x h2 hx => h x h2 (by omega)

theorem longestName?_short {name out : List Char} {n : Nat} (hn : n ≤ name.length)
    (h : longestName? name n = some out) : out.length ≤ name.length := by
  induction n with
  | zero => cases h
  | succ n ih =>
    cases n with
    | zero => cases h
    | succ n =>
      rw [longestName?] at h
      split at h
      · next cs hc =>
        cases h
        have := charsOfName?_short hc
        rw [List.length_append, List.length_drop]
        omega
      · exact ih (by omega) h

theorem drop_of_append {xs rest cs : List Char} (h : xs ++ rest = cs) : cs.drop xs.length = rest := by
  rw [← h, List.drop_left]

/-- The characters after an ampersand that may be a name. -/
def nameOf (cs : List Char) : List Char := (cs.takeWhile isReferenceChar).take 32

/-- Whether the name ends with a semicolon. -/
def closedAfter (cs : List Char) : Bool := (cs.drop (nameOf cs).length).head? == some ';'

/-- The name with its semicolon. -/
def wholeOf (cs : List Char) : List Char := if closedAfter cs then nameOf cs ++ [';'] else nameOf cs

theorem namedReference?_eq (cs : List Char) :
    namedReference? cs =
      if (nameOf cs).isEmpty then none
      else
        match charsOfName? (closedAfter cs) (nameOf cs) with
        | some out => some ((wholeOf cs).length, out)
        | none =>
          some ((wholeOf cs).length,
            (longestName? (wholeOf cs) ((wholeOf cs).length - 1)).getD ('&' :: wholeOf cs)) := rfl

theorem nameOf_isPrefix (cs : List Char) : nameOf cs <+: cs :=
  (List.take_prefix _ _).trans (List.takeWhile_prefix _)

theorem mem_nameOf {c : Char} {cs : List Char} (h : c ∈ nameOf cs) : isReferenceChar c = true :=
  List.all_eq_true.mp List.all_takeWhile c (List.mem_of_mem_take h)

theorem wholeOf_isPrefix (cs : List Char) : wholeOf cs <+: cs := by
  obtain ⟨rest, hrest⟩ := nameOf_isPrefix cs
  unfold wholeOf
  split
  · next hc =>
    rw [closedAfter] at hc
    rw [drop_of_append hrest] at hc
    cases rest with
    | nil => cases hc
    | cons c rest =>
      obtain rfl : c = ';' := by simpa using hc
      exact ⟨rest, by simpa using hrest⟩
  · exact ⟨rest, hrest⟩

theorem length_nameOf_le (cs : List Char) : (nameOf cs).length ≤ (wholeOf cs).length := by
  unfold wholeOf
  split <;> simp

theorem charOfCode_short (n : Nat) : (charOfCode n).length ≤ 1 := by
  unfold charOfCode
  split
  · simp
  · split
    · simp
    · split <;> simp

theorem numericReference?_short {base : Nat} {isDigit : Char → Bool} {cs out : List Char} {n : Nat}
    (h : numericReference? base isDigit cs = some (n, out)) : out.length ≤ n ∧ n ≤ cs.length := by
  unfold numericReference? at h
  dsimp only at h
  split at h
  · cases h
  · next hne =>
    obtain ⟨rest, hrest⟩ := List.takeWhile_prefix (l := cs) isDigit
    have hpos : 0 < (cs.takeWhile isDigit).length := by
      rw [List.length_pos_iff]
      simpa using hne
    have hlen := congrArg List.length hrest
    rw [List.length_append] at hlen
    cases h
    have hc := charOfCode_short (codeOfDigits base (cs.takeWhile isDigit))
    refine ⟨by omega, ?_⟩
    rw [drop_of_append hrest]
    cases rest with
    | nil => simpa using Nat.le_of_eq hlen
    | cons c rest =>
      rw [List.length_cons] at hlen
      split <;> omega

/-- A reference by name for which nothing is known: it stands for itself. -/
structure Unknown (cs : List Char) : Prop where
  ne : nameOf cs ≠ []
  exact_ : charsOfName? (closedAfter cs) (nameOf cs) = none
  longest : longestName? (wholeOf cs) ((wholeOf cs).length - 1) = none
  named : reference? cs = namedReference? cs

theorem Unknown.reference {cs : List Char} (h : Unknown cs) :
    reference? cs = some ((wholeOf cs).length, '&' :: wholeOf cs) := by
  have hne : (nameOf cs).isEmpty = false := by simpa using h.ne
  rw [h.named, namedReference?_eq, hne, h.exact_, h.longest]
  rfl

/-- A reference stands for itself, or for no more characters than it has after its ampersand. -/
theorem reference?_cases {cs out : List Char} {n : Nat} (h : reference? cs = some (n, out)) :
    n ≤ cs.length ∧ (out.length ≤ n ∨ Unknown cs) := by
  unfold reference? at h
  split at h
  · next cs =>
    split at h
    · next hn =>
      cases h
      have := numericReference?_short hn
      rw [List.length_cons]
      omega
    · split at h
      · split at h
        · obtain ⟨⟨m, out'⟩, hn, he⟩ := Option.map_eq_some_iff.mp h
          cases he
          have := numericReference?_short hn
          rw [List.length_cons, List.length_cons]
          omega
        · cases h
      · cases h
  · next hash =>
    have hw := (wholeOf_isPrefix cs).length_le
    have hl := length_nameOf_le cs
    rw [namedReference?_eq] at h
    split at h
    · cases h
    · next hne =>
      have hne' : nameOf cs ≠ [] := by simpa using hne
      have hpos := List.length_pos_iff.mpr hne'
      split at h
      · next hc =>
        cases h
        refine ⟨hw, .inl ?_⟩
        have h2 := charsOfName?_short hc
        cases hcl : closedAfter cs with
        | true =>
          have : (wholeOf cs).length = (nameOf cs).length + 1 := by simp [wholeOf, hcl]
          omega
        | false =>
          rw [hcl] at hc
          have := charsOfName?_bare_long hc
          omega
      · next hc =>
        cases hlong : longestName? (wholeOf cs) ((wholeOf cs).length - 1) with
        | some found =>
          rw [hlong] at h
          cases h
          exact ⟨hw, .inl (longestName?_short (by omega) hlong)⟩
        | none =>
          rw [hlong] at h
          cases h
          refine ⟨hw, .inr ⟨hne', hc, hlong, ?_⟩⟩
          unfold reference?
          split
          · next cs' => exact absurd rfl (hash cs')
          · rfl

/-! ## Decoding -/

theorem decodeFrom_skip (n : Nat) (cs : List Char) : decodeFrom n cs = decodeFrom 0 (cs.drop n) := by
  induction n generalizing cs with
  | zero => rfl
  | succ n ih =>
    cases cs with
    | nil => rfl
    | cons c cs =>
      rw [decodeFrom, List.drop_succ_cons]
      exact ih cs

theorem decodeFrom_cons {c : Char} (h : c ≠ '&') (cs : List Char) :
    decodeFrom 0 (c :: cs) = (decodeFrom 0 cs).map (c :: ·) := by
  rw [decodeFrom, if_neg (by simpa using h)]

/-- Characters that are no ampersands stand for themselves. -/
theorem decodeFrom_append {xs : List Char} (h : '&' ∉ xs) (cs : List Char) :
    decodeFrom 0 (xs ++ cs) = (decodeFrom 0 cs).map (xs ++ ·) := by
  induction xs with
  | nil => simp
  | cons x xs ih =>
    rw [List.mem_cons, not_or] at h
    rw [List.cons_append, decodeFrom_cons (Ne.symm h.1), ih h.2, Option.map_map]
    rfl

theorem decodeFrom_amp (cs : List Char) :
    decodeFrom 0 ("&amp;".toList ++ cs) = (decodeFrom 0 cs).map ('&' :: ·) := rfl

theorem decodeFrom_quot (cs : List Char) :
    decodeFrom 0 ("&quot;".toList ++ cs) = (decodeFrom 0 cs).map ('"' :: ·) := rfl

/-- Decoding makes no text longer. -/
theorem decodeFrom_length {cs out : List Char} (h : decodeFrom 0 cs = some out) : out.length ≤ cs.length := by
  induction hn : cs.length using Nat.strongRecOn generalizing cs out with
  | _ n ih =>
    cases cs with
    | nil =>
      cases h
      exact Nat.zero_le _
    | cons c cs =>
      rw [List.length_cons] at hn
      rw [decodeFrom] at h
      split at h
      · split at h
        · cases h
        · split at h
          · next m out' hr =>
            obtain ⟨rest, hd, rfl⟩ := Option.map_eq_some_iff.mp h
            rw [decodeFrom_skip] at hd
            have hb := reference?_cases hr
            have hrest := ih (cs.drop m).length (by rw [List.length_drop]; omega) hd rfl
            rw [List.length_drop] at hrest
            rw [List.length_append]
            rcases hb.2 with hshort | hu
            · omega
            · have he := hu.reference
              rw [hr] at he
              cases he
              rw [List.length_cons]
              omega
          · obtain ⟨rest, hd, rfl⟩ := Option.map_eq_some_iff.mp h
            have := ih cs.length (by omega) hd rfl
            rw [List.length_cons]
            omega
      · obtain ⟨rest, hd, rfl⟩ := Option.map_eq_some_iff.mp h
        have := ih cs.length (by omega) hd rfl
        rw [List.length_cons]
        omega

/-- A text that is left as it is has no reference that stands for anything else after its first ampersand. -/
theorem clear_cons {cs : List Char} (h : decodeFrom 0 ('&' :: cs) = some ('&' :: cs)) :
    isTooLong cs = false ∧
      ((reference? cs = none ∧ decodeFrom 0 cs = some cs) ∨
        (Unknown cs ∧ decodeFrom 0 (cs.drop (wholeOf cs).length) = some (cs.drop (wholeOf cs).length))) := by
  rw [decodeFrom, if_pos (by decide)] at h
  split at h
  · cases h
  · next hl =>
    refine ⟨by simpa using hl, ?_⟩
    split at h
    · next m out hr =>
      obtain ⟨rest, hd, he⟩ := Option.map_eq_some_iff.mp h
      rw [decodeFrom_skip] at hd
      have hlen := decodeFrom_length hd
      rw [List.length_drop] at hlen
      obtain ⟨hm, hshort | hu⟩ := reference?_cases hr
      · have := congrArg List.length he
        rw [List.length_append, List.length_cons] at this
        omega
      · have hw := hu.reference
        rw [hr] at hw
        cases hw
        rw [List.cons_append, List.cons.injEq] at he
        rw [drop_of_append he.2] at hd
        exact .inr ⟨hu, by rw [drop_of_append he.2]; exact hd⟩
    · next hr =>
      obtain ⟨rest, hd, he⟩ := Option.map_eq_some_iff.mp h
      cases he
      exact .inl ⟨hr, hd⟩

/-! ## Quotes written as references -/

/-- How double quotes are written where no quotes fit around the value. -/
def quoteWritten : Char → List Char := substitute '"' "&quot;".toList

theorem quoteWritten_quote : quoteWritten '"' = '&' :: "quot;".toList := rfl

theorem quoteWritten_of_ne {c : Char} (h : c ≠ '"') : quoteWritten c = [c] := substitute_of_ne h _

theorem flatMap_quoteWritten {cs : List Char} (h : '"' ∉ cs) : cs.flatMap quoteWritten = cs :=
  flatMap_substitute_of_not_mem h _

/-- Neither a quote nor the ampersand that is written for it is taken, so the same characters are. -/
theorem takeWhile_quoteWritten {p : Char → Bool} (hq : p '"' = false) (ha : p '&' = false) (cs : List Char) :
    (cs.flatMap quoteWritten).takeWhile p = cs.takeWhile p := by
  induction cs with
  | nil => rfl
  | cons c cs ih =>
    rw [List.flatMap_cons]
    by_cases hc : c = '"'
    · subst hc
      rw [quoteWritten_quote, List.cons_append, List.takeWhile_cons_of_neg (by simp [ha]),
        List.takeWhile_cons_of_neg (by simp [hq])]
    · rw [quoteWritten_of_ne hc, List.singleton_append, List.takeWhile_cons, List.takeWhile_cons, ih]

theorem isTooLong_quoteWritten (cs : List Char) : isTooLong (cs.flatMap quoteWritten) = isTooLong cs := by
  cases cs with
  | nil => rfl
  | cons c cs =>
    rw [List.flatMap_cons]
    by_cases hc : c = '"'
    · subst hc
      rfl
    · rw [quoteWritten_of_ne hc, List.singleton_append]
      unfold isTooLong
      split
      · next h =>
        cases h
        rw [takeWhile_quoteWritten (by decide) (by decide)]
        rfl
      · next h =>
        split
        · next h' =>
          cases h'
          exact absurd rfl (h _)
        · rfl

theorem numericReference?_eq_none {base : Nat} {isDigit : Char → Bool} {cs : List Char} :
    numericReference? base isDigit cs = none ↔ cs.takeWhile isDigit = [] := by
  unfold numericReference?
  dsimp only
  split
  · next h => simpa using h
  · next h => simpa using h

theorem reference?_hash_none {cs : List Char} :
    reference? ('#' :: cs) = none ↔
      cs.takeWhile Char.isDigit = [] ∧
        ∀ x ds, cs = x :: ds → (x == 'x' || x == 'X') = true → ds.takeWhile isHex = [] := by
  unfold reference?
  split
  · next h =>
    cases h
    split
    · next hn =>
      constructor
      · intro h
        cases h
      · intro h
        rw [numericReference?_eq_none.mpr h.1] at hn
        cases hn
    · next hn =>
      constructor
      · intro h
        refine ⟨numericReference?_eq_none.mp hn, fun x ds he hx => ?_⟩
        subst he
        dsimp only at h
        rw [if_pos hx, Option.map_eq_none_iff] at h
        exact numericReference?_eq_none.mp h
      · intro h
        split
        · next hn' =>
          split
          · next hx => rw [Option.map_eq_none_iff, numericReference?_eq_none, h.2 _ _ rfl hx]
          · rfl
        · rfl
  · next h => exact absurd rfl (h cs)

theorem nameOf_eq_nil {c : Char} (h : isReferenceChar c = false) (cs : List Char) : nameOf (c :: cs) = [] := by
  rw [nameOf, List.takeWhile_cons_of_neg (by simp [h])]
  rfl

theorem reference?_of_nameOf_nil {cs : List Char} (hash : ∀ ds, cs ≠ '#' :: ds) (h : nameOf cs = []) :
    reference? cs = none := by
  unfold reference?
  split
  · next ds => exact absurd rfl (hash ds)
  · rw [namedReference?_eq, h]
    rfl

/-- What was no reference is none with quotes written as references. -/
theorem reference?_quoteWritten_none {cs : List Char} (h : reference? cs = none) :
    reference? (cs.flatMap quoteWritten) = none := by
  by_cases hash : ∃ ds, cs = '#' :: ds
  · obtain ⟨ds, rfl⟩ := hash
    rw [reference?_hash_none] at h
    rw [List.flatMap_cons, quoteWritten_of_ne (by decide), List.singleton_append, reference?_hash_none]
    refine ⟨?_, fun x es he hx => ?_⟩
    · rw [takeWhile_quoteWritten (by decide) (by decide), h.1]
    · cases ds with
      | nil => cases he
      | cons y ds =>
        rw [List.flatMap_cons] at he
        by_cases hy : y = '"'
        · subst hy
          cases he
          cases hx
        · rw [quoteWritten_of_ne hy, List.singleton_append, List.cons.injEq] at he
          obtain ⟨rfl, rfl⟩ := he
          rw [takeWhile_quoteWritten (by decide) (by decide), h.2 y ds rfl hx]
  · cases cs with
    | nil => rfl
    | cons c cs =>
      have hname : nameOf (c :: cs) = [] := by
        unfold reference? at h
        split at h
        · next he => exact absurd ⟨_, he⟩ hash
        rw [namedReference?_eq] at h
        split at h
        · next he => simpa using he
        · split at h <;> cases h
      have hc : isReferenceChar c = false := by
        cases hr : isReferenceChar c with
        | false => rfl
        | true =>
          rw [nameOf, List.takeWhile_cons_of_pos hr] at hname
          cases hname
      have hne : c ≠ '"' := by
        rintro rfl
        cases hc
      rw [List.flatMap_cons, quoteWritten_of_ne hne, List.singleton_append]
      refine reference?_of_nameOf_nil (fun ds he => ?_) (nameOf_eq_nil hc _)
      cases he
      exact hash ⟨cs, rfl⟩

/-- The name after an ampersand is all of it that can be a name. -/
theorem nameOf_append {name rest : List Char} (hr : ∀ c ∈ name, isReferenceChar c = true)
    (hrest : name.length = 32 ∨ (name.length ≤ 32 ∧ ∀ c ∈ rest.head?, isReferenceChar c = false)) :
    nameOf (name ++ rest) = name := by
  rw [nameOf, List.takeWhile_append_of_pos hr]
  rcases hrest with h | ⟨h, hend⟩
  · rw [← h, List.take_left]
  · have : rest.takeWhile isReferenceChar = [] := by
      cases rest with
      | nil => rfl
      | cons c rest => exact List.takeWhile_cons_of_neg (by simp [hend c rfl])
    rw [this, List.append_nil, List.take_of_length_le h]

theorem nameOf_rest {rest cs : List Char} (h : nameOf cs ++ rest = cs) :
    (nameOf cs).length = 32 ∨ ((nameOf cs).length ≤ 32 ∧ ∀ c ∈ rest.head?, isReferenceChar c = false) := by
  rcases Nat.lt_or_ge (nameOf cs).length 32 with hlt | hge
  · refine .inr ⟨by omega, fun c hc => ?_⟩
    have hall : nameOf cs = cs.takeWhile isReferenceChar := by
      rw [nameOf, List.length_take] at hlt
      rw [nameOf, List.take_of_length_le (by omega)]
    rw [hall] at h
    have hdrop : rest = cs.dropWhile isReferenceChar := by
      have := @List.takeWhile_append_dropWhile _ isReferenceChar cs
      rw [← h] at this
      rw [h] at this
      exact List.append_cancel_left (h.trans this.symm)
    have := List.head?_dropWhile_not isReferenceChar cs
    rw [← hdrop, hc] at this
    simpa using this
  · refine .inl ?_
    have : (nameOf cs).length ≤ 32 := by rw [nameOf, List.length_take]; omega
    omega

theorem reference?_of_mem_name {c : Char} {cs : List Char} (h : isReferenceChar c = true) :
    reference? (c :: cs) = namedReference? (c :: cs) := by
  unfold reference?
  split
  · next he =>
    cases he
    cases h
  · rfl

/-- An unknown name without quotes stays one, and what follows it is the same as before. -/
theorem Unknown.written {cs : List Char} (h : Unknown cs) (hq : '"' ∉ nameOf cs) :
    Unknown (cs.flatMap quoteWritten) ∧ wholeOf (cs.flatMap quoteWritten) = wholeOf cs := by
  obtain ⟨rest, hrest⟩ := nameOf_isPrefix cs
  have hmap : cs.flatMap quoteWritten = nameOf cs ++ rest.flatMap quoteWritten := by
    have := congrArg (List.flatMap quoteWritten) hrest
    rw [List.flatMap_append, flatMap_quoteWritten hq] at this
    exact this.symm
  have hend : ∀ p : Char → Bool, p '"' = p '&' →
      ((rest.flatMap quoteWritten).head?).any p = (rest.head?).any p := by
    intro p hp
    cases rest with
    | nil => rfl
    | cons c rest =>
      rw [List.flatMap_cons]
      by_cases hc : c = '"'
      · subst hc
        exact hp.symm
      · rw [quoteWritten_of_ne hc]
        rfl
  have hname : nameOf (cs.flatMap quoteWritten) = nameOf cs := by
    rw [hmap]
    refine nameOf_append (fun c hc => mem_nameOf hc) ?_
    rcases nameOf_rest hrest with h32 | ⟨hle, hstop⟩
    · exact .inl h32
    · refine .inr ⟨hle, fun c hc => ?_⟩
      cases rest with
      | nil => cases hc
      | cons d rest =>
        have hd := hstop d rfl
        have hne : d ≠ '"' := by
          rintro rfl
          cases hd
        rw [List.flatMap_cons, quoteWritten_of_ne hne] at hc
        cases hc
        exact hd
  have hclosed : closedAfter (cs.flatMap quoteWritten) = closedAfter cs := by
    rw [closedAfter, closedAfter, hname, drop_of_append hrest, drop_of_append hmap.symm]
    have := hend (· == ';') rfl
    cases hr : rest.head? <;> cases hf : (rest.flatMap quoteWritten).head? <;> simp_all
  have hwhole : wholeOf (cs.flatMap quoteWritten) = wholeOf cs := by
    rw [wholeOf, wholeOf, hname, hclosed]
  refine ⟨⟨by rw [hname]; exact h.ne, by rw [hname, hclosed]; exact h.exact_,
    by rw [hwhole]; exact h.longest, ?_⟩, hwhole⟩
  cases hn : nameOf cs with
  | nil => exact absurd hn h.ne
  | cons c name =>
    rw [hmap, hn]
    exact reference?_of_mem_name (@mem_nameOf c cs (by rw [hn]; exact List.mem_cons_self))

/-- A beginning of an unknown name that is followed by an ampersand is an unknown name, unless it is empty. -/
theorem Unknown.beginning {cs t r : List Char} (h : Unknown cs) (ht : nameOf cs = t ++ '"' :: r)
    (hne : t ≠ []) (rest : List Char) : Unknown (t ++ '&' :: rest) ∧ wholeOf (t ++ '&' :: rest) = t := by
  have hchar : ∀ c ∈ t, isReferenceChar c = true := fun c hc =>
    @mem_nameOf c cs (by rw [ht]; exact List.mem_append_left _ hc)
  have hlen : t.length < 32 := by
    have := congrArg List.length ht
    rw [nameOf, List.length_take, List.length_append, List.length_cons] at this
    omega
  have hname : nameOf (t ++ '&' :: rest) = t := by
    refine nameOf_append hchar (.inr ⟨by omega, fun c hc => ?_⟩)
    cases hc
    rfl
  have hclosed : closedAfter (t ++ '&' :: rest) = false := by
    rw [closedAfter, hname, List.drop_left]
    rfl
  have hwhole : wholeOf (t ++ '&' :: rest) = t := by rw [wholeOf, hclosed, hname]; rfl
  have hlong : t.length ≤ (wholeOf cs).length - 1 := by
    have := length_nameOf_le cs
    rw [ht, List.length_append, List.length_cons] at this
    omega
  have htake : ∀ x ≤ t.length, (wholeOf cs).take x = t.take x := by
    intro x hx
    have hp : t <+: wholeOf cs := by
      refine List.IsPrefix.trans ⟨'"' :: r, ht.symm⟩ ?_
      unfold wholeOf
      split
      · exact List.prefix_append _ _
      · exact List.prefix_rfl
    obtain ⟨more, hmore⟩ := hp
    rw [← hmore, List.take_append_of_le_length hx]
  have hnone : ∀ x, 2 ≤ x → x ≤ t.length → charsOfName? false (t.take x) = none := by
    intro x h2 hx
    rw [← htake x hx]
    exact longestName?_none h.longest h2 (by omega)
  refine ⟨⟨by rw [hname]; exact hne, ?_, ?_, ?_⟩, hwhole⟩
  · rw [hname, hclosed]
    cases hc : charsOfName? false t with
    | none => rfl
    | some out =>
      have := hnone t.length (charsOfName?_bare_long hc) (Nat.le_refl _)
      rw [List.take_length, hc] at this
      cases this
  · rw [hwhole]
    exact longestName?_of_none fun x h2 hx => hnone x h2 (by omega)
  · cases t with
    | nil => exact absurd rfl hne
    | cons c t => exact reference?_of_mem_name (hchar c List.mem_cons_self)

theorem decodeFrom_none {cs : List Char} (hl : isTooLong cs = false) (h : reference? cs = none) :
    decodeFrom 0 ('&' :: cs) = (decodeFrom 0 cs).map ('&' :: ·) := by
  rw [decodeFrom, if_pos (by decide), hl, h]
  rfl

theorem decodeFrom_unknown {cs : List Char} (hl : isTooLong cs = false) (h : Unknown cs) :
    decodeFrom 0 ('&' :: cs) =
      (decodeFrom 0 (cs.drop (wholeOf cs).length)).map ('&' :: wholeOf cs ++ ·) := by
  rw [decodeFrom, if_pos (by decide), hl, h.reference]
  dsimp only
  rw [decodeFrom_skip]
  rfl

theorem amp_not_mem_wholeOf (cs : List Char) : '&' ∉ wholeOf cs := by
  have hname : '&' ∉ nameOf cs := fun h => by cases mem_nameOf h
  unfold wholeOf
  split
  · simpa using hname
  · exact hname

/-- A name that has a quote in it ends at the quote now, and what stood after the quote is read for itself. -/
theorem decodeFrom_unknown_quoted {cs t r after : List Char} (hl : isTooLong cs = false) (h : Unknown cs)
    (ht : nameOf cs = t ++ '"' :: r) (hq : '"' ∉ t) (hcs : t ++ '"' :: after = cs)
    (hafter : decodeFrom 0 (after.flatMap quoteWritten) = some after) :
    decodeFrom 0 ('&' :: cs.flatMap quoteWritten) = some ('&' :: cs) := by
  have hmap : cs.flatMap quoteWritten = t ++ '&' :: ("quot;".toList ++ after.flatMap quoteWritten) := by
    rw [← hcs, List.flatMap_append, flatMap_quoteWritten hq, List.flatMap_cons]
    rfl
  have hrest : decodeFrom 0 ('&' :: ("quot;".toList ++ after.flatMap quoteWritten)) = some ('"' :: after) := by
    show decodeFrom 0 ("&quot;".toList ++ _) = _
    rw [decodeFrom_quot, hafter]
    rfl
  have hl' : isTooLong (cs.flatMap quoteWritten) = false := by rw [isTooLong_quoteWritten, hl]
  rw [hmap] at hl' ⊢
  by_cases hne : t = []
  · subst hne
    rw [List.nil_append] at hl' hcs ⊢
    have hnone : reference? ('&' :: ("quot;".toList ++ after.flatMap quoteWritten)) = none :=
      reference?_of_nameOf_nil (fun ds he => by cases he) (nameOf_eq_nil (by decide) _)
    rw [decodeFrom_none hl' hnone, hrest, ← hcs]
    rfl
  · obtain ⟨hu, hw⟩ := h.beginning ht hne ("quot;".toList ++ after.flatMap quoteWritten)
    rw [decodeFrom_unknown hl' hu, hw, List.drop_left, hrest, ← hcs]
    rfl

/-- A text without references is still read as it is when its quotes are written as references. -/
theorem decode_quoteWritten {cs : List Char} (h : decodeFrom 0 cs = some cs) :
    decodeFrom 0 (cs.flatMap quoteWritten) = some cs := by
  induction hn : cs.length using Nat.strongRecOn generalizing cs with
  | _ n ih =>
    cases cs with
    | nil => rfl
    | cons c cs =>
      rw [List.length_cons] at hn
      rw [List.flatMap_cons]
      by_cases hc : c = '&'
      · subst hc
        obtain ⟨hl, ⟨hr, hd⟩ | ⟨hu, hd⟩⟩ := clear_cons h
        · have := ih cs.length (by omega) hd rfl
          rw [quoteWritten_of_ne (by decide), List.singleton_append,
            decodeFrom_none (by rw [isTooLong_quoteWritten, hl]) (reference?_quoteWritten_none hr), this]
          rfl
        · rw [quoteWritten_of_ne (by decide), List.singleton_append]
          obtain ⟨rest, hrest⟩ := wholeOf_isPrefix cs
          have hlen := congrArg List.length hrest
          rw [List.length_append] at hlen
          rw [drop_of_append hrest] at hd
          by_cases hq : '"' ∈ nameOf cs
          · obtain ⟨t, r, ht, htq⟩ := List.eq_append_cons_of_mem hq
            obtain ⟨u, hw⟩ : ∃ u, wholeOf cs = t ++ '"' :: u := by
              unfold wholeOf
              rw [ht]
              split
              · exact ⟨r ++ [';'], by simp⟩
              · exact ⟨r, rfl⟩
            have hu' : '&' ∉ u := fun hm => amp_not_mem_wholeOf cs (by simp [hw, hm])
            have hafter : decodeFrom 0 (u ++ rest) = some (u ++ rest) := by
              rw [decodeFrom_append hu', hd]
              rfl
            have hcs : t ++ '"' :: (u ++ rest) = cs := by
              rw [← hrest, hw]
              simp
            have hlen' := congrArg List.length hcs
            rw [List.length_append, List.length_cons] at hlen'
            exact decodeFrom_unknown_quoted hl hu ht htq hcs (ih (u ++ rest).length (by omega) hafter rfl)
          · obtain ⟨hu', hw⟩ := hu.written hq
            have hdrop : (cs.flatMap quoteWritten).drop (wholeOf cs).length = rest.flatMap quoteWritten := by
              have hwq : '"' ∉ wholeOf cs := by
                unfold wholeOf
                split
                · simpa using hq
                · exact hq
              refine drop_of_append ?_
              have := congrArg (List.flatMap quoteWritten) hrest
              rw [List.flatMap_append, flatMap_quoteWritten hwq] at this
              exact this
            have := ih rest.length (by omega) hd rfl
            rw [decodeFrom_unknown (by rw [isTooLong_quoteWritten, hl]) hu', hw, hdrop, this]
            simpa using hrest
      · rw [decodeFrom_cons hc, Option.map_eq_some_iff] at h
        obtain ⟨cs', hd, he⟩ := h
        cases he
        have := ih cs.length (by omega) hd rfl
        by_cases hq : c = '"'
        · subst hq
          show decodeFrom 0 ("&quot;".toList ++ _) = _
          rw [decodeFrom_quot, this]
          rfl
        · rw [quoteWritten_of_ne hq, List.singleton_append, decodeFrom_cons hc, this]
          rfl

/-! ## Ampersands written as references -/

/-- How ampersands are written where something would be read as a reference. -/
def ampersandWritten : Char → List Char := substitute '&' "&amp;".toList

theorem decode_ampersandWritten (cs : List Char) : decodeFrom 0 (cs.flatMap ampersandWritten) = some cs := by
  induction cs with
  | nil => rfl
  | cons c cs ih =>
    rw [List.flatMap_cons]
    by_cases hc : c = '&'
    · subst hc
      rw [ampersandWritten, substitute_self, decodeFrom_amp, ← ampersandWritten, ih]
      rfl
    · rw [ampersandWritten, substitute_of_ne hc, List.singleton_append, decodeFrom_cons hc, ← ampersandWritten, ih]
      rfl

theorem decode_bothWritten (cs : List Char) :
    decodeFrom 0 ((cs.flatMap ampersandWritten).flatMap quoteWritten) = some cs := by
  induction cs with
  | nil => rfl
  | cons c cs ih =>
    rw [List.flatMap_cons, List.flatMap_append]
    by_cases hc : c = '&'
    · subst hc
      show decodeFrom 0 ("&amp;".toList ++ _) = _
      rw [decodeFrom_amp, ih]
      rfl
    · rw [ampersandWritten, substitute_of_ne hc, ← ampersandWritten, List.flatMap_singleton]
      by_cases hq : c = '"'
      · subst hq
        show decodeFrom 0 ("&quot;".toList ++ _) = _
        rw [decodeFrom_quot, ih]
        rfl
      · rw [quoteWritten_of_ne hq, List.singleton_append, decodeFrom_cons hc, ih]
        rfl

end JsxEdit.Text

namespace JsxEdit.Literal
open Text

theorem references_ok {raw value : String} : references raw = .ok value ↔ decodeFrom 0 raw.toList = some value.toList := by
  rw [references, decodeReferences?]
  cases decodeFrom 0 raw.toList with
  | none => simp
  | some cs =>
    rw [Option.map_some]
    constructor
    · intro h
      cases h
      rw [String.toList_ofList]
    · intro h
      rw [Option.some.injEq] at h
      rw [h, String.ofList_toList]

/-- The quotes are chosen around the text as it is, or its double quotes are written as references. -/
theorem quotedAttribute_cases (value quote : String) :
    (quotedAttribute value quote).1.toList = value.toList ∨
      (quotedAttribute value quote).1.toList = value.toList.flatMap quoteWritten := by
  unfold quotedAttribute
  split
  · dsimp only
    generalize (if quote == "\"" then "'" else "\"") = other
    split
    · refine .inr ?_
      show (replace value (.ofList ['"']) "&quot;").toList = _
      rw [replace_singleton, String.toList_ofList]
      rfl
    · exact .inl rfl
  · exact .inl rfl

/-- The attribute string for a value stands for the value. -/
theorem references_attributeText {value quote raw quote' : String}
    (h : attributeText value quote = .ok (raw, quote')) : references raw = .ok value := by
  unfold attributeText at h
  cases hv : references value with
  | error f =>
    rw [hv] at h
    cases h
  | ok read =>
    rw [hv] at h
    dsimp only [bind, Except.bind, pure, Except.pure] at h
    rw [Except.ok.injEq] at h
    have hraw := congrArg Prod.fst h
    dsimp only at hraw
    rw [references_ok, ← hraw]
    split
    · next hs =>
      obtain rfl : read = value := by simpa using hs
      rw [references_ok] at hv
      rcases quotedAttribute_cases read quote with hq | hq
      · rw [hq, hv]
      · rw [hq, decode_quoteWritten hv]
    · have hamp : (replace value "&" "&amp;").toList = value.toList.flatMap ampersandWritten := by
        show (replace value (.ofList ['&']) "&amp;").toList = _
        rw [replace_singleton, String.toList_ofList]
        rfl
      rcases quotedAttribute_cases (replace value "&" "&amp;") quote with hq | hq
      · rw [hq, hamp, decode_ampersandWritten]
      · rw [hq, hamp, decode_bothWritten]

/-- The attribute string for a value, if there is one, has the value as its text. -/
theorem stringValue_attributeString {value quote : String} {k : Kind} (h : attributeString value quote = .ok k) :
    k.stringValue = .ok (some value) := by
  unfold attributeString at h
  cases ht : attributeText value quote with
  | error f =>
    rw [ht] at h
    cases h
  | ok found =>
    rw [ht] at h
    cases h
    rw [Kind.stringValue, references_attributeText ht]
    rfl

end JsxEdit.Literal
