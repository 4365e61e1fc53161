import JsxEdit.Encoding

/-
Reading what was written, and writing what was read.

Every encoding reads back the text that it wrote. The other way round, a text that was read is written as the bytes it was
read from, with one exception: an encoding that writes a mark at the start writes it also if the bytes had none, or had
the mark of the other order.
-/
set_option autoImplicit false

namespace JsxEdit.Encoding

/-! ## Bytes and lists of bytes -/

theorem toList_loop (b : ByteArray) (i : Nat) (r : List UInt8) :
    ByteArray.toList.loop b i r = r.reverse ++ b.data.toList.drop i := by
  fun_induction ByteArray.toList.loop b i r with
  | case1 i r hlt ih =>
    have hlen : i < b.data.toList.length := hlt
    have hget : b.get! i = b.data.toList[i] := by
      rw [Array.getElem_toList]
      exact getElem!_pos b.data i hlt
    rw [ih, List.drop_eq_getElem_cons hlen, hget]
    simp
  | case2 i r hge =>
    rw [List.drop_eq_nil_of_le (Nat.le_of_not_lt hge), List.append_nil]

theorem toList_bytes (b : ByteArray) : b.toList = b.data.toList := by
  rw [ByteArray.toList, toList_loop]
  rfl

theorem toList_mk (bs : List UInt8) : (⟨bs.toArray⟩ : ByteArray).toList = bs := toList_bytes _

theorem mk_toList (b : ByteArray) : (⟨b.toList.toArray⟩ : ByteArray) = b := by rw [toList_bytes]

/-! ## Numbers in bytes -/

theorem numberBytes_two (order : ByteOrder) (n : Nat) : numberBytes order 2 n =
    match order with
    | .little => [UInt8.ofNat n, UInt8.ofNat (n / 256)]
    | .big => [UInt8.ofNat (n / 256), UInt8.ofNat n] := by
  cases order <;> simp [numberBytes, List.range, List.range.loop]

theorem numberBytes_four (order : ByteOrder) (n : Nat) : numberBytes order 4 n =
    match order with
    | .little => [UInt8.ofNat n, UInt8.ofNat (n / 256), UInt8.ofNat (n / 65536), UInt8.ofNat (n / 16777216)]
    | .big => [UInt8.ofNat (n / 16777216), UInt8.ofNat (n / 65536), UInt8.ofNat (n / 256), UInt8.ofNat n] := by
  cases order <;> simp [numberBytes, List.range, List.range.loop]

theorem number_two (order : ByteOrder) {n : Nat} (h : n < 65536) : number order (numberBytes order 2 n) = n := by
  rw [numberBytes_two]
  cases order <;> simp [number] <;> omega

theorem number_four (order : ByteOrder) {n : Nat} (h : n < 4294967296) :
    number order (numberBytes order 4 n) = n := by
  rw [numberBytes_four]
  cases order <;> simp [number] <;> omega

theorem numberBytes_pair (order : ByteOrder) (a b : UInt8) :
    numberBytes order 2 (number order [a, b]) = [a, b] ∧ number order [a, b] < 65536 := by
  have ha := a.toNat_lt
  have hb := b.toNat_lt
  rw [numberBytes_two]
  cases order <;> simp [number, ← UInt8.toNat_inj] <;> omega

theorem numberBytes_quad (order : ByteOrder) (a b c d : UInt8) :
    numberBytes order 4 (number order [a, b, c, d]) = [a, b, c, d] := by
  have ha := a.toNat_lt
  have hb := b.toNat_lt
  have hc := c.toNat_lt
  have hd := d.toNat_lt
  rw [numberBytes_four]
  cases order <;> simp [number, ← UInt8.toNat_inj] <;> omega

theorem pairs?_written (order : ByteOrder) {ns : List Nat} (h : ∀ n ∈ ns, n < 65536) :
    pairs? order (ns.flatMap (numberBytes order 2)) = some ns := by
  induction ns with
  | nil => rfl
  | cons n ns ih =>
    have hn := number_two order (h n List.mem_cons_self)
    rw [List.flatMap_cons]
    rw [numberBytes_two] at hn ⊢
    cases order <;> simp [pairs?, ih fun m hm => h m (List.mem_cons_of_mem _ hm), hn]

theorem written_pairs? (order : ByteOrder) {bs : List UInt8} {ns : List Nat} (h : pairs? order bs = some ns) :
    ns.flatMap (numberBytes order 2) = bs ∧ ∀ n ∈ ns, n < 65536 := by
  fun_induction pairs? order bs generalizing ns with
  | case1 =>
    cases h
    exact ⟨rfl, fun n hn => nomatch hn⟩
  | case2 a b rest ih =>
    obtain ⟨ms, hms, rfl⟩ := Option.map_eq_some_iff.mp h
    obtain ⟨hrest, hsmall⟩ := ih hms
    obtain ⟨hpair, hlt⟩ := numberBytes_pair order a b
    refine ⟨by rw [List.flatMap_cons, hpair, hrest]; rfl, ?_⟩
    intro n hn
    rcases List.mem_cons.mp hn with rfl | hn
    · exact hlt
    · exact hsmall n hn
  | case3 => cases h

theorem quads?_written (order : ByteOrder) {ns : List Nat} (h : ∀ n ∈ ns, n < 4294967296) :
    quads? order (ns.flatMap (numberBytes order 4)) = some ns := by
  induction ns with
  | nil => rfl
  | cons n ns ih =>
    have hn := number_four order (h n List.mem_cons_self)
    rw [List.flatMap_cons]
    rw [numberBytes_four] at hn ⊢
    cases order <;> simp [quads?, ih fun m hm => h m (List.mem_cons_of_mem _ hm), hn]

theorem written_quads? (order : ByteOrder) {bs : List UInt8} {ns : List Nat} (h : quads? order bs = some ns) :
    ns.flatMap (numberBytes order 4) = bs := by
  fun_induction quads? order bs generalizing ns with
  | case1 =>
    cases h
    rfl
  | case2 a b c d rest ih =>
    obtain ⟨ms, hms, rfl⟩ := Option.map_eq_some_iff.mp h
    rw [List.flatMap_cons, numberBytes_quad, ih hms]
    rfl
  | case3 => cases h

/-! ## Characters in units -/

theorem isHighUnit_iff {n : Nat} : isHighUnit n = true ↔ 0xD800 ≤ n ∧ n < 0xDC00 := by
  rw [isHighUnit, Bool.and_eq_true, decide_eq_true_iff, decide_eq_true_iff]

theorem isLowUnit_iff {n : Nat} : isLowUnit n = true ↔ 0xDC00 ≤ n ∧ n < 0xE000 := by
  rw [isLowUnit, Bool.and_eq_true, decide_eq_true_iff, decide_eq_true_iff]

theorem toNat_ofNat {n : Nat} (h : n < 0xD800 ∨ 0xDFFF < n ∧ n < 0x110000) : (Char.ofNat n).toNat = n := by
  have hvalid : n.isValidChar := h
  rw [Char.ofNat, dif_pos hvalid]
  rfl

/-- A character is one unit that is no half of a pair, or the two halves of a pair. -/
theorem unitsOfChar_cases (c : Char) :
    (unitsOfChar c = [c.toNat] ∧ isHighUnit c.toNat = false ∧ isLowUnit c.toNat = false ∧ c.toNat < 65536) ∨
      ∃ high low, unitsOfChar c = [high, low] ∧ isHighUnit high = true ∧ isLowUnit low = true ∧
        0x10000 + (high - 0xD800) * 0x400 + (low - 0xDC00) = c.toNat := by
  have hvalid : c.toNat < 0xD800 ∨ 0xDFFF < c.toNat ∧ c.toNat < 0x110000 := c.valid
  rw [← Bool.not_eq_true, ← Bool.not_eq_true, isHighUnit_iff, isLowUnit_iff]
  by_cases h : c.toNat < 0x10000
  · exact .inl ⟨by simp [unitsOfChar, h], by omega, by omega, h⟩
  · refine .inr ⟨0xD800 + (c.toNat - 0x10000) / 0x400, 0xDC00 + (c.toNat - 0x10000) % 0x400,
      by simp [unitsOfChar, h], ?_, ?_, by omega⟩
    · rw [isHighUnit_iff]
      omega
    · rw [isLowUnit_iff]
      omega

theorem unitsOfChar_lt {cs : List Char} : ∀ n ∈ cs.flatMap unitsOfChar, n < 65536 := by
  intro n hn
  obtain ⟨c, -, hn⟩ := List.mem_flatMap.mp hn
  rcases unitsOfChar_cases c with ⟨heq, -, -, hlt⟩ | ⟨high, low, heq, hhigh, hlow, -⟩
  · rw [heq, List.mem_singleton] at hn
    rwa [hn]
  · rw [isHighUnit_iff] at hhigh
    rw [isLowUnit_iff] at hlow
    rw [heq, List.mem_cons, List.mem_singleton] at hn
    omega

theorem charsOfUnits?_written (cs : List Char) : charsOfUnits? (cs.flatMap unitsOfChar) = some cs := by
  induction cs with
  | nil => rfl
  | cons c cs ih =>
    rw [List.flatMap_cons]
    rcases unitsOfChar_cases c with ⟨heq, hhigh, hlow, -⟩ | ⟨high, low, heq, hhigh, hlow, hsum⟩
    · rw [heq, List.singleton_append]
      cases hrest : cs.flatMap unitsOfChar with
      | nil =>
        rw [hrest] at ih
        obtain rfl : [] = cs := Option.some.inj ih
        simp [charsOfUnits?, hhigh, hlow]
      | cons m ms =>
        rw [hrest] at ih
        simp [charsOfUnits?, hhigh, hlow, ih]
    · rw [heq]
      simp [charsOfUnits?, hhigh, hlow, hsum, ih]

/-- One unit that is no half of a pair is written again. -/
theorem unitsOfChar_single {n : Nat} (hlt : n < 65536) (hhigh : isHighUnit n = false) (hlow : isLowUnit n = false) :
    unitsOfChar (Char.ofNat n) = [n] := by
  rw [← Bool.not_eq_true, isHighUnit_iff] at hhigh
  rw [← Bool.not_eq_true, isLowUnit_iff] at hlow
  have hn : (Char.ofNat n).toNat = n := toNat_ofNat (by omega)
  rw [unitsOfChar, hn, if_pos hlt]

/-- The two halves of a pair are written again. -/
theorem unitsOfChar_pair {n m : Nat} (hhigh : isHighUnit n = true) (hlow : isLowUnit m = true) :
    unitsOfChar (Char.ofNat (0x10000 + (n - 0xD800) * 0x400 + (m - 0xDC00))) = [n, m] := by
  rw [isHighUnit_iff] at hhigh
  rw [isLowUnit_iff] at hlow
  have hn : (Char.ofNat (0x10000 + (n - 0xD800) * 0x400 + (m - 0xDC00))).toNat =
      0x10000 + (n - 0xD800) * 0x400 + (m - 0xDC00) := toNat_ofNat (by omega)
  have hfirst : 0xD800 + (0x10000 + (n - 0xD800) * 0x400 + (m - 0xDC00) - 0x10000) / 0x400 = n := by omega
  have hsecond : 0xDC00 + (0x10000 + (n - 0xD800) * 0x400 + (m - 0xDC00) - 0x10000) % 0x400 = m := by omega
  rw [unitsOfChar, hn, if_neg (by omega), hfirst, hsecond]

theorem written_charsOfUnits? {ns : List Nat} {cs : List Char} (hlt : ∀ n ∈ ns, n < 65536)
    (h : charsOfUnits? ns = some cs) : cs.flatMap unitsOfChar = ns := by
  fun_induction charsOfUnits? ns generalizing cs with
  | case1 =>
    cases h
    rfl
  | case2 => cases h
  | case3 n hn =>
    obtain rfl := Option.some.inj h
    rw [Bool.or_eq_true, not_or, Bool.not_eq_true, Bool.not_eq_true] at hn
    rw [List.flatMap_singleton, unitsOfChar_single (hlt n List.mem_cons_self) hn.1 hn.2]
  | case4 n m rest hhigh hlow ih =>
    obtain ⟨ds, hds, rfl⟩ := Option.map_eq_some_iff.mp h
    have hrest := ih (fun k hk => hlt k (List.mem_cons_of_mem _ (List.mem_cons_of_mem _ hk))) hds
    rw [List.flatMap_cons, unitsOfChar_pair hhigh hlow, hrest]
    rfl
  | case5 => cases h
  | case6 => cases h
  | case7 n m rest hhigh hlow ih =>
    obtain ⟨ds, hds, rfl⟩ := Option.map_eq_some_iff.mp h
    have hrest := ih (fun k hk => hlt k (List.mem_cons_of_mem _ hk)) hds
    rw [List.flatMap_cons, hrest, unitsOfChar_single (hlt n List.mem_cons_self) (Bool.not_eq_true _ ▸ hhigh)
      (Bool.not_eq_true _ ▸ hlow)]
    rfl

/-! ## Encodings without a mark -/

/-- A way to read bytes and one to write them that are each other's inverse. -/
structure Inverse (read : List UInt8 → Option String) (write : String → Option (List UInt8)) : Prop where
  read_written {s : String} {bs : List UInt8} : write s = some bs → read bs = some s
  write_read {s : String} {bs : List UInt8} : read bs = some s → write s = some bs

theorem inverse_utf8 : Inverse (decodePlain? .utf8) fun s => some s.toUTF8.toList where
  read_written {s bs} h := by
    obtain rfl := Option.some.inj h
    rw [decodePlain?, mk_toList, String.fromUTF8?, String.toUTF8_eq_toByteArray, dif_pos s.isValidUTF8]
    rfl
  write_read {s bs} h := by
    rw [decodePlain?, String.fromUTF8?] at h
    split at h
    · obtain rfl := Option.some.inj h
      exact congrArg some (toList_mk bs)
    · cases h

theorem inverse_utf16 (order : ByteOrder) : Inverse (decodePlain? (.utf16 order)) fun s =>
    some ((s.toList.flatMap unitsOfChar).flatMap (numberBytes order 2)) where
  read_written {s bs} h := by
    obtain rfl := Option.some.inj h
    rw [decodePlain?, pairs?_written order unitsOfChar_lt, Option.bind_some, charsOfUnits?_written, Option.map_some,
      String.ofList_toList]
  write_read {s bs} h := by
    rw [decodePlain?] at h
    obtain ⟨cs, hcs, rfl⟩ := Option.map_eq_some_iff.mp h
    obtain ⟨ns, hns, hcs⟩ := Option.bind_eq_some_iff.mp hcs
    obtain ⟨hbytes, hlt⟩ := written_pairs? order hns
    rw [String.toList_ofList, written_charsOfUnits? hlt hcs, hbytes]

/-- What is read piece by piece is written piece by piece, if each piece is. -/
theorem mapM_inverse {α β : Type} {f : α → Option β} {g : β → Option α} (h : ∀ a b, f a = some b → g b = some a)
    {as : List α} {bs : List β} (hmap : as.mapM f = some bs) : bs.mapM g = some as := by
  induction as generalizing bs with
  | nil =>
    obtain rfl : [] = bs := Option.some.inj hmap
    rfl
  | cons a as ih =>
    rw [List.mapM_cons] at hmap
    obtain ⟨b, hb, hmap⟩ := Option.bind_eq_some_iff.mp hmap
    obtain ⟨rest, hrest, hmap⟩ := Option.bind_eq_some_iff.mp hmap
    obtain rfl := Option.some.inj hmap
    rw [List.mapM_cons, h a b hb, ih hrest]
    rfl

theorem charOfNumber?_toNat (c : Char) : charOfNumber? c.toNat = some c := by
  have hvalid : c.toNat.isValidChar := c.valid
  rw [charOfNumber?, if_pos hvalid, Char.ofNat_toNat]

theorem toNat_charOfNumber? {n : Nat} {c : Char} (h : charOfNumber? n = some c) : c.toNat = n := by
  rw [charOfNumber?] at h
  split at h
  · next hvalid =>
    obtain rfl := Option.some.inj h
    exact toNat_ofNat hvalid
  · cases h

theorem inverse_utf32 (order : ByteOrder) : Inverse (decodePlain? (.utf32 order)) fun s =>
    some (s.toList.flatMap fun c => numberBytes order 4 c.toNat) where
  read_written {s bs} h := by
    obtain rfl := Option.some.inj h
    have hsmall : ∀ n ∈ s.toList.map Char.toNat, n < 4294967296 := by
      intro n hn
      obtain ⟨c, -, rfl⟩ := List.mem_map.mp hn
      exact c.val.toNat_lt
    have hnumbers : s.toList.mapM (fun c => some c.toNat) = some (s.toList.map Char.toNat) := List.mapM_pure
    have hchars := mapM_inverse (g := charOfNumber?) (fun c n hc => Option.some.inj hc ▸ charOfNumber?_toNat c) hnumbers
    rw [decodePlain?, ← List.flatMap_map, quads?_written order hsmall, Option.bind_some, hchars, Option.map_some,
      String.ofList_toList]
  write_read {s bs} h := by
    rw [decodePlain?] at h
    obtain ⟨cs, hcs, rfl⟩ := Option.map_eq_some_iff.mp h
    obtain ⟨ns, hns, hcs⟩ := Option.bind_eq_some_iff.mp hcs
    have hback : cs.mapM (fun c => some c.toNat) = some ns :=
      mapM_inverse (fun n c hc => congrArg some (toNat_charOfNumber? hc)) hcs
    have hnumbers : cs.mapM (fun c => some c.toNat) = some (cs.map Char.toNat) := List.mapM_pure
    obtain rfl : ns = cs.map Char.toNat := Option.some.inj (hback.symm.trans hnumbers)
    rw [String.toList_ofList, ← List.flatMap_map, written_quads? order hns]

theorem toNat_byte {c : Char} (h : c.toNat < 256) : (UInt8.ofNat c.toNat).toNat = c.toNat := by
  rw [UInt8.toNat_ofNat']
  omega

theorem inverse_below {limit : Nat} (hlimit : limit ≤ 256) : Inverse (decodeBelow? limit) (encodeBelow? limit) where
  read_written {s bs} h := by
    rw [encodeBelow?] at h
    split at h
    · next hs =>
      obtain rfl := Option.some.inj h
      have hlt : ∀ c ∈ s.toList, c.toNat < limit := fun c hc => of_decide_eq_true (List.all_eq_true.mp hs c hc)
      have hbyte : ∀ c ∈ s.toList, (UInt8.ofNat c.toNat).toNat = c.toNat := fun c hc =>
        toNat_byte (Nat.lt_of_lt_of_le (hlt c hc) hlimit)
      have hall : (s.toList.map fun c => UInt8.ofNat c.toNat).all (·.toNat < limit) = true := by
        rw [List.all_map, List.all_eq_true]
        intro c hc
        exact decide_eq_true ((hbyte c hc).symm ▸ hlt c hc)
      have hchars : s.toList.map (fun c => Char.ofNat (UInt8.ofNat c.toNat).toNat) = s.toList := by
        rw [List.map_congr_left fun c hc => (congrArg Char.ofNat (hbyte c hc)).trans (Char.ofNat_toNat c), List.map_id']
      rw [decodeBelow?, if_pos hall, List.map_map]
      exact congrArg some ((congrArg String.ofList hchars).trans String.ofList_toList)
    · cases h
  write_read {s bs} h := by
    rw [decodeBelow?] at h
    split at h
    · next hbs =>
      obtain rfl := Option.some.inj h
      have hchar : ∀ b ∈ bs, (Char.ofNat b.toNat).toNat = b.toNat := fun b _ => toNat_ofNat (by have := b.toNat_lt; omega)
      have hall : (bs.map fun b => Char.ofNat b.toNat).all (·.toNat < limit) = true := by
        rw [List.all_map, List.all_eq_true]
        intro b hb
        exact decide_eq_true ((hchar b hb).symm ▸ of_decide_eq_true (List.all_eq_true.mp hbs b hb))
      have hbytes : bs.map (fun b => UInt8.ofNat (Char.ofNat b.toNat).toNat) = bs := by
        rw [List.map_congr_left fun b hb => (congrArg UInt8.ofNat (hchar b hb)).trans UInt8.ofNat_toNat, List.map_id']
      rw [encodeBelow?, String.toList_ofList, if_pos hall, List.map_map]
      exact congrArg some hbytes
    · cases h

/-! ### Windows -/

/-- The bytes 0x80 to 0x9F that stand for a character stand for one beyond all others. -/
theorem legacyCodes_cases : ∀ i < 32, Text.legacyCodes.getD i (0x80 + i) = 0x80 + i ∨
    256 ≤ Text.legacyCodes.getD i (0x80 + i) ∧ Text.legacyCodes.getD i (0x80 + i) < 0xD800 := by
  decide

theorem legacyCodes_distinct : ∀ i < 32, ∀ j < 32,
    Text.legacyCodes.getD i (0x80 + i) = Text.legacyCodes.getD j (0x80 + j) → i = j := by
  decide

/-- A byte stands for a character of its own number, or for a legacy one. -/
theorem windowsChar?_cases {n : Nat} {c : Char} (hn : n < 256) (h : windowsChar? n = some c) :
    (c.toNat = n ∧ ¬ (0x80 ≤ n ∧ n ≤ 0x9F)) ∨
      ∃ i < 32, n = 0x80 + i ∧ c.toNat = Text.legacyCodes.getD i (0x80 + i) ∧ 256 ≤ c.toNat := by
  rw [windowsChar?] at h
  split at h
  · next hrange =>
    rw [Bool.and_eq_true, decide_eq_true_iff, decide_eq_true_iff] at hrange
    obtain ⟨i, rfl⟩ := Nat.exists_eq_add_of_le hrange.1
    have hi : i < 32 := by omega
    rw [Nat.add_sub_cancel_left] at h
    dsimp only at h
    split at h
    · cases h
    · next hne =>
      obtain rfl := Option.some.inj h
      obtain ⟨hlarge, hsmall⟩ := (legacyCodes_cases i hi).resolve_left fun he => hne (beq_iff_eq.mpr he)
      have hcode := toNat_ofNat (.inl hsmall)
      exact .inr ⟨i, hi, rfl, hcode, hcode.symm ▸ hlarge⟩
  · next hrange =>
    rw [Bool.and_eq_true, decide_eq_true_iff, decide_eq_true_iff] at hrange
    obtain rfl := Option.some.inj h
    exact .inl ⟨toNat_ofNat (by omega), hrange⟩

theorem windowsChar?_injective {n m : Nat} {c : Char} (hn : n < 256) (hm : m < 256) (h : windowsChar? n = some c)
    (h' : windowsChar? m = some c) : n = m := by
  rcases windowsChar?_cases hn h with ⟨hc, -⟩ | ⟨i, hi, rfl, hc, hlarge⟩ <;>
    rcases windowsChar?_cases hm h' with ⟨hc', -⟩ | ⟨j, hj, rfl, hc', hlarge'⟩
  · exact hc.symm.trans hc'
  · omega
  · omega
  · rw [legacyCodes_distinct i hi j hj (hc.symm.trans hc')]

theorem windowsByte?_windowsChar? {n : Nat} {c : Char} (hn : n < 256) (h : windowsChar? n = some c) :
    windowsByte? c = some (UInt8.ofNat n) := by
  have hsome : ((List.range 256).find? fun m => windowsChar? m == some c).isSome = true := by
    rw [List.find?_isSome]
    exact ⟨n, List.mem_range.mpr hn, beq_iff_eq.mpr h⟩
  obtain ⟨m, hm⟩ := Option.isSome_iff_exists.mp hsome
  have hmem := List.mem_range.mp (List.mem_of_find?_eq_some hm)
  have hchar := beq_iff_eq.mp (List.find?_some (p := fun m => windowsChar? m == some c) hm)
  rw [windowsByte?, hm, windowsChar?_injective hmem hn hchar h]
  rfl

theorem windowsChar?_windowsByte? {c : Char} {b : UInt8} (h : windowsByte? c = some b) :
    windowsChar? b.toNat = some c := by
  obtain ⟨n, hn, rfl⟩ := Option.map_eq_some_iff.mp h
  have hlt := List.mem_range.mp (List.mem_of_find?_eq_some hn)
  have hchar := beq_iff_eq.mp (List.find?_some (p := fun m => windowsChar? m == some c) hn)
  rw [UInt8.toNat_ofNat', Nat.mod_eq_of_lt hlt, hchar]

theorem inverse_windows : Inverse (decodePlain? .windows1252) fun s => s.toList.mapM windowsByte? where
  read_written {s bs} h := by
    have hchars : bs.mapM (fun b => windowsChar? b.toNat) = some s.toList :=
      mapM_inverse (fun c b hb => windowsChar?_windowsByte? hb) h
    rw [decodePlain?, hchars, Option.map_some, String.ofList_toList]
  write_read {s bs} h := by
    obtain ⟨cs, hcs, rfl⟩ := Option.map_eq_some_iff.mp h
    rw [String.toList_ofList]
    refine mapM_inverse (fun b c hc => ?_) hcs
    rw [windowsByte?_windowsChar? b.toNat_lt hc, UInt8.ofNat_toNat]

/-! ## All encodings -/

/-- The mark that writing starts with. -/
def mark : Encoding → List UInt8
  | .markedUtf8 => utf8Mark
  | .markedUtf16 => mark16 .little
  | .markedUtf32 => mark32 .little
  | _ => []

/-- The encoding of what follows the mark. -/
def unmarked : Encoding → Encoding
  | .markedUtf8 => .utf8
  | .markedUtf16 => .utf16 .little
  | .markedUtf32 => .utf32 .little
  | e => e

/-- The bytes of the text after the mark. -/
def body? : Encoding → String → Option (List UInt8)
  | .utf8, s | .markedUtf8, s => some s.toUTF8.toList
  | .utf16 order, s => some ((s.toList.flatMap unitsOfChar).flatMap (numberBytes order 2))
  | .markedUtf16, s => some ((s.toList.flatMap unitsOfChar).flatMap (numberBytes .little 2))
  | .utf32 order, s => some (s.toList.flatMap fun c => numberBytes order 4 c.toNat)
  | .markedUtf32, s => some (s.toList.flatMap fun c => numberBytes .little 4 c.toNat)
  | .latin1, s => encodeBelow? 256 s
  | .windows1252, s => s.toList.mapM windowsByte?
  | .ascii, s => encodeBelow? 128 s

theorem encode?_eq (e : Encoding) (s : String) :
    e.encode? s = (e.body? s).map fun bs => ⟨(e.mark ++ bs).toArray⟩ := by
  cases e <;> rfl

theorem inverse_body (e : Encoding) : Inverse e.unmarked.decodePlain? e.body? := by
  cases e with
  | utf8 | markedUtf8 => exact inverse_utf8
  | utf16 order => exact inverse_utf16 order
  | markedUtf16 => exact inverse_utf16 .little
  | utf32 order => exact inverse_utf32 order
  | markedUtf32 => exact inverse_utf32 .little
  | latin1 => exact inverse_below (Nat.le_refl 256)
  | windows1252 => exact inverse_windows
  | ascii => exact inverse_below (by decide)

/-- Bytes with the mark that writing starts with are read from behind it. -/
theorem decode_of_mark {e : Encoding} {b : ByteArray} (h : e.mark <+: b.toList) :
    e.decode b = e.unmarked.decodeExact (b.toList.drop e.mark.length) := by
  have hprefix := List.isPrefixOf_iff_prefix.mpr h
  cases e with
  | markedUtf8 => exact congrArg (decodeExact .utf8) (if_pos hprefix)
  | markedUtf16 => exact if_pos hprefix
  | markedUtf32 => exact if_pos hprefix
  | _ => rfl

theorem decodeExact_eq_ok {e : Encoding} {bs : List UInt8} {s : String} :
    e.decodeExact bs = .ok s ↔ e.decodePlain? bs = some s := by
  rw [decodeExact]
  cases e.decodePlain? bs <;> simp

/-- What was written is read again. -/
theorem decode_encode? {e : Encoding} {s : String} {b : ByteArray} (h : e.encode? s = some b) : e.decode b = .ok s := by
  rw [encode?_eq] at h
  obtain ⟨bs, hbs, rfl⟩ := Option.map_eq_some_iff.mp h
  have hlist := toList_mk (e.mark ++ bs)
  rw [decode_of_mark (hlist.symm ▸ List.prefix_append _ _), hlist, List.drop_left, decodeExact_eq_ok]
  exact (inverse_body e).read_written hbs

/-- Whether the encoding has the character. -/
def has (e : Encoding) (c : Char) : Bool :=
  match e with
  | .latin1 => c.toNat < 256
  | .windows1252 => (windowsByte? c).isSome
  | .ascii => c.toNat < 128
  | _ => true

theorem isSome_mapM {α β : Type} (f : α → Option β) (as : List α) :
    (as.mapM f).isSome = as.all fun a => (f a).isSome := by
  induction as with
  | nil => rfl
  | cons a as ih =>
    rw [List.mapM_cons, List.all_cons, ← ih]
    cases f a with
    | none => rfl
    | some b => cases as.mapM f <;> rfl

theorem isSome_encodeBelow? (limit : Nat) (s : String) :
    (encodeBelow? limit s).isSome = s.toList.all (·.toNat < limit) := by
  rw [encodeBelow?]
  split
  · next h => exact h.symm
  · next h => exact (Bool.not_eq_true _ ▸ h).symm

/-- A text can be written if the encoding has its characters. -/
theorem isSome_encode? (e : Encoding) (s : String) : (e.encode? s).isSome = s.toList.all e.has := by
  rw [encode?_eq, Option.isSome_map]
  cases e with
  | latin1 => exact isSome_encodeBelow? 256 s
  | ascii => exact isSome_encodeBelow? 128 s
  | windows1252 => exact isSome_mapM windowsByte? s.toList
  | _ => exact (List.all_eq_true.mpr fun _ _ => rfl).symm

theorem has_newline (e : Encoding) : e.has '\n' = true := by
  cases e with
  | windows1252 => decide
  | _ => rfl

theorem isSome_body? {e : Encoding} {bs : List UInt8} {s : String} (h : e.unmarked.decodeExact bs = .ok s) :
    (e.body? s).isSome = true := by
  rw [(inverse_body e).write_read (decodeExact_eq_ok.mp h), Option.isSome_some]

/-- A text that was read can be written. -/
theorem has_of_decode {e : Encoding} {b : ByteArray} {s : String} (h : e.decode b = .ok s) :
    ∀ c ∈ s.toList, e.has c = true := by
  have hbody : (e.body? s).isSome = true := by
    cases e with
    | latin1 => exact isSome_body? (e := .latin1) h
    | windows1252 => exact isSome_body? (e := .windows1252) h
    | ascii => exact isSome_body? (e := .ascii) h
    | _ => rfl
  rw [← List.all_eq_true, ← isSome_encode?, encode?_eq, Option.isSome_map, hbody]

/-- What was read is written as the same bytes if they have the mark, and as others if they lack it. -/
theorem encode?_decode {e : Encoding} {b : ByteArray} {s : String} (h : e.decode b = .ok s) :
    e.encode? s = some b ↔ e.mark <+: b.toList := by
  rw [encode?_eq, Option.map_eq_some_iff]
  constructor
  · rintro ⟨bs, -, rfl⟩
    rw [toList_mk]
    exact List.prefix_append _ _
  · intro hmark
    rw [decode_of_mark hmark, decodeExact_eq_ok] at h
    refine ⟨_, (inverse_body e).write_read h, ?_⟩
    rw [List.prefix_iff_eq_append.mp hmark, mk_toList]

end JsxEdit.Encoding
