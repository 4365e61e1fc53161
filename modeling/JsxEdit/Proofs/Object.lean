import JsxEdit.Proofs.Reading

/-
Object literals are written as they were read, as far as `keepsObject` says.

Between two properties only the comma is written, so white space before it is lost. All other white space is kept: with
the property it stands before, around its colon, or before the closing brace.
-/
set_option autoImplicit false

namespace JsxEdit

theorem Text.trim_of_isBlank {s : String} (h : Text.isBlank s = true) : Text.trim s = "" := by
  have hstart : s.toList.dropWhile Text.isSpace = [] := by
    rw [← List.append_nil s.toList, List.dropWhile_append_of_pos (List.all_eq_true.mp h), List.dropWhile_nil]
  rw [Text.trim, Text.trimStart, hstart]
  rfl

theorem Text.length_pos_of_isEmpty {s : String} (h : s.isEmpty = false) : 0 < s.length := by
  refine Nat.pos_of_ne_zero fun hzero => ?_
  rw [String.length_eq_zero_iff.mp hzero] at h
  cases h

/-- Leaving out something of what would be written. -/
theorem Agrees.leave_out {w full s : String} {b e : Bool} (h : Agrees full s b) (hkeep : e = true → w = full)
    (hlose : e = false → w.length < full.length) : Agrees w s (b && e) := by
  cases e with
  | true =>
    rw [hkeep rfl, Bool.and_true]
    exact h
  | false =>
    rw [Bool.and_false]
    exact .of_lt (Nat.lt_of_lt_of_le (hlose rfl) h.le)

theorem Agrees.leave_out_trail {w s trail : String} {b : Bool} (h : Agrees (w ++ trail) s b) :
    Agrees w s (b && trail.isEmpty) := by
  refine h.leave_out (fun he => ?_) (fun he => ?_)
  · rw [String.isEmpty_iff.mp he, String.append_empty]
  · rw [String.length_append]
    exact Nat.lt_add_of_pos_right (Text.length_pos_of_isEmpty he)

theorem Leaf.blank_of_mem {leaves : List Leaf} {l : Leaf} (h : Text.isBlank (Leaf.allWritten leaves) = true)
    (hl : l ∈ leaves) : Text.isBlank l.written = true := by
  induction leaves with
  | nil => cases hl
  | cons l' leaves ih =>
    rw [Leaf.allWritten, Text.isBlank, String.toList_append, List.all_append, Bool.and_eq_true] at h
    rcases List.mem_cons.mp hl with rfl | hl
    · exact h.1
    · exact ih h.2 hl

namespace Judged

theorem allTokens_sublist {xs ys : List Judged} (h : Leaf.AllTokens (Part.allLeaves (parts ys)))
    (hsub : xs.Sublist ys) : Leaf.AllTokens (Part.allLeaves (parts xs)) :=
  fun l hl => by
    obtain ⟨p, hp, hl⟩ := List.mem_flatMap.mp hl
    exact h l (List.mem_flatMap.mpr ⟨p, (hsub.map _).mem hp, hl⟩)

/-! ## Commas -/

theorem splitOn_ne_nil (p : Part → Bool) (xs : List Judged) : splitOn p xs ≠ [] := by
  cases xs with
  | nil => exact List.cons_ne_nil _ _
  | cons x xs =>
    unfold splitOn
    split
    · exact List.cons_ne_nil _ _
    · split <;> exact List.cons_ne_nil _ _

theorem splitOn_parts (p : Part → Bool) (xs : List Judged) : Part.splitOn p (parts xs) = (splitOn p xs).map parts := by
  induction xs with
  | nil => rfl
  | cons x xs ih =>
    rw [parts, List.map_cons, Part.splitOn, splitOn, ← parts, ih]
    split
    · rfl
    · cases splitOn p xs <;> rfl

/-- The parts between two commas are parts of the whole. -/
theorem sublist_of_mem_splitOn {p : Part → Bool} {xs item : List Judged} (h : item ∈ splitOn p xs) :
    item.Sublist xs := by
  induction xs generalizing item with
  | nil =>
    obtain rfl := List.mem_singleton.mp h
    exact .slnil
  | cons x xs ih =>
    rw [splitOn] at h
    split at h
    · rcases List.mem_cons.mp h with rfl | h
      · exact List.nil_sublist _
      · exact (ih h).cons x
    · cases hsplit : splitOn p xs with
      | nil => exact absurd hsplit (splitOn_ne_nil p xs)
      | cons first rest =>
        rw [hsplit] at h
        rcases List.mem_cons.mp h with rfl | h
        · exact (ih (hsplit ▸ List.mem_cons_self)).cons_cons x
        · exact (ih (hsplit ▸ List.mem_cons_of_mem _ h)).cons x

/-- The texts of lists of parts with commas between them. -/
def commaSource (items : List (List Judged)) : String := Text.join "," (items.map allSource)

theorem commaSource_singleton (item : List Judged) : commaSource [item] = allSource item :=
  @String.intercalate_singleton "," (allSource item)

theorem commaSource_cons (item : List Judged) {items : List (List Judged)} (h : items ≠ []) :
    commaSource (item :: items) = allSource item ++ "," ++ commaSource items := by
  cases items with
  | nil => exact absurd rfl h
  | cons next items => exact String.intercalate_cons_cons

/-- The texts of lists of parts with a comma after each. -/
def sourceEach : List (List Judged) → String
  | [] => ""
  | item :: items => allSource item ++ "," ++ sourceEach items

theorem commaSource_concat (items : List (List Judged)) (last : List Judged) :
    commaSource (items ++ [last]) = sourceEach items ++ allSource last := by
  induction items with
  | nil => rw [List.nil_append, commaSource_singleton, sourceEach, String.empty_append]
  | cons item items ih =>
    rw [List.cons_append, commaSource_cons _ (by simp), ih, sourceEach]
    simp only [String.append_assoc]

/-- Dividing the parts at the commas loses nothing but these. -/
theorem commaSource_splitOn {xs : List Judged} (h : AllSound xs) :
    commaSource (splitOn (Part.isSeparator ",") xs) = allSource xs := by
  induction xs with
  | nil => rfl
  | cons x xs ih =>
    obtain ⟨⟨hsound, -⟩, hrest⟩ := List.forall_mem_cons.mp h
    rw [splitOn, allSource, ← ih hrest]
    split
    · next hcomma =>
      obtain ⟨t, ht, hsep⟩ := (Option.any_eq_true _ _).mp hcomma
      rw [Bool.and_eq_true] at hsep
      rw [commaSource_cons _ (splitOn_ne_nil _ _), source_token hsound ht, eq_of_beq hsep.2]
      exact congrArg (· ++ _) (String.empty_append)
    · cases hsplit : splitOn (Part.isSeparator ",") xs with
      | nil => exact absurd hsplit (splitOn_ne_nil _ _)
      | cons first rest =>
        cases rest with
        | nil => rw [commaSource_singleton, commaSource_singleton, allSource]
        | cons next rest =>
          rw [commaSource_cons (x :: first) (by simp), commaSource_cons first (by simp), allSource]
          simp only [String.append_assoc]

/-! ## Properties -/

/-- The tokens before the colon have the text of their parts. -/
theorem join_tokens {xs : List Judged} {ts : List Token} (h : AllSound xs)
    (hts : (parts xs).mapM Part.token? = some ts) : Text.join "" (ts.map (·.text)) = allSource xs := by
  rw [Leaf.join_text]
  induction xs generalizing ts with
  | nil =>
    cases hts
    rfl
  | cons x xs ih =>
    obtain ⟨⟨hsound, -⟩, hrest⟩ := List.forall_mem_cons.mp h
    rw [parts, List.map_cons, List.mapM_cons] at hts
    obtain ⟨t, ht, hts⟩ := Option.bind_eq_some_iff.mp hts
    obtain ⟨us, hus, hts⟩ := Option.bind_eq_some_iff.mp hts
    cases hts
    rw [List.map_cons, Leaf.allWritten, ih hrest hus, allSource, source_token hsound ht]
    rfl

theorem ne_blank_of_isKey {s : String} (h : Part.isKey (Text.trim s) = true) : Text.isBlank s = false := by
  cases hblank : Text.isBlank s with
  | false => rfl
  | true =>
    rw [Text.trim_of_isBlank hblank] at h
    cases h

/-- A property is a key, a colon and a value. -/
theorem property?_spec {xs : List Judged} {node : Node} {trail : String} (h : AllSound xs)
    (hprop : Part.property? (parts xs) = some (node, trail)) :
    ∃ key colon v, xs = key ++ colon :: value xs ∧ colon.source = ":" ∧ Text.isBlank (allSource key) = false ∧
      (Part.reading (parts (value xs))).node = some v ∧ trail = (Part.reading (parts (value xs))).trail ∧
      node = .new (.property (Text.trim (allSource key)) (Text.lead (allSource key))
        (Text.trail (allSource key) ++ ":" ++ (Part.reading (parts (value xs))).lead)) [v] := by
  unfold Part.property? at hprop
  obtain ⟨i, hi, hprop⟩ := Option.bind_eq_some_iff.mp hprop
  obtain ⟨ts, hts, hprop⟩ := Option.bind_eq_some_iff.mp hprop
  dsimp only at hprop
  have hi' : xs.findIdx? (·.part.isSeparator ":") = some i := by
    rw [parts, List.findIdx?_map] at hi
    exact hi
  have hvalue : value xs = xs.drop (i + 1) := by rw [value, hi']
  obtain ⟨hlt, hcolon, -⟩ := List.findIdx?_eq_some_iff_getElem.mp hi'
  obtain ⟨t, ht, hsep⟩ := (Option.any_eq_true _ _).mp hcolon
  rw [Bool.and_eq_true] at hsep
  have hkey : Text.join "" (ts.map (·.text)) = allSource (xs.take i) := by
    rw [parts, ← List.map_take] at hts
    exact join_tokens (h.sublist (List.take_sublist _ _)) hts
  rw [hkey] at hprop
  split at hprop
  · cases hprop
  · next hiskey =>
    obtain ⟨v, hv, hnode⟩ := Option.bind_eq_some_iff.mp hprop
    obtain ⟨rfl, rfl⟩ := Prod.mk.inj (Option.some.inj hnode)
    have hdrop : (parts xs).drop (i + 1) = parts (value xs) := by rw [hvalue, parts, parts, List.map_drop]
    rw [hdrop] at hv ⊢
    refine ⟨xs.take i, xs[i], v, ?_, ?_, ne_blank_of_isKey (by simpa using hiskey), hv, rfl, rfl⟩
    · rw [hvalue, List.getElem_cons_drop, List.take_append_drop]
    · rw [source_token (h _ (List.getElem_mem hlt)).1 ht]
      exact eq_of_beq hsep.2

theorem value_sublist (xs : List Judged) : (value xs).Sublist xs := by
  unfold value
  split
  · exact List.drop_sublist _ _
  · exact List.nil_sublist _

/-- A property and the white space after it are written as they were read. -/
theorem property_agrees {xs : List Judged} {node : Node} {trail : String} (h : AllSound xs)
    (htokens : Leaf.AllTokens (Part.allLeaves (parts xs)))
    (hprop : Part.property? (parts xs) = some (node, trail)) :
    Agrees (node.write ++ trail) (allSource xs) (keepsExpression (value xs)) := by
  obtain ⟨key, colon, v, hxs, hcolon, hblank, hv, rfl, rfl⟩ := property?_spec h hprop
  have hsub := value_sublist xs
  have hreading := reading_agrees (h.sublist hsub) (allTokens_sublist htokens hsub).isValid
  rw [Reading.write, hv, Option.map_some, Option.getD_some] at hreading
  have hsource := congrArg allSource hxs
  rw [allSource_append, allSource, hcolon] at hsource
  have hwrite : (Node.new (.property (Text.trim (allSource key)) (Text.lead (allSource key))
      (Text.trail (allSource key) ++ ":" ++ (Part.reading (parts (value xs))).lead)) [v]).write ++
        (Part.reading (parts (value xs))).trail =
      allSource key ++ (":" ++ ((Part.reading (parts (value xs))).lead ++ v.write ++
        (Part.reading (parts (value xs))).trail)) := by
    simp only [Node.new, Node.write, Node.writeAll, Kind.opening, Kind.closing, String.append_empty,
      String.append_assoc]
    rw [← String.append_assoc, ← String.append_assoc, Text.lead_append_trim_append_trail hblank]
  rw [hwrite, hsource]
  exact (hreading.cons ":").cons (allSource key)

/-! ## Object literals -/

/-- Whether nothing is lost after the value of the property. -/
def endsAtValue (item : List Judged) : Bool := (Part.reading (parts (value item))).trail.isEmpty

/-- The texts of nodes with a comma after each. -/
def writeEach : List Node → String
  | [] => ""
  | n :: ns => n.write ++ "," ++ writeEach ns

theorem writeItems_concat (ns : List Node) (last : Node) :
    Node.writeItems (ns ++ [last]) = writeEach ns ++ last.write := by
  induction ns with
  | nil => rw [List.nil_append, Node.writeItems, writeEach, String.empty_append]
  | cons n ns ih =>
    obtain ⟨m, rest, hrest⟩ := List.exists_cons_of_ne_nil (List.append_ne_nil_of_right_ne_nil ns (List.cons_ne_nil last []))
    rw [List.cons_append, hrest, Node.writeItems, ← hrest, ih, writeEach, ← String.append_assoc]

theorem writeItems_comma {ns : List Node} (h : ns ≠ []) : Node.writeItems ns ++ "," = writeEach ns := by
  induction ns with
  | nil => exact absurd rfl h
  | cons n ns ih =>
    cases ns with
    | nil => rw [Node.writeItems, writeEach, writeEach, String.append_empty]
    | cons m ns =>
      rw [Node.writeItems, String.append_assoc, ih (List.cons_ne_nil _ _)]
      rfl

/-- What stands between a value and the comma after it is lost. -/
theorem writeEach_agrees {items : List (List Judged)} {properties : List (Node × String)}
    (h : ∀ item ∈ items, AllSound item ∧ Leaf.AllTokens (Part.allLeaves (parts item)))
    (hprops : (items.map parts).mapM Part.property? = some properties) :
    Agrees (writeEach (properties.map (·.1))) (sourceEach items)
      (items.all (fun item => keepsExpression (value item)) && items.all endsAtValue) := by
  induction items generalizing properties with
  | nil =>
    cases hprops
    exact .refl _
  | cons item items ih =>
    obtain ⟨⟨hsound, htokens⟩, hrest⟩ := List.forall_mem_cons.mp h
    rw [List.map_cons, List.mapM_cons] at hprops
    obtain ⟨⟨node, trail⟩, hnode, hprops⟩ := Option.bind_eq_some_iff.mp hprops
    obtain ⟨rest, hrestprops, hprops⟩ := Option.bind_eq_some_iff.mp hprops
    cases hprops
    obtain ⟨-, -, -, -, -, -, -, htrail, -⟩ := property?_spec hsound hnode
    have hends : endsAtValue item = trail.isEmpty := by rw [endsAtValue, htrail]
    have hagree := ((property_agrees hsound htokens hnode).leave_out_trail.snoc ",").append (ih hrest hrestprops)
    have hkept : ((item :: items).all (fun item => keepsExpression (value item)) && (item :: items).all endsAtValue) =
        (keepsExpression (value item) && trail.isEmpty &&
          (items.all (fun item => keepsExpression (value item)) && items.all endsAtValue)) := by
      simp only [List.all_cons, hends]
      ac_rfl
    rw [hkept]
    exact hagree

/-- How the object literal is put together: blank text after the last comma stands before the closing brace. -/
theorem asObject_spec {xs : List Judged} {o : Node} (h : Part.asObject (parts xs) = some o) :
    (∃ front last space properties, splitOn (Part.isSeparator ",") xs = front ++ [last] ∧
        Leaf.tokenText? (Part.allLeaves (parts last)) = some space ∧ Text.isBlank space = true ∧
        (front.map parts).mapM Part.property? = some properties ∧
        o = .new (.object ((if front.isEmpty then "" else ",") ++ space)) (properties.map (·.1))) ∨
      ∃ properties, ((splitOn (Part.isSeparator ",") xs).map parts).mapM Part.property? = some properties ∧
        o = .new (.object ((properties.getLast?.map (·.2)).getD "")) (properties.map (·.1)) := by
  unfold Part.asObject at h
  dsimp only at h
  rw [splitOn_parts] at h
  cases hended : Option.filter Text.isBlank
      ((((splitOn (Part.isSeparator ",") xs).map parts).getLast?.map Part.allLeaves).bind Leaf.tokenText?) with
  | none =>
    rw [hended] at h
    obtain ⟨properties, hprops, ho⟩ := Option.bind_eq_some_iff.mp h
    exact .inr ⟨properties, hprops, (Option.some.inj ho).symm⟩
  | some space =>
    rw [hended] at h
    obtain ⟨properties, hprops, ho⟩ := Option.bind_eq_some_iff.mp h
    obtain ⟨hspace, hblank⟩ := Option.filter_eq_some_iff.mp hended
    obtain ⟨leaves, hleaves, hspace⟩ := Option.bind_eq_some_iff.mp hspace
    obtain ⟨lastParts, hlast, rfl⟩ := Option.map_eq_some_iff.mp hleaves
    rw [List.getLast?_map] at hlast
    obtain ⟨last, hmem, rfl⟩ := Option.map_eq_some_iff.mp hlast
    obtain ⟨front, hfront⟩ := List.getLast?_eq_some_iff.mp hmem
    rw [Option.isSome_some, if_pos rfl, hfront, List.map_append, List.map_singleton, List.dropLast_concat] at hprops
    rw [Option.isSome_some, if_pos rfl, hfront, List.map_append, List.map_singleton, List.dropLast_concat] at ho
    refine .inl ⟨front, last, space, properties, hfront, hspace, hblank, hprops, ?_⟩
    rw [← Option.some.inj ho]
    dsimp only
    cases front with
    | nil =>
      cases hprops
      simp only [List.map_nil, List.isEmpty_nil, if_true, String.empty_append]
      cases hempty : space.isEmpty with
      | true =>
        rw [String.isEmpty_iff.mp hempty]
        rfl
      | false => rfl
    | cons item front =>
      have hne : ("," ++ space).isEmpty = false := by simp
      simp only [List.map_cons, List.isEmpty_cons, Bool.false_eq_true, if_false, hne]

theorem write_object (trailing : String) (properties : List Node) :
    (Node.new (.object trailing) properties).write =
      "\x7b" ++ (Node.writeItems properties ++ trailing) ++ "\x7d" := by
  simp [Node.new, Node.write, Kind.opening, Kind.closing, String.append_assoc]

theorem token_mem_leaves {p : Part} {t : Token} (h : p.token? = some t) : .token t ∈ p.leaves := by
  cases p with
  | leaf l =>
    cases l with
    | token t' =>
      cases h
      exact List.mem_cons_self
    | node n => cases h
  | group g => cases h
  | content nodes close => cases h

/-- A blank text after the last comma has no value. -/
theorem keepsExpression_blank {item : List Judged} {space : String}
    (hspace : Leaf.tokenText? (Part.allLeaves (parts item)) = some space) (hblank : Text.isBlank space = true) :
    keepsExpression (value item) = true := by
  obtain ⟨-, rfl⟩ := Leaf.tokenText?_eq_some hspace
  have hcolon : item.findIdx? (·.part.isSeparator ":") = none := by
    refine List.findIdx?_eq_none_iff.mpr fun x hx => ?_
    cases hsep : x.part.isSeparator ":" with
    | false => rfl
    | true =>
      obtain ⟨t, ht, htext⟩ := (Option.any_eq_true _ _).mp hsep
      rw [Bool.and_eq_true] at htext
      have hleaf : Leaf.token t ∈ Part.allLeaves (parts item) :=
        List.mem_flatMap.mpr ⟨x.part, List.mem_map_of_mem hx, token_mem_leaves ht⟩
      have hspace := Leaf.blank_of_mem hblank hleaf
      rw [Leaf.written, eq_of_beq htext.2] at hspace
      cases hspace
  rw [value, hcolon]
  rfl

/-- The object literal that the parts are is written as they were read. -/
theorem asObject_agrees {xs : List Judged} {o : Node} (h : AllSound xs)
    (htokens : Leaf.AllTokens (Part.allLeaves (parts xs))) (ho : Part.asObject (parts xs) = some o) :
    Agrees o.write ("\x7b" ++ allSource xs ++ "\x7d") (keepsObject xs) := by
  have hitems : ∀ item ∈ splitOn (Part.isSeparator ",") xs,
      AllSound item ∧ Leaf.AllTokens (Part.allLeaves (parts item)) := by
    intro item hitem
    have hsub := sublist_of_mem_splitOn hitem
    exact ⟨h.sublist hsub, allTokens_sublist htokens hsub⟩
  rw [← commaSource_splitOn h]
  rcases asObject_spec ho with ⟨front, last, space, properties, hsplit, hspace, hblank, hprops, rfl⟩ | ⟨properties, hprops, rfl⟩
  · have hfront := writeEach_agrees (fun item hitem => hitems item (hsplit ▸ List.mem_append_left _ hitem)) hprops
    have hlast := (hitems last (hsplit ▸ List.mem_append_right _ List.mem_cons_self)).1
    obtain ⟨hlasttokens, rfl⟩ := Leaf.tokenText?_eq_some hspace
    have hkept : keepsObject xs = (front.all (fun item => keepsExpression (value item)) && front.all endsAtValue) := by
      simp only [keepsObject, hsplit, List.all_append, List.dropLast_concat, List.all_cons, List.all_nil,
        keepsExpression_blank hspace hblank, Bool.and_true]
      rfl
    have hwrite : Node.writeItems (properties.map (·.1)) ++ (if front.isEmpty then "" else ",") =
        writeEach (properties.map (·.1)) := by
      cases front with
      | nil =>
        cases hprops
        rfl
      | cons item front =>
        rw [List.map_cons, List.mapM_cons] at hprops
        obtain ⟨first, -, hprops⟩ := Option.bind_eq_some_iff.mp hprops
        obtain ⟨rest, -, hprops⟩ := Option.bind_eq_some_iff.mp hprops
        cases hprops
        exact writeItems_comma (List.cons_ne_nil _ _)
    rw [hkept, hsplit, write_object, ← @String.append_assoc (Node.writeItems _), hwrite, commaSource_concat,
      ← allSource_of_tokens hlast hlasttokens]
    exact ((hfront.snoc _).cons _).snoc _
  · obtain ⟨items, last, hsplit⟩ : ∃ items last, splitOn (Part.isSeparator ",") xs = items ++ [last] :=
      ⟨_, _, (List.dropLast_concat_getLast (splitOn_ne_nil (Part.isSeparator ",") xs)).symm⟩
    rw [hsplit] at hitems hprops
    rw [List.map_append, List.mapM_append] at hprops
    obtain ⟨front, hfrontprops, hprops⟩ := Option.bind_eq_some_iff.mp hprops
    obtain ⟨back, hback, hprops⟩ := Option.bind_eq_some_iff.mp hprops
    cases hprops
    rw [List.map_singleton, List.mapM_cons, List.mapM_nil] at hback
    obtain ⟨⟨node, trail⟩, hnode, hback⟩ := Option.bind_eq_some_iff.mp hback
    cases hback
    obtain ⟨hfront, hback⟩ := List.forall_mem_append.mp hitems
    obtain ⟨hlast, hlasttokens⟩ := hback last List.mem_cons_self
    have hagree := (writeEach_agrees hfront hfrontprops).append (property_agrees hlast hlasttokens hnode)
    have hkept : keepsObject xs = (items.all (fun item => keepsExpression (value item)) && items.all endsAtValue &&
        keepsExpression (value last)) := by
      simp only [keepsObject, hsplit, List.all_append, List.dropLast_concat, List.all_cons, List.all_nil, Bool.and_true]
      exact Bool.and_right_comm _ _ _
    have htrail : (((front ++ [(node, trail)]).getLast?).map (·.2)).getD "" = trail := by
      rw [List.getLast?_concat]
      rfl
    rw [hkept, hsplit, write_object, htrail, List.map_append, List.map_singleton, writeItems_concat, commaSource_concat,
      @String.append_assoc (writeEach _)]
    exact (hagree.cons _).snoc _

end Judged
end JsxEdit
