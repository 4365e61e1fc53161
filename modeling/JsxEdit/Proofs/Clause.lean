import JsxEdit.Proofs.Object
import JsxEdit.Proofs.Retext
import JsxEdit.Proofs.Spelled

/-
Properties of an object literal, read forwards.

A property is known by the parts that are read from it. They tell which property it is and that nothing of it is lost, and
they do so whatever white space comes after the property. The properties and the commas between them make up the object
literal.
-/
set_option autoImplicit false

open List (Forall₂)

namespace JsxEdit

/-! ## Other white space at the end -/

/-- White space at the end of a text can be changed for other white space. -/
theorem Text.respaced {s e e' : String} (h : isBlank (s ++ e) = false) (htrail : trail (s ++ e) = e)
    (he' : isBlank e' = true) : isBlank (s ++ e') = false ∧ lead (s ++ e') = lead (s ++ e) ∧
      trim (s ++ e') = trim (s ++ e) ∧ trail (s ++ e') = e' ∧ trail s = "" := by
  have he : isBlank e = true := htrail ▸ isBlank_trail (s ++ e)
  have hs : isBlank s = false := by
    cases hs : isBlank s with
    | false => rfl
    | true => rw [isBlank_append hs he] at h; cases h
  have hempty : isBlank "" = true := rfl
  have hedges := edges_around hempty hs he
  have hedges' := edges_around hempty hs he'
  have htrim := trim_around hempty hs he
  have htrim' := trim_around hempty hs he'
  rw [String.empty_append] at hedges hedges' htrim htrim'
  have hnone : trail s = "" := by
    have heq := hedges.2.symm.trans htrail
    rw [← String.toList_inj, String.toList_append] at heq
    rw [← String.toList_inj]
    exact List.append_left_eq_self.mp heq
  exact ⟨htrim'.2, hedges'.1.trans hedges.1.symm, htrim'.1.trans htrim.1.symm, by rw [hedges'.2, hnone, String.empty_append],
    hnone⟩

namespace Judged

open Scan (restTokens Spells)
open Tag (ofToken)

/-- What is left unmatched at the end of parts, as a part. -/
def restOf (pos : Nat) (pending : List Char) : List Judged := (restTokens pos pending).map ofToken

theorem restOf_nil (pos : Nat) : restOf pos [] = [] := rfl

theorem restOf_cons (pos : Nat) (c : Char) (pending : List Char) :
    restOf pos (c :: pending) = [ofToken ⟨.text, pos - (pending.length + 1), .ofList (c :: pending).reverse⟩] := rfl

theorem leaves_tokens (ts : List Token) : Part.allLeaves (parts (ts.map ofToken)) = ts.map .token := by
  induction ts with
  | nil => rfl
  | cons t ts ih =>
    rw [List.map_cons, allLeaves_cons, ih]
    rfl

theorem allWritten_tokens (ts : List Token) : Leaf.allWritten (ts.map .token) = .ofList (Event.allText (ts.map .token)) := by
  induction ts with
  | nil => rfl
  | cons t ts ih =>
    have htext : Event.allText (.token t :: ts.map .token) = t.text.toList ++ Event.allText (ts.map .token) := rfl
    rw [List.map_cons, Leaf.allWritten, ih, List.map_cons, htext, String.ofList_append, String.ofList_toList]
    rfl

theorem allLeaves_append (xs ys : List Judged) :
    Part.allLeaves (parts (xs ++ ys)) = Part.allLeaves (parts xs) ++ Part.allLeaves (parts ys) := by
  rw [parts, List.map_append, Part.allLeaves, List.flatMap_append]
  rfl

theorem allTokens_append {xs ys : List Judged} : Leaf.AllTokens (Part.allLeaves (parts (xs ++ ys))) ↔
    Leaf.AllTokens (Part.allLeaves (parts xs)) ∧ Leaf.AllTokens (Part.allLeaves (parts ys)) := by
  rw [allLeaves_append]
  exact List.forall_mem_append

theorem allTokens_tokens (ts : List Token) : Leaf.AllTokens (Part.allLeaves (parts (ts.map ofToken))) := by
  rw [leaves_tokens]
  exact List.forall_mem_map.mpr fun t _ => ⟨t, rfl⟩

/-- The text of the unmatched characters. -/
theorem allWritten_restOf (pos : Nat) (pending : List Char) :
    Leaf.allWritten (Part.allLeaves (parts (restOf pos pending))) = .ofList pending.reverse := by
  rw [restOf, leaves_tokens, allWritten_tokens, (Scan.spells_restTokens pos pending).text]

theorem tokenText?_restOf {xs : List Judged} (h : Leaf.AllTokens (Part.allLeaves (parts xs))) (pos : Nat)
    (pending : List Char) : Leaf.tokenText? (Part.allLeaves (parts (xs ++ restOf pos pending))) =
      some (Leaf.allWritten (Part.allLeaves (parts xs)) ++ .ofList pending.reverse) := by
  have hrest : Leaf.AllTokens (Part.allLeaves (parts (restOf pos pending))) := allTokens_tokens _
  rw [Leaf.tokenText?_of_allTokens (allTokens_append.mpr ⟨h, hrest⟩), allLeaves_append, Leaf.allWritten_append,
    allWritten_restOf]

theorem tokenText?_space (pos : Nat) (space : String) :
    Leaf.tokenText? (Part.allLeaves (parts (restOf pos space.toList.reverse))) = some space := by
  have h := @tokenText?_restOf [] (List.forall_mem_nil _) pos space.toList.reverse
  rw [List.reverse_reverse, String.ofList_toList, List.nil_append] at h
  exact h.trans (congrArg some (String.empty_append ..))

/-- Unmatched characters are white space around an object literal, or the parts are none. -/
theorem object?_restOf (xs : List Judged) (pos : Nat) (pending : List Char) :
    Part.object? (parts (xs ++ restOf pos pending)) =
      if pending.all Text.isSpace then Part.object? (parts xs) else none := by
  cases pending with
  | nil => rw [restOf_nil, List.append_nil]; rfl
  | cons c pending =>
    have hblank : (ofToken ⟨.text, pos - (pending.length + 1), .ofList (c :: pending).reverse⟩).part.isBlank =
        (c :: pending).all Text.isSpace := by
      show Text.isBlank (.ofList (c :: pending).reverse) = _
      rw [Text.isBlank, String.toList_ofList, List.all_reverse]
    rw [restOf_cons, Part.object?, Part.object?, parts, parts, List.map_append, List.map_singleton, List.filter_append,
      List.filter_singleton, hblank]
    cases hspace : (c :: pending).all Text.isSpace with
    | true => simp
    | false =>
      rw [Bool.not_false, if_neg Bool.false_ne_true, cond_true]
      cases (xs.map (·.part)).filter fun p => !p.isBlank with
      | nil => rfl
      | cons p ps => cases p <;> cases ps <;> rfl

/-- The parts are a property, with white space after it. -/
structure IsItem (xs : List Judged) (p : Node) (space : String) : Prop where
  tokens : Leaf.AllTokens (Part.allLeaves (parts xs))
  whole : ∀ x ∈ xs, x.part.isSeparator "," = false
  property : ∃ p', Part.property? (parts xs) = some (p', space) ∧ p'.blind = p.blind
  kept : keepsExpression (value xs) = true

theorem whole_restOf (pos : Nat) (pending : List Char) (text : String) :
    ∀ x ∈ restOf pos pending, x.part.isSeparator text = false := by
  refine List.forall_mem_map.mpr fun t ht => ?_
  have hkind : t.kind ≠ .separator := (Scan.spells_restTokens pos pending).whole t ht
  simp [ofToken, Part.isSeparator, Part.token?, Leaf.token?, hkind]

section

variable {xs : List Judged} {pos : Nat} {pending : List Char} {space space' : String}

/-- Other white space after an expression does not change it. -/
theorem reading_respaced (htokens : Leaf.AllTokens (Part.allLeaves (parts xs))) {v : Node} (pos' : Nat)
    (hnode : (Part.reading (parts (xs ++ restOf pos (space.toList.reverse ++ pending)))).node = some v)
    (htrail : (Part.reading (parts (xs ++ restOf pos (space.toList.reverse ++ pending)))).trail = space)
    (hspace' : Text.isBlank space' = true) :
    Part.reading (parts (xs ++ restOf pos' (space'.toList.reverse ++ pending))) =
        { Part.reading (parts (xs ++ restOf pos (space.toList.reverse ++ pending))) with trail := space' } ∧
      keepsExpression (xs ++ restOf pos' (space'.toList.reverse ++ pending)) =
        keepsExpression (xs ++ restOf pos (space.toList.reverse ++ pending)) := by
  have htext (pos : Nat) (e : String) :
      Leaf.tokenText? (Part.allLeaves (parts (xs ++ restOf pos (e.toList.reverse ++ pending)))) =
        some (Leaf.allWritten (Part.allLeaves (parts xs)) ++ .ofList pending.reverse ++ e) := by
    rw [tokenText?_restOf htokens, List.reverse_append, List.reverse_reverse, String.ofList_append, String.ofList_toList,
      String.append_assoc]
  have hobject (pos : Nat) (e : String) (he : Text.isBlank e = true) :
      Part.object? (parts (xs ++ restOf pos (e.toList.reverse ++ pending))) =
        if pending.all Text.isSpace then Part.object? (parts xs) else none := by
    have hall : e.toList.all Text.isSpace = true := he
    rw [object?_restOf, List.all_append, List.all_reverse, hall, Bool.true_and]
  have hall (pos : Nat) (pending : List Char) :
      (xs ++ restOf pos pending).all (fun x => x.part.isBlank || x.object) = xs.all fun x => x.part.isBlank || x.object := by
    have hrest : (restOf pos pending).all (fun x => x.part.isBlank || x.object) = true :=
      List.all_eq_true.mpr (List.forall_mem_map.mpr fun t _ => Bool.or_true _)
    rw [List.all_append, hrest, Bool.and_true]
  generalize Leaf.allWritten (Part.allLeaves (parts xs)) ++ .ofList pending.reverse = s at htext
  rw [Part.reading, htext pos space] at hnode htrail
  dsimp only at hnode htrail
  split at hnode
  · cases hnode
  · next hblank =>
    rw [if_neg hblank] at htrail
    have hblank : Text.isBlank (s ++ space) = false := by simpa using hblank
    have hspace : Text.isBlank space = true := by
      have heq : Text.trail (s ++ space) = space := htrail
      rw [← heq]
      exact Text.isBlank_trail _
    obtain ⟨hblank', hlead, htrim, htrail', -⟩ := Text.respaced hblank htrail hspace'
    have hof : Expression.ofText (s ++ space') = Expression.ofText (s ++ space) := by
      unfold Expression.ofText
      rw [htrim]
    constructor
    · rw [Part.reading, Part.reading, htext pos space, htext pos' space']
      simp only [hblank, hblank', Bool.false_eq_true, if_false, hlead, htrail', hobject pos space hspace,
        hobject pos' space' hspace', hof]
    · rw [keepsExpression, keepsExpression, htext pos space, htext pos' space']
      simp only [hblank, hblank', Bool.false_or, hobject pos space hspace, hobject pos' space' hspace', htrim, hall]

/-- Other white space after a property does not change it. -/
theorem IsItem.respaced {p : Node} (h : IsItem (xs ++ restOf pos (space.toList.reverse ++ pending)) p space) (pos' : Nat)
    (hspace' : Text.isBlank space' = true) :
    IsItem (xs ++ restOf pos' (space'.toList.reverse ++ pending)) p space' := by
  obtain ⟨htokens, hwhole, ⟨p', hprop, hp'⟩, hkept⟩ := h
  have htokens' := (allTokens_append.mp htokens).1
  rw [List.forall_mem_append] at hwhole
  have hsound : ∀ {ys : List Judged}, (parts ys).findIdx? (Part.isSeparator ":") = ys.findIdx? (·.part.isSeparator ":") := by
    intro ys
    rw [parts, List.findIdx?_map]
    rfl
  unfold Part.property? at hprop
  obtain ⟨i, hi, hprop⟩ := Option.bind_eq_some_iff.mp hprop
  rw [hsound] at hi
  -- the colon is not among the unmatched characters
  have hcolon : xs.findIdx? (·.part.isSeparator ":") = some i := by
    rw [List.findIdx?_append] at hi
    cases hfound : xs.findIdx? (·.part.isSeparator ":") with
    | some j =>
      rw [hfound] at hi
      exact hi
    | none =>
      rw [hfound, List.findIdx?_eq_none_iff.mpr (whole_restOf _ _ _)] at hi
      cases hi
  have hlt : i + 1 ≤ xs.length := (List.findIdx?_eq_some_iff_getElem.mp hcolon).1
  have hindex (rest : List Judged) : (xs ++ rest).findIdx? (·.part.isSeparator ":") = some i := by
    rw [List.findIdx?_append, hcolon]
    rfl
  have htake (rest : List Judged) : (parts (xs ++ rest)).take i = parts (xs.take i) := by
    rw [parts, ← List.map_take, List.take_append_of_le_length (Nat.le_of_succ_le hlt)]
    rfl
  have hdrop (rest : List Judged) : (parts (xs ++ rest)).drop (i + 1) = parts (xs.drop (i + 1) ++ rest) := by
    rw [parts, ← List.map_drop, List.drop_append_of_le_length hlt]
    rfl
  have hvalue (rest : List Judged) : value (xs ++ rest) = xs.drop (i + 1) ++ rest := by
    rw [value, hindex]
    exact List.drop_append_of_le_length hlt
  obtain ⟨ts, hts, hprop⟩ := Option.bind_eq_some_iff.mp hprop
  dsimp only at hprop
  rw [htake] at hts
  rw [hdrop] at hprop
  split at hprop
  · cases hprop
  · next hkey =>
    obtain ⟨v, hv, hprop⟩ := Option.bind_eq_some_iff.mp hprop
    obtain ⟨hnode, htrail⟩ := Prod.mk.inj (Option.some.inj hprop)
    obtain ⟨hreading, hkeeps⟩ :=
      reading_respaced (allTokens_sublist htokens' (List.drop_sublist _ _)) pos' hv htrail hspace'
    refine ⟨allTokens_append.mpr ⟨htokens', allTokens_tokens _⟩, List.forall_mem_append.mpr ⟨hwhole.1, whole_restOf _ _ _⟩,
      ⟨p', ?_, hp'⟩, ?_⟩
    · unfold Part.property?
      rw [hsound, hindex]
      dsimp only [Option.bind_eq_bind, Option.bind_some]
      rw [htake, hts, hdrop, hreading, Option.bind_some, if_neg hkey, hv]
      exact congrArg some (Prod.ext hnode rfl)
    · rw [hvalue] at hkept ⊢
      rw [hkeeps, hkept]

end

/-! ## Properties made of tokens -/

theorem judgeAll_tokens (ts : List Token) : judgeAll (ts.map .token) = ts.map ofToken := by
  induction ts with
  | nil => rfl
  | cons t ts ih =>
    rw [List.map_cons, judgeAll, ih]
    rfl

theorem object?_tokens (ts : List Token) : Part.object? (parts (ts.map ofToken)) = none := by
  have hleaf : ∀ p ∈ (parts (ts.map ofToken)).filter fun p => !p.isBlank, ∃ t, p = .leaf (.token t) := by
    intro p hp
    obtain ⟨x, hx, rfl⟩ := List.mem_map.mp (List.mem_filter.mp hp).1
    obtain ⟨t, -, rfl⟩ := List.mem_map.mp hx
    exact ⟨t, rfl⟩
  unfold Part.object?
  split
  · next g heq =>
    obtain ⟨t, ht⟩ := hleaf (.group g) (heq ▸ List.mem_cons_self)
    cases ht
  · rfl

/-- A key, a colon and a value that is no object literal. -/
theorem isItem_of_spells {ks vs : List Token} {colon : Token} {k v : List Char} (hks : Spells ks k) (hvs : Spells vs v)
    (hcolon : colon.kind = .separator ∧ colon.text = ":") (hkey : Part.isKey (Text.trim (.ofList k)) = true)
    (hvalue : Text.isBlank (.ofList v) = false) (hkeeps : Expression.keeps (Text.trim (.ofList v)) = true) :
    IsItem ((ks ++ colon :: vs).map ofToken)
      (.new (.property (Text.trim (.ofList k)) (Text.lead (.ofList k)) (Text.trail (.ofList k) ++ ":" ++ Text.lead (.ofList v)))
        [Expression.ofText (.ofList v)]) (Text.trail (.ofList v)) := by
  have hseparator {ts : List Token} (hts : ∀ t ∈ ts, t.kind ≠ .separator) (text : String) :
      ∀ x ∈ ts.map ofToken, x.part.isSeparator text = false := by
    refine List.forall_mem_map.mpr fun t ht => ?_
    simp [ofToken, Part.isSeparator, Part.token?, Leaf.token?, hts t ht]
  have hisColon : (ofToken colon).part.isSeparator ":" = true := by
    simp [ofToken, Part.isSeparator, Part.token?, Leaf.token?, hcolon]
  have hnotComma : (ofToken colon).part.isSeparator "," = false := by
    simp [ofToken, Part.isSeparator, Part.token?, Leaf.token?, hcolon]
  have hindex : (ks.map ofToken ++ (colon :: vs).map ofToken).findIdx? (·.part.isSeparator ":") = some ks.length := by
    rw [List.findIdx?_append, List.findIdx?_eq_none_iff.mpr (hseparator hks.whole ":"), List.map_cons, List.findIdx?_cons,
      hisColon, List.length_map]
    simp
  have hmapM : (parts (ks.map ofToken)).mapM Part.token? = some ks := by
    clear hks hindex
    induction ks with
    | nil => rfl
    | cons t ts ih => rw [List.map_cons, parts, List.map_cons, List.mapM_cons, ← parts, ih]; rfl
  have hjoin : Text.join "" (ks.map (·.text)) = .ofList k := by rw [Leaf.join_text, allWritten_tokens, hks.text]
  have hdrop : (ks.map ofToken ++ (colon :: vs).map ofToken).drop (ks.length + 1) = vs.map ofToken := by
    rw [List.drop_append, List.length_map, Nat.add_sub_cancel_left, List.drop_eq_nil_of_le (by simp)]
    rfl
  have htext : Leaf.tokenText? (Part.allLeaves (parts (vs.map ofToken))) = some (.ofList v) := by
    rw [leaves_tokens, Leaf.tokenText?_of_allTokens (List.forall_mem_map.mpr fun t _ => ⟨t, rfl⟩), allWritten_tokens, hvs.text]
  have hreading : Part.reading (parts (vs.map ofToken)) =
      ⟨Text.lead (.ofList v), some (Expression.ofText (.ofList v)), Text.trail (.ofList v)⟩ := by
    rw [Part.reading, htext]
    simp only [hvalue, Bool.false_eq_true, if_false, object?_tokens, Option.getD_none]
  refine ⟨allTokens_tokens _, ?_, ⟨_, ?_, rfl⟩, ?_⟩
  · rw [List.map_append, List.map_cons, List.forall_mem_append, List.forall_mem_cons]
    exact ⟨hseparator hks.whole ",", hnotComma, hseparator hvs.whole ","⟩
  · have hcolonIndex : (parts (ks.map ofToken ++ (colon :: vs).map ofToken)).findIdx? (Part.isSeparator ":") =
        some ks.length := by
      rw [parts, List.findIdx?_map]
      exact hindex
    rw [List.map_append]
    unfold Part.property?
    rw [hcolonIndex]
    dsimp only [Option.bind_eq_bind, Option.bind_some]
    rw [parts, ← List.map_take, ← List.map_drop, hdrop, List.take_left' (List.length_map _), ← parts, ← parts, hmapM, hreading]
    dsimp only [Option.bind_some]
    rw [hjoin, hkey]
    rfl
  · rw [List.map_append, value, hindex]
    dsimp only
    rw [hdrop, keepsExpression, htext]
    simp only [object?_tokens, hkeeps, Bool.or_true]

/-! ## Object literals -/

theorem splitOn_cons {f : Part → Bool} {xs : List Judged} (hxs : ∀ x ∈ xs, f x.part = false) {comma : Judged}
    (hcomma : f comma.part = true) (ys : List Judged) : splitOn f (xs ++ comma :: ys) = xs :: splitOn f ys := by
  induction xs with
  | nil => rw [List.nil_append, splitOn, if_pos hcomma]
  | cons x xs ih =>
    rw [List.forall_mem_cons] at hxs
    rw [List.cons_append, splitOn, hxs.1, if_neg Bool.false_ne_true, ih hxs.2]

theorem splitOn_whole {f : Part → Bool} {xs : List Judged} (hxs : ∀ x ∈ xs, f x.part = false) : splitOn f xs = [xs] := by
  induction xs with
  | nil => rfl
  | cons x xs ih =>
    rw [List.forall_mem_cons] at hxs
    rw [splitOn, hxs.1, if_neg Bool.false_ne_true, ih hxs.2]

/-- The parts are properties with commas after them, and with nothing between value and comma. -/
structure AreItems (xs : List Judged) (ns : List Node) : Prop where
  tokens : Leaf.AllTokens (Part.allLeaves (parts xs))
  items : ∃ items, (∀ ys, splitOn (Part.isSeparator ",") (xs ++ ys) = items ++ splitOn (Part.isSeparator ",") ys) ∧
    Forall₂ (fun item n => IsItem item n "") items ns

theorem AreItems.nil : AreItems [] [] := ⟨List.forall_mem_nil _, [], fun _ => rfl, .nil⟩

theorem AreItems.cons {item : List Judged} {n : Node} {comma : Token} {xs : List Judged} {ns : List Node}
    (h : IsItem item n "") (hcomma : comma.kind = .separator ∧ comma.text = ",") (hs : AreItems xs ns) :
    AreItems (item ++ ofToken comma :: xs) (n :: ns) := by
  obtain ⟨htokens, items, hsplit, hitems⟩ := hs
  have hisComma : Part.isSeparator "," (ofToken comma).part = true := by
    simp [ofToken, Part.isSeparator, Part.token?, Leaf.token?, hcomma]
  refine ⟨allTokens_append.mpr ⟨h.tokens, ?_⟩, item :: items, fun ys => ?_, .cons h hitems⟩
  · exact (@allTokens_append [ofToken comma] xs).mpr ⟨allTokens_tokens [comma], htokens⟩
  · rw [List.append_assoc, List.cons_append, splitOn_cons h.whole hisComma, hsplit, List.cons_append]

theorem AreItems.properties {items : List (List Judged)} {ns : List Node}
    (h : Forall₂ (fun item n => IsItem item n "") items ns) : ∃ properties,
    (items.map parts).mapM Part.property? = some properties ∧ (properties.map (·.1)).map Node.blind = ns.map Node.blind := by
  induction h with
  | nil => exact ⟨[], rfl, rfl⟩
  | cons hitem _ ih =>
    obtain ⟨p', hp', hblind⟩ := hitem.property
    obtain ⟨properties, hprops, hblinds⟩ := ih
    refine ⟨(p', "") :: properties, ?_, ?_⟩
    · rw [List.map_cons, List.mapM_cons, hp', hprops]
      rfl
    · rw [List.map_cons, List.map_cons, List.map_cons, hblind, hblinds]

theorem keepsExpression_items {items : List (List Judged)} {ns : List Node}
    (h : Forall₂ (fun item n => IsItem item n "") items ns) :
    items.all (fun item => keepsExpression (value item)) = true ∧
      items.all (fun item => (Part.reading (parts (value item))).trail.isEmpty) = true := by
  induction h with
  | nil => exact ⟨rfl, rfl⟩
  | @cons item n items ns hitem _ ih =>
    obtain ⟨p', hp', -⟩ := hitem.property
    have hvalue : (Part.reading (parts (value item))).trail = "" := by
      unfold Part.property? at hp'
      obtain ⟨i, hi, hp'⟩ := Option.bind_eq_some_iff.mp hp'
      obtain ⟨ts, -, hp'⟩ := Option.bind_eq_some_iff.mp hp'
      have hi' : item.findIdx? (·.part.isSeparator ":") = some i := by
        rw [parts, List.findIdx?_map] at hi
        exact hi
      dsimp only at hp'
      split at hp'
      · cases hp'
      · obtain ⟨v, -, hp'⟩ := Option.bind_eq_some_iff.mp hp'
        rw [value, hi', parts, List.map_drop]
        exact (Prod.mk.inj (Option.some.inj hp')).2
    rw [List.all_cons, List.all_cons, hitem.kept, hvalue, ih.1, ih.2]
    exact ⟨rfl, rfl⟩

/-- In a blank text there is no colon. -/
theorem noColon_of_blank {item : List Judged} {space : String}
    (hspace : Leaf.tokenText? (Part.allLeaves (parts item)) = some space) (hblank : Text.isBlank space = true) :
    item.findIdx? (·.part.isSeparator ":") = none := by
  obtain ⟨-, rfl⟩ := Leaf.tokenText?_eq_some hspace
  refine List.findIdx?_eq_none_iff.mpr fun x hx => ?_
  cases hsep : x.part.isSeparator ":" with
  | false => rfl
  | true =>
    obtain ⟨t, ht, htext⟩ := (Option.any_eq_true _ _).mp hsep
    rw [Bool.and_eq_true] at htext
    have hleaf : Leaf.token t ∈ Part.allLeaves (parts item) :=
      List.mem_flatMap.mpr ⟨x.part, List.mem_map_of_mem hx, token_mem_leaves ht⟩
    have hspace := Leaf.blank_of_mem hblank hleaf
    rw [Leaf.written, eq_of_beq htext.2] at hspace
    cases hspace

/-- The parts are an object literal, and nothing of it is lost. -/
structure IsObject (xs : List Judged) (o : Node) : Prop where
  tokens : Leaf.AllTokens (Part.allLeaves (parts xs))
  object : ∃ o', Part.asObject (parts xs) = some o' ∧ o'.blind = o.blind
  kept : keepsObject xs = true

theorem blind_object {trailing : String} {ns ms : List Node} (h : ns.map Node.blind = ms.map Node.blind) :
    (Node.new (.object trailing) ns).blind = (Node.new (.object trailing) ms).blind := by
  rw [Node.new, Node.new, Node.blind_mk, Node.blind_mk, h]

/-- An object literal with white space after its last comma, or with nothing but white space in it. -/
theorem AreItems.ended {xs last : List Judged} {ns : List Node} {space : String} (h : AreItems xs ns)
    (hlast : Leaf.tokenText? (Part.allLeaves (parts last)) = some space) (hspace : Text.isBlank space = true)
    (hwhole : ∀ x ∈ last, x.part.isSeparator "," = false) :
    IsObject (xs ++ last) (.new (.object ((if ns.isEmpty then "" else ",") ++ space)) ns) := by
  obtain ⟨htokens, items, hsplit, hitems⟩ := h
  have hall := hsplit last
  rw [splitOn_whole hwhole] at hall
  obtain ⟨properties, hprops, hblind⟩ := AreItems.properties hitems
  obtain ⟨hkept, htight⟩ := keepsExpression_items hitems
  refine ⟨allTokens_append.mpr ⟨htokens, (Leaf.tokenText?_eq_some hlast).1⟩, ?_, ?_⟩
  · have hempty : (items.map parts).isEmpty = ns.isEmpty := by cases hitems <;> rfl
    have hended : Option.filter Text.isBlank ((some (Part.allLeaves (parts last))).bind Leaf.tokenText?) = some space := by
      rw [Option.bind_some, hlast, Option.filter_some, if_pos hspace]
    refine ⟨.new (.object ((if ns.isEmpty then "" else ",") ++ space)) (properties.map (·.1)), ?_, blind_object hblind⟩
    unfold Part.asObject
    dsimp only
    rw [splitOn_parts, hall, List.map_append, List.map_singleton, List.getLast?_concat, Option.map_some, hended,
      List.dropLast_concat]
    simp only [Option.isSome_some, if_true, hprops, Option.bind_eq_bind, Option.bind_some, hempty]
    cases hns : ns.isEmpty with
    | false => simp
    | true =>
      obtain rfl := List.isEmpty_iff.mp hns
      cases hitems
      cases hprops
      cases hblank : space.isEmpty with
      | true =>
        rw [String.isEmpty_iff.mp hblank]
        rfl
      | false => simp [hblank]
  · rw [keepsObject, hall, List.all_append, List.dropLast_concat]
    simp only [hkept, htight, List.all_cons, List.all_nil, keepsExpression_blank hlast hspace, Bool.and_true]

/-- An object literal with white space after its last property. -/
theorem AreItems.concat {xs last : List Judged} {ns : List Node} {n : Node} {space : String} (h : AreItems xs ns)
    (hlast : IsItem last n space) : IsObject (xs ++ last) (.new (.object space) (ns ++ [n])) := by
  obtain ⟨htokens, items, hsplit, hitems⟩ := h
  have hall := hsplit last
  rw [splitOn_whole hlast.whole] at hall
  obtain ⟨properties, hprops, hblind⟩ := AreItems.properties hitems
  obtain ⟨hkept, htight⟩ := keepsExpression_items hitems
  obtain ⟨p', hp', hblind'⟩ := hlast.property
  refine ⟨allTokens_append.mpr ⟨htokens, hlast.tokens⟩, ?_, ?_⟩
  · -- there is a colon in the last property, so that it is not blank
    have hended : Option.filter Text.isBlank ((some (Part.allLeaves (parts last))).bind Leaf.tokenText?) = none := by
      rw [Option.bind_some, Option.filter_eq_none_iff]
      intro text htext hblank
      have hcolon : (parts last).findIdx? (Part.isSeparator ":") = none := by
        rw [parts, List.findIdx?_map]
        exact noColon_of_blank htext hblank
      unfold Part.property? at hp'
      rw [hcolon] at hp'
      cases hp'
    have hmapM : ((items ++ [last]).map parts).mapM Part.property? = some (properties ++ [(p', space)]) := by
      rw [List.map_append, List.mapM_append, hprops, List.map_singleton, List.mapM_cons, hp']
      rfl
    refine ⟨.new (.object space) ((properties ++ [(p', space)]).map (·.1)), ?_, blind_object ?_⟩
    · rw [List.map_append, List.map_singleton] at hmapM
      unfold Part.asObject
      dsimp only
      rw [splitOn_parts, hall, List.map_append, List.map_singleton, List.getLast?_concat, Option.map_some, hended]
      simp [hmapM]
    · rw [List.map_append, List.map_append, List.map_append, hblind]
      simp [hblind']
  · rw [keepsObject, hall, List.all_append, List.dropLast_concat]
    simp only [hkept, htight, List.all_cons, List.all_nil, hlast.kept, Bool.and_true]

end Judged
end JsxEdit
