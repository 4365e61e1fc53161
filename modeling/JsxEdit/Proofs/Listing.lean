import JsxEdit.Proofs.Clause
import JsxEdit.Proofs.Likeness

/-
Reading an object literal that is written.

A run over the text of a property brings the parts of that property, wherever it stands. This is known of a property that
is made up of plain text, and it is all that has to be known of each property for a run over the object literal.
-/
set_option autoImplicit false

namespace JsxEdit

open Scan (restTokens Spells Spelled isMute Halts startsMarkup)
open Scan.Stand (InBraces At)
open Piece (allEvents)
open Tag (ofToken)
open Judged (IsItem AreItems IsObject restOf)

/-! ## Punctuation in braces -/

namespace Scan.Stand

variable {base : List Mode} {s : Stand}

theorem lead?_separator {c : Char} (hc : c = ',' ∨ c = ':') {r : List Char}
    (hr : startsMarkup (r.dropWhile Text.isSpace) = false) (before : Option Char) : lead? before (c :: r) = none := by
  rcases hc with rfl | rfl <;> simp [lead?, leadLength?, List.isPrefixOf, hr]

/-- A comma or a colon divides. -/
theorem step_separator (h : InBraces base s) {c : Char} (hc : c = ',' ∨ c = ':') {r : List Char}
    (hr : startsMarkup (r.dropWhile Text.isSpace) = false) : s.step c r =
      ((restTokens s.pos s.pending ++ [(⟨.separator, s.pos, .ofList [c]⟩ : Token)]).map .token,
        ⟨.braces :: base, some c, s.pos + 1, 0, []⟩) := by
  have hm : expression? ['\x7d'] s.before (c :: r) = one .separator (0 + 1) .stay := by
    have hlead := lead?_separator hc hr s.before
    rcases hc with rfl | rfl <;> (rw [expression?, hlead]; rfl)
  rw [step_stay h hm, pendingToken_braces, List.map_append]
  rfl

/-- A brace that closes the expression. -/
theorem step_close (h : InBraces base s) (r : List Char) : s.step '\x7d' r =
    ((restTokens s.pos s.pending).map .token ++ [.token ⟨.delimiter, s.pos, "\x7d"⟩, .leave],
      ⟨base, some '\x7d', s.pos + 1, 0, []⟩) := by
  have hm : s.matched? ('\x7d' :: r) = some ⟨[(.delimiter, 1)], .leave 1⟩ := by
    rw [h.matched?_eq]
    rfl
  rw [step_match h.skip hm, h.settle_eq, h.pends_eq, pendingToken_braces]
  rfl

/-- A brace that opens another one. -/
theorem step_open (h : InBraces base s) (r : List Char) : s.step '\x7b' r =
    ((restTokens s.pos s.pending).map .token ++ [.enter .braces, .token ⟨.delimiter, s.pos, "\x7b"⟩],
      ⟨.braces :: .braces :: base, some '\x7b', s.pos + 1, 0, []⟩) := by
  have hlead : lead? s.before ('\x7b' :: r) = none := by simp [lead?, leadLength?, List.isPrefixOf, isLeadChar]
  have hm : s.matched? ('\x7b' :: r) = some ⟨[(.delimiter, 1)], .enter .braces⟩ := by
    rw [h.matched?_eq, expression?, hlead]
    rfl
  rw [step_match h.skip hm, h.settle_eq, h.pends_eq, pendingToken_braces]
  rfl

end Scan.Stand

/-! ## Properties -/

/-- White space, and then a comma or the brace that closes the object literal. -/
def Follows (r : List Char) : Prop :=
  ∃ w d v, r = w ++ d :: v ∧ w.all Text.isSpace = true ∧ (d = ',' ∨ d = '\x7d')

theorem Follows.halts {r : List Char} (h : Follows r) : Halts r := by
  obtain ⟨w, d, v, rfl, hw, hd⟩ := h
  refine Halts.mute (fun c hc => Scan.isMute_of_isSpace (List.all_eq_true.mp hw c hc)) ?_
  rcases hd with rfl | rfl <;> exact .here (by decide) (by decide) v

/-- A property that is read from what is written for it, wherever that stands. -/
structure Clause (p : Node) : Prop where
  starts : ∀ r, startsMarkup ((p.write.toList ++ r).dropWhile Text.isSpace) = false
  passes : ∀ base (s : Scan.Stand) r, s.At (.braces :: base) → Follows r → ∃ ps, s.brings r p.write.toList = allEvents ps ∧
    InBraces base (s.after r p.write.toList) ∧ ∃ pos space, Text.isBlank space = true ∧
      IsItem (judgeAll ps ++ restOf pos (space.toList.reverse ++ (s.after r p.write.toList).pending)) p space

theorem Clause.item {p : Node} (h : Clause p) {base : List Mode} {s : Scan.Stand} {r : List Char}
    (hs : s.At (.braces :: base)) (hr : Follows r) : ∃ ps, s.brings r p.write.toList = allEvents ps ∧
      InBraces base (s.after r p.write.toList) ∧ ∀ pos space, Text.isBlank space = true →
        IsItem (judgeAll ps ++ restOf pos (space.toList.reverse ++ (s.after r p.write.toList).pending)) p space := by
  obtain ⟨ps, hbrings, hafter, pos, space, -, hitem⟩ := h.passes base s r hs hr
  exact ⟨ps, hbrings, hafter, fun pos' space' hspace' => hitem.respaced pos' hspace'⟩

theorem write_property (key space between : String) (v : Node) :
    (Node.new (.property key space between) [v]).write = space ++ key ++ between ++ v.write := by
  simp only [Node.new, Node.write, Node.writeAll, Kind.opening, Kind.closing, String.append_empty]

/-- A property whose key and value are plain text. -/
theorem Clause.of_spelled {k v : List Char} (hk : Spelled k) (hv : Spelled v)
    (hkey : Part.isKey (Text.trim (.ofList k)) = true) (hvalue : Text.isBlank (.ofList v) = false)
    (htrail : Text.trail (.ofList v) = "") (hkeeps : Expression.keeps (Text.trim (.ofList v)) = true) :
    Clause (.new (.property (Text.trim (.ofList k)) (Text.lead (.ofList k))
      (Text.trail (.ofList k) ++ ":" ++ Text.lead (.ofList v))) [Expression.ofText (.ofList v)]) := by
  have hwrite : (Node.new (.property (Text.trim (.ofList k)) (Text.lead (.ofList k))
      (Text.trail (.ofList k) ++ ":" ++ Text.lead (.ofList v))) [Expression.ofText (.ofList v)]).write.toList =
        k ++ ':' :: v := by
    have hexpression : (Expression.ofText (.ofList v)).write = Text.trim (.ofList v) :=
      (Expression.ofText_agrees _).iff.mpr hkeeps
    have hkeyText := Text.lead_append_trim_append_trail (Judged.ne_blank_of_isKey hkey)
    have hvalueText := Text.lead_append_trim_append_trail hvalue
    rw [htrail, String.append_empty] at hvalueText
    rw [write_property, hexpression]
    calc (_ : List Char) = (Text.lead (.ofList k) ++ Text.trim (.ofList k) ++ Text.trail (.ofList k) ++ ":" ++
          (Text.lead (.ofList v) ++ Text.trim (.ofList v))).toList := by simp only [String.append_assoc]
      _ = k ++ ':' :: v := by rw [hkeyText, hvalueText]; simp
  constructor
  · intro r
    rw [hwrite, List.append_assoc]
    exact (hk.halts _ (.here (by decide) (by decide) _)).not_startsMarkup
  · intro base s r hs hr
    have hcolon : Halts (':' :: v ++ r) := .here (by decide) (by decide) _
    obtain ⟨ts, hbrings, hafter, x, hts, hx⟩ := hk.passes base s (':' :: v ++ r) hs.inBraces hcolon
    generalize hmid : s.after (':' :: v ++ r) k = mid at hafter hx
    have hstep := Scan.Stand.step_separator hafter (.inr rfl) (hv.halts r hr.halts).not_startsMarkup
    obtain ⟨us, hbrings', hafter', y, hus, hy⟩ :=
      hv.passes base ⟨.braces :: base, some ':', mid.pos + 1, 0, []⟩ r ⟨rfl, rfl⟩ hr.halts
    have hend : s.after r (k ++ ':' :: v) =
        (⟨.braces :: base, some ':', mid.pos + 1, 0, []⟩ : Scan.Stand).after r v := by
      rw [Scan.Stand.after_append, hmid, Scan.Stand.after, hstep]
    rw [hwrite, hend]
    generalize (⟨.braces :: base, some ':', mid.pos + 1, 0, []⟩ : Scan.Stand).after r v = last at hafter' hy ⊢
    have hkeyTokens : Spells (ts ++ restTokens mid.pos mid.pending) k := by
      have htokens := hts.append (Scan.spells_restTokens mid.pos mid.pending)
      rwa [hx, hs.pending] at htokens
    have hvalueTokens : Spells (us ++ restTokens 0 last.pending) v := by
      have htokens := hus.append (Scan.spells_restTokens 0 last.pending)
      rwa [hy] at htokens
    have hitem := @Judged.isItem_of_spells _ _ ⟨.separator, mid.pos, .ofList [':']⟩ _ _ hkeyTokens hvalueTokens
      ⟨rfl, rfl⟩ hkey hvalue hkeeps
    refine ⟨(ts ++ restTokens mid.pos mid.pending ++ ⟨.separator, mid.pos, .ofList [':']⟩ :: us).map .token, ?_, hafter',
      0, "", rfl, ?_⟩
    · rw [Scan.Stand.brings_append, hmid, Scan.Stand.brings, hstep, hbrings, hbrings', Piece.allEvents_tokens]
      simp
    · rw [htrail, ← List.cons_append, ← List.append_assoc, List.map_append] at hitem
      rw [Judged.judgeAll_tokens]
      exact hitem

/-! ## Object literals -/

theorem Follows.of_blank {w : List Char} (hw : w.all Text.isSpace = true) {d : Char} (hd : d = ',' ∨ d = '\x7d')
    (v : List Char) : Follows (w ++ d :: v) := ⟨w, d, v, rfl, hw, hd⟩

/-- A property and the comma after it. -/
theorem Clause.comma {p : Node} (h : Clause p) {base : List Mode} {s : Scan.Stand} (hs : s.At (.braces :: base))
    {r : List Char} (hr : startsMarkup (r.dropWhile Text.isSpace) = false) :
    ∃ ps item comma, s.brings r (p.write ++ ",").toList = allEvents ps ∧ judgeAll ps = item ++ [ofToken comma] ∧
      IsItem item p "" ∧ (comma.kind = .separator ∧ comma.text = ",") ∧
      (s.after r (p.write ++ ",").toList).At (.braces :: base) := by
  obtain ⟨ps, hbrings, hafter, hitem⟩ := h.item hs (Follows.of_blank (w := []) rfl (.inl rfl) r)
  rw [List.nil_append] at hbrings hafter hitem
  generalize hmid : s.after (',' :: r) p.write.toList = mid at hafter hitem
  have hstep := Scan.Stand.step_separator hafter (.inl rfl) hr
  have htext : (p.write ++ ",").toList = p.write.toList ++ [','] := String.toList_append
  rw [htext, Scan.Stand.brings_append, Scan.Stand.after_append, List.singleton_append, hmid, hbrings, Scan.Stand.brings,
    Scan.Stand.after, List.nil_append, hstep]
  refine ⟨ps ++ (restTokens mid.pos mid.pending ++ [(⟨.separator, mid.pos, .ofList [',']⟩ : Token)]).map .token,
    judgeAll ps ++ restOf mid.pos mid.pending, ⟨.separator, mid.pos, .ofList [',']⟩, ?_, ?_, hitem mid.pos "" rfl,
    ⟨rfl, rfl⟩, ⟨rfl, ?_, Nat.succ_ne_zero _, rfl, rfl⟩⟩
  · rw [Piece.allEvents_append, Piece.allEvents_tokens]
    exact congrArg _ (List.append_nil _)
  · rw [Judged.judgeAll_append, Judged.judgeAll_tokens, List.map_append, List.append_assoc]
    rfl
  · show Scan.atWordStart (some ',') = true
    decide

/-- Properties with commas after them. -/
theorem each_passes {ns : List Node} (h : ∀ n ∈ ns, Clause n) {base : List Mode} {s : Scan.Stand}
    (hs : s.At (.braces :: base)) {r : List Char} (hr : startsMarkup (r.dropWhile Text.isSpace) = false) :
    ∃ ps, s.brings r (Judged.writeEach ns).toList = allEvents ps ∧ AreItems (judgeAll ps) ns ∧
      (s.after r (Judged.writeEach ns).toList).At (.braces :: base) := by
  induction ns generalizing s with
  | nil => exact ⟨[], rfl, .nil, hs⟩
  | cons n ns ih =>
    rw [List.forall_mem_cons] at h
    have hrest : startsMarkup (((Judged.writeEach ns).toList ++ r).dropWhile Text.isSpace) = false := by
      cases ns with
      | nil => exact hr
      | cons m ms =>
        rw [Judged.writeEach, String.toList_append, String.toList_append, List.append_assoc, List.append_assoc]
        exact (h.2 m List.mem_cons_self).starts _
    obtain ⟨ps, item, comma, hbrings, hjudged, hitem, hcomma, hat⟩ := h.1.comma hs hrest
    obtain ⟨qs, hbrings', hitems, hat'⟩ := ih h.2 hat
    rw [Judged.writeEach, String.toList_append, Scan.Stand.brings_append, Scan.Stand.after_append]
    refine ⟨ps ++ qs, by rw [hbrings, hbrings', Piece.allEvents_append], ?_, hat'⟩
    rw [Judged.judgeAll_append, hjudged, List.append_assoc]
    exact .cons hitem hcomma hitems

/-- White space, and then the brace that closes the object literal. -/
theorem blank_passes {base : List Mode} {s : Scan.Stand} (hs : InBraces base s) {space : String}
    (hspace : Text.isBlank space = true) (z : List Char) : s.brings ('\x7d' :: z) space.toList = [] ∧
      InBraces base (s.after ('\x7d' :: z) space.toList) ∧
      (s.after ('\x7d' :: z) space.toList).pending = space.toList.reverse ++ s.pending :=
  Scan.Stand.passes_mute hs (fun c hc => Scan.isMute_of_isSpace (List.all_eq_true.mp hspace c hc))
    (.here (by decide) (by decide) z)

/-- What is written between the braces of an object literal is read as that object literal. -/
theorem object_passes {ns : List Node} (h : ∀ n ∈ ns, Clause n) {trailing : String}
    (htrailing : Text.isBlank trailing = true ∨ ns ≠ [] ∧ ∃ space, trailing = "," ++ space ∧ Text.isBlank space = true)
    {base : List Mode} {s : Scan.Stand} (hs : s.At (.braces :: base)) (z : List Char) :
    ∃ ps, s.brings ('\x7d' :: z) (Node.writeItems ns ++ trailing).toList = allEvents ps ∧
      InBraces base (s.after ('\x7d' :: z) (Node.writeItems ns ++ trailing).toList) ∧
      ∀ pos, IsObject (judgeAll ps ++
        restOf pos (s.after ('\x7d' :: z) (Node.writeItems ns ++ trailing).toList).pending)
        (.new (.object trailing) ns) := by
  -- white space after the last comma, or in an object literal without properties
  have hended {space : String} (hspace : Text.isBlank space = true) :
      ∃ ps, s.brings ('\x7d' :: z) (Judged.writeEach ns ++ space).toList = allEvents ps ∧
        InBraces base (s.after ('\x7d' :: z) (Judged.writeEach ns ++ space).toList) ∧
        ∀ pos, IsObject (judgeAll ps ++
          restOf pos (s.after ('\x7d' :: z) (Judged.writeEach ns ++ space).toList).pending)
          (.new (.object ((if ns.isEmpty then "" else ",") ++ space)) ns) := by
    have hblank : startsMarkup ((space.toList ++ '\x7d' :: z).dropWhile Text.isSpace) = false :=
      ((Spelled.blank hspace).halts _ (.here (by decide) (by decide) z)).not_startsMarkup
    obtain ⟨ps, hbrings, hitems, hat⟩ := each_passes h hs hblank
    obtain ⟨hnone, hafter, hpending⟩ := blank_passes hat.inBraces hspace z
    rw [String.toList_append, Scan.Stand.brings_append, Scan.Stand.after_append, hbrings, hnone, List.append_nil]
    refine ⟨ps, rfl, hafter, fun pos => ?_⟩
    rw [hpending, hat.pending, List.append_nil]
    exact hitems.ended (Judged.tokenText?_space pos space) hspace (Judged.whole_restOf _ _ _)
  rcases htrailing with hblank | ⟨hns, space, rfl, hspace⟩
  · cases ns using List.reverseRecOn with
    | nil => exact hended hblank
    | append_singleton ns n =>
      rw [List.forall_mem_append, List.forall_mem_singleton] at h
      obtain ⟨ps, hbrings, hitems, hat⟩ :=
        each_passes h.1 hs (h.2.starts (trailing.toList ++ '\x7d' :: z))
      obtain ⟨qs, hbrings', hafter, hitem⟩ := h.2.item hat (Follows.of_blank hblank (.inr rfl) z)
      obtain ⟨hnone, hafter', hpending⟩ := blank_passes hafter hblank z
      have htext : (Node.writeItems (ns ++ [n]) ++ trailing).toList =
          (Judged.writeEach ns).toList ++ (n.write.toList ++ trailing.toList) := by
        rw [Judged.writeItems_concat, String.toList_append, String.toList_append, List.append_assoc]
      rw [htext, Scan.Stand.brings_append, Scan.Stand.after_append, Scan.Stand.brings_append, Scan.Stand.after_append,
        List.append_assoc, hbrings, hbrings', hnone, List.append_nil]
      refine ⟨ps ++ qs, (Piece.allEvents_append ps qs).symm, hafter', fun pos => ?_⟩
      rw [hpending, Judged.judgeAll_append, List.append_assoc]
      exact hitems.concat (hitem pos trailing hblank)
  · rw [← String.append_assoc, Judged.writeItems_comma hns]
    have hobject := hended hspace
    rwa [List.isEmpty_eq_false_iff.mpr hns] at hobject

end JsxEdit
