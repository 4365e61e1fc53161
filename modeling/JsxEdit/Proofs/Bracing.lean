import JsxEdit.Proofs.Listed
import JsxEdit.Proofs.Slot

/-
Values in braces that are put into a tag.

Two pairs of braces around properties that can be read anywhere are read as an object literal of those properties.
-/
set_option autoImplicit false

namespace JsxEdit

open Piece (allEvents)
open Judged (restOf IsObject)
open Scan (restTokens Halts startsMarkup)
open Scan.Stand (InBraces InTag step_close step_open)

variable {base around : List Mode} {s : Scan.Stand}

/-! ## Runs over braces -/

theorem step_brace (h : InTag around s) (r : List Char) : s.step '\x7b' r =
    ([.enter .braces, .token ⟨.delimiter, s.pos, "\x7b"⟩], ⟨.braces :: .tag :: around, some '\x7b', s.pos + 1, 0, []⟩) := by
  have hsettle : Scan.settle ('\x7b' :: r) s.stack = .tag :: around := by
    rw [h.stack]
    exact Piece.Opened.settle_eq _ (show Mode.tag ≠ .markup by decide)
  have hm : s.matched? ('\x7b' :: r) = some ⟨[(.delimiter, 1)], .enter .braces⟩ := by
    unfold Scan.Stand.matched?
    rw [hsettle]
    exact Scan.tag?_brace r
  rw [Scan.Stand.step_match h.skip hm, hsettle, Scan.Stand.pends, hsettle, h.pending]
  rfl

theorem brings_cons (s : Scan.Stand) (c : Char) (cs r : List Char) :
    s.brings r (c :: cs) = (s.step c (cs ++ r)).1 ++ (s.step c (cs ++ r)).2.brings r cs := rfl

theorem after_cons (s : Scan.Stand) (c : Char) (cs r : List Char) :
    s.after r (c :: cs) = (s.step c (cs ++ r)).2.after r cs := rfl

/-- A text for between braces, and what it is read as there. -/
def Contents (text : String) (P : List Judged → Prop) : Prop :=
  ∀ base (s : Scan.Stand) z, s.At (.braces :: base) → ∃ ps, s.brings ('\x7d' :: z) text.toList = allEvents ps ∧
    InBraces base (s.after ('\x7d' :: z) text.toList) ∧
      ∀ pos, P (judgeAll ps ++ restOf pos (s.after ('\x7d' :: z) text.toList).pending)

/-- The pieces of the characters at the end of an expression. -/
def restPieces (pos : Nat) (pending : List Char) : List Piece := (restTokens pos pending).map .token

theorem judgeAll_restPieces (pos : Nat) (pending : List Char) : judgeAll (restPieces pos pending) = restOf pos pending :=
  Judged.judgeAll_tokens _

theorem allEvents_restPieces (pos : Nat) (pending : List Char) :
    allEvents (restPieces pos pending) = (restTokens pos pending).map .token := Piece.allEvents_tokens _

/-- A text for between braces is followed by the brace that closes them. -/
theorem Contents.closed {text : String} {P : List Judged → Prop} (h : Contents text P) (hs : s.At (.braces :: base))
    (z : List Char) : ∃ mid tail, tail.text = "\x7d" ∧ P (judgeAll mid) ∧
      s.brings z (text.toList ++ ['\x7d']) = allEvents (mid ++ [.token tail]) ++ [.leave] ∧
      ∃ pos, s.after z (text.toList ++ ['\x7d']) = ⟨base, some '\x7d', pos + 1, 0, []⟩ := by
  obtain ⟨ps, hbrings, hin, hjudged⟩ := h base s z hs
  generalize hlast : s.after ('\x7d' :: z) text.toList = last at hin hjudged
  have hstep := step_close hin z
  refine ⟨ps ++ restPieces last.pos last.pending, ⟨.delimiter, last.pos, "\x7d"⟩, rfl, ?_, ?_, last.pos, ?_⟩
  · rw [Judged.judgeAll_append, judgeAll_restPieces]
    exact hjudged _
  · rw [Scan.Stand.brings_append, List.singleton_append, hbrings, hlast, brings_cons, List.nil_append, hstep,
      Piece.allEvents_append, Piece.allEvents_append, allEvents_restPieces]
    simp [Scan.Stand.brings, allEvents, Piece.events]
  · rw [Scan.Stand.after_append, List.singleton_append, hlast, after_cons, List.nil_append, hstep]
    rfl

/-- Braces with white space around them, and something in them. -/
def Braced (lead trail : String) (P : List Judged → Prop) (xs : List Judged) : Prop :=
  ∃ pos pos' head mid tail, head.text = "\x7b" ∧ tail.text = "\x7d" ∧ P (judgeAll mid) ∧
    xs = restOf pos lead.toList.reverse ++
      judge (.stretch .braces (.token head :: (mid ++ [.token tail]))) :: restOf pos' trail.toList.reverse

/-- A text for between braces can be put in braces with white space around them. -/
theorem Contents.braced {text : String} {P : List Judged → Prop} (h : Contents text P) {lead trail : String}
    (hlead : Text.isBlank lead = true) (htrail : Text.isBlank trail = true) :
    Contents (lead ++ ("\x7b" ++ text ++ "\x7d") ++ trail) (Braced lead trail P) := by
  intro base s z hs
  have hhalts {c : Char} (hc : c = '\x7b' ∨ c = '\x7d') (w : List Char) : Halts (c :: w) := by
    rcases hc with rfl | rfl <;> exact .here (by decide) (by decide) w
  have hmute {space : String} (hspace : Text.isBlank space = true) : ∀ c ∈ space.toList, Scan.isMute c = true :=
    fun c hc => Scan.isMute_of_isSpace (List.all_eq_true.mp hspace c hc)
  have htext : (lead ++ ("\x7b" ++ text ++ "\x7d") ++ trail).toList =
      lead.toList ++ '\x7b' :: ((text.toList ++ ['\x7d']) ++ trail.toList) := by
    simp
  rw [htext]
  -- the white space before the brace, and the brace
  obtain ⟨hnone₁, hin₁, hpending₁⟩ := Scan.Stand.passes_mute hs.inBraces (hmute hlead)
    (hhalts (.inl rfl) ((text.toList ++ ['\x7d']) ++ trail.toList ++ '\x7d' :: z))
  generalize hs₁ : s.after ('\x7b' :: ((text.toList ++ ['\x7d']) ++ trail.toList ++ '\x7d' :: z)) lead.toList = s₁
    at hin₁ hpending₁
  have hstep := step_open hin₁ ((text.toList ++ ['\x7d']) ++ trail.toList ++ '\x7d' :: z)
  rw [hpending₁, hs.pending, List.append_nil] at hstep
  -- what stands between the braces, and the white space after them
  obtain ⟨mid, tail, htail, hmid, hbrings, pos, hafter⟩ :=
    h.closed (Scan.Stand.At.of_before (c := '\x7b') (by decide) s₁.pos) (trail.toList ++ '\x7d' :: z)
  have hin₂ : InBraces base ⟨.braces :: base, some '\x7d', pos + 1, 0, []⟩ := ⟨rfl, rfl⟩
  obtain ⟨hnone₂, hin₃, hpending₃⟩ := Scan.Stand.passes_mute hin₂ (hmute htrail) (hhalts (.inr rfl) z)
  have hend : s.after ('\x7d' :: z) (lead.toList ++ '\x7b' :: ((text.toList ++ ['\x7d']) ++ trail.toList)) =
      Scan.Stand.after ('\x7d' :: z) ⟨.braces :: base, some '\x7d', pos + 1, 0, []⟩ trail.toList := by
    rw [Scan.Stand.after_append, List.cons_append, hs₁, after_cons, hstep]
    dsimp only
    rw [Scan.Stand.after_append, hafter]
  rw [hend]
  refine ⟨restPieces s₁.pos lead.toList.reverse ++
    [.stretch .braces (.token ⟨.delimiter, s₁.pos, "\x7b"⟩ :: (mid ++ [.token tail]))], ?_, hin₃, fun pos' => ?_⟩
  · rw [Scan.Stand.brings_append, List.cons_append, hnone₁, List.nil_append, hs₁, brings_cons, hstep]
    dsimp only
    rw [Scan.Stand.brings_append, hbrings, hafter, hnone₂, List.append_nil]
    simp [Piece.allEvents_append, allEvents_restPieces, Piece.events, allEvents]
  · rw [hpending₃, List.append_nil, Judged.judgeAll_append, judgeAll_restPieces, List.append_assoc]
    exact ⟨_, pos', _, mid, tail, rfl, htail, hmid, rfl⟩

/-- A run over two pairs of braces, with a text for between braces in them. -/
theorem slot_passes {text : String} {P : List Judged → Prop} (hcontents : Contents text P) (h : InTag around s)
    {lead trail : String} (hlead : Text.isBlank lead = true) (htrail : Text.isBlank trail = true) (r : List Char) :
    ∃ head mid tail, head.text = "\x7b" ∧ tail.text = "\x7d" ∧ Braced lead trail P (judgeAll mid) ∧
      s.brings r ("\x7b" ++ lead ++ ("\x7b" ++ text ++ "\x7d") ++ trail ++ "\x7d").toList =
        (Piece.stretch .braces (.token head :: (mid ++ [.token tail]))).events ∧
      InTag around (s.after r ("\x7b" ++ lead ++ ("\x7b" ++ text ++ "\x7d") ++ trail ++ "\x7d").toList) := by
  have htext : ("\x7b" ++ lead ++ ("\x7b" ++ text ++ "\x7d") ++ trail ++ "\x7d").toList =
      '\x7b' :: ((lead ++ ("\x7b" ++ text ++ "\x7d") ++ trail).toList ++ ['\x7d']) := by
    simp
  rw [htext, brings_cons, after_cons, step_brace h]
  obtain ⟨mid, tail, htail, hmid, hbrings, pos, hafter⟩ :=
    (hcontents.braced hlead htrail).closed (Scan.Stand.At.of_before (c := '\x7b') (by decide) s.pos) r
  refine ⟨⟨.delimiter, s.pos, "\x7b"⟩, mid, tail, rfl, htail, hmid, ?_, ?_⟩
  · rw [hbrings]
    simp [Piece.events, allEvents]
  · rw [hafter]
    exact ⟨rfl, rfl, rfl, Nat.succ_ne_zero _⟩

/-! ## What is read between braces -/

theorem isBlank_ofToken (t : Token) : (Tag.ofToken t).part.isBlank = Text.isBlank t.text := rfl

theorem blank_restOf {pos : Nat} {space : String} (hspace : Text.isBlank space = true) :
    ∀ x ∈ restOf pos space.toList.reverse, x.part.isBlank = true := by
  intro x hx
  unfold restOf restTokens at hx
  split at hx
  · cases hx
  · obtain rfl := List.mem_singleton.mp hx
    rw [isBlank_ofToken, List.reverse_reverse, String.ofList_toList]
    exact hspace

section

variable {pos pos' : Nat} {lead trail : String} {x : Judged}

theorem filter_around (hlead : Text.isBlank lead = true) (htrail : Text.isBlank trail = true) (hx : x.part.isBlank = false) :
    (Judged.parts (restOf pos lead.toList.reverse ++ x :: restOf pos' trail.toList.reverse)).filter (fun p => !p.isBlank) =
      [x.part] := by
  have hnone {pos : Nat} {space : String} (hspace : Text.isBlank space = true) :
      (Judged.parts (restOf pos space.toList.reverse)).filter (fun p => !p.isBlank) = [] := by
    refine List.filter_eq_nil_iff.mpr fun p hp => ?_
    obtain ⟨y, hy, rfl⟩ := List.mem_map.mp hp
    simp [blank_restOf hspace y hy]
  have hsome : (fun p : Part => !p.isBlank) x.part = true := by simp [hx]
  rw [Judged.parts, List.map_append, List.map_cons, List.filter_append, ← Judged.parts, hnone hlead,
    List.filter_cons_of_pos (p := fun p : Part => !p.isBlank) hsome, ← Judged.parts, hnone htrail, List.nil_append]

theorem leaves_around : Part.allLeaves (Judged.parts (restOf pos lead.toList.reverse ++ x :: restOf pos' trail.toList.reverse)) =
    Part.allLeaves (Judged.parts (restOf pos lead.toList.reverse)) ++
      (x.part.leaves ++ Part.allLeaves (Judged.parts (restOf pos' trail.toList.reverse))) := by
  rw [Judged.allLeaves_append]
  rfl

theorem allTokens_around (hx : Leaf.AllTokens x.part.leaves) : Leaf.AllTokens (Part.allLeaves
    (Judged.parts (restOf pos lead.toList.reverse ++ x :: restOf pos' trail.toList.reverse))) := by
  rw [leaves_around]
  exact List.forall_mem_append.mpr ⟨Judged.allTokens_tokens _, List.forall_mem_append.mpr ⟨hx, Judged.allTokens_tokens _⟩⟩

theorem written_around : Leaf.allWritten (Part.allLeaves
    (Judged.parts (restOf pos lead.toList.reverse ++ x :: restOf pos' trail.toList.reverse))) =
      lead ++ Leaf.allWritten x.part.leaves ++ trail := by
  rw [leaves_around, Leaf.allWritten_append, Leaf.allWritten_append, Judged.allWritten_restOf, Judged.allWritten_restOf,
    List.reverse_reverse, List.reverse_reverse, String.ofList_toList, String.ofList_toList, String.append_assoc]

theorem objects_around (hlead : Text.isBlank lead = true) (htrail : Text.isBlank trail = true) (hx : x.part.isBlank = false) :
    ((restOf pos lead.toList.reverse ++ x :: restOf pos' trail.toList.reverse).all fun y => y.part.isBlank || y.object) =
      x.object := by
  have hrest {pos : Nat} {space : String} (hspace : Text.isBlank space = true) :
      (restOf pos space.toList.reverse).all (fun y => y.part.isBlank || y.object) = true :=
    List.all_eq_true.mpr fun y hy => by rw [blank_restOf hspace y hy, Bool.true_or]
  rw [List.all_append, List.all_cons, hrest hlead, hrest htrail, hx, Bool.and_true, Bool.true_and, Bool.false_or]

end

/-- A stretch of braces with white space around it is read as the object literal that is between the braces, or else as
its text. -/
theorem reading_braces {pos pos' : Nat} {lead trail : String} (hlead : Text.isBlank lead = true)
    (htrail : Text.isBlank trail = true) {head tail : Token} (hhead : head.text = "\x7b") (htail : tail.text = "\x7d")
    {ps : List Piece} (htokens : Leaf.AllTokens (Part.allLeaves (Markup.allParts ps))) {xs : List Judged}
    (hxs : xs = restOf pos lead.toList.reverse ++
      judge (.stretch .braces (.token head :: (ps ++ [.token tail]))) :: restOf pos' trail.toList.reverse) :
    Part.reading (Judged.parts xs) = ⟨lead, some ((Part.asObject (Markup.allParts ps)).getD (Expression.plain
        ("\x7b" ++ Leaf.allWritten (Part.allLeaves (Markup.allParts ps)) ++ "\x7d"))), trail⟩ ∧
      (Judged.keepsExpression xs =
        if (Part.asObject (Markup.allParts ps)).isSome then Judged.keepsObject (judgeAll ps) else
          Expression.keeps ("\x7b" ++ Leaf.allWritten (Part.allLeaves (Markup.allParts ps)) ++ "\x7d")) := by
  obtain ⟨hpart, -, hobject⟩ := judge_braces htail head ps
  generalize judge (.stretch .braces (.token head :: (ps ++ [.token tail]))) = x at hpart hobject hxs
  subst hxs
  set written := Leaf.allWritten (Part.allLeaves (Markup.allParts ps)) with hwritten
  have hleaves : x.part.leaves = .token head :: (Part.allLeaves (Markup.allParts ps) ++ [.token tail]) := by
    rw [hpart]
    rfl
  have hx : x.part.isBlank = false := by rw [hpart]; rfl
  have htoken : Leaf.AllTokens x.part.leaves := by
    rw [hleaves]
    exact List.forall_mem_cons.mpr ⟨⟨head, rfl⟩, List.forall_mem_append.mpr ⟨htokens, List.forall_mem_singleton.mpr ⟨tail, rfl⟩⟩⟩
  have htext : Leaf.allWritten x.part.leaves = "\x7b" ++ written ++ "\x7d" := by
    rw [hleaves, Leaf.allWritten, Leaf.allWritten_append, ← hwritten, Leaf.allWritten, Leaf.allWritten, Leaf.written,
      Leaf.written, hhead, htail]
    simp only [String.append_assoc, String.append_empty]
  have hsolid : Text.Solid ("\x7b" ++ written ++ "\x7d").toList := by
    refine ⟨⟨'\x7b', written.toList ++ ['\x7d'], by simp, by decide⟩, '\x7d', '\x7b' :: written.toList, by simp, by decide⟩
  obtain ⟨hleadEq, htrim, htrailEq⟩ := Text.edges_of_core hlead htrail hsolid
  have hblank : Text.isBlank (lead ++ ("\x7b" ++ written ++ "\x7d") ++ trail) = false := by
    simp [Text.isBlank, show Text.isSpace '\x7b' = false by decide]
  have hobject? : Part.object? (Judged.parts (restOf pos lead.toList.reverse ++ x :: restOf pos' trail.toList.reverse)) =
      Part.asObject (Markup.allParts ps) := by
    rw [Part.object?, filter_around hlead htrail hx, hpart]
    simp [hhead]
  refine ⟨?_, ?_⟩
  · rw [Part.reading, Leaf.tokenText?_of_allTokens (allTokens_around htoken), written_around, htext, hobject?]
    simp only [Expression.ofText_eq, htrim, hleadEq, htrailEq, hblank, Bool.false_eq_true, if_false]
  · rw [Judged.keepsExpression, Leaf.tokenText?_of_allTokens (allTokens_around htoken), written_around, htext, hobject?]
    simp only [hblank, Bool.false_or, htrim]
    cases hobj : Part.asObject (Markup.allParts ps) with
    | none => rfl
    | some o =>
      rw [Option.isSome_some, if_pos rfl, ← hobject]
      exact objects_around hlead htrail hx

/-- The pieces between two braces stand for the node, with and without the braces. -/
structure Yields (n : Node) (xs : List Judged) : Prop where
  tokens : Leaf.AllTokens (Part.allLeaves (Judged.parts xs))
  node : ((Part.asObject (Judged.parts xs)).getD
    (Expression.plain ("\x7b" ++ Leaf.allWritten (Part.allLeaves (Judged.parts xs)) ++ "\x7d"))).blind = n.blind
  kept : (if (Part.asObject (Judged.parts xs)).isSome then Judged.keepsObject xs else
    Expression.keeps ("\x7b" ++ Leaf.allWritten (Part.allLeaves (Judged.parts xs)) ++ "\x7d")) = true

theorem Judged.IsObject.yields {xs : List Judged} {o : Node} (h : IsObject xs o) : Yields o xs := by
  obtain ⟨o', hobject, hblind⟩ := h.object
  refine ⟨h.tokens, ?_, ?_⟩
  · rw [hobject]
    exact hblind
  · rw [hobject, Option.isSome_some, if_pos rfl]
    exact h.kept

/-- A text for between braces that stands for a node, in two pairs of braces in a tag, is a slot with the node. -/
theorem slot_reads {text : String} {n : Node} (hcontents : Contents text (Yields n)) (h : InTag around s)
    {lead trail : String} (hlead : Text.isBlank lead = true) (htrail : Text.isBlank trail = true) (r : List Char) :
    ∃ items g, s.brings r ("\x7b" ++ lead ++ ("\x7b" ++ text ++ "\x7d") ++ trail ++ "\x7d").toList =
        (Piece.stretch .braces items).events ∧
      InTag around (s.after r ("\x7b" ++ lead ++ ("\x7b" ++ text ++ "\x7d") ++ trail ++ "\x7d").toList) ∧
      Piece.StartsWithBrace items ∧ Markup.part (.stretch .braces items) = .group g ∧
      (judge (.stretch .braces items)).reading = true ∧ (Markup.slot g).blind = (Node.new (.slot lead trail) [n]).blind := by
  obtain ⟨head, mid, tail, hhead, htail, ⟨pos, pos', head', mid', tail', hhead', htail', hyields, hmid⟩, hbrings, hafter⟩ :=
    slot_passes hcontents h hlead htrail r
  obtain ⟨hpart, hreading, -⟩ := judge_braces htail head mid
  have htokens := hyields.tokens
  have hnode := hyields.node
  have hkept := hyields.kept
  rw [Judged.parts_judgeAll] at htokens hnode hkept
  obtain ⟨hread, hkeeps⟩ := reading_braces hlead htrail hhead' htail' htokens hmid
  rw [Judged.parts_judgeAll] at hread
  rw [Judged.part_judge] at hpart
  refine ⟨_, _, hbrings, hafter, ⟨head, _, rfl, hhead⟩, hpart, ?_, ?_⟩
  · rw [hreading, hkeeps]
    exact hkept
  · rw [hread]
    simp only [Markup.slot, Option.toList_some, Node.new, Node.blind_mk, List.map_cons, List.map_nil, hnode]

/-! ## Object literals -/

namespace Edit

/-- What an object literal is read as once it is written. -/
structure ReadsAs (o n : Node) : Prop where
  write : n.write = o.write
  valid : o.isValid = true → n.isValid = true
  node : n = o ∨ o.children = [] ∧ ∀ trailing, n.kind ≠ .object trailing

/-- What is between braces is written as it is read, whatever it is. -/
theorem keeps_braces (text : String) : Expression.keeps ("\x7b" ++ text ++ "\x7d") = true := by
  have hchars : ("\x7b" ++ text ++ "\x7d").toList = '\x7b' :: (text.toList ++ ['\x7d']) := by simp
  unfold Expression.keeps
  simp [hchars, Expression.startsWithDouble]

theorem yields_plain {xs : List Judged} {text : String} (htokens : Leaf.AllTokens (Part.allLeaves (Judged.parts xs)))
    (hnone : Part.asObject (Judged.parts xs) = none) (hwritten : Leaf.allWritten (Part.allLeaves (Judged.parts xs)) = text) :
    Yields (Expression.plain ("\x7b" ++ text ++ "\x7d")) xs := by
  refine ⟨htokens, ?_, ?_⟩
  · rw [hnone, Option.getD_none, hwritten]
  · rw [hnone, Option.isSome_none, if_neg Bool.false_ne_true, hwritten]
    exact keeps_braces text

theorem contents_comma {space : String} (hspace : Text.isBlank space = true) :
    Contents ("," ++ space) (Yields (Expression.plain ("\x7b" ++ ("," ++ space) ++ "\x7d"))) := by
  intro base s z hs
  have hblank : startsMarkup ((space.toList ++ '\x7d' :: z).dropWhile Text.isSpace) = false :=
    ((Scan.Spelled.blank hspace).halts _ (.here (by decide) (by decide) z)).not_startsMarkup
  have hstep := Scan.Stand.step_separator hs.inBraces (.inl rfl) hblank
  rw [hs.pending] at hstep
  have hin : InBraces base ⟨.braces :: base, some ',', s.pos + 1, 0, []⟩ := ⟨rfl, rfl⟩
  obtain ⟨hnone, hafter, hpending⟩ := blank_passes hin hspace z
  have htext : ("," ++ space).toList = ',' :: space.toList := by simp
  rw [htext, brings_cons, after_cons, hstep]
  dsimp only
  rw [hnone, List.append_nil]
  refine ⟨[.token ⟨.separator, s.pos, ","⟩], rfl, hafter, fun pos => ?_⟩
  rw [hpending, List.append_nil]
  let comma : Token := ⟨.separator, s.pos, ","⟩
  have htokens : Leaf.AllTokens (Part.allLeaves (Judged.parts (Tag.ofToken comma :: restOf pos space.toList.reverse))) :=
    List.forall_mem_cons.mpr ⟨⟨comma, rfl⟩, Judged.allTokens_tokens _⟩
  -- nothing stands before the comma, which is no property
  have hnoObject : Part.asObject (Judged.parts (Tag.ofToken comma :: restOf pos space.toList.reverse)) = none := by
    have hsplit := @Judged.splitOn_cons (Part.isSeparator ",") [] (List.forall_mem_nil _) (Tag.ofToken comma) rfl
      (restOf pos space.toList.reverse)
    rw [Judged.splitOn_whole (Judged.whole_restOf _ _ _), List.nil_append] at hsplit
    have hended : Option.filter Text.isBlank ((some (Part.allLeaves (Judged.parts (restOf pos space.toList.reverse)))).bind
        Leaf.tokenText?) = some space := by
      rw [Option.bind_some, Judged.tokenText?_space pos space, Option.filter_some, if_pos hspace]
    unfold Part.asObject
    dsimp only
    rw [Judged.splitOn_parts, hsplit]
    simp only [List.map_cons, List.map_nil, List.getLast?_cons_cons, List.getLast?_singleton, Option.map_some, hended,
      Option.isSome_some, if_true]
    rfl
  have hwritten : Leaf.allWritten (Part.allLeaves (Judged.parts (Tag.ofToken comma :: restOf pos space.toList.reverse))) =
      "," ++ space := by
    have hrest := Judged.allWritten_restOf pos space.toList.reverse
    rw [List.reverse_reverse, String.ofList_toList] at hrest
    exact congrArg ("," ++ ·) hrest
  exact yields_plain htokens hnoObject hwritten

theorem kind_plain {text trailing : String} : (Expression.plain text).kind ≠ .object trailing := by
  unfold Expression.plain
  split
  · next k hk =>
    rintro rfl
    exact kind?_ne_object hk
  · exact nofun

theorem isValid_plain (text : String) : (Expression.plain text).isValid = true := by
  unfold Expression.plain
  split
  · next k hk =>
    have hvalid : k.isInvalid = false := by
      revert hk
      unfold Expression.kind?
      dsimp only
      repeat' split
      all_goals rintro ⟨⟩ <;> rfl
    rw [Node.isValid_new, hvalid]
    rfl
  · rfl

theorem Listed.reads {o : Node} {trailing : String} (h : Listed o trailing) : ∃ n text, ReadsAs o n ∧
    o.write = "\x7b" ++ text ++ "\x7d" ∧ Contents text (Yields n) := by
  have hwrite : o.write = "\x7b" ++ (Node.writeItems o.children ++ trailing) ++ "\x7d" := by
    rw [← Judged.write_object]
    obtain ⟨k, i, as, cs⟩ := o
    obtain rfl : k = .object trailing := h.kind
    rfl
  by_cases hcomma : Text.isBlank trailing = true ∨ o.children ≠ []
  · -- the properties are read again, and what stands after them
    refine ⟨o, _, ⟨rfl, id, .inl rfl⟩, hwrite, fun base s z hs => ?_⟩
    have hends : Text.isBlank trailing = true ∨
        o.children ≠ [] ∧ ∃ space, trailing = "," ++ space ∧ Text.isBlank space = true := by
      rcases hcomma with hblank | hne
      · exact .inl hblank
      · exact h.ends.imp_right fun hspace => ⟨hne, hspace⟩
    obtain ⟨ps, hbrings, hafter, hobject⟩ := object_passes h.clauses hends hs z
    refine ⟨ps, hbrings, hafter, fun pos => ?_⟩
    have hyields := (hobject pos).yields
    refine ⟨hyields.tokens, hyields.node.trans ?_, hyields.kept⟩
    obtain ⟨k, i, as, cs⟩ := o
    obtain rfl : k = .object trailing := h.kind
    obtain rfl : as = [] := h.attributes
    rw [Node.new, Node.blind_mk, Node.blind_mk, Node.children_mk]
  · rw [not_or, ne_eq, not_not] at hcomma
    obtain ⟨hblank, hnone⟩ := hcomma
    obtain ⟨space, rfl, hspace⟩ := h.ends.resolve_left hblank
    have htext : Node.writeItems o.children ++ ("," ++ space) = "," ++ space := by
      rw [hnone]
      exact String.empty_append ..
    rw [htext] at hwrite
    refine ⟨_, _, ⟨?_, fun _ => isValid_plain _, .inr ⟨hnone, fun _ => kind_plain⟩⟩, hwrite, contents_comma hspace⟩
    rw [hwrite]
    exact (Expression.plain_agrees _).iff.mpr (keeps_braces _)

end Edit
end JsxEdit
