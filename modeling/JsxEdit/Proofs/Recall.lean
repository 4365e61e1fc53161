import JsxEdit.Proofs.Expressive
import JsxEdit.Proofs.Listing
import JsxEdit.Proofs.Literal
import JsxEdit.Proofs.Restate

/-
The properties of an object literal, read elsewhere.

A property that was read in one place is read in the same way in any other: the matches that are made over its text are
the same there, since all of them end within it. Only a comment up to the end of the line at the end of a property takes
whatever comes after it, but for a line feed.
-/
set_option autoImplicit false

namespace JsxEdit

open List (Forall₂)
open Scan.Stand (Unmarked)

/-! ## Pieces without markup -/

namespace Piece

theorem mem_allEvents {e : Event} {ps : List Piece} : e ∈ allEvents ps ↔ ∃ p ∈ ps, e ∈ p.events := by
  induction ps with
  | nil => simp [allEvents]
  | cons p ps ih => simp [allEvents, ih]

theorem mem_allParts {p : Piece} {ps : List Piece} (h : p ∈ ps) : Markup.part p ∈ Markup.allParts ps := by
  induction h with
  | head => exact List.mem_cons_self
  | tail _ _ ih => exact List.mem_cons_of_mem _ ih

/-- Where all leaves are tokens, no markup starts. -/
theorem unmarked_events {p : Piece} (h : Formed p) (hcontent : ∀ items, p ≠ .stretch .content items)
    (htokens : Leaf.AllTokens (Markup.part p).leaves) : ∀ e ∈ p.events, Unmarked e := by
  induction h with
  | token t =>
    rw [events]
    exact List.forall_mem_singleton.mpr (Scan.Stand.unmarked_token t)
  | @stretch mode first items last opens ends accepted inner outer ih _ =>
    have hnode {n : Node} (hpart : Markup.part (.stretch mode (first ++ items ++ last)) = .leaf (.node n)) : False := by
      rw [hpart] at htokens
      obtain ⟨t, ht⟩ := htokens _ List.mem_cons_self
      cases ht
    have hgroup {t : Token} {closers : List String} (hfirst : first = [.token t]) (hlast : last = [])
        (hpart : Markup.part (.stretch mode (first ++ items ++ last)) =
          Part.asGroup closers (Markup.allParts (first ++ items ++ last)))
        (haccepts : ∀ x ∈ items, ∀ inner, x ≠ .stretch .content inner) (hmode : mode ≠ .tag ∧ mode ≠ .fragment) :
        ∀ e ∈ (Piece.stretch mode (first ++ items ++ last)).events, Unmarked e := by
      subst hfirst hlast
      rw [List.append_nil] at hpart htokens ⊢
      have hleaves : Leaf.AllTokens (Part.allLeaves (.leaf (.token t) :: Markup.allParts items)) := by
        rw [← Markup.allLeaves_asGroup closers]
        rw [hpart, List.singleton_append, Markup.allParts, Markup.part] at htokens
        rw [Part.allLeaves, List.flatMap_singleton]
        exact htokens
      have hitems : ∀ e ∈ allEvents items, Unmarked e := by
        intro e he
        obtain ⟨p, hp, he⟩ := mem_allEvents.mp he
        refine ih p hp (haccepts p hp) (fun l hl => hleaves l ?_) e he
        exact List.mem_flatMap.mpr ⟨_, List.mem_cons_of_mem _ (mem_allParts hp), hl⟩
      intro e he
      rw [events, allEvents_append, allEvents_singleton, events, List.mem_cons, List.mem_append, List.mem_append,
        List.mem_singleton, List.mem_singleton] at he
      rcases he with rfl | (rfl | he) | rfl
      · exact ⟨fun h => hmode.1 (Event.enter.inj h), fun h => hmode.2 (Event.enter.inj h)⟩
      · exact Scan.Stand.unmarked_token t
      · exact hitems e he
      · exact Scan.Stand.unmarked_leave
    cases opens with
    | tag => exact (hnode rfl).elim
    | fragment => exact (hnode rfl).elim
    | content => exact absurd rfl (hcontent _)
    | braces =>
      cases ends
      exact hgroup rfl rfl rfl (fun x hx inner heq => by subst heq; exact (accepted _ hx).1 rfl) (by decide)
    | group =>
      cases ends
      exact hgroup rfl rfl rfl (fun x hx inner heq => by subst heq; exact (accepted _ hx).1 rfl) (by decide)
    | template =>
      cases ends
      exact hgroup rfl rfl rfl (fun x hx inner heq => by subst heq; exact (accepted _ hx).1 rfl) (by decide)

end Piece

/-! ## The same pieces elsewhere -/

namespace Likeness

/-- Events that differ in their positions only. -/
theorem swapping_events {hit : Nat → Bool} {new : Node} {hnew : new.kind.isElement = true} {es fs : List Event}
    (h : fs.map Event.blind = es.map Event.blind) (hes : ∀ t, .token t ∈ es → hit t.pos = false) :
    Forall₂ (Node.swapping hit new hnew).Events es fs := by
  induction es generalizing fs with
  | nil =>
    rw [List.map_nil, List.map_eq_nil_iff] at h
    rw [h]
    exact .nil
  | cons e es ih =>
    obtain ⟨f, fs, rfl, hf, hfs⟩ := List.map_eq_cons_iff.mp h
    refine .cons ?_ (ih hfs fun t ht => hes t (List.mem_cons_of_mem _ ht))
    cases e with
    | token t =>
      cases f with
      | token u =>
        have htoken := Token.mk.inj (Event.token.inj hf)
        exact .token ⟨htoken.1, htoken.2.2, hes t List.mem_cons_self⟩
      | enter | leave => cases hf
    | enter mode =>
      cases f with
      | enter mode' =>
        obtain rfl := Event.enter.inj hf
        exact .enter _
      | token | leave => cases hf
    | leave =>
      cases f with
      | leave => exact .leave
      | token | enter => cases hf

/-- What is read of the same text in another place. -/
def elsewhere : Likeness := Node.swapping (fun _ => false) (.element "" [] []) rfl

theorem elsewhere_nodes {n m : Node} (h : elsewhere.nodes n m) : m.blind = n.blind := by
  refine Eq.trans h (Node.swap_eq_blind _ n fun m _ => ?_)
  exact Node.starts_nowhere _ _

theorem elsewhere_tokens {t u : Token} (hkind : u.kind = t.kind) (htext : u.text = t.text) : elsewhere.tokens t u :=
  ⟨hkind, htext, rfl⟩

theorem elsewhere_events {es fs : List Event} (h : fs.map Event.blind = es.map Event.blind) :
    Forall₂ elsewhere.Events es fs := swapping_events h fun _ _ => rfl

theorem allTokens_alike {L : Likeness} {ls ms : List Leaf} (h : Forall₂ L.Leaves ls ms) (hls : Leaf.AllTokens ls) :
    Leaf.AllTokens ms := by
  induction h with
  | nil => exact List.forall_mem_nil _
  | cons hl _ ih =>
    obtain ⟨⟨t, rfl⟩, hrest⟩ := List.forall_mem_cons.mp hls
    cases hl
    exact List.forall_mem_cons.mpr ⟨⟨_, rfl⟩, ih hrest⟩

end Likeness

namespace Judged

/-- A property is the same one elsewhere. -/
theorem IsItem.elsewhere {xs ys : List Judged} {p : Node} {space : String} (h : IsItem xs p space)
    (hys : Forall₂ Likeness.elsewhere.Judgements xs ys) : IsItem ys p space := by
  obtain ⟨htokens, hwhole, ⟨p', hprop, hp'⟩, hkept⟩ := h
  have hparts := Likeness.parts_alike hys
  refine ⟨Likeness.allTokens_alike (Likeness.allLeaves_alike hparts) htokens, ?_, ?_, ?_⟩
  · have hall := forall₂_all (p := fun x : Judged => !x.part.isSeparator ",")
      (q := fun y : Judged => !y.part.isSeparator ",")
      (fun x y hxy => congrArg (!·) (Likeness.isSeparator_eq "," hxy.part)) hys
    intro y hy
    have hxs : (xs.all fun x => !x.part.isSeparator ",") = true :=
      List.all_eq_true.mpr fun x hx => by rw [hwhole x hx]; rfl
    simpa using List.all_eq_true.mp (hall.trans hxs) y hy
  · rcases rel_cases (Likeness.property?_alike hparts) with ⟨hnone, -⟩ | ⟨a, b, ha, hb, hnodes, hspace⟩
    · rw [hnone] at hprop
      cases hprop
    · obtain rfl := Option.some.inj (ha.symm.trans hprop)
      exact ⟨b.1, hb.trans (congrArg some (Prod.ext rfl hspace)), (Likeness.elsewhere_nodes hnodes).trans hp'⟩
  · rw [Likeness.keepsExpression_eq (Likeness.value_alike hys), hkept]

/-! ## The edges of a property -/

theorem isBlank_lead_reading (ps : List Part) : Text.isBlank (Part.reading ps).lead = true := by
  unfold Part.reading
  split
  · rfl
  · split
    · next hblank => exact hblank
    · exact Text.isBlank_lead _

theorem isBlank_trail_reading (ps : List Part) : Text.isBlank (Part.reading ps).trail = true := by
  unfold Part.reading
  split
  · rfl
  · split
    · rfl
    · exact Text.isBlank_trail _

/-- A property is a key and a colon with white space around them, and a value. -/
theorem shape_of_property? {ps : List Part} {n : Node} {trail : String} (h : Part.property? ps = some (n, trail)) :
    ∃ key space e b v, n = .new (.property key space (e ++ ":" ++ b)) [v] ∧ Part.isKey key = true ∧
      Text.isBlank space = true ∧ Text.isBlank e = true ∧ Text.isBlank b = true := by
  unfold Part.property? at h
  obtain ⟨i, -, h⟩ := Option.bind_eq_some_iff.mp h
  obtain ⟨ts, -, h⟩ := Option.bind_eq_some_iff.mp h
  dsimp only at h
  split at h
  · cases h
  · next hkey =>
    obtain ⟨v, -, h⟩ := Option.bind_eq_some_iff.mp h
    obtain ⟨rfl, -⟩ := Prod.mk.inj (Option.some.inj h)
    exact ⟨_, _, _, _, v, rfl, by simpa using hkey, Text.isBlank_lead _, Text.isBlank_trail _, isBlank_lead_reading _⟩

/-- A key starts with no white space and no markup. -/
theorem startsMarkup_key {key : String} (h : Part.isKey key = true) {space : List Char}
    (hspace : ∀ c ∈ space, Text.isSpace c = true) (r : List Char) :
    Scan.startsMarkup ((space ++ (key.toList ++ r)).dropWhile Text.isSpace) = false := by
  obtain ⟨c, w, hw, hc, hangle⟩ : ∃ c w, key.toList = c :: w ∧ Text.isSpace c = false ∧ c ≠ '<' := by
    have hquoted {q : Char} (hq : Text.isSpace q = false ∧ q ≠ '<') (hkey : Part.isQuotedKey q key.toList = true) :
        ∃ c w, key.toList = c :: w ∧ Text.isSpace c = false ∧ c ≠ '<' := by
      unfold Part.isQuotedKey at hkey
      split at hkey
      · cases hkey
      · next c w heq =>
        simp only [Bool.and_eq_true, beq_iff_eq] at hkey
        obtain ⟨⟨rfl, -⟩, -⟩ := hkey
        exact ⟨c, w, heq, hq⟩
    rw [Part.isKey, Bool.or_eq_true, Bool.or_eq_true, Bool.and_eq_true] at h
    rcases h with (⟨hne, hall⟩ | hdouble) | hsingle
    · obtain ⟨c, w, hw⟩ := List.exists_cons_of_ne_nil (l := key.toList) (by simpa using hne)
      have hpart := List.all_eq_true.mp hall c (hw ▸ List.mem_cons_self)
      refine ⟨c, w, hw, ?_, ?_⟩
      · cases hspace : Text.isSpace c with
        | false => rfl
        | true =>
          rw [Text.isNamePart_of_isSpace hspace] at hpart
          cases hpart
      · rintro rfl
        exact absurd hpart (by decide)
    · exact hquoted (by decide) hdouble
    · exact hquoted (by decide) hsingle
  rw [hw, List.dropWhile_append_of_pos hspace, List.cons_append, List.dropWhile_cons_of_neg (by simp [hc])]
  simp [Scan.startsMarkup, hangle]

/-- A kept expression with an end that is no white space. -/
theorem reading_edges {xs : List Judged} (h : AllSound xs) (htokens : Leaf.AllTokens (Part.allLeaves (parts xs))) {v : Node}
    (hv : (Part.reading (parts xs)).node = some v) (hkept : keepsExpression xs = true) :
    Text.isBlank (Part.reading (parts xs)).trail = true ∧
      ∃ w d, v.write.toList = w ++ [d] ∧ Text.isSpace d = false := by
  have hwritten := (reading_agrees h htokens.isValid).iff.mpr hkept
  rw [Reading.write, hv, Option.map_some, Option.getD_some] at hwritten
  rw [Part.reading, Leaf.tokenText?_of_allTokens htokens, ← allSource_of_tokens h htokens] at hv hwritten ⊢
  dsimp only at hv hwritten ⊢
  split at hv
  · cases hv
  · next hblank =>
    rw [if_neg hblank] at hwritten ⊢
    have hblank : Text.isBlank (allSource xs) = false := by simpa using hblank
    refine ⟨Text.isBlank_trail _, ?_⟩
    have hwrite : v.write = Text.trim (allSource xs) := by
      exact append_around_inj.mp (hwritten.trans (Text.lead_append_trim_append_trail hblank).symm)
    obtain ⟨b, core, e, htext, hb, he, hcore⟩ := @Text.exists_core (allSource xs).toList hblank
    have htrim := Text.trim_of_solid hb he hcore
    rw [← htext, String.ofList_toList] at htrim
    obtain ⟨d, w, hd, hspace⟩ := hcore.ends
    exact ⟨w, d, by rw [hwrite, htrim, String.toList_ofList, hd], hspace⟩

/-- A kept property, with what it starts with and what it ends in. -/
theorem property_edges {xs : List Judged} (h : AllSound xs) (htokens : Leaf.AllTokens (Part.allLeaves (parts xs))) {n : Node}
    {trail : String} (hprop : Part.property? (parts xs) = some (n, trail)) (hkept : keepsExpression (value xs) = true) :
    (allSource xs = n.write ++ trail ∧ Text.isBlank trail = true) ∧
      (∃ w d, n.write.toList = w ++ [d] ∧ Text.isSpace d = false) ∧
      ∀ r, Scan.startsMarkup ((n.write.toList ++ r).dropWhile Text.isSpace) = false := by
  have hwritten := (property_agrees h htokens hprop).iff.mpr hkept
  obtain ⟨key', space, e, b, v', hnode, hisKey, -⟩ := shape_of_property? hprop
  obtain ⟨key, colon, v, hxs, -, -, hv, rfl, rfl⟩ := property?_spec h hprop
  have hsub := value_sublist xs
  obtain ⟨hblank, w, d, hw, hd⟩ := reading_edges (h.sublist hsub) (allTokens_sublist htokens hsub) hv hkept
  rw [← (Kind.property.inj (congrArg Node.kind hnode)).1] at hisKey
  refine ⟨⟨hwritten.symm, hblank⟩, ?_, ?_⟩
  · rw [write_property, String.toList_append, hw]
    exact ⟨_, d, (List.append_assoc _ _ _).symm, hd⟩
  · intro r
    rw [write_property, String.toList_append, String.toList_append, String.toList_append, List.append_assoc,
      List.append_assoc, List.append_assoc]
    exact startsMarkup_key hisKey (List.all_eq_true.mp (Text.isBlank_lead _)) _

end Judged

/-! ## Runs over properties -/

mutual

theorem Piece.allText_events : (p : Piece) → Event.allText p.events = p.source.toList
  | .token t => by
    rw [Piece.events, Piece.source]
    exact List.append_nil _
  | .stretch mode items => by
    have hitems := Piece.allText_allEvents items
    rw [Piece.events, Piece.source, ← List.singleton_append, Scan.allText_append, Scan.allText_append, hitems]
    exact List.append_nil _

theorem Piece.allText_allEvents : (ps : List Piece) → Event.allText (Piece.allEvents ps) = (Piece.allSource ps).toList
  | [] => rfl
  | p :: ps => by
    rw [Piece.allEvents, Piece.allSource, Scan.allText_append, Piece.allText_events p, Piece.allText_allEvents ps,
      String.toList_append]

end

/-- A match for a comma or a closing brace starts with it. -/
theorem Scan.head_of_divider {mode : Mode} {c : Char} {w : List Char} {m : Match} (h : Rule mode (c :: w) m) {pos : Nat}
    {t : Token} {es fs : List Event} (heq : .token t :: es = m.events pos (c :: w) ++ fs)
    (ht : t.text = "," ∨ t.text = "\x7d") : c = ',' ∨ c = '\x7d' := by
  have htake : ∃ n, t.text = .ofList ((c :: w).take n) := by
    cases h with
    | token | announce | content | selfClose | closeElement | closeFragment | closeExpression =>
      obtain rfl := Event.token.inj (List.cons.inj heq).1
      exact ⟨_, rfl⟩
    | fragment | tag | braces | substitution | group | template => cases (List.cons.inj heq).1
  obtain ⟨n, hn⟩ := htake
  have hhead {d : Char} {text : String} (htext : text.toList = [d]) (heq : t.text = text) : c = d := by
    rw [← String.toList_inj, htext, hn, String.toList_ofList] at heq
    cases n with
    | zero => cases heq
    | succ n => exact (List.cons.inj heq).1
  exact ht.imp (hhead rfl) (hhead rfl)

open Scan (Move restTokens Halts)
open Scan.Stand (At InBraces)
open Judged (IsItem restOf)

theorem Scan.slashes_of_endsInLine {es : List Event} (h : endsInLine es = true) : "//".toList <:+: Event.allText es := by
  obtain ⟨e, he, hline⟩ := (Option.any_eq_true _ _).mp h
  obtain ⟨es, rfl⟩ := List.getLast?_eq_some_iff.mp he
  unfold isLineComment at hline
  split at hline
  · next t =>
    rw [Bool.and_eq_true] at hline
    have hprefix := List.isPrefixOf_iff_prefix.mp hline.2
    rw [Scan.allText_append]
    refine hprefix.isInfix.trans (List.IsSuffix.isInfix ⟨Event.allText es, ?_⟩)
    exact congrArg _ (List.append_nil _).symm
  · cases hline

/-- What a run over a property comes upon: the events of its pieces, and then a comma or the brace that closes the object
literal. Strings and comments that start between the places end as well. -/
structure AtItem (a b : Nat) (st around : List Mode) (s : Scan.Stand) (cs : List Char) (ps : List Piece) (t : Token)
    (es : List Event) : Prop where
  at_ : s.At (.braces :: (st ++ around))
  nested : Scan.Nested (.braces :: st)
  run : s.run cs = Piece.allEvents ps ++ .token t :: es
  divider : t.text = "," ∨ t.text = "\x7d"
  kind : t.kind ≠ .text ∧ t.kind ≠ .invalid
  unread : s.unread cs = []
  closes : s.closes a b cs = true
  starts : a ≤ s.pos
  stops : s.pos + (Event.allText (Piece.allEvents ps)).length ≤ b
  formed : ∀ p ∈ ps, p.Accepts .braces ∧ p.Formed
  tokens : Leaf.AllTokens (Part.allLeaves (Markup.allParts ps))

variable {a b : Nat} {st around : List Mode} {s : Scan.Stand} {cs : List Char} {ps : List Piece} {t : Token} {es : List Event}

/-- Where the pieces of a property end. -/
theorem AtItem.exists_end (h : AtItem a b st around s cs ps t es) : ∃ x c w m, s.Cut cs x c w m ∧ (c = ',' ∨ c = '\x7d') ∧
    (s.after (c :: w) x).stack = .braces :: (st ++ around) ∧ Scan.level 0 (s.brings (c :: w) x) = some 0 ∧
    (∀ e ∈ s.brings (c :: w) x, Unmarked e) ∧ Event.allText (Piece.allEvents ps) = x ∧
    Piece.allEvents ps = s.brings (c :: w) x ++
      (restTokens (s.after (c :: w) x).pos (s.after (c :: w) x).pending).map .token ∧
    .token t :: es = m.events (s.after (c :: w) x).pos (c :: w) ++ ((s.after (c :: w) x).step c w).2.run w := by
  have hbegins : Scan.Begins (.token t) := by
    refine ⟨?_, nofun, nofun⟩
    rintro ⟨u, hu, hkind⟩
    obtain rfl := Event.token.inj hu
    exact hkind.elim h.kind.1 h.kind.2
  obtain ⟨x, c, w, m, inner, hstop⟩ := Scan.Stand.exists_stop
    (show s.stack = (.braces :: st) ++ around from h.at_.stack) h.at_.inText h.nested
    (show Mode.braces ≠ .markup by decide) h.run hbegins
  have hc : c = ',' ∨ c = '\x7d' := Scan.head_of_divider (Scan.rule_of_match hstop.cut.matched) hstop.rest h.divider
  have hlevel : Scan.level 0 (s.brings (c :: w) x) = some 0 := by
    have hall := Piece.level_allEvents 0 [] ps
    rw [List.append_nil, hstop.events] at hall
    obtain ⟨k, hk, hpends⟩ := Scan.exists_level hall
    rw [Scan.Stand.pends, Scan.level_pendingToken] at hpends
    rw [hk, Option.some.inj hpends]
  have hno : ∀ e ∈ s.brings (c :: w) x, Unmarked e := by
    intro e he
    have hmem : e ∈ Piece.allEvents ps := hstop.events ▸ List.mem_append_left _ he
    obtain ⟨p, hp, he⟩ := Piece.mem_allEvents.mp hmem
    have hcontent : ∀ items, p ≠ .stretch .content items := by
      rintro items rfl
      exact (h.formed _ hp).1.1 rfl
    refine Piece.unmarked_events (h.formed p hp).2 hcontent (fun l hl => h.tokens l ?_) e he
    exact List.mem_flatMap.mpr ⟨_, Piece.mem_allParts hp, hl⟩
  obtain ⟨inner', hstack, hexpressive, hdepth⟩ :=
    Scan.Stand.Expressive.passage (show s.stack = [] ++ .braces :: (st ++ around) from h.at_.stack) rfl h.at_.inText
      (.plain (List.forall_mem_nil _)) hlevel hno
  have hfollows : Scan.startsMarkup (((c :: w).drop (s.after (c :: w) x).skip).dropWhile Text.isSpace) = false := by
    rw [hstop.cut.skip]
    rcases hc with rfl | rfl <;> rfl
  obtain rfl := hexpressive.eq_nil hdepth hfollows
  have hin : InBraces (st ++ around) (s.after (c :: w) x) := ⟨hstack, hstop.cut.skip⟩
  refine ⟨x, c, w, m, hstop.cut, hc, hstack, hlevel, hno,
    hstop.allText_eq h.at_.skip h.at_.pending h.unread, ?_, hstop.rest⟩
  rw [hstop.events, hin.pends_eq, Scan.pendingToken_braces]

theorem AtItem.sound (h : AtItem a b st around s cs ps t es) : Judged.AllSound (judgeAll ps) := by
  intro x hx
  obtain ⟨p, hp, rfl⟩ := Judged.mem_judgeAll hx
  exact ⟨Judged.judge_sound (h.formed p hp).2, Judged.isInline_of_accepts (.inr (.inl rfl)) (h.formed p hp).1⟩

variable {n : Node} {trail : String}

/-- The text of a property is what is written for it, and white space. -/
theorem AtItem.exists_text (h : AtItem a b st around s cs ps t es)
    (hprop : Part.property? (Judged.parts (judgeAll ps)) = some (n, trail))
    (hkept : Judged.keepsExpression (Judged.value (judgeAll ps)) = true) : ∃ c w, (c = ',' ∨ c = '\x7d') ∧
    cs = n.write.toList ++ trail.toList ++ c :: w ∧ (s.after (c :: w) (n.write.toList ++ trail.toList)).skip = 0 ∧
    Scan.level 0 (s.brings (c :: w) (n.write.toList ++ trail.toList)) = some 0 ∧
    (∀ e ∈ s.brings (c :: w) (n.write.toList ++ trail.toList), Unmarked e) ∧
    Piece.allEvents ps = s.brings (c :: w) (n.write.toList ++ trail.toList) ++
      (restTokens (s.after (c :: w) (n.write.toList ++ trail.toList)).pos
        (s.after (c :: w) (n.write.toList ++ trail.toList)).pending).map .token := by
  obtain ⟨x, c, w, m, hcut, hc, -, hlevel, hno, htext, hevents, -⟩ := h.exists_end
  have htokens : Leaf.AllTokens (Part.allLeaves (Judged.parts (judgeAll ps))) := by
    rw [Judged.parts_judgeAll]
    exact h.tokens
  obtain ⟨⟨hsource, -⟩, -⟩ := Judged.property_edges h.sound htokens hprop hkept
  rw [Piece.allText_allEvents, ← Judged.allSource_judgeAll, hsource, String.toList_append] at htext
  subst htext
  exact ⟨c, w, hc, hcut.text, hcut.skip, hlevel, hno, hevents⟩

theorem Piece.split_tokens {ts : List Token} {ps : List Piece} {es : List Event}
    (h : Piece.allEvents ps = es ++ ts.map .token) : ∃ qs, ps = qs ++ ts.map .token ∧ Piece.allEvents qs = es := by
  induction ts using List.reverseRecOn generalizing ps with
  | nil => exact ⟨ps, (List.append_nil _).symm, h.trans (List.append_nil _)⟩
  | append_singleton ts t ih =>
    rw [List.map_append, ← List.append_assoc] at h
    obtain ⟨qs, rfl, hqs⟩ := Piece.split_last h
    obtain ⟨rs, rfl, hrs⟩ := ih hqs
    exact ⟨rs, by rw [List.map_append, List.append_assoc]; rfl, hrs⟩

theorem Follows.head? {r : List Char} (h : Follows r) : ∀ d ∈ r.head?, Text.isSpace d = true ∨ d = ',' ∨ d = '\x7d' := by
  obtain ⟨w, d, v, rfl, hw, hd⟩ := h
  cases w with
  | nil =>
    rintro a ha
    obtain rfl := Option.some.inj ha
    exact .inr hd
  | cons b w =>
    rintro a ha
    obtain rfl := Option.some.inj ha
    exact .inl (List.all_eq_true.mp hw _ List.mem_cons_self)

theorem Follows.fences {r : List Char} (h : Follows r) (last : Char) : Scan.Fences last r where
  head d hd := by
    rcases h.head? d hd with hspace | rfl | rfl
    · rw [Scan.isStop, hspace, Bool.true_or]
    · decide
    · decide
  pair _ d hd := by
    rcases h.head? d hd with hspace | rfl | rfl
    · exact ⟨Scan.ne_of_isSpace hspace (by decide), Scan.ne_of_isSpace hspace (by decide)⟩
    · decide
    · decide
  markup := h.halts.not_startsMarkup

/-- Whatever follows a property, its text is read alike. -/
theorem Follows.alike {r r' : List Char} (h : Follows r) (h' : Follows r') {last : Char} (hlast : Text.isSpace last = false) :
    Scan.Alike last r r' := by
  have hbrace {r : List Char} (h : Follows r) : r.head? ≠ some '\x7b' := by
    intro hhead
    rcases h.head? _ hhead with hspace | heq | heq
    · exact absurd hspace (by decide)
    · exact absurd heq (by decide)
    · exact absurd heq (by decide)
  refine ⟨hlast, ?_, h.fences last, h'.fences last, ?_, fun hb => absurd hb (hbrace h), fun hb => absurd hb (hbrace h')⟩
  · obtain ⟨w, d, v, rfl, -⟩ := h
    simp
  · obtain ⟨w, d, v, rfl, hw, hd⟩ := h'
    refine .of_outside (fun hmem => absurd (List.all_eq_true.mp hw _ hmem) (by decide)) ?_ ?_ v
    · rcases hd with rfl | rfl <;> exact ⟨⟨by decide, by decide, by decide, by decide⟩, by decide, by decide⟩
    · rcases hd with rfl | rfl <;> decide

/-- The pieces of a property are those of a passage over what is written for it, and what is left unmatched there together
with the white space after it. -/
theorem AtItem.exists_passage (h : AtItem a b st around s cs ps t es)
    (hprop : Part.property? (Judged.parts (judgeAll ps)) = some (n, trail))
    (hkept : Judged.keepsExpression (Judged.value (judgeAll ps)) = true)
    (hcomment : '\n' ∉ trail.toList ∨ ¬ "//".toList <:+: n.write.toList) : ∃ r qs pos, Follows r ∧ cs = n.write.toList ++ r ∧
      (∀ p ∈ qs, p ∈ ps) ∧
      InBraces (st ++ around) (s.after r n.write.toList) ∧ Scan.level 0 (s.brings r n.write.toList) = some 0 ∧
      Piece.allEvents qs = s.brings r n.write.toList ∧
      judgeAll ps = judgeAll qs ++ restOf pos (trail.toList.reverse ++ (s.after r n.write.toList).pending) ∧
      (r.head? = some '\n' → ¬ "//".toList <:+: n.write.toList) := by
  obtain ⟨c, w, hc, hcs, hskip, hlevel, hno, hevents⟩ := h.exists_text hprop hkept
  have htokens : Leaf.AllTokens (Part.allLeaves (Judged.parts (judgeAll ps))) := by
    rw [Judged.parts_judgeAll]
    exact h.tokens
  obtain ⟨⟨-, hblank⟩, ⟨y, d, hy, hd⟩, -⟩ := Judged.property_edges h.sound htokens hprop hkept
  have hclose : Halts (c :: w) := by rcases hc with rfl | rfl <;> exact .here (by decide) (by decide) w
  have hsolid : ∀ a ∈ n.write.toList.getLast?, Text.isSpace a = false := by
    rw [hy, List.getLast?_concat]
    rintro a ha
    rwa [← Option.some.inj ha]
  have hfeed : c :: w ≠ [] ∧ (c :: w).head? ≠ some '\n' := by
    refine ⟨List.cons_ne_nil _ _, fun h => ?_⟩
    obtain rfl := Option.some.inj h
    exact absurd hc (by decide)
  obtain ⟨hstack, hmid, hlevel'⟩ := Scan.Stand.before_blank h.at_ hskip hlevel hno hsolid (List.all_eq_true.mp hblank)
    (by rcases hc with rfl | rfl <;> rfl) hfeed hcomment
  have hin : InBraces (st ++ around) (s.after (trail.toList ++ c :: w) n.write.toList) := ⟨hstack, hmid⟩
  -- white space is left unmatched
  obtain ⟨hnone, -, hpending⟩ := Scan.Stand.passes_mute (r := c :: w) hin
    (fun a ha => Scan.isMute_of_isSpace (List.all_eq_true.mp hblank a ha)) hclose
  rw [Scan.Stand.brings_append, Scan.Stand.after_append, hnone, List.append_nil, hpending] at hevents
  obtain ⟨qs, hps, hqs⟩ := Piece.split_tokens hevents
  refine ⟨trail.toList ++ c :: w, qs, ((s.after (trail.toList ++ c :: w) n.write.toList).after (c :: w) trail.toList).pos,
    .of_blank hblank hc w, by rw [hcs, List.append_assoc], fun p hp => hps ▸ List.mem_append_left _ hp, hin, hlevel', hqs,
    ?_, ?_⟩
  · rw [hps, Judged.judgeAll_append, Judged.judgeAll_tokens]
    rfl
  · intro hhead
    refine hcomment.resolve_left fun hnone => ?_
    cases htrail : trail.toList with
    | nil =>
      rw [htrail] at hhead
      exact hfeed.2 hhead
    | cons a rest =>
      rw [htrail] at hhead hnone
      obtain rfl := Option.some.inj hhead
      exact hnone List.mem_cons_self

/-- A kept property of an object literal is read in the same way wherever it stands, if no comment can stand before the
white space after it. -/
theorem AtItem.clause (h : AtItem a b st around s cs ps t es)
    (hprop : Part.property? (Judged.parts (judgeAll ps)) = some (n, trail))
    (hkept : Judged.keepsExpression (Judged.value (judgeAll ps)) = true)
    (hwhole : ∀ x ∈ judgeAll ps, x.part.isSeparator "," = false)
    (hcomment : '\n' ∉ trail.toList ∨ ¬ "//".toList <:+: n.write.toList) : Clause n := by
  obtain ⟨r, qs, pos, hr, hcs, hmem, hin, hlevel, hqs, hjudged, hfeed⟩ := h.exists_passage hprop hkept hcomment
  have htokens : Leaf.AllTokens (Part.allLeaves (Judged.parts (judgeAll ps))) := by
    rw [Judged.parts_judgeAll]
    exact h.tokens
  obtain ⟨⟨hsource, hblank⟩, ⟨y, d, hy, hd⟩, hstarts⟩ := Judged.property_edges h.sound htokens hprop hkept
  have hitem : IsItem (judgeAll ps) n trail := ⟨htokens, hwhole, ⟨n, hprop, rfl⟩, hkept⟩
  refine ⟨hstarts, fun base' s' r' hs' hr' => ?_⟩
  -- the same matches are made before other text
  have hlast : n.write.toList = [] ∨ n.write.toList.getLast? = some d := .inr (by rw [hy, List.getLast?_concat])
  have hclosed : s.closes a b (n.write.toList ++ r) = true := hcs ▸ h.closes
  have hstops : s.pos + n.write.toList.length ≤ b := by
    have hall := h.stops
    rw [Piece.allText_allEvents, ← Judged.allSource_judgeAll, hsource, String.toList_append, List.length_append] at hall
    omega
  have hline : Scan.endsInLine (s.brings r n.write.toList) = true → (s.after r n.write.toList).pending = [] →
      r' = [] ∨ r'.head? = some '\n' := by
    intro hends hpending
    exfalso
    have hcovers := (Scan.Stand.brings_covers (hcs ▸ h.unread) hin.skip).1
    rw [hpending, h.at_.pending, h.at_.skip] at hcovers
    simp only [List.reverse_nil, List.append_nil, List.nil_append, List.drop_zero] at hcovers
    rcases Scan.Stand.line_ends h.at_.skip hin.skip hpending hends with rfl | hhead
    · obtain ⟨w, c, v, hnil, -⟩ := hr
      simp at hnil
    · exact hfeed hhead (hcovers ▸ Scan.slashes_of_endsInLine hends)
  obtain ⟨hbrings, hafter⟩ := Scan.Stand.fence hlast (hr.alike hr' hd) hin.skip hclosed
    (Nat.le_trans h.starts (Nat.le_add_right _ _)) hstops hline
  -- and in another place
  have hbeside : Scan.Stand.Beside [] (.braces :: st ++ around) (.braces :: base') s s' :=
    ⟨h.at_.stack, hs'.stack, by rw [hs'.word, h.at_.word], by rw [hs'.skip, h.at_.skip], by rw [hs'.pending, h.at_.pending],
      h.at_.inText, hs'.inText⟩
  rw [← hbrings] at hlevel hqs
  obtain ⟨hblind, inner, hbeside', -, hdepth⟩ := hbeside.passage (n := 0) (r := r') h.nested (List.cons_ne_nil _ _)
    (show Mode.braces ≠ .markup by decide) rfl n.write.toList hlevel
  have hstack := hbeside'.stack
  rw [hafter, hin.stack] at hstack
  obtain rfl : inner = [] := List.append_left_eq_self.mp hstack.symm
  have hin' : InBraces base' (s'.after r' n.write.toList) := ⟨hbeside'.stack', by rw [hbeside'.skip, hafter, hin.skip]⟩
  have hsolid : Piece.Solid (Piece.allEvents qs) := by
    rw [hqs]
    have hall := (Scan.Stand.run_solid s (n.write.toList ++ r')).1
    rw [Scan.Stand.run_append] at hall
    exact hall.left_of_append
  obtain ⟨qs', hevents, hpieces⟩ := Likeness.exists_pieces (B := fun _ _ => False)
    (hqs ▸ Likeness.elsewhere_events hblind) hsolid
  have hjudgements : Forall₂ Likeness.elsewhere.Judgements (judgeAll qs) (judgeAll qs') := by
    rw [Likeness.judgeAll_eq_map, Likeness.judgeAll_eq_map, List.forall₂_map_left_iff, List.forall₂_map_right_iff]
    exact forall₂_of_mem hpieces fun p hp q hpq =>
      Likeness.judge_alike (fun _ _ hfalse => hfalse.elim) (h.formed p (hmem p hp)).2 hpq
  refine ⟨qs', hevents, hin', pos, trail, hblank, ?_⟩
  rw [hbeside'.pending, hafter]
  rw [hjudged] at hitem
  refine hitem.elsewhere (List.rel_append hjudgements (List.forall₂_same.mpr ?_))
  exact List.forall_mem_map.mpr fun u _ => Likeness.judgement_token (Likeness.elsewhere_tokens rfl rfl)

/-! ## All properties -/

theorem token_of_isSeparator {q : Piece} {text : String} (h : (judge q).part.isSeparator text = true) :
    ∃ u, q = .token u ∧ u.kind = .separator ∧ u.text = text := by
  rw [Judged.part_judge] at h
  cases q with
  | token u =>
    rw [Markup.part] at h
    simp only [Part.isSeparator, Part.token?, Leaf.token?, Option.any_some, Bool.and_eq_true, beq_iff_eq] at h
    exact ⟨u, rfl, h⟩
  | stretch mode items =>
    rw [Markup.part] at h
    cases mode <;> cases h

/-- A comma between two properties. -/
theorem AtItem.split {item rest : List Piece} {u : Token} (h : AtItem a b st around s cs (item ++ .token u :: rest) t es)
    (hu : u.kind = .separator ∧ u.text = ",") : (∃ fs, AtItem a b st around s cs item u fs) ∧
      ∃ s' cs', AtItem a b st around s' cs' rest t es := by
  have hformed := List.forall_mem_append.mp h.formed
  have hsub {qs : List Piece} (hqs : ∀ p ∈ qs, p ∈ item ++ .token u :: rest) :
      Leaf.AllTokens (Part.allLeaves (Markup.allParts qs)) := by
    rw [Markup.allParts_eq_map]
    intro l hl
    obtain ⟨_, hmem, hl⟩ := List.mem_flatMap.mp hl
    obtain ⟨p, hp, rfl⟩ := List.mem_map.mp hmem
    exact h.tokens l (List.mem_flatMap.mpr ⟨_, Piece.mem_allParts (hqs p hp), hl⟩)
  have hstops := h.stops
  rw [Piece.allEvents_append, Piece.allEvents, Piece.events, Scan.allText_append, Scan.allText_append, List.length_append,
    List.length_append] at hstops
  have hitem : AtItem a b st around s cs item u (Piece.allEvents rest ++ .token t :: es) := by
    refine ⟨h.at_, h.nested, ?_, .inl hu.2, by simp [hu.1], h.unread, h.closes, h.starts, by omega, hformed.1,
      hsub fun p hp => List.mem_append_left _ hp⟩
    rw [h.run, Piece.allEvents_append, Piece.allEvents, Piece.events]
    simp
  refine ⟨⟨_, hitem⟩, ?_⟩
  obtain ⟨x, c, w, m, hcut, hc, hstack, -, -, htext, -, hrest⟩ := hitem.exists_end
  have hin : InBraces (st ++ around) (s.after (c :: w) x) := ⟨hstack, hcut.skip⟩
  obtain ⟨rfl, rfl⟩ : c = ',' ∧ m = ⟨[(.separator, 1)], .stay⟩ := by
    have hm := hcut.matched
    rw [hin.matched?_eq] at hm
    have hdelimiter {n : Nat} {move : Move} (hmove : move = .leave 1 ∨ move = .enter .markup)
        (hone : Scan.one .delimiter n move = some m) : False := by
      obtain rfl := Option.some.inj hone
      rcases hmove with rfl | rfl <;>
      · obtain rfl := Event.token.inj (List.cons.inj hrest).1
        cases hu.1
    rcases hc with rfl | rfl
    · refine ⟨rfl, ?_⟩
      cases hlead : Scan.lead? (s.after (',' :: w) x).before (',' :: w) with
      | none =>
        rw [Scan.expression?, hlead] at hm
        exact (Option.some.inj hm).symm
      | some m' =>
        rw [Scan.expression?, hlead] at hm
        obtain rfl : m' = m := Option.some.inj hm
        obtain ⟨n, -, hone⟩ := Option.bind_eq_some_iff.mp hlead
        exact (hdelimiter (.inr rfl) hone).elim
    · exact (hdelimiter (.inl rfl) hm).elim
  have hstep := Scan.Stand.step_match hcut.skip hcut.matched
  rw [hin.settle_eq] at hstep
  have hafter : s.after w (x ++ [',']) = ⟨.braces :: (st ++ around), some ',', (s.after (',' :: w) x).pos + 1, 0, []⟩ := by
    rw [Scan.Stand.after_append]
    exact congrArg Prod.snd hstep
  have hcs : cs = (x ++ [',']) ++ w := by rw [hcut.text, List.append_assoc]; rfl
  have hpos := Scan.Stand.pos_after s w (x ++ [','])
  have hone : (Event.allText [.token u]).length = 1 := by
    show (u.text.toList ++ []).length = 1
    rw [hu.2]
    rfl
  rw [List.length_append, List.length_singleton] at hpos
  rw [htext, hone] at hstops
  refine ⟨s.after w (x ++ [',']), w, ?_, h.nested, ?_, h.divider, h.kind, ?_, ?_, Nat.le_trans h.starts (by omega), by omega,
    (List.forall_mem_cons.mp hformed.2).2,
    hsub fun p hp => List.mem_append_right _ (List.mem_cons_of_mem _ hp)⟩
  · rw [hafter]
    refine ⟨rfl, ?_, Nat.succ_ne_zero _, rfl, rfl⟩
    show Scan.atWordStart (some ',') = true
    decide
  · rw [Scan.Stand.after_append]
    exact (List.cons.inj hrest).2.symm
  · exact (Scan.Stand.brings_covers (hcs ▸ h.unread) (by rw [hafter])).2
  · exact Scan.Stand.closes_after (hcs ▸ h.closes)

theorem split_first {α : Type} (f : α → Bool) (xs : List α) :
    (∀ x ∈ xs, f x = false) ∨ ∃ as x bs, xs = as ++ x :: bs ∧ (∀ a ∈ as, f a = false) ∧ f x = true := by
  induction xs with
  | nil => exact .inl (List.forall_mem_nil _)
  | cons x xs ih =>
    cases hx : f x with
    | true => exact .inr ⟨[], x, xs, rfl, List.forall_mem_nil _, hx⟩
    | false =>
      rcases ih with hall | ⟨as, y, bs, rfl, has, hy⟩
      · exact .inl (List.forall_mem_cons.mpr ⟨hx, hall⟩)
      · exact .inr ⟨x :: as, y, bs, rfl, List.forall_mem_cons.mpr ⟨hx, has⟩, hy⟩

/-- A run over an object literal comes upon each of its properties. -/
theorem AtItem.exists_item (h : AtItem a b st around s cs ps t es) {item : List Judged}
    (hitem : item ∈ Judged.splitOn (Part.isSeparator ",") (judgeAll ps)) :
    ∃ s' cs' qs u fs, AtItem a b st around s' cs' qs u fs ∧ judgeAll qs = item ∧
      ∀ x ∈ judgeAll qs, x.part.isSeparator "," = false := by
  induction hn : ps.length using Nat.strong_induction_on generalizing s cs ps t es item with
  | _ n ih =>
    subst hn
    rcases split_first (fun p => (judge p).part.isSeparator ",") ps with hall | ⟨first, q, rest, rfl, hfirst, hq⟩
    · have hwhole : ∀ x ∈ judgeAll ps, x.part.isSeparator "," = false := by
        rw [Likeness.judgeAll_eq_map]
        exact List.forall_mem_map.mpr hall
      rw [Judged.splitOn_whole hwhole, List.mem_singleton] at hitem
      exact ⟨s, cs, ps, t, es, h, hitem.symm, hwhole⟩
    · obtain ⟨u, rfl, hu⟩ := token_of_isSeparator hq
      have hwhole : ∀ x ∈ judgeAll first, x.part.isSeparator "," = false := by
        rw [Likeness.judgeAll_eq_map]
        exact List.forall_mem_map.mpr hfirst
      obtain ⟨⟨fs, hat⟩, s', cs', hrest⟩ := h.split hu
      rw [Judged.judgeAll_append, judgeAll, Judged.splitOn_cons hwhole hq, List.mem_cons] at hitem
      rcases hitem with rfl | hitem
      · exact ⟨s, cs, first, u, fs, hat, rfl, hwhole⟩
      · refine ih rest.length ?_ hrest hitem rfl
        rw [List.length_append, List.length_cons]
        omega

theorem mem_of_mapM {α β : Type} {f : α → Option β} {xs : List α} {ys : List β} (h : xs.mapM f = some ys) {y : β}
    (hy : y ∈ ys) : ∃ x ∈ xs, f x = some y := by
  induction xs generalizing ys with
  | nil =>
    cases h
    cases hy
  | cons x xs ih =>
    rw [List.mapM_cons] at h
    obtain ⟨y', hy', h⟩ := Option.bind_eq_some_iff.mp h
    obtain ⟨ys', hys', h⟩ := Option.bind_eq_some_iff.mp h
    cases h
    rcases List.mem_cons.mp hy with rfl | hy
    · exact ⟨x, List.mem_cons_self, hy'⟩
    · obtain ⟨x', hx', hf⟩ := ih hys' hy
      exact ⟨x', List.mem_cons_of_mem _ hx', hf⟩

/-- The text between a property of an object literal and the next comma or the closing brace. -/
theorem AtItem.isBlank_of_mem (h : AtItem a b st around s cs ps t es) {item : List Judged}
    (hitem : item ∈ Judged.splitOn (Part.isSeparator ",") (judgeAll ps))
    (hprop : Part.property? (Judged.parts item) = some (n, trail))
    (hkept : Judged.keepsExpression (Judged.value item) = true) : Text.isBlank trail = true := by
  obtain ⟨s', cs', qs, u, fs, hat, rfl, -⟩ := h.exists_item hitem
  have htokens : Leaf.AllTokens (Part.allLeaves (Judged.parts (judgeAll qs))) := by
    rw [Judged.parts_judgeAll]
    exact hat.tokens
  exact (Judged.property_edges hat.sound htokens hprop hkept).1.2

/-- A property of an object literal can be read elsewhere. -/
theorem AtItem.clause_of_mem (h : AtItem a b st around s cs ps t es) {item : List Judged}
    (hitem : item ∈ Judged.splitOn (Part.isSeparator ",") (judgeAll ps))
    (hprop : Part.property? (Judged.parts item) = some (n, trail))
    (hkept : Judged.keepsExpression (Judged.value item) = true)
    (hcomment : '\n' ∉ trail.toList ∨ Clause n ∨ ¬ "//".toList <:+: n.write.toList) : Clause n := by
  obtain ⟨s', cs', qs, u, fs, hat, rfl, hwhole⟩ := h.exists_item hitem
  rcases hcomment with hfeed | hclause | hslashes
  · exact hat.clause hprop hkept hwhole (.inl hfeed)
  · exact hclause
  · exact hat.clause hprop hkept hwhole (.inr hslashes)

/-- What the text after the properties of an object literal may be, so that it can be read elsewhere. -/
def EndsWell (trailing : String) (ns : List Node) : Prop :=
  Text.isBlank trailing = true ∨ ns ≠ [] ∧ ∃ space, trailing = "," ++ space ∧ Text.isBlank space = true

theorem shape_of_asObject {xs : List Judged} {o : Node} (h : Part.asObject (Judged.parts xs) = some o) :
    ∀ n ∈ o.children, ∃ key space e b v, n = .new (.property key space (e ++ ":" ++ b)) [v] ∧ Part.isKey key = true ∧
      Text.isBlank space = true ∧ Text.isBlank e = true ∧ Text.isBlank b = true := by
  have hall {items : List (List Part)} {properties : List (Node × String)}
      (hprops : items.mapM Part.property? = some properties) : ∀ n ∈ properties.map (·.1), ∃ key space e b v,
        n = .new (.property key space (e ++ ":" ++ b)) [v] ∧ Part.isKey key = true ∧ Text.isBlank space = true ∧
          Text.isBlank e = true ∧ Text.isBlank b = true := by
    refine List.forall_mem_map.mpr fun np hnp => ?_
    obtain ⟨item, -, hprop⟩ := mem_of_mapM hprops hnp
    exact Judged.shape_of_property? hprop
  rcases Judged.asObject_spec h with ⟨_, _, _, _, -, -, -, hprops, rfl⟩ | ⟨_, hprops, rfl⟩
  · exact hall hprops
  · exact hall hprops

/-- The properties of a kept object literal can be read elsewhere, and so can what it ends in, if there is a comma after the
last property, if the line feed after it does not end a line comment, or if that property can be read elsewhere in any
case. -/
theorem AtItem.clauses (h : AtItem a b st around s cs ps t es) {trailing : String} {ns : List Node}
    (ho : Part.asObject (Judged.parts (judgeAll ps)) = some (.new (.object trailing) ns))
    (hkept : Judged.keepsObject (judgeAll ps) = true)
    (hcomment : trailing.toList.head? = some ',' ∨ '\n' ∉ trailing.toList ∨
      ∀ n ∈ ns.getLast?, Clause n ∨ ¬ "//".toList <:+: n.write.toList) :
    (∀ n ∈ ns, Clause n) ∧ EndsWell trailing ns := by
  have hitems := (Bool.and_eq_true _ _ ▸ hkept : _ ∧ _)
  have hkeeps := List.all_eq_true.mp hitems.1
  have htrails := List.all_eq_true.mp hitems.2
  have hfront {item : List Judged} (hmem : item ∈ (Judged.splitOn (Part.isSeparator ",") (judgeAll ps)).dropLast)
      {np : Node × String} (hprop : Part.property? (Judged.parts item) = some np) : Clause np.1 := by
    have hitem := List.dropLast_subset _ hmem
    have hempty : np.2 = "" := by
      have hsub := Judged.sublist_of_mem_splitOn hitem
      obtain ⟨-, -, -, -, -, -, -, htrail, -⟩ := Judged.property?_spec (h.sound.sublist hsub) hprop
      rw [htrail]
      exact String.isEmpty_iff.mp (htrails item hmem)
    exact h.clause_of_mem hitem hprop (hkeeps item hitem) (.inl (by simp [hempty]))
  rcases Judged.asObject_spec ho with ⟨front, last, space, properties, hsplit, hspace, hblank, hprops, heq⟩ |
    ⟨properties, hprops, heq⟩
  · obtain ⟨hkind, rfl⟩ := (by simpa [Node.new] using heq : _ ∧ _)
    subst hkind
    rw [hsplit, List.dropLast_concat] at hfront
    refine ⟨fun n hn => ?_, ?_⟩
    · obtain ⟨np, hnp, rfl⟩ := List.mem_map.mp hn
      obtain ⟨item, hmem, hprop⟩ := mem_of_mapM hprops hnp
      obtain ⟨xs, hxs, rfl⟩ := List.mem_map.mp hmem
      exact hfront hxs hprop
    · cases front with
      | nil => exact .inl (by simpa using hblank)
      | cons item front =>
        refine .inr ⟨?_, space, rfl, hblank⟩
        rw [List.map_cons, List.mapM_cons] at hprops
        obtain ⟨first, -, hprops⟩ := Option.bind_eq_some_iff.mp hprops
        obtain ⟨rest, -, hprops⟩ := Option.bind_eq_some_iff.mp hprops
        cases hprops
        exact List.cons_ne_nil _ _
  · obtain ⟨items, last, hsplit⟩ : ∃ items last,
        Judged.splitOn (Part.isSeparator ",") (judgeAll ps) = items ++ [last] :=
      ⟨_, _, (List.dropLast_concat_getLast (Judged.splitOn_ne_nil (Part.isSeparator ",") _)).symm⟩
    obtain ⟨hkind, rfl⟩ := (by simpa [Node.new] using heq : _ ∧ _)
    subst hkind
    have hlast : last ∈ Judged.splitOn (Part.isSeparator ",") (judgeAll ps) :=
      hsplit ▸ List.mem_append_right _ List.mem_cons_self
    rw [hsplit, List.dropLast_concat] at hfront
    rw [hsplit, List.map_append, List.mapM_append] at hprops
    obtain ⟨front, hfrontprops, hprops⟩ := Option.bind_eq_some_iff.mp hprops
    obtain ⟨back, hback, hprops⟩ := Option.bind_eq_some_iff.mp hprops
    cases hprops
    rw [List.map_singleton, List.mapM_cons, List.mapM_nil] at hback
    obtain ⟨⟨node, trail⟩, hnode, hback⟩ := Option.bind_eq_some_iff.mp hback
    cases hback
    simp only [List.getLast?_concat, Option.map_some, Option.getD_some, List.map_append, List.map_singleton,
      Option.mem_def, Option.some.injEq, forall_eq'] at hcomment
    have hblank := h.isBlank_of_mem hlast hnode (hkeeps last hlast)
    have hcomma : trail.toList.head? ≠ some ',' := fun hcomma =>
      absurd (List.all_eq_true.mp hblank _ (List.mem_of_mem_head? hcomma)) (by decide)
    have hclause := h.clause_of_mem hlast hnode (hkeeps last hlast) (hcomment.resolve_left hcomma)
    refine ⟨fun n hn => ?_, .inl ?_⟩
    · rw [List.map_append, List.map_singleton] at hn
      rcases List.mem_append.mp hn with hn | hn
      · obtain ⟨np, hnp, rfl⟩ := List.mem_map.mp hn
        obtain ⟨item, hmem, hprop⟩ := mem_of_mapM hfrontprops hnp
        obtain ⟨xs, hxs, rfl⟩ := List.mem_map.mp hmem
        exact hfront hxs hprop
      · rw [List.mem_singleton.mp hn]
        exact hclause
    · simpa using hblank

end JsxEdit
