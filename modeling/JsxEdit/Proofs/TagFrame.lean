import JsxEdit.Proofs.Placed
import JsxEdit.Proofs.Restate

/-
Opening tags are read attribute by attribute.

What is read after an attribute does not depend on it: the rest of a tag adds its attributes to those that were read, and
would do so if there were others. A value goes to the attribute that was read last, if that has none.
-/
set_option autoImplicit false

namespace JsxEdit.Markup

/-! ## One part of a tag -/

/-- The parts of a tag that are read without ending it, with what is then read. -/
inductive Passes (o : Opening) : Part → Opening → Prop where
  | space {t : Token} (kind : t.kind = .space ∨ t.kind = .comment) :
    Passes o (.leaf (.token t)) { o with space := o.space ++ t.text }
  | name {t : Token} (kind : t.kind = .attrName) (free : o.waiting = false) :
    Passes o (.leaf (.token t))
      { o with attributes := .mk (.attr t.text o.space) { head := some (spanOf t t) } [] [] :: o.attributes, space := "" }
  | equals {t : Token} (kind : t.kind = .equals) (takes : o.takesValue = true) :
    Passes o (.leaf (.token t)) { o with waiting := true }
  | quoted {t : Token} (kind : t.kind = .doubleQuoted ∨ t.kind = .singleQuoted) (waiting : o.waiting = true) :
    Passes o (.leaf (.token t)) (o.giveValue (stringValue t))
  | angle {t : Token} (kind : t.kind ∉ [.space, .comment, .attrName, .equals, .doubleQuoted, .singleQuoted])
    (text : (t.text == "/>" || t.text == ">") = true) (goes : (t.kind == .delimiter && t.text == "/>") = false)
    (free : o.waiting = false) : Passes o (.leaf (.token t)) o
  | node {n : Node} : Passes o (.leaf (.node n)) o
  | value {g : Group} (waiting : o.waiting = true) : Passes o (.group g) (o.giveValue (slot g))
  | spread {g : Group} {attr : Node} (free : o.waiting = false) (reads : Markup.spread o.space g = .ok attr) :
    Passes o (.group g) { o with attributes := attr :: o.attributes, space := "" }

theorem Passes.eq {o o' : Opening} {p : Part} (h : Passes o p o') (angle name : Token) (ps : List Part) :
    elementFrom angle name o (p :: ps) = elementFrom angle name o' ps := by
  cases h with
  | space kind => rcases kind with kind | kind <;> simp [elementFrom, readToken, kind]
  | name kind free => simp [elementFrom, readToken, kind, free]
  | equals kind takes => simp [elementFrom, readToken, kind, takes]
  | quoted kind waiting => rcases kind with kind | kind <;> simp [elementFrom, readToken, kind, waiting]
  | @angle t kind text goes free =>
    have hread : readToken o t = .ok o := by
      unfold readToken
      split <;> simp_all
    rw [elementFrom, hread]
    dsimp only
    rw [goes, if_neg Bool.false_ne_true]
  | node => rfl
  | value waiting => rw [elementFrom, if_pos waiting]
  | spread free reads =>
    rw [elementFrom, free, if_neg Bool.false_ne_true, reads]

theorem passes_of_readToken {o o' : Opening} {t : Token} (h : readToken o t = .ok o')
    (goes : (t.kind == .delimiter && t.text == "/>") = false) : Passes o (.leaf (.token t)) o' := by
  unfold readToken at h
  split at h
  · next hkind => exact Except.ok.inj h ▸ .space (.inl hkind)
  · next hkind => exact Except.ok.inj h ▸ .space (.inr hkind)
  · next hkind =>
    split at h
    · cases h
    · next hfree => exact Except.ok.inj h ▸ .name hkind (by simpa using hfree)
  · next hkind =>
    split at h
    · next htakes => exact Except.ok.inj h ▸ .equals hkind htakes
    · cases h
  · next hkind =>
    split at h
    · next hwaiting => exact Except.ok.inj h ▸ .quoted (.inl hkind) hwaiting
    · cases h
  · next hkind =>
    split at h
    · next hwaiting => exact Except.ok.inj h ▸ .quoted (.inr hkind) hwaiting
    · cases h
  · next hspace hcomment hname hequals hdouble hsingle =>
    split at h
    · next htext =>
      split at h
      · cases h
      · next hfree =>
        have hkind : t.kind ∉ [.space, .comment, .attrName, .equals, .doubleQuoted, .singleQuoted] := by
          simp only [List.mem_cons, List.not_mem_nil, or_false, not_or]
          exact ⟨hspace, hcomment, hname, hequals, hdouble, hsingle⟩
        exact Except.ok.inj h ▸ .angle hkind htext goes (by simpa using hfree)
    · cases h

theorem passes_of_group {angle name : Token} {o : Opening} {g : Group} {ps : List Part}
    (h : (elementFrom angle name o (.group g :: ps)).isValid = true) : ∃ o', Passes o (.group g) o' := by
  cases hw : o.waiting with
  | true => exact ⟨_, .value hw⟩
  | false =>
    rw [elementFrom, hw, if_neg Bool.false_ne_true] at h
    cases hspread : spread o.space g with
    | error n =>
      rw [hspread] at h
      rw [Tag.isValid_of_spread hspread] at h
      cases h
    | ok attr => exact ⟨_, .spread hw hspread⟩

/-- An element goes on after its first part, or ends with it. -/
theorem elementFrom_cases {angle name : Token} {o : Opening} {parts : List Part}
    (h : (elementFrom angle name o parts).isValid = true) :
    (∃ p ps o', parts = p :: ps ∧ Passes o p o') ∨
      ∃ k i cs, k.isElement = true ∧
        ∀ as, elementFrom angle name { o with attributes := as } parts = .mk k i as.reverse cs := by
  cases parts with
  | nil =>
    rw [elementFrom, Tag.invalid_isValid] at h
    cases h
  | cons p ps =>
    cases p with
    | leaf l =>
      cases l with
      | node n => exact .inl ⟨_, ps, o, rfl, .node⟩
      | token t =>
        cases goes : (t.kind == .delimiter && t.text == "/>") with
        | false =>
          obtain ⟨o', hread, -⟩ := Tag.elementFrom_token goes h
          exact .inl ⟨_, ps, o', rfl, passes_of_readToken hread goes⟩
        | true =>
          obtain ⟨hkind, htext⟩ := (Bool.and_eq_true _ _ ▸ goes : _ ∧ _)
          have hkind := eq_of_beq hkind
          have htext := eq_of_beq htext
          right
          cases hw : o.waiting with
          | true =>
            simp only [elementFrom, readToken, hkind, htext, hw, beq_self_eq_true, Bool.true_or, if_true] at h
            rw [Tag.invalid_isValid] at h
            cases h
          | false =>
            refine ⟨.element name.text true o.space none, ⟨some (spanOf angle name), some (spanOf t t), none⟩, [], rfl,
              fun as => ?_⟩
            simp only [elementFrom, readToken, hkind, htext, beq_self_eq_true, Bool.true_or, if_true, Bool.false_eq_true,
              if_false, Bool.and_self]
    | group g =>
      obtain ⟨o', hpasses⟩ := passes_of_group h
      exact .inl ⟨_, ps, o', rfl, hpasses⟩
    | content nodes close =>
      obtain ⟨-, t, rfl, hname, -⟩ := elementFrom_content h
      refine .inr ⟨.element name.text false o.space (some name.text), ⟨some (spanOf angle name), some (spanOf t t), none⟩,
        nodes, rfl, fun as => ?_⟩
      rw [elementFrom, hname, if_pos (beq_self_eq_true _)]

/-! ## Other attributes -/

/-- The attribute that was read last does not take a value. -/
def Settled (as : List Node) : Prop := ∀ a ∈ as.head?, a.children ≠ []

theorem takesValue_settled {o : Opening} (h : Settled o.attributes) : o.takesValue = false := by
  unfold Opening.takesValue
  split
  · rfl
  · next a as has =>
    have hne : a.children.isEmpty = false := List.isEmpty_eq_false_iff.mpr (h a (by rw [has]; rfl))
    split
    · rw [hne, Bool.false_and]
    · rfl

/-- A part adds to the attributes whatever these are, as long as it gives no value to them. -/
theorem Passes.frame {front as : List Node} {space : String} {waiting : Bool} {p : Part} {o' : Opening}
    (h : Passes ⟨front ++ as, space, waiting⟩ p o') (hlast : front = [] → waiting = false ∧ Settled as) :
    ∃ front', o'.attributes = front' ++ as ∧ (front' = [] → front = [] ∧ o'.waiting = false) ∧
      ∀ as', (front = [] → Settled as') → Passes ⟨front ++ as', space, waiting⟩ p { o' with attributes := front' ++ as' } := by
  have hgive (v : Node) (hwaiting : waiting = true) : ∃ a rest, front = a :: rest ∧
      ∀ as, Opening.giveValue ⟨front ++ as, space, waiting⟩ v =
        ⟨a.withChildren (a.children ++ [v]) :: rest ++ as, space, false⟩ := by
    cases front with
    | nil =>
      rw [hwaiting] at hlast
      cases (hlast rfl).1
    | cons a rest => exact ⟨a, rest, rfl, fun as => rfl⟩
  cases h with
  | space kind => exact ⟨front, rfl, fun h => ⟨h, (hlast h).1⟩, fun as' _ => .space kind⟩
  | @name t kind free =>
    exact ⟨_ :: front, rfl, fun h => (List.cons_ne_nil _ _ h).elim, fun as' _ => .name (o := ⟨front ++ as', space, waiting⟩) kind free⟩
  | equals kind takes =>
    cases front with
    | nil =>
      rw [List.nil_append, takesValue_settled (o := ⟨as, space, waiting⟩) (hlast rfl).2] at takes
      cases takes
    | cons a rest => exact ⟨a :: rest, rfl, fun h => (List.cons_ne_nil _ _ h).elim, fun as' _ =>
        .equals (o := ⟨a :: rest ++ as', space, waiting⟩) kind takes⟩
  | quoted kind hwaiting =>
    obtain ⟨a, rest, rfl, hgives⟩ := hgive _ hwaiting
    refine ⟨_ :: rest, by rw [hgives], fun h => (List.cons_ne_nil _ _ h).elim, fun as' _ => ?_⟩
    have h := Passes.quoted (o := ⟨a :: rest ++ as', space, waiting⟩) kind hwaiting
    rw [hgives] at h ⊢
    exact h
  | angle kind text goes free =>
    exact ⟨front, rfl, fun h => ⟨h, (hlast h).1⟩, fun as' _ => .angle (o := ⟨front ++ as', space, waiting⟩) kind text goes free⟩
  | node => exact ⟨front, rfl, fun h => ⟨h, (hlast h).1⟩, fun as' _ => .node⟩
  | @value g hwaiting =>
    obtain ⟨a, rest, rfl, hgives⟩ := hgive _ hwaiting
    refine ⟨_ :: rest, by rw [hgives], fun h => (List.cons_ne_nil _ _ h).elim, fun as' _ => ?_⟩
    have h := Passes.value (o := ⟨a :: rest ++ as', space, waiting⟩) (g := g) hwaiting
    rw [hgives] at h ⊢
    exact h
  | @spread g attr free reads =>
    exact ⟨attr :: front, rfl, fun h => (List.cons_ne_nil _ _ h).elim, fun as' _ =>
      .spread (o := ⟨front ++ as', space, waiting⟩) free reads⟩

/-- The attributes that were read stay as they are, and what is read after them does not depend on them. -/
theorem elementFrom_frame {angle name : Token} {front as : List Node} {space : String} {waiting : Bool} {parts : List Part}
    (h : (elementFrom angle name ⟨front ++ as, space, waiting⟩ parts).isValid = true)
    (hlast : front = [] → waiting = false ∧ Settled as) : ∃ k i more cs, k.isElement = true ∧
      ∀ as', (front = [] → Settled as') →
        elementFrom angle name ⟨front ++ as', space, waiting⟩ parts = .mk k i (as'.reverse ++ more) cs := by
  induction parts generalizing front space waiting with
  | nil =>
    rw [elementFrom, Tag.invalid_isValid] at h
    cases h
  | cons p ps ih =>
    rcases elementFrom_cases h with ⟨p, ps, o', heq, hpasses⟩ | ⟨k, i, cs, hk, hends⟩
    · obtain ⟨rfl, rfl⟩ := List.cons.inj heq
      obtain ⟨front', has, hfront', hframe⟩ := hpasses.frame hlast
      obtain ⟨as', space', waiting'⟩ := o'
      obtain rfl : as' = front' ++ as := has
      rw [hpasses.eq] at h
      obtain ⟨k, i, more, cs, hk, hmore⟩ := ih h fun hnil => ⟨(hfront' hnil).2, (hlast (hfront' hnil).1).2⟩
      refine ⟨k, i, more, cs, hk, fun bs hbs => ?_⟩
      rw [(hframe bs hbs).eq]
      exact hmore bs fun hnil => hbs (hfront' hnil).1
    · refine ⟨k, i, front.reverse, cs, hk, fun as' _ => ?_⟩
      rw [← List.reverse_append]
      exact hends (front ++ as')

/-- An element that can be read starts with its angle. -/
theorem head_elementFrom {angle name : Token} {o : Opening} {parts : List Part}
    (h : (elementFrom angle name o parts).isValid = true) :
    (elementFrom angle name o parts).info.head = some (spanOf angle name) := by
  induction parts generalizing o with
  | nil =>
    rw [elementFrom, Tag.invalid_isValid] at h
    cases h
  | cons p ps ih =>
    rcases p with (t | n) | g | ⟨nodes, close⟩
    · rw [elementFrom] at h ⊢
      split
      · next n hread =>
        rw [hread] at h
        rw [Tag.isValid_of_readToken hread] at h
        cases h
      · next o' hread =>
        rw [hread] at h
        dsimp only at h
        split
        · rfl
        · next hgoes =>
          rw [if_neg hgoes] at h
          exact ih h
    · exact ih h
    · rw [elementFrom] at h ⊢
      split
      · next hwaiting =>
        rw [if_pos hwaiting] at h
        exact ih h
      · next hfree =>
        rw [if_neg hfree] at h
        split
        · next n hreads =>
          rw [hreads] at h
          rw [Tag.isValid_of_spread hreads] at h
          cases h
        · next attr hreads =>
          rw [hreads] at h
          exact ih h
    · rw [elementFrom.eq_def] at h ⊢
      dsimp only at h ⊢
      cases close with
      | none =>
        rw [Tag.invalid_isValid] at h
        cases h
      | some close =>
        dsimp only at h ⊢
        split
        · rfl
        · next hname =>
          rw [if_neg hname, Tag.invalid_isValid] at h
          cases h

/-! ## The place of a value -/

theorem kind_spread {space : String} {g : Group} {attr : Node} (h : spread space g = .ok attr) :
    (∃ space', attr.kind = .spread space') ∧ attr.children ≠ [] := by
  unfold spread at h
  split at h
  · cases h
  · dsimp only at h
    split at h
    · obtain rfl := Except.ok.inj h
      exact ⟨⟨_, rfl⟩, List.cons_ne_nil _ _⟩
    · cases h

section

variable {angle name : Token} {left right : List Node} {a : Node}

/-- The parts of a tag are read one after the other without ending it. -/
inductive Through : Opening → List Part → Opening → Prop where
  | nil (o : Opening) : Through o [] o
  | cons {o o' o'' : Opening} {p : Part} {ps : List Part} (first : Passes o p o') (rest : Through o' ps o'') :
    Through o (p :: ps) o''

theorem Through.eq {o o' : Opening} {ps : List Part} (h : Through o ps o') (angle name : Token) (qs : List Part) :
    elementFrom angle name o (ps ++ qs) = elementFrom angle name o' qs := by
  induction h with
  | nil => rfl
  | cons first _ ih => exact (first.eq angle name _).trans ih

/-- Where an attribute stands is known from the number of attributes before it. -/
theorem attribute_at {front as : List Node} {b : Node} {space : String} {waiting : Bool} {parts : List Part}
    (h : (elementFrom angle name ⟨front ++ b :: as, space, waiting⟩ parts).isValid = true)
    (hlast : front = [] → waiting = false ∧ b.children ≠ [])
    (hsplit : (elementFrom angle name ⟨front ++ b :: as, space, waiting⟩ parts).attributes = left ++ a :: right)
    (hlength : as.length = left.length) : a = b ∧ left = as.reverse := by
  have hsettled (hnil : front = []) : Settled (b :: as) := by
    intro x hx
    obtain rfl := Option.some.inj hx
    exact (hlast hnil).2
  obtain ⟨k, i, more, cs, -, heq⟩ := elementFrom_frame h fun hnil => ⟨(hlast hnil).1, hsettled hnil⟩
  rw [heq _ hsettled, Node.attributes_mk, List.reverse_cons, List.append_assoc] at hsplit
  obtain ⟨hleft, hrest⟩ := List.append_inj hsplit (by rw [List.length_reverse, hlength])
  exact ⟨(List.cons.inj hrest).1.symm, hleft.symm⟩

/-- The attribute after so many others is not there yet, or it has no value. -/
def Unfilled (n : Nat) (as : List Node) : Prop :=
  as.length ≤ n ∨ ∃ b as', as = b :: as' ∧ as'.length = n ∧ b.children = []

/-- The value in braces of an attribute is a part of the tag, and the attribute is the last one that was read before. -/
theorem exists_value {o : Opening} {parts : List Part} (h : (elementFrom angle name o parts).isValid = true)
    (hsplit : (elementFrom angle name o parts).attributes = left ++ a :: right)
    (hattr : ∃ name space, a.kind = .attr name space) {s : Node} {rest : List Node} (hs : a.children = s :: rest)
    (hslot : ∃ lead trail, s.kind = .slot lead trail) (hunfilled : Unfilled left.length o.attributes) :
    ∃ A g B o' b, parts = A ++ .group g :: B ∧ Through o A o' ∧
      o'.waiting = true ∧ o'.attributes = b :: left.reverse ∧ b.children = [] ∧ a = b.withChildren [slot g] := by
  induction parts generalizing o with
  | nil =>
    rw [elementFrom, Tag.invalid_isValid] at h
    cases h
  | cons p ps ih =>
    -- an attribute that was passed over has a value, and it is the last one to which anything is given
    have hnot {b : Node} {as' : List Node} (front : List Node) {space : String} {waiting : Bool}
        (hlength : as'.length = left.length)
        (heq : elementFrom angle name o (p :: ps) = elementFrom angle name ⟨front ++ b :: as', space, waiting⟩ ps)
        (hlast : front = [] → waiting = false ∧ b.children ≠ []) : a = b ∧ left = as'.reverse := by
      rw [heq] at h hsplit
      exact attribute_at h hlast hsplit hlength
    have hempty {b : Node} (hb : b.children = []) : a ≠ b := by
      rintro rfl
      rw [hb] at hs
      cases hs
    rcases elementFrom_cases h with ⟨p, ps, o', heq, hpasses⟩ | ⟨k, i, cs, hk, hends⟩
    · obtain ⟨rfl, rfl⟩ := List.cons.inj heq
      have hnext := hpasses.eq angle name ps
      have hrest := fun hunfilled => ih (hnext ▸ h) (hnext ▸ hsplit) (o := o') hunfilled
      have hlater (hunfilled : Unfilled left.length o'.attributes) : ∃ A g B o'' b, p :: ps = A ++ .group g :: B ∧
          Through o A o'' ∧ o''.waiting = true ∧ o''.attributes = b :: left.reverse ∧ b.children = [] ∧ a = b.withChildren [slot g] := by
        obtain ⟨A, g, B, o'', b, rfl, hA, hb⟩ := hrest hunfilled
        exact ⟨p :: A, g, B, o'', b, rfl, .cons hpasses hA, hb⟩
      obtain ⟨as, space, waiting⟩ := o
      cases hpasses with
      | space | equals | angle | node => exact hlater hunfilled
      | name kind free =>
        refine hlater ?_
        rcases hunfilled with hle | ⟨b, as', rfl, hlength, hb⟩
        · rcases Nat.lt_or_eq_of_le hle with hlt | heq
          · exact .inl hlt
          · exact .inr ⟨_, as, rfl, heq, rfl⟩
        · exact absurd (hnot [_] hlength hnext fun h => (List.cons_ne_nil _ _ h).elim).1 (hempty hb)
      | @quoted t kind hwaiting =>
        rcases hunfilled with hle | ⟨b, as', rfl, hlength, hb⟩
        · refine hlater (.inl ?_)
          cases as with
          | nil => exact hle
          | cons b as => exact hle
        · have hne : (b.withChildren (b.children ++ [stringValue t])).children ≠ [] := by simp
          obtain ⟨rfl, -⟩ := hnot [] hlength hnext fun _ => ⟨rfl, hne⟩
          rw [Node.children_withChildren, hb] at hs
          obtain ⟨lead, trail, hkind⟩ := hslot
          rw [← (List.cons.inj hs).1] at hkind
          cases hkind
      | @value g hwaiting =>
        rcases hunfilled with hle | ⟨b, as', rfl, hlength, hb⟩
        · refine hlater (.inl ?_)
          cases as with
          | nil => exact hle
          | cons b as => exact hle
        · have hne : (b.withChildren (b.children ++ [slot g])).children ≠ [] := by simp
          obtain ⟨rfl, rfl⟩ := hnot [] hlength hnext fun _ => ⟨rfl, hne⟩
          refine ⟨[], g, ps, _, b, rfl, .nil _, hwaiting, ?_, hb, by rw [hb]; rfl⟩
          rw [List.reverse_reverse]
      | @spread g attr free reads =>
        obtain ⟨hkind, hne⟩ := kind_spread reads
        rcases hunfilled with hle | ⟨b, as', rfl, hlength, hb⟩
        · rcases Nat.lt_or_eq_of_le hle with hlt | heq
          · exact hlater (.inl hlt)
          · obtain ⟨rfl, -⟩ := hnot [] heq hnext fun _ => ⟨free, hne⟩
            obtain ⟨name', space', hattr⟩ := hattr
            rw [hattr] at hkind
            obtain ⟨space'', hkind⟩ := hkind
            cases hkind
        · exact absurd (hnot [attr] hlength hnext fun h => (List.cons_ne_nil _ _ h).elim).1 (hempty hb)
    · have hall := hends o.attributes
      rw [hall, Node.attributes_mk] at hsplit
      have hlength := congrArg List.length hsplit
      rw [List.length_reverse, List.length_append, List.length_cons] at hlength
      rcases hunfilled with hle | ⟨b, as', has, hlength', hb⟩
      · omega
      · rw [has, List.reverse_cons] at hsplit
        obtain ⟨-, hb'⟩ := List.append_inj hsplit (by rw [List.length_reverse, hlength'])
        exact absurd (List.cons.inj hb').1.symm (hempty hb)

end

/-! ## The end of an opening tag -/

/-- Where a value is expected, it follows the equals sign at once. -/
def Tight (o : Opening) (afterEquals : Bool) : Prop :=
  o.waiting = true → afterEquals = true ∧ o.space = "" ∧ o.attributes ≠ []

/-- White space or a comment in a tag. -/
def IsSpacing (p : Part) : Prop := ∃ t, p = .leaf (.token t) ∧ (t.kind = .space ∨ t.kind = .comment)

theorem tight_of_free {o : Opening} (h : o.waiting = false) (afterEquals : Bool) : Tight o afterEquals := by
  intro hwaiting
  rw [h] at hwaiting
  cases hwaiting

theorem token_of_inTag {x : Judged} (h : Tag.InTag x) {t : Token} (hx : x.part = .leaf (.token t)) :
    Scan.Fits .tag t.kind t.text.toList := by
  cases h with
  | token fits =>
    cases hx
    exact fits
  | group part =>
    rw [part] at hx
    cases hx

/-- In a tag that is kept, there is nothing after an attribute but what was read after it. -/
theorem Passes.tight {name : String} {afterEquals : Bool} {o o' : Opening} {x : Judged} (h : Passes o x.part o')
    (hx : Tag.InTag x) (htight : Tight o afterEquals) (hkept : x.keepsInTag name afterEquals = true) :
    Tight o' x.isEquals ∧ (IsSpacing x.part ∨ (o'.waiting = false → o'.space = "")) := by
  have hgive (v : Node) (hwaiting : o.waiting = true) : (o.giveValue v).waiting = false ∧ (o.giveValue v).space = "" := by
    unfold Opening.giveValue
    split <;> exact ⟨rfl, (htight hwaiting).2.1⟩
  have hfits := @token_of_inTag x hx
  have hnode : ∀ n, x.part ≠ .leaf (.node n) := by
    intro n hn
    cases hx with
    | token => cases hn
    | group part =>
      rw [part] at hn
      cases hn
  unfold Judged.keepsInTag at hkept
  unfold Judged.isEquals
  generalize x.part = p at h hkept hfits hnode ⊢
  cases h with
  | @space t kind =>
    have hfree : o.waiting = false := by
      cases hw : o.waiting with
      | false => rfl
      | true =>
        rw [(htight hw).1] at hkept
        rcases kind with kind | kind <;> simp [kind] at hkept
    refine ⟨tight_of_free ?_ _, .inl ⟨t, rfl, kind⟩⟩
    exact hfree
  | name kind free =>
    refine ⟨tight_of_free ?_ _, .inr fun _ => rfl⟩
    exact free
  | equals kind takes =>
    obtain ⟨hspace, a, as, has, -⟩ := Tag.takesValue_spec takes
    exact ⟨fun _ => ⟨by simp [Part.token?, Leaf.token?, kind], hspace, has ▸ List.cons_ne_nil a as⟩, .inr fun h => by cases h⟩
  | quoted kind waiting =>
    obtain ⟨hfree, hspace⟩ := hgive _ waiting
    exact ⟨tight_of_free hfree _, .inr fun _ => hspace⟩
  | @angle t kind text goes free =>
    -- such a token ends the tag
    have hfits := hfits rfl
    unfold Scan.Fits at hfits
    dsimp only at hfits
    split at hfits
    any_goals simp_all
    rcases text with text | text <;> · rw [text] at hfits; exact absurd hfits (by decide)
  | node => exact absurd rfl (hnode _)
  | value waiting =>
    obtain ⟨hfree, hspace⟩ := hgive _ waiting
    exact ⟨tight_of_free hfree _, .inr fun _ => hspace⟩
  | spread free reads =>
    refine ⟨tight_of_free ?_ _, .inr fun _ => rfl⟩
    exact free

/-- Whether the last part is an equals sign. -/
def endsInEquals (afterEquals : Bool) (xs : List Judged) : Bool := (xs.getLast?.map (·.isEquals)).getD afterEquals

theorem endsInEquals_cons (afterEquals : Bool) (x : Judged) (xs : List Judged) :
    endsInEquals afterEquals (x :: xs) = endsInEquals x.isEquals xs := by
  cases xs with
  | nil => rfl
  | cons y ys => rw [endsInEquals, List.getLast?_cons_cons]; cases h : (y :: ys).getLast? <;> simp_all [endsInEquals]

theorem keepsTag_append (name : String) (afterEquals : Bool) (xs ys : List Judged) :
    Judged.keepsTag name afterEquals (xs ++ ys) =
      (Judged.keepsTag name afterEquals xs && Judged.keepsTag name (endsInEquals afterEquals xs) ys) := by
  induction xs generalizing afterEquals with
  | nil => rfl
  | cons x xs ih =>
    rw [List.cons_append, Judged.keepsTag, Judged.keepsTag, ih, endsInEquals_cons, Bool.and_assoc]

theorem Through.tight {name : String} {afterEquals : Bool} {o o' : Opening} {xs : List Judged}
    (h : Through o (Judged.parts xs) o') (hxs : ∀ x ∈ xs, Tag.InTag x) (htight : Tight o afterEquals)
    (hkept : Judged.keepsTag name afterEquals xs = true) : Tight o' (endsInEquals afterEquals xs) := by
  induction xs generalizing o afterEquals with
  | nil =>
    cases h
    exact htight
  | cons x xs ih =>
    obtain ⟨hx, hxs⟩ := List.forall_mem_cons.mp hxs
    rw [Judged.keepsTag, Bool.and_eq_true] at hkept
    rw [endsInEquals_cons]
    cases h with
    | cons first rest => exact ih rest hxs (first.tight hx htight hkept.1).1 hkept.2

/-- What attributes end in: a name, a quoted value or a closed brace. -/
def IsFirm (p : Part) : Prop :=
  (∃ t, p = .leaf (.token t) ∧ (t.kind = .attrName ∨ t.kind = .doubleQuoted ∨ t.kind = .singleQuoted)) ∨
    ∃ g, p = .group g ∧ g.tail.isSome = true

theorem Passes.firm {afterEquals : Bool} {o o' : Opening} {x : Judged} (h : Passes o x.part o') (hx : Tag.InTag x)
    (htight : Tight o afterEquals) (hvalid : ∀ a ∈ o'.attributes, a.isValid = true) :
    IsSpacing x.part ∨ o'.waiting = true ∨ IsFirm x.part := by
  have hfits := @token_of_inTag x hx
  have hnode : ∀ n, x.part ≠ .leaf (.node n) := by
    intro n hn
    cases hx with
    | token => cases hn
    | group part =>
      rw [part] at hn
      cases hn
  generalize x.part = p at h hfits hnode ⊢
  cases h with
  | @space t kind => exact .inl ⟨t, rfl, kind⟩
  | @name t kind => exact .inr (.inr (.inl ⟨t, rfl, .inl kind⟩))
  | equals => exact .inr (.inl rfl)
  | @quoted t kind => exact .inr (.inr (.inl ⟨t, rfl, .inr kind⟩))
  | @angle t kind text =>
    have hfits := hfits rfl
    unfold Scan.Fits at hfits
    dsimp only at hfits
    split at hfits
    any_goals simp_all
    rcases text with text | text <;> · rw [text] at hfits; exact absurd hfits (by decide)
  | node => exact absurd rfl (hnode _)
  | @value g waiting =>
    refine .inr (.inr (.inr ⟨g, rfl, ?_⟩))
    have hslot := (Tag.valid_of_giveValue hvalid).2 (htight waiting).2.2
    cases htail : g.tail with
    | none => rw [slot, htail, Tag.invalid_isValid] at hslot; cases hslot
    | some t => rfl
  | @spread g attr free reads =>
    obtain ⟨tail, htail⟩ := (Tag.spread_spec reads).1
    exact .inr (.inr (.inr ⟨g, rfl, by rw [htail]; rfl⟩))

/-- Nothing that is read in a tag is an invalid token. -/
theorem Passes.kind {o o' : Opening} {x : Judged} (h : Passes o x.part o') (hx : Tag.InTag x) {t : Token}
    (ht : x.part = .leaf (.token t)) : t.kind ≠ .invalid ∧ t.kind ≠ .text := by
  have hfits := token_of_inTag hx ht
  rw [ht] at h
  cases h with
  | space kind => rcases kind with kind | kind <;> rw [kind] <;> exact ⟨nofun, nofun⟩
  | name kind => rw [kind]; exact ⟨nofun, nofun⟩
  | equals kind => rw [kind]; exact ⟨nofun, nofun⟩
  | quoted kind => rcases kind with kind | kind <;> rw [kind] <;> exact ⟨nofun, nofun⟩
  | angle kind text =>
    unfold Scan.Fits at hfits
    dsimp only at hfits
    split at hfits
    any_goals simp_all
    rcases text with text | text <;> · rw [text] at hfits; exact absurd hfits (by decide)

theorem Through.kinds {o o' : Opening} {xs : List Judged} (h : Through o (Judged.parts xs) o') (hxs : ∀ x ∈ xs, Tag.InTag x) :
    ∀ x ∈ xs, ∀ t, x.part = .leaf (.token t) → t.kind ≠ .invalid := by
  induction xs generalizing o with
  | nil => exact List.forall_mem_nil _
  | cons x xs ih =>
    obtain ⟨hx, hxs⟩ := List.forall_mem_cons.mp hxs
    cases h with
    | cons first rest => exact List.forall_mem_cons.mpr ⟨fun t ht => (first.kind hx ht).1, ih rest hxs⟩

theorem exists_passes {angle name : Token} {o : Opening} {x : Judged} {ps : List Part} (hx : Tag.InTag x)
    (h : (elementFrom angle name o (x.part :: ps)).isValid = true) : ∃ o', Passes o x.part o' := by
  cases hx with
  | @token t fits =>
    have goes : (t.kind == .delimiter && t.text == "/>") = false := by
      have hkind : t.kind ≠ .delimiter := by
        intro hkind
        rw [hkind] at fits
        exact fits
      rw [beq_eq_false_iff_ne.mpr hkind, Bool.false_and]
    obtain ⟨o', hread, -⟩ := Tag.elementFrom_token goes h
    exact ⟨o', passes_of_readToken hread goes⟩
  | @group x g middle part =>
    rw [part] at h ⊢
    exact passes_of_group h

/-- The parts of a tag are those up to the last attribute, and white space and comments after it. -/
theorem exists_spacing {angle name : Token} {R : List Part} {xs : List Judged} {o : Opening} {afterEquals : Bool}
    (hxs : ∀ x ∈ xs, Tag.InTag x) (h : (elementFrom angle name o (Judged.parts xs ++ R)).isValid = true)
    (htight : Tight o afterEquals) (hkept : Judged.keepsTag name.text afterEquals xs = true) :
    ∃ ys zs o', xs = ys ++ zs ∧ Through o (Judged.parts ys) o' ∧ (∀ z ∈ zs, IsSpacing z.part) ∧
      (ys = [] ∧ o' = o ∨ ∃ front y, ys = front ++ [y] ∧ (o'.waiting = false → o'.space = "" ∧ IsFirm y.part)) := by
  induction xs generalizing o afterEquals with
  | nil => exact ⟨[], [], o, rfl, .nil o, List.forall_mem_nil _, .inl ⟨rfl, rfl⟩⟩
  | cons x xs ih =>
    obtain ⟨hx, hxs⟩ := List.forall_mem_cons.mp hxs
    rw [Judged.keepsTag, Bool.and_eq_true] at hkept
    obtain ⟨o₁, hpasses⟩ := exists_passes hx h
    obtain ⟨htight₁, hspace⟩ := hpasses.tight hx htight hkept.1
    have hnext : elementFrom angle name o (Judged.parts (x :: xs) ++ R) = elementFrom angle name o₁ (Judged.parts xs ++ R) :=
      hpasses.eq angle name _
    rw [hnext] at h
    obtain ⟨ys, zs, o', rfl, hys, hzs, hends⟩ := ih hxs h htight₁ hkept.2
    have hthrough : Through o (Judged.parts (x :: ys)) o' := .cons hpasses hys
    rcases hends with ⟨rfl, rfl⟩ | ⟨front, y, rfl, hends⟩
    · by_cases hspacing : IsSpacing x.part
      · exact ⟨[], x :: zs, o, rfl, .nil o, List.forall_mem_cons.mpr ⟨hspacing, hzs⟩, .inl ⟨rfl, rfl⟩⟩
      · refine ⟨[x], zs, o', rfl, hthrough, hzs, .inr ⟨[], x, rfl, fun hfree => ⟨hspace.resolve_left hspacing hfree, ?_⟩⟩⟩
        have hfirm := (hpasses.firm hx htight (Tag.valid_of_elementFrom h)).resolve_left hspacing
        exact hfirm.resolve_left (by rw [hfree]; exact Bool.false_ne_true)
    · exact ⟨x :: (front ++ [y]), zs, o', rfl, hthrough, hzs, .inr ⟨x :: front, y, rfl, hends⟩⟩

theorem free_of_angle {angle name t : Token} {o : Opening} {ps : List Part} (hkind : t.kind = .delimiter)
    (htext : t.text = "/>" ∨ t.text = ">") (h : (elementFrom angle name o (.leaf (.token t) :: ps)).isValid = true) :
    o.waiting = false := by
  cases hw : o.waiting with
  | false => rfl
  | true =>
    have hends : (t.text == "/>" || t.text == ">") = true := by rcases htext with h | h <;> rw [h] <;> rfl
    simp only [elementFrom, readToken, hkind, hends, hw, if_true] at h
    rw [Tag.invalid_isValid] at h
    cases h

/-- Nothing after the last attribute of a tag depends on the attributes. -/
theorem elementFrom_spacing {angle name : Token} {ps : List Part} {ending : List Judged} {o : Opening}
    (hps : ∀ p ∈ ps, IsSpacing p) (hending : Tag.Ending ending)
    (h : (elementFrom angle name o (ps ++ Judged.parts ending)).isValid = true) : ending ≠ [] ∧ o.waiting = false ∧
      ∃ k i cs, k.isElement = true ∧ ∀ as,
        elementFrom angle name { o with attributes := as } (ps ++ Judged.parts ending) = .mk k i as.reverse cs := by
  induction ps generalizing o with
  | nil =>
    rw [List.nil_append] at h ⊢
    cases hending with
    | none =>
      rw [Judged.parts, List.map_nil, elementFrom, Tag.invalid_isValid] at h
      cases h
    | @selfClosing t kind text =>
      refine ⟨List.cons_ne_nil _ _, free_of_angle kind (.inl text) h, ?_⟩
      rcases elementFrom_cases h with ⟨p, ps, o', heq, hpasses⟩ | hends
      · obtain ⟨rfl, rfl⟩ := List.cons.inj heq
        have heq := hpasses.eq angle name []
        rw [show elementFrom angle name o (Judged.parts [Tag.ofToken t]) = elementFrom angle name o' [] from heq,
          elementFrom, Tag.invalid_isValid] at h
        cases h
      · exact hends
    | @opened t kind text =>
      have h : (elementFrom angle name o [.leaf (.token t)]).isValid = true := h
      rw [elementFrom_angle kind (.inr text) h, text, if_neg (by decide), elementFrom, Tag.invalid_isValid] at h
      cases h
    | @content t x nodes close kind text part sound =>
      have hfree := free_of_angle kind (.inr text) h
      have hstep (as : List Node) : elementFrom angle name { o with attributes := as } (Judged.parts [Tag.ofToken t, x]) =
          elementFrom angle name { o with attributes := as } [.content nodes close] := by
        have hpasses : Passes { o with attributes := as } (.leaf (.token t)) { o with attributes := as } :=
          .angle (by rw [kind]; decide) (by rw [text]; rfl) (by rw [text]; simp) hfree
        rw [Judged.parts, List.map_cons, List.map_singleton, part]
        exact hpasses.eq angle name _
      refine ⟨List.cons_ne_nil _ _, hfree, ?_⟩
      have h' := hstep o.attributes ▸ h
      obtain ⟨-, t', rfl, hname, -⟩ := elementFrom_content h'
      refine ⟨.element name.text false o.space (some name.text), ⟨some (spanOf angle name), some (spanOf t' t'), none⟩,
        nodes, rfl, fun as => ?_⟩
      rw [hstep as, elementFrom, hname, if_pos (beq_self_eq_true _)]
  | cons p ps ih =>
    obtain ⟨⟨t, rfl, hkind⟩, hrest⟩ := List.forall_mem_cons.mp hps
    rw [List.cons_append, (Passes.space hkind).eq] at h
    obtain ⟨hne, hfree, k, i, cs, hk, hends⟩ := ih hrest h
    refine ⟨hne, hfree, k, i, cs, hk, fun as => ?_⟩
    rw [List.cons_append, (Passes.space hkind).eq]
    exact hends as

end JsxEdit.Markup
