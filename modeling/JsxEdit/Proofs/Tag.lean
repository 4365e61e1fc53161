import JsxEdit.Proofs.Object
import JsxEdit.Proofs.Rule

/-
Opening tags are written as they were read, as far as `keepsTag` says.

While a tag is read, the attributes so far and the white space since then are the text so far. After an equals sign the
value has to come at once: what stands between is written after the value, and since it does not start as a value does,
the text is another one then.
-/
set_option autoImplicit false

namespace JsxEdit

open Scan (Fits)
open Markup (Opening readToken spread slot elementFrom)

namespace Tag

/-! ## Attributes -/

/-- An attribute that has no value yet. -/
structure Bare (a : Node) : Prop where
  attr : ∃ name space, a.kind = .attr name space
  value : a.children = []

/-- A value is written after the attribute and an equals sign. -/
theorem write_withChildren {a value : Node} (h : Bare a) :
    (a.withChildren (a.children ++ [value])).write = a.write ++ "=" ++ value.write := by
  obtain ⟨k, i, as, cs⟩ := a
  obtain ⟨⟨name, space, rfl⟩, rfl⟩ : (∃ name space, k = .attr name space) ∧ cs = [] := ⟨h.attr, h.value⟩
  simp [Node.withChildren, Node.write, Node.writeAll, Kind.opening, Kind.closing]

theorem isValid_withChildren {a value : Node} (h : (a.withChildren (a.children ++ [value])).isValid = true) :
    a.isValid = true ∧ value.isValid = true := by
  obtain ⟨k, i, as, cs⟩ := a
  rw [Node.withChildren, Node.isValid, Bool.and_eq_true, Node.allValid_iff] at h
  rw [Node.isValid, Bool.and_eq_true, Node.allValid_iff]
  exact ⟨⟨h.1, fun n hn => h.2 n (List.mem_append_left _ hn)⟩, h.2 _ (List.mem_append_right _ List.mem_cons_self)⟩

/-! ## What was passed -/

/-- What a value starts with: a quote or a brace. -/
def startsValue (c : Char) : Prop := c = '"' ∨ c = '\'' ∨ c = '\x7b'

/-- A gap between an equals sign and a value: what it starts with is not what a value starts with. -/
def IsGap (space : String) : Prop := ∃ c rest, space.toList = c :: rest ∧ ¬startsValue c

/-- What was read of an opening tag, the text that was passed, whether that is kept, and whether an equals sign was just
passed. -/
inductive Passed : Opening → String → Bool → Bool → Prop where
  | plain {attributes : List Node} {space source : String} {kept : Bool}
      (agrees : Agrees (Node.writeAll attributes.reverse ++ space) source kept) :
      Passed ⟨attributes, space, false⟩ source kept false
  | equals {a : Node} {attributes : List Node} {source : String} {kept : Bool} (bare : Bare a)
      (agrees : Agrees (Node.writeAll (a :: attributes).reverse ++ "=") source kept) :
      Passed ⟨a :: attributes, "", true⟩ source kept true
  | gap {a : Node} {attributes : List Node} {space source : String} (bare : Bare a) (gap : IsGap space)
      (le : (Node.writeAll (a :: attributes).reverse ++ "=").length ≤ source.length) :
      Passed ⟨a :: attributes, space, true⟩ (source ++ space) false false

/-- A value that comes after a gap is written before it. -/
theorem gap_differs {front value source space source' : String} (hgap : IsGap space)
    (hvalue : ∃ c rest, value.toList = c :: rest ∧ startsValue c) (hfront : front.length ≤ source.length)
    (hle : value.length ≤ source'.length) : Agrees (front ++ value ++ space) (source ++ space ++ source') false := by
  refine ⟨by simp only [String.length_append]; omega, iff_of_false (fun heq => ?_) (by decide)⟩
  have hlen := congrArg String.length heq
  simp only [String.length_append] at hlen
  have hchars := congrArg String.toList heq
  simp only [String.toList_append, List.append_assoc] at hchars
  obtain ⟨-, htail⟩ := List.append_inj hchars (by rw [String.length_toList, String.length_toList]; omega)
  obtain ⟨c, rest, hc, hnot⟩ := hgap
  obtain ⟨d, rest', hd, hstarts⟩ := hvalue
  rw [hc, hd, List.cons_append, List.cons_append] at htail
  exact hnot ((List.cons.inj htail).1 ▸ hstarts)

theorem writeAll_cons_reverse (a : Node) (as : List Node) :
    Node.writeAll (a :: as).reverse = Node.writeAll as.reverse ++ a.write := by
  rw [List.reverse_cons, Node.writeAll_append, Node.writeAll_singleton]

/-- Only an attribute can wait for its value. -/
theorem Passed.attributes_ne {o : Opening} {source : String} {kept afterEquals : Bool}
    (h : Passed o source kept afterEquals) (hwaiting : o.waiting = true) : o.attributes ≠ [] := by
  cases h with
  | plain => cases hwaiting
  | equals => exact List.cons_ne_nil _ _
  | gap => exact List.cons_ne_nil _ _

/-- Giving the last attribute its value. -/
theorem Passed.value {o : Opening} {source source' : String} {kept kept' afterEquals : Bool} {value : Node}
    (h : Passed o source kept afterEquals) (hwaiting : o.waiting = true) (hvalue : Agrees value.write source' kept')
    (hstarts : ∃ c rest, value.write.toList = c :: rest ∧ startsValue c) :
    Passed (o.giveValue value) (source ++ source') (kept && kept') false := by
  cases h with
  | plain => cases hwaiting
  | equals bare agrees =>
    refine .plain ?_
    rw [writeAll_cons_reverse, write_withChildren bare, String.append_empty, ← String.append_assoc,
      ← String.append_assoc, ← writeAll_cons_reverse]
    exact agrees.append hvalue
  | gap bare gap le =>
    refine .plain ?_
    rw [writeAll_cons_reverse, write_withChildren bare, ← String.append_assoc, ← String.append_assoc,
      ← writeAll_cons_reverse]
    exact gap_differs gap hstarts le hvalue.le

/-! ## Tokens -/

theorem write_stringValue {t : Token} {q : Char} {body : List Char} (h : t.text.toList = q :: body ++ [q]) :
    (Markup.stringValue t).write = t.text := by
  obtain ⟨hfirst, hinner⟩ := Text.first_append_inner h
  have hwrite : (Markup.stringValue t).write = Text.first t.text ++ Text.inner t.text ++ Text.first t.text := by
    simp [Markup.stringValue, Node.write, Node.writeAll, Kind.opening, Kind.closing]
  rw [hwrite, hfirst, hinner, ← String.ofList_append, ← String.ofList_append, ← String.toList_inj,
    String.toList_ofList, h]
  rfl

/-- The parts of a tag that are tokens. -/
def ofToken (t : Token) : Judged := ⟨.leaf (.token t), t.text, true, true, true⟩

/-- White space and comments. -/
theorem Passed.space {o : Opening} {source : String} {kept afterEquals : Bool} {text : String}
    (h : Passed o source kept afterEquals) (hgap : IsGap text) :
    Passed { o with space := o.space ++ text } (source ++ text) (kept && !afterEquals) false := by
  cases h with
  | plain agrees =>
    refine .plain ?_
    rw [← String.append_assoc, Bool.not_false, Bool.and_true]
    exact agrees.snoc text
  | equals bare agrees =>
    rw [Bool.not_true, Bool.and_false]
    show Passed ⟨_, "" ++ text, true⟩ _ _ _
    rw [String.empty_append]
    exact .gap bare hgap agrees.le
  | gap bare gap le =>
    rw [String.append_assoc]
    obtain ⟨c, rest, hc, hnot⟩ := gap
    exact .gap bare ⟨c, rest ++ text.toList, by rw [String.toList_append, hc]; rfl, hnot⟩ le

theorem write_attr (name space : String) (info : Info) : (Node.mk (.attr name space) info [] []).write = space ++ name := by
  simp [Node.write, Node.writeAll, Kind.opening, Kind.closing]

/-- The name of an attribute. -/
theorem Passed.name {o : Opening} {source : String} {kept afterEquals : Bool} {info : Info} {text : String}
    (h : Passed o source kept afterEquals) (hwaiting : o.waiting = false) :
    Passed { o with attributes := .mk (.attr text o.space) info [] [] :: o.attributes, space := "" } (source ++ text)
      (kept && !afterEquals) false := by
  cases h with
  | plain agrees =>
    refine .plain ?_
    rw [writeAll_cons_reverse, write_attr, String.append_empty, ← String.append_assoc, Bool.not_false, Bool.and_true]
    exact agrees.snoc text
  | equals => cases hwaiting
  | gap => cases hwaiting

/-- A spread attribute. -/
theorem Passed.spread {o : Opening} {source source' text : String} {kept kept' afterEquals : Bool} {attr : Node}
    (h : Passed o source kept afterEquals) (hwaiting : o.waiting = false) (hwrite : attr.write = o.space ++ text)
    (hagree : Agrees text source' kept') :
    Passed { o with attributes := attr :: o.attributes, space := "" } (source ++ source') (kept && kept') false := by
  cases h with
  | plain agrees =>
    refine .plain ?_
    rw [writeAll_cons_reverse, hwrite, String.append_empty, ← String.append_assoc]
    exact agrees.append hagree
  | equals => cases hwaiting
  | gap => cases hwaiting

theorem Passed.afterEquals_eq {o : Opening} {source : String} {kept afterEquals : Bool}
    (h : Passed o source kept afterEquals) (hwaiting : o.waiting = false) : afterEquals = false := by
  cases h with
  | plain => rfl
  | equals => cases hwaiting
  | gap => rfl

/-- Of what waits for a value, nothing is kept unless the equals sign was just passed. -/
theorem Passed.kept_value {o : Opening} {source : String} {kept afterEquals : Bool}
    (h : Passed o source kept afterEquals) (hwaiting : o.waiting = true) (value tight : Bool) :
    (kept && (value && (afterEquals || tight))) = (kept && value) := by
  cases h with
  | plain => cases hwaiting
  | equals => rw [Bool.true_or, Bool.and_true]
  | gap => rfl

theorem takesValue_spec {o : Opening} (h : o.takesValue = true) :
    o.space = "" ∧ ∃ a as, o.attributes = a :: as ∧ Bare a := by
  unfold Opening.takesValue at h
  split at h
  · cases h
  · next a as has =>
    split at h
    · next name space hkind =>
      rw [Bool.and_eq_true] at h
      exact ⟨String.isEmpty_iff.mp h.2, a, as, has, ⟨_, _, hkind⟩, List.isEmpty_iff.mp h.1⟩
    · cases h

/-- An equals sign; a second one is lost. -/
theorem Passed.equalsSign {o : Opening} {source : String} {kept afterEquals : Bool}
    (h : Passed o source kept afterEquals) (htakes : o.takesValue = true) :
    Passed { o with waiting := true } (source ++ "=") (kept && !afterEquals) true := by
  obtain ⟨hspace, a, as, has, bare⟩ := takesValue_spec htakes
  cases h with
  | plain agrees =>
    obtain rfl : _ = "" := hspace
    obtain rfl : _ = a :: as := has
    refine .equals bare ?_
    rw [Bool.not_false, Bool.and_true]
    rw [String.append_empty] at agrees
    exact agrees.snoc "="
  | equals _ agrees =>
    obtain ⟨rfl, rfl⟩ := List.cons.inj has
    refine .equals bare ?_
    rw [Bool.not_true, Bool.and_false]
    refine .of_lt ?_
    have hle := agrees.le
    rw [String.length_append source]
    exact Nat.lt_succ_of_le hle
  | gap _ gap =>
    obtain ⟨c, rest, hc, -⟩ := gap
    dsimp only at hspace
    rw [hspace] at hc
    cases hc

theorem isGap_of_fits {t : Token} (h : ∃ c rest, t.text.toList = c :: rest ∧ c ≠ '"' ∧ c ≠ '\'' ∧ c ≠ '\x7b') :
    IsGap t.text := by
  obtain ⟨c, rest, hc, h1, h2, h3⟩ := h
  refine ⟨c, rest, hc, ?_⟩
  rintro (rfl | rfl | rfl)
  · exact h1 rfl
  · exact h2 rfl
  · exact h3 rfl

/-- A string as a value. -/
theorem Passed.quoted {o : Opening} {source : String} {kept afterEquals : Bool} {t : Token}
    (h : Passed o source kept afterEquals) (hwaiting : o.waiting = true)
    (hquoted : ∃ q body, t.text.toList = q :: body ++ [q] ∧ (q = '"' ∨ q = '\'')) :
    Passed (o.giveValue (Markup.stringValue t)) (source ++ t.text) (kept && true) false := by
  obtain ⟨q, body, htext, hq⟩ := hquoted
  have hwrite := write_stringValue htext
  refine h.value hwaiting ?_ ?_
  · rw [hwrite]
    exact .refl _
  · rw [hwrite]
    exact ⟨q, _, htext, hq.imp_right .inl⟩

theorem keepsInTag_other {t : Token} {name : String} {afterEquals : Bool}
    (h : (t.kind == .doubleQuoted || t.kind == .singleQuoted) = false) :
    (ofToken t).keepsInTag name afterEquals = !afterEquals := by
  show (!afterEquals || t.kind == .doubleQuoted || t.kind == .singleQuoted) = !afterEquals
  rw [Bool.or_assoc, h, Bool.or_false]

theorem keepsInTag_quoted {t : Token} {name : String} {afterEquals : Bool}
    (h : (t.kind == .doubleQuoted || t.kind == .singleQuoted) = true) :
    (ofToken t).keepsInTag name afterEquals = true := by
  show (!afterEquals || t.kind == .doubleQuoted || t.kind == .singleQuoted) = true
  rw [Bool.or_assoc, h, Bool.or_true]

/-- Reading a token of a tag, the ends of the tag apart. -/
theorem Passed.token {o o' : Opening} {source : String} {kept afterEquals : Bool} {t : Token} (name : String)
    (h : Passed o source kept afterEquals) (fits : Fits .tag t.kind t.text.toList) (hread : readToken o t = .ok o') :
    Passed o' (source ++ t.text) (kept && (ofToken t).keepsInTag name afterEquals) (ofToken t).isEquals := by
  obtain ⟨kind, pos, text⟩ := t
  unfold readToken at hread
  cases kind with
  | space =>
    obtain rfl := Except.ok.inj hread
    rw [keepsInTag_other rfl]
    exact h.space (isGap_of_fits fits)
  | comment =>
    obtain rfl := Except.ok.inj hread
    rw [keepsInTag_other rfl]
    exact h.space (isGap_of_fits fits)
  | attrName =>
    dsimp only at hread
    split at hread
    · cases hread
    · next hwaiting =>
      obtain rfl := Except.ok.inj hread
      rw [keepsInTag_other rfl]
      exact h.name (Bool.eq_false_iff.mpr hwaiting)
  | equals =>
    dsimp only at hread
    split at hread
    · next htakes =>
      obtain rfl := Except.ok.inj hread
      have htext : text = "=" := String.toList_inj.mp fits
      rw [keepsInTag_other rfl, htext]
      exact h.equalsSign htakes
    · cases hread
  | doubleQuoted =>
    dsimp only at hread
    split at hread
    · next hwaiting =>
      obtain rfl := Except.ok.inj hread
      rw [keepsInTag_quoted rfl]
      exact h.quoted hwaiting fits
    · cases hread
  | singleQuoted =>
    dsimp only at hread
    split at hread
    · next hwaiting =>
      obtain rfl := Except.ok.inj hread
      rw [keepsInTag_quoted rfl]
      exact h.quoted hwaiting fits
    · cases hread
  | invalid =>
    dsimp only at hread
    split at hread
    · next hends =>
      rw [Bool.or_eq_true] at hends
      have hangle : '>' ∈ text.toList := by
        rcases hends with hends | hends
        · rw [eq_of_beq hends]
          decide
        · rw [eq_of_beq hends]
          decide
      exact absurd hangle fits
    · cases hread
  | delimiter => cases fits
  | tagName => cases fits
  | template => cases fits
  | separator => cases fits
  | text => cases fits

/-! ## Groups in braces -/

theorem invalid_isValid (reason : String) (t : Token) : (Markup.invalid reason t).isValid = false := by
  rw [Markup.invalid, Node.isValid_new]
  rfl

/-- The node of a slot or spread attribute is written in braces. -/
theorem source_braces {g : Group} {x : Judged} {middle : String} {tail : Token} (hg : g.Kept x middle)
    (hhead : g.head.text = "\x7b") (htail : g.tail = some tail) : x.source = "\x7b" ++ middle ++ "\x7d" := by
  rw [hg.source, hhead, htail, Option.map_some, Option.getD_some, hg.tail hhead tail htail]

theorem writeAll_toList (n : Option Node) : Node.writeAll n.toList = (n.map Node.write).getD "" := by
  cases n with
  | none => rfl
  | some n => exact Node.writeAll_singleton n

/-- A slot is written as it was read. -/
theorem slot_agrees {g : Group} {x : Judged} {middle : String} (hg : g.Kept x middle) (hhead : g.head.text = "\x7b")
    (hvalid : (slot g).isValid = true) :
    Agrees (slot g).write x.source x.reading ∧ ∃ c rest, (slot g).write.toList = c :: rest ∧ startsValue c := by
  unfold slot at hvalid ⊢
  cases htail : g.tail with
  | none =>
    rw [htail, invalid_isValid] at hvalid
    cases hvalid
  | some tail =>
    rw [htail, Node.isValid, Bool.and_eq_true, Node.allValid_iff] at hvalid
    have hwrite : (Node.mk (.slot g.reading.lead g.reading.trail)
        ⟨some (Markup.spanOf g.head g.head), some (Markup.spanOf tail tail), none⟩ [] g.reading.node.toList).write =
        "\x7b" ++ g.reading.write ++ "\x7d" := by
      simp only [Node.write, Kind.opening, Kind.closing, Reading.write, writeAll_toList, String.append_assoc]
    dsimp only
    rw [hwrite, source_braces hg hhead htail]
    have hreading := hg.reading (hg.valid fun n hn _ => hvalid.2 n (Option.mem_toList.mpr hn))
    refine ⟨(hreading.cons _).snoc _, '\x7b', g.reading.write.toList ++ ['\x7d'], ?_, .inr (.inr rfl)⟩
    rw [String.toList_append, String.toList_append]
    rfl

/-- The script in a spread attribute has the text of the expression. -/
theorem spread_spec {g : Group} {space : String} {attr : Node} (h : spread space g = .ok attr) :
    (∃ tail, g.tail = some tail) ∧ attr.write = space ++ ("\x7b" ++ (g.reading.node.map Node.write).getD "" ++ "\x7d") ∧
      (attr.isValid = true → ∀ n ∈ g.reading.node, n.kind.name = "Script" → n.isValid = true) := by
  unfold spread at h
  cases htail : g.tail with
  | none =>
    rw [htail] at h
    cases h
  | some tail =>
    rw [htail] at h
    dsimp only at h
    split at h
    · obtain rfl := Except.ok.inj h
      refine ⟨⟨tail, rfl⟩, ?_, ?_⟩
      · simp only [Node.write, Kind.opening, Kind.closing, Node.writeAll_singleton, String.append_assoc]
        cases g.reading.node with
        | none => rw [Expression.write_script]
        | some n =>
          dsimp only
          split
          · rfl
          · rw [Expression.write_script]
      · intro hvalid n hn hscript
        rw [hn] at hvalid
        dsimp only at hvalid
        rw [hscript, beq_self_eq_true, if_pos rfl, Node.isValid, Bool.and_eq_true, Node.allValid_iff] at hvalid
        exact hvalid.2 n List.mem_cons_self
    · cases h

/-- The expression of a spread attribute is written without the white space around it. -/
theorem spread_agrees {g : Group} {x : Judged} {middle space : String} {attr : Node} (hg : g.Kept x middle)
    (hhead : g.head.text = "\x7b") (hspread : spread space g = .ok attr) (hvalid : attr.isValid = true) :
    ∃ text, attr.write = space ++ text ∧
      Agrees text x.source (x.reading && (g.reading.lead.isEmpty && g.reading.trail.isEmpty)) := by
  obtain ⟨⟨tail, htail⟩, hwrite, hscript⟩ := spread_spec hspread
  rw [source_braces hg hhead htail]
  refine ⟨_, hwrite, (Agrees.cons _ ?_).snoc _⟩
  refine (hg.reading (hg.valid (hscript hvalid))).leave_out (fun he => ?_) (fun he => ?_)
  · rw [Bool.and_eq_true] at he
    rw [Reading.write, String.isEmpty_iff.mp he.1, String.isEmpty_iff.mp he.2, String.empty_append, String.append_empty]
  · rw [Reading.write, String.length_append, String.length_append]
    rcases Bool.and_eq_false_iff.mp he with he | he
    · have := Text.length_pos_of_isEmpty he
      omega
    · have := Text.length_pos_of_isEmpty he
      omega

/-! ## Elements -/

/-- What may stand in an opening tag. -/
inductive InTag : Judged → Prop where
  | token {t : Token} (fits : Fits .tag t.kind t.text.toList) : InTag (ofToken t)
  | group {x : Judged} {g : Group} {middle : String} (part : x.part = .group g) (kept : g.Kept x middle)
      (head : g.head.text = "\x7b") : InTag x

/-- What an opening tag ends with. -/
inductive Ending : List Judged → Prop where
  | none : Ending []
  | selfClosing {t : Token} (kind : t.kind = .delimiter) (text : t.text = "/>") : Ending [ofToken t]
  | opened {t : Token} (kind : t.kind = .delimiter) (text : t.text = ">") : Ending [ofToken t]
  | content {t : Token} {x : Judged} {nodes : List Node} {close : Option Token} (kind : t.kind = .delimiter)
      (text : t.text = ">") (part : x.part = .content nodes close) (sound : x.Sound) : Ending [ofToken t, x]

/-- Besides the two angles and the slash a closing tag holds the name. -/
theorem closing_agrees {text name : String} (h : Markup.closingName text = name) (hlen : 3 ≤ text.length) :
    Agrees ("</" ++ name ++ ">") text (text == "</" ++ name ++ ">") := by
  refine ⟨?_, ⟨fun he => beq_iff_eq.mpr he.symm, fun he => (eq_of_beq he).symm⟩⟩
  have hinner : (Text.inner text).length = text.length - 2 := by
    rw [Text.inner, String.length_ofList, List.length_dropLast, List.length_drop, String.length_toList]
    omega
  have htrim := Text.length_trim_le (Text.inner text)
  have hname : name.length ≤ (Text.trim (Text.inner text)).length - 1 := by
    rw [← h, Markup.closingName]
    refine Nat.le_trans (Text.length_trim_le _) (Nat.le_of_eq ?_)
    rw [String.length_ofList, List.length_drop, String.length_toList]
  have hslash : "</".length = 2 := rfl
  have hangle : ">".length = 1 := rfl
  rw [String.length_append, String.length_append, hslash, hangle]
  omega

theorem isValid_of_readToken {o : Opening} {t : Token} {n : Node} (h : readToken o t = .error n) : n.isValid = false := by
  unfold readToken at h
  split at h
  · cases h
  · cases h
  all_goals
    repeat' split at h
    all_goals first | cases h; exact invalid_isValid _ _ | cases h

theorem isValid_of_spread {space : String} {g : Group} {n : Node} (h : spread space g = .error n) :
    n.isValid = false := by
  unfold spread at h
  split at h
  · cases h
    exact invalid_isValid _ _
  · dsimp only at h
    split at h
    · cases h
    · cases h
      exact invalid_isValid _ _

theorem valid_of_giveValue {o : Opening} {value : Node}
    (hvalid : ∀ a ∈ (o.giveValue value).attributes, a.isValid = true) :
    (∀ a ∈ o.attributes, a.isValid = true) ∧ (o.attributes ≠ [] → value.isValid = true) := by
  unfold Opening.giveValue at hvalid
  split at hvalid
  · next hnil => exact ⟨hvalid, fun hne => absurd hnil hne⟩
  · next a as has =>
    obtain ⟨ha, has'⟩ := List.forall_mem_cons.mp hvalid
    obtain ⟨hvalid, hvalue⟩ := isValid_withChildren ha
    rw [has]
    exact ⟨List.forall_mem_cons.mpr ⟨hvalid, has'⟩, fun _ => hvalue⟩

/-- Reading a token changes no attribute that is there. -/
theorem valid_of_readToken {o o' : Opening} {t : Token} (h : readToken o t = .ok o')
    (hvalid : ∀ a ∈ o'.attributes, a.isValid = true) : ∀ a ∈ o.attributes, a.isValid = true := by
  unfold readToken at h
  cases hkind : t.kind with
  | space =>
    rw [hkind] at h
    obtain rfl := Except.ok.inj h
    exact hvalid
  | comment =>
    rw [hkind] at h
    obtain rfl := Except.ok.inj h
    exact hvalid
  | attrName =>
    simp only [hkind] at h
    split at h
    · cases h
    · obtain rfl := Except.ok.inj h
      exact (List.forall_mem_cons.mp hvalid).2
  | equals =>
    simp only [hkind] at h
    split at h
    · obtain rfl := Except.ok.inj h
      exact hvalid
    · cases h
  | doubleQuoted =>
    simp only [hkind] at h
    split at h
    · obtain rfl := Except.ok.inj h
      exact (valid_of_giveValue hvalid).1
    · cases h
  | singleQuoted =>
    simp only [hkind] at h
    split at h
    · obtain rfl := Except.ok.inj h
      exact (valid_of_giveValue hvalid).1
    · cases h
  | _ =>
    simp only [hkind] at h
    split at h
    · split at h
      · cases h
      · obtain rfl := Except.ok.inj h
        exact hvalid
    · cases h

/-- The attributes of a valid element are valid, from the first to the last step. -/
theorem valid_of_elementFrom {angle name : Token} {o : Opening} {ps : List Part}
    (h : (elementFrom angle name o ps).isValid = true) : ∀ a ∈ o.attributes, a.isValid = true := by
  induction ps generalizing o with
  | nil =>
    rw [elementFrom, invalid_isValid] at h
    cases h
  | cons p ps ih =>
    cases p with
    | leaf l =>
      cases l with
      | node n => exact ih h
      | token t =>
        rw [elementFrom] at h
        split at h
        · next hread =>
          rw [isValid_of_readToken hread] at h
          cases h
        · next o' hread =>
          refine valid_of_readToken hread ?_
          split at h
          · rw [Node.isValid, Bool.and_eq_true, Bool.and_eq_true, Node.allValid_iff] at h
            exact fun a ha => h.1.2 a (List.mem_reverse.mpr ha)
          · exact ih h
    | group g =>
      rw [elementFrom] at h
      split at h
      · exact (valid_of_giveValue (ih h)).1
      · split at h
        · next hspread =>
          rw [isValid_of_spread hspread] at h
          cases h
        · exact (List.forall_mem_cons.mp (ih h)).2
    | content nodes close =>
      unfold elementFrom at h
      split at h
      · rw [invalid_isValid] at h
        cases h
      · split at h
        · rw [Node.isValid, Bool.and_eq_true, Bool.and_eq_true, Node.allValid_iff] at h
          exact fun a ha => h.1.2 a (List.mem_reverse.mpr ha)
        · rw [invalid_isValid] at h
          cases h

/-- An end of the tag is taken only when no value is missing. -/
theorem Passed.ends {o o' : Opening} {source : String} {kept afterEquals : Bool} {t : Token}
    (h : Passed o source kept afterEquals) (kind : t.kind = .delimiter) (text : t.text = "/>" ∨ t.text = ">")
    (hread : readToken o t = .ok o') :
    o' = o ∧ afterEquals = false ∧ Agrees (Node.writeAll o.attributes.reverse ++ o.space) source kept := by
  have hends : (t.text == "/>" || t.text == ">") = true := by
    rcases text with text | text <;> rw [text] <;> rfl
  unfold readToken at hread
  simp only [kind, hends, if_true] at hread
  cases h with
  | plain agrees => exact ⟨(Except.ok.inj hread).symm, rfl, agrees⟩
  | equals => cases hread
  | gap => cases hread

/-- A token that does not close the element. -/
theorem elementFrom_token {angle name t : Token} {o : Opening} {ps : List Part}
    (hend : (t.kind == .delimiter && t.text == "/>") = false)
    (hvalid : (elementFrom angle name o (.leaf (.token t) :: ps)).isValid = true) :
    ∃ o', readToken o t = .ok o' ∧ elementFrom angle name o (.leaf (.token t) :: ps) = elementFrom angle name o' ps := by
  rw [elementFrom] at hvalid ⊢
  cases hread : readToken o t with
  | error n =>
    rw [hread] at hvalid
    dsimp only at hvalid
    rw [isValid_of_readToken hread] at hvalid
    cases hvalid
  | ok o' =>
    dsimp only
    rw [hend, if_neg (by decide)]
    exact ⟨o', rfl, rfl⟩

theorem allSource_singleton (x : Judged) : Judged.allSource [x] = x.source := String.append_empty

/-- A self-closing element is written as it was read. -/
theorem selfClosing_agrees {angle name t : Token} {o : Opening} {source : String} {kept afterEquals : Bool}
    (h : Passed o source kept afterEquals) (kind : t.kind = .delimiter) (text : t.text = "/>")
    (hvalid : (elementFrom angle name o (Judged.parts [ofToken t])).isValid = true) :
    Agrees (elementFrom angle name o (Judged.parts [ofToken t])).write
      ("<" ++ name.text ++ (source ++ Judged.allSource [ofToken t]))
      (kept && Judged.keepsTag name.text afterEquals [ofToken t]) := by
  rw [show Judged.parts [ofToken t] = [.leaf (.token t)] from rfl, elementFrom] at hvalid ⊢
  cases hread : readToken o t with
  | error n =>
    rw [hread] at hvalid
    dsimp only at hvalid
    rw [isValid_of_readToken hread] at hvalid
    cases hvalid
  | ok o' =>
    obtain ⟨rfl, rfl, hagree⟩ := h.ends kind (.inl text) hread
    have hkept : Judged.keepsTag name.text false [ofToken t] = true := rfl
    have hsource : Judged.allSource [ofToken t] = "/>" := (allSource_singleton _).trans text
    have hcond : (t.kind == .delimiter && t.text == "/>") = true := by rw [kind, text]; rfl
    dsimp only
    rw [hcond, if_pos rfl, hkept, hsource, Bool.and_true]
    have hwrite : (Node.mk (.element name.text true o'.space none)
        ⟨some (Markup.spanOf angle name), some (Markup.spanOf t t), none⟩ o'.attributes.reverse []).write =
        "<" ++ name.text ++ (Node.writeAll o'.attributes.reverse ++ o'.space ++ "/>") := by
      simp [Node.write, Node.writeAll, Kind.opening, Kind.tagEnd, Kind.closing, String.append_assoc]
    rw [hwrite]
    exact (hagree.snoc _).cons _

/-- An element with a closing tag is written as it was read. -/
theorem content_agrees {angle name t : Token} {o : Opening} {source : String} {kept afterEquals : Bool} {x : Judged}
    {nodes : List Node} {close : Option Token} (h : Passed o source kept afterEquals) (kind : t.kind = .delimiter)
    (text : t.text = ">") (part : x.part = .content nodes close) (sound : x.Sound)
    (hvalid : (elementFrom angle name o (Judged.parts [ofToken t, x])).isValid = true) :
    Agrees (elementFrom angle name o (Judged.parts [ofToken t, x])).write
      ("<" ++ name.text ++ (source ++ Judged.allSource [ofToken t, x]))
      (kept && Judged.keepsTag name.text afterEquals [ofToken t, x]) := by
  rw [show Judged.parts [ofToken t, x] = [.leaf (.token t), .content nodes close] by rw [← part]; rfl] at hvalid ⊢
  obtain ⟨o', hread, heq⟩ := elementFrom_token (by rw [kind, text]; rfl) hvalid
  obtain ⟨rfl, rfl, hagree⟩ := h.ends kind (.inr text) hread
  rw [heq] at hvalid ⊢
  unfold Judged.Sound at sound
  rw [part] at sound
  obtain ⟨middle, hsource, hnodes, hclose⟩ := sound
  unfold elementFrom at hvalid ⊢
  cases close with
  | none =>
    dsimp only at hvalid
    rw [invalid_isValid] at hvalid
    cases hvalid
  | some close =>
    dsimp only at hvalid ⊢
    cases hname : Markup.closingName close.text == name.text with
    | false =>
      rw [hname, if_neg (by decide), invalid_isValid] at hvalid
      cases hvalid
    | true =>
      rw [hname, if_pos rfl, Node.isValid, Bool.and_eq_true] at hvalid
      rw [if_pos rfl]
      have hkept : Judged.keepsTag name.text false [ofToken t, x] =
          (x.markup && close.text == "</" ++ name.text ++ ">") := by
        have hlast : x.keepsInTag name.text false = (x.markup && close.text == "</" ++ name.text ++ ">") := by
          rw [Judged.keepsInTag, part]
          rfl
        rw [Judged.keepsTag, Judged.keepsTag, keepsInTag_other (by rw [kind]; rfl), Judged.keepsTag,
          show (ofToken t).isEquals = false by rw [Judged.isEquals]; simp [ofToken, Part.token?, Leaf.token?, kind],
          hlast, Bool.and_true, Bool.not_false, Bool.true_and]
      have hwrite : (Node.mk (.element name.text false o'.space (some name.text))
          ⟨some (Markup.spanOf angle name), some (Markup.spanOf close close), none⟩ o'.attributes.reverse nodes).write =
          "<" ++ name.text ++ (Node.writeAll o'.attributes.reverse ++ o'.space ++
            (">" ++ (Node.writeAll nodes ++ ("</" ++ name.text ++ ">")))) := by
        simp [Node.write, Kind.opening, Kind.tagEnd, Kind.closing, String.append_assoc]
      have hall : Judged.allSource [ofToken t, x] = ">" ++ (middle ++ close.text) := by
        rw [Judged.allSource, allSource_singleton, hsource]
        exact congrArg (· ++ _) text
      rw [hkept, hwrite, hall]
      have hend := closing_agrees (eq_of_beq hname) (hclose close rfl)
      exact (hagree.append (((hnodes hvalid.2).append hend).cons ">")).cons _

/-- The parts of an element after its name are written as they were read. -/
theorem elementFrom_agrees {angle name : Token} {o : Opening} {source : String} {kept afterEquals : Bool}
    {xs ending : List Judged} (h : Passed o source kept afterEquals) (hxs : ∀ x ∈ xs, InTag x) (hending : Ending ending)
    (hvalid : (elementFrom angle name o (Judged.parts (xs ++ ending))).isValid = true) :
    Agrees (elementFrom angle name o (Judged.parts (xs ++ ending))).write
      ("<" ++ name.text ++ (source ++ Judged.allSource (xs ++ ending)))
      (kept && Judged.keepsTag name.text afterEquals (xs ++ ending)) := by
  induction xs generalizing o source kept afterEquals with
  | nil =>
    cases hending with
    | none =>
      rw [List.nil_append, Judged.parts, List.map_nil, elementFrom, invalid_isValid] at hvalid
      cases hvalid
    | selfClosing kind text => exact selfClosing_agrees h kind text hvalid
    | @opened t kind text =>
      -- nothing follows the angle, so the tag has no end
      obtain ⟨o', hread, heq⟩ := elementFrom_token (by rw [kind, text]; rfl) hvalid
      rw [show elementFrom angle name o (Judged.parts ([] ++ [ofToken t])) = _ from heq] at hvalid
      rw [List.map_nil, elementFrom, invalid_isValid] at hvalid
      cases hvalid
    | content kind text part sound => exact content_agrees h kind text part sound hvalid
  | cons x xs ih =>
    obtain ⟨hx, hrest⟩ := List.forall_mem_cons.mp hxs
    rw [List.cons_append, Judged.allSource, Judged.keepsTag, ← @String.append_assoc source, ← Bool.and_assoc]
    cases hx with
    | @token t fits =>
      have hend : (t.kind == .delimiter && t.text == "/>") = false := by
        cases hkind : t.kind == .delimiter with
        | false => rfl
        | true =>
          rw [eq_of_beq hkind] at fits
          cases fits
      obtain ⟨o', hread, heq⟩ := elementFrom_token hend hvalid
      rw [show elementFrom angle name o (Judged.parts (ofToken t :: (xs ++ ending))) = _ from heq]
      exact ih (h.token name.text fits hread) hrest (heq ▸ hvalid)
    | @group x g middle part hkept head =>
      have hequals : x.isEquals = false := by
        rw [Judged.isEquals, part]
        rfl
      have hkeeps : x.keepsInTag name.text afterEquals =
          (x.reading && (afterEquals || (g.reading.lead.isEmpty && g.reading.trail.isEmpty))) := by
        rw [Judged.keepsInTag, part]
      rw [List.cons_append] at hvalid
      rw [Judged.parts, List.map_cons, part] at hvalid ⊢
      rw [hequals, hkeeps]
      unfold elementFrom at hvalid ⊢
      cases hwaiting : o.waiting with
      | true =>
        rw [hwaiting, if_pos rfl] at hvalid
        rw [if_pos rfl]
        have hslot := slot_agrees hkept head ((valid_of_giveValue (valid_of_elementFrom hvalid)).2 (h.attributes_ne hwaiting))
        rw [h.kept_value hwaiting]
        exact ih (h.value hwaiting hslot.1 hslot.2) hrest hvalid
      | false =>
        rw [hwaiting, if_neg (by decide)] at hvalid
        rw [if_neg (by decide)]
        cases hspread : spread o.space g with
        | error n =>
          rw [hspread] at hvalid
          dsimp only at hvalid
          rw [isValid_of_spread hspread] at hvalid
          cases hvalid
        | ok attr =>
          rw [hspread] at hvalid
          dsimp only at hvalid ⊢
          have hattr := (List.forall_mem_cons.mp (valid_of_elementFrom hvalid)).1
          obtain ⟨text, hwrite, hagree⟩ := spread_agrees hkept head hspread hattr
          have hpassed := h.spread hwaiting hwrite hagree
          rw [hwaiting] at hpassed
          rw [h.afterEquals_eq hwaiting, Bool.false_or]
          exact ih hpassed hrest hvalid

end Tag
end JsxEdit
