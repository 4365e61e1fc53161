import JsxEdit.Editor
import JsxEdit.Proofs.FlawlessSource

/-
A document that was read stays writable through every run of edits.

What edits bring into the tree is read from snippets, made by the templates that are always there, or made of texts and
other plain values. None of it has a flaw: the templates have fixed tag names and attribute names, and what they make of
their options are texts, attribute strings and snippets.
-/
set_option autoImplicit false

namespace JsxEdit

open Edit (isPlainValue)

/-! ## Dictionaries -/

namespace Dict

variable {α : Type}

theorem mem_put {key : String} {value : α} {d : Dict α} {e : String × α} (h : e ∈ d.put key value) :
    e ∈ d ∨ e.2 = value := by
  induction d with
  | nil =>
    rw [List.mem_singleton.mp h]
    exact .inr rfl
  | cons first rest ih =>
    rw [put] at h
    split at h
    · rcases List.mem_cons.mp h with rfl | h
      · exact .inr rfl
      · exact .inl (List.mem_cons_of_mem _ h)
    · rcases List.mem_cons.mp h with rfl | h
      · exact .inl List.mem_cons_self
      · exact (ih h).imp_left (List.mem_cons_of_mem _)

theorem mem_of_get? {d : Dict α} {key : String} {value : α} (h : d.get? key = some value) : ∃ e ∈ d, e.2 = value := by
  obtain ⟨e, he, rfl⟩ := Option.map_eq_some_iff.mp h
  exact ⟨e, List.mem_of_find?_eq_some he, rfl⟩

theorem mem_foldl_put {pairs : List (String × α)} {d : Dict α} {e : String × α}
    (h : e ∈ pairs.foldl (fun d (k, v) => d.put k v) d) : (∃ e' ∈ d, e'.2 = e.2) ∨ ∃ e' ∈ pairs, e'.2 = e.2 := by
  induction pairs generalizing d with
  | nil => exact .inl ⟨e, h, rfl⟩
  | cons pair pairs ih =>
    rcases ih h with ⟨e', he', heq⟩ | ⟨e', he', heq⟩
    · rcases mem_put he' with he' | hvalue
      · exact .inl ⟨e', he', heq⟩
      · exact .inr ⟨pair, List.mem_cons_self, hvalue.symm.trans heq⟩
    · exact .inr ⟨e', List.mem_cons_of_mem pair he', heq⟩

/-- Renaming keys keeps the values. -/
theorem mem_rename {f : String → String} {d : Dict α} {e : String × α} (h : e ∈ d.rename f) : ∃ e' ∈ d, e'.2 = e.2 := by
  rcases mem_foldl_put h with ⟨e', he', -⟩ | ⟨e', he', heq⟩
  · cases he'
  · obtain ⟨e'', he'', rfl⟩ := List.mem_map.mp he'
    exact ⟨e'', he'', heq⟩

end Dict

/-! ## Elements from values -/

namespace Build

/-- Texts, and nodes without a flaw. -/
def IsInline : Value Node → Prop
  | .str _ => True
  | .node n => n.Flawless
  | _ => False

theorem IsInline.child {v : Value Node} (h : IsInline v) : (child v).Flawless := by
  cases v with
  | str s => exact flawless_text s
  | node n => exact h
  | _ => cases h

/-- Names of attributes with plain values. -/
def ArePlain (attrs : Dict (Value Node)) : Prop := ∀ e ∈ attrs, isAttrName e.1 = true ∧ isPlainValue e.2 = true

theorem ArePlain.cons {name : String} {v : Value Node} {attrs : Dict (Value Node)} (hname : isAttrName name = true)
    (hv : isPlainValue v = true) (h : ArePlain attrs) : ArePlain ((name, v) :: attrs) :=
  List.forall_mem_cons.mpr ⟨⟨hname, hv⟩, h⟩

theorem flawless_attributes {attrs : Dict (Value Node)} {as : List Node}
    (ha : ArePlain attrs) (h : attributes attrs = .ok as) :
    ∀ a ∈ as, a.Flawless := by
  induction attrs generalizing as with
  | nil =>
    cases h
    exact List.forall_mem_nil _
  | cons e attrs ih =>
    obtain ⟨name, v⟩ := e
    rw [ArePlain, List.forall_mem_cons] at ha
    rw [attributes] at h
    split at h
    · exact ih ha.2 h
    · obtain ⟨value, hvalue, h⟩ := bind_eq_ok h
      obtain ⟨rest, hrest, h⟩ := bind_eq_ok h
      cases h
      exact List.forall_mem_cons.mpr
        ⟨flawlessDiscipline.attr_new ha.1.1 (flawless_attributeValue ha.1.2 hvalue), ih ha.2 hrest⟩

theorem flawless_element {tag : String} {children : List (Value Node)} {attrs : Dict (Value Node)} {n : Node}
    (htag : isTagName tag = true) (hc : ∀ c ∈ children, IsInline c)
    (ha : ArePlain attrs) (h : element tag children attrs = .ok n) :
    n.Flawless := by
  obtain ⟨as, has, h⟩ := bind_eq_ok h
  cases h
  refine Node.flawless_mk.mpr ⟨⟨htag, .inl rfl, fun hempty => ?_⟩, flawless_attributes ha has,
    List.forall_mem_map.mpr fun c hmem => (hc c hmem).child⟩
  exact List.length_eq_zero_iff.mpr (List.isEmpty_iff.mp hempty)

theorem flawless_block {tag : String} {children : List (Value Node)} {attrs : Dict (Value Node)} {n : Node}
    (htag : isTagName tag = true) (hc : ∀ c ∈ children, IsInline c)
    (ha : ArePlain attrs) (h : block tag children attrs = .ok n) :
    n.Flawless := by
  have hspace : ∀ s, IsInline (.node (.text s)) := fun s => Node.flawless_leaf trivial
  refine flawless_element htag ?_ ha h
  unfold onLines
  dsimp only
  split
  · exact fun c hmem => nomatch hmem
  · refine List.forall_mem_append.mpr ⟨fun c hmem => ?_, List.forall_mem_singleton.mpr (hspace _)⟩
    obtain ⟨v, hv, hmem⟩ := List.mem_flatMap.mp hmem
    rcases List.mem_cons.mp hmem with rfl | hmem
    · exact hspace _
    · rw [List.mem_singleton.mp hmem]
      exact hc v hv

end Build

/-! ## Templates -/

namespace Template

open Build (IsInline ArePlain flawless_element flawless_block)

/-- All values are texts. -/
def AreTexts (options : Options) : Prop := ∀ e ∈ options, ∃ s, e.2 = .str s

section

variable {options : Options} (h : AreTexts options)
include h

theorem option_cases (name : String) (default : Value Node) :
    option options name default = default ∨ ∃ s, option options name default = .str s := by
  unfold option
  cases hget : Dict.get? options name with
  | none => exact .inl rfl
  | some v =>
    obtain ⟨e, he, rfl⟩ := Dict.mem_of_get? hget
    exact .inr (h e he)

theorem inline_option (name text : String) : IsInline (option options name (.str text)) := by
  rcases option_cases h name (.str text) with heq | ⟨s, heq⟩ <;> rw [heq] <;> trivial

theorem plain_option (name : String) {default : Value Node} (hd : isPlainValue default = true) :
    isPlainValue (option options name default) = true := by
  rcases option_cases h name default with heq | ⟨s, heq⟩
  · rw [heq]
    exact hd
  · rw [heq]
    rfl

end

theorem plain_given {v : Value Node} (h : isPlainValue v = true) : isPlainValue (given v) = true := by
  unfold given
  split
  · exact h
  · rfl

theorem plain_identity {v : Value Node} (h : isPlainValue v = true) : ArePlain (identity v) := by
  unfold identity
  split
  · exact .cons (by decide) h (List.forall_mem_nil _)
  · exact List.forall_mem_nil _

theorem plain_partIdentity {v : Value Node} {suffix : String} {attrs : Dict (Value Node)}
    (h : partIdentity v suffix = .ok attrs) : ArePlain attrs := by
  obtain ⟨w, hw, h⟩ := bind_eq_ok h
  cases h
  refine plain_identity ?_
  unfold extended at hw
  split at hw
  · cases hw
    rfl
  · cases hw

/-- What the template makes of texts has no flaw, if what is made of texts that look like markup has none. -/
def IsFlawless (t : Template) : Prop :=
  ∀ (make : String → Built) (options : Options) (n : Node) (log : List Record),
    (∀ s m log, make s = .ok (m, log) → m.Flawless) → AreTexts options → t.build make options = .ok (n, log) → n.Flawless

/-- Templates that do not look into texts. -/
theorem flawless_plain {name : String} {parameters : List String} {build : Options → Except Fault Node}
    (h : ∀ options n, AreTexts options → build options = .ok n → n.Flawless) :
    (plain name parameters build).IsFlawless := by
  intro make options n log _ ho hb
  obtain ⟨m, hm, hb⟩ := bind_eq_ok hb
  cases hb
  exact h options n ho hm

theorem flawless_heading : heading.IsFlawless := by
  refine flawless_plain fun options n ho hb => ?_
  dsimp only at hb
  rcases option_cases ho "level" (.int 1) with hlevel | ⟨s, hlevel⟩
  · rw [hlevel] at hb
    exact flawless_element (by decide) (List.forall_mem_singleton.mpr (inline_option ho _ _))
      (plain_identity (plain_option ho _ rfl)) hb
  · -- a text is no level
    rw [hlevel] at hb
    cases hb

theorem flawless_simple {name tag text : String} (htag : isTagName tag = true) : (simple name tag text).IsFlawless :=
  flawless_plain fun _ _ ho hb => flawless_element htag (List.forall_mem_singleton.mpr (inline_option ho _ _))
    (plain_identity (plain_option ho _ rfl)) hb

theorem flawless_button : button.IsFlawless :=
  flawless_plain fun _ _ ho hb => flawless_element (by decide) (List.forall_mem_singleton.mpr (inline_option ho _ _))
    (.cons (by decide) (plain_given (plain_option ho _ rfl)) (plain_identity (plain_option ho _ rfl))) hb

theorem flawless_link : link.IsFlawless :=
  flawless_plain fun _ _ ho hb => flawless_element (by decide) (List.forall_mem_singleton.mpr (inline_option ho _ _))
    (.cons (by decide) (plain_option ho _ rfl) (plain_identity (plain_option ho _ rfl))) hb

theorem flawless_image : image.IsFlawless :=
  flawless_plain fun _ _ ho hb => flawless_element (by decide) (List.forall_mem_nil _)
    (.cons (by decide) (plain_option ho _ rfl)
      (.cons (by decide) (plain_option ho _ rfl) (plain_identity (plain_option ho _ rfl)))) hb

theorem inline_containerChildren {make : String → Built} {vs : List (Value Node)}
    {found : List (Value Node) × List Record} (hmake : ∀ s m log, make s = .ok (m, log) → m.Flawless)
    (hvs : ∀ v ∈ vs, ∃ s, v = .str s) (h : containerChildren make vs = .ok found) : ∀ v ∈ found.1, IsInline v := by
  induction vs generalizing found with
  | nil =>
    cases h
    exact fun v hv => nomatch hv
  | cons v vs ih =>
    rw [List.forall_mem_cons] at hvs
    obtain ⟨s, rfl⟩ := hvs.1
    simp only [containerChildren] at h
    split at h
    · obtain ⟨pair, hpair, h⟩ := bind_eq_ok h
      obtain ⟨rest, hrest, h⟩ := bind_eq_ok h
      cases h
      cases hm : make s with
      | error f =>
        rw [hm] at hpair
        cases hpair
      | ok found =>
        rw [hm] at hpair
        cases hpair
        exact List.forall_mem_cons.mpr ⟨hmake s found.1 found.2 hm, ih hvs.2 hrest⟩
    · obtain ⟨pair, hpair, h⟩ := bind_eq_ok h
      obtain ⟨rest, hrest, h⟩ := bind_eq_ok h
      cases h
      rw [← Except.ok.inj hpair]
      exact List.forall_mem_cons.mpr ⟨Build.flawless_text s, ih hvs.2 hrest⟩

theorem flawless_container {tag : String} (htag : isTagName tag = true) : (container tag).IsFlawless := by
  intro make options n log hmake ho hb
  obtain ⟨vs, hvs, hb⟩ := bind_eq_ok hb
  obtain ⟨⟨children, log'⟩, hchildren, hb⟩ := bind_eq_ok hb
  obtain ⟨m, hm, hb⟩ := bind_eq_ok hb
  cases hb
  -- a text given for the children is gone through letter by letter
  have htexts : ∀ v ∈ vs, ∃ s, v = .str s := by
    rcases option_cases ho "children" (.list []) with heq | ⟨s, heq⟩
    · rw [heq] at hvs
      cases hvs
      exact fun v hv => nomatch hv
    · rw [heq] at hvs
      cases hvs
      exact List.forall_mem_map.mpr fun c _ => ⟨_, rfl⟩
  exact flawless_block htag (inline_containerChildren hmake htexts hchildren)
    (.cons (by decide) (plain_given (plain_option ho _ rfl)) (plain_identity (plain_option ho _ rfl))) hm

/-- An element with a text as part of a template. -/
theorem flawless_piece {options : Options} (ho : AreTexts options) {tag name text suffix : String} {v : Value Node}
    {attrs : Dict (Value Node)} {n : Node} (htag : isTagName tag = true) (ha : partIdentity v suffix = .ok attrs)
    (h : Build.element tag [option options name (.str text)] attrs = .ok n) : n.Flawless :=
  flawless_element htag (List.forall_mem_singleton.mpr (inline_option ho _ _)) (plain_partIdentity ha) h

theorem flawless_heroSection : heroSection.IsFlawless := by
  refine flawless_plain fun options n ho hb => ?_
  dsimp only at hb
  obtain ⟨_, htitles, hb⟩ := bind_eq_ok hb
  obtain ⟨title, htitle, hb⟩ := bind_eq_ok hb
  obtain ⟨_, hsubtitles, hb⟩ := bind_eq_ok hb
  obtain ⟨subtitle, hsubtitle, hb⟩ := bind_eq_ok hb
  obtain ⟨_, hactions, hb⟩ := bind_eq_ok hb
  obtain ⟨action, haction, hb⟩ := bind_eq_ok hb
  obtain ⟨_, hsection, hb⟩ := bind_eq_ok hb
  have htitle : IsInline (.node title) := flawless_piece ho (by decide) htitles htitle
  have hsubtitle : IsInline (.node subtitle) := flawless_piece ho (by decide) hsubtitles hsubtitle
  have haction : IsInline (.node action) := flawless_piece ho (by decide) hactions haction
  refine flawless_block (by decide) ?_ (.cons (by decide) rfl (plain_partIdentity hsection)) hb
  simp only [List.forall_mem_cons]
  exact ⟨htitle, hsubtitle, haction, List.forall_mem_nil _⟩

theorem flawless_card : card.IsFlawless := by
  refine flawless_plain fun options n ho hb => ?_
  dsimp only at hb
  obtain ⟨_, htitles, hb⟩ := bind_eq_ok hb
  obtain ⟨title, htitle, hb⟩ := bind_eq_ok hb
  obtain ⟨_, hdescriptions, hb⟩ := bind_eq_ok hb
  obtain ⟨description, hdescription, hb⟩ := bind_eq_ok hb
  have htitle : IsInline (.node title) := flawless_piece ho (by decide) htitles htitle
  have hdescription : IsInline (.node description) := flawless_piece ho (by decide) hdescriptions hdescription
  refine flawless_block (by decide) ?_
    (.cons (by decide) rfl (plain_identity (plain_option ho _ rfl))) hb
  simp only [List.forall_mem_cons]
  exact ⟨htitle, hdescription, List.forall_mem_nil _⟩

theorem flawless_featureItem : featureItem.IsFlawless := by
  refine flawless_plain fun options n ho hb => ?_
  dsimp only at hb
  obtain ⟨_, htitles, hb⟩ := bind_eq_ok hb
  obtain ⟨title, htitle, hb⟩ := bind_eq_ok hb
  obtain ⟨_, hdescriptions, hb⟩ := bind_eq_ok hb
  obtain ⟨description, hdescription, hb⟩ := bind_eq_ok hb
  have htitle : IsInline (.node title) := flawless_piece ho (by decide) htitles htitle
  have hdescription : IsInline (.node description) := flawless_piece ho (by decide) hdescriptions hdescription
  have hboth : ∀ c ∈ [Value.node title, .node description], IsInline c := by
    simp only [List.forall_mem_cons]
    exact ⟨htitle, hdescription, List.forall_mem_nil _⟩
  have hattrs : ArePlain (("className", .str "feature-item") :: identity (option options "editable_prefix" (.str "feature"))) :=
    .cons (by decide) rfl (plain_identity (plain_option ho _ rfl))
  split at hb
  · next hicon =>
    obtain ⟨_, hicons, hb⟩ := bind_eq_ok hb
    obtain ⟨icon, hspan, hb⟩ := bind_eq_ok hb
    have hicon : IsInline (.node icon) := by
      refine flawless_element (by decide) (List.forall_mem_singleton.mpr ?_)
        (.cons (by decide) rfl (plain_partIdentity hicons)) hspan
      rcases option_cases ho "icon" .null with heq | ⟨s, heq⟩
      · rw [heq] at hicon
        cases hicon
      · rw [heq]
        trivial
    exact flawless_block (by decide) (List.forall_mem_cons.mpr ⟨hicon, hboth⟩) hattrs hb
  · exact flawless_block (by decide) hboth hattrs hb

theorem mem_foldl_register {ts : List Template} {registry : Registry} {e : String × Template}
    (h : e ∈ ts.foldl (register · none ·) registry) : e ∈ registry ∨ e.2 ∈ ts := by
  induction ts generalizing registry with
  | nil => exact .inl h
  | cons t ts ih =>
    rcases ih h with h | h
    · rcases Dict.mem_put h with h | h
      · exact .inl h
      · exact .inr (h ▸ List.mem_cons_self)
    · exact .inr (List.mem_cons_of_mem t h)

/-- The templates that are always there make nothing with a flaw. -/
theorem flawless_builtin {name : String} {t : Template} (h : get? builtin name = some t) : t.IsFlawless := by
  obtain ⟨e, he, rfl⟩ := Dict.mem_of_get? h
  have hall : ∀ t ∈ [heading, simple "paragraph" "p" "Paragraph text", simple "span" "span" "Span text", button, link,
      image, container "div", container "section", heroSection, card, featureItem], t.IsFlawless := by
    simp only [List.forall_mem_cons]
    exact ⟨flawless_heading, flawless_simple (by decide), flawless_simple (by decide), flawless_button, flawless_link,
      flawless_image, flawless_container (by decide), flawless_container (by decide), flawless_heroSection, flawless_card,
      flawless_featureItem, List.forall_mem_nil _⟩
  rcases mem_foldl_register he with he | he
  · cases he
  · exact hall e.2 he

theorem flawless_snippet {s : String} {n : Node} (h : snippet s = .ok n) : n.Flawless := by
  unfold snippet at h
  split at h
  · next hsnippet =>
    cases h
    exact Source.flawless_snippet hsnippet
  · cases h

theorem flawless_snippetBuilt {s : String} {n : Node} {log : List Record} (h : (snippet s).map (·, []) = .ok (n, log)) :
    n.Flawless := by
  cases hs : snippet s with
  | error f =>
    rw [hs] at h
    cases h
  | ok m =>
    rw [hs] at h
    cases h
    exact flawless_snippet hs

theorem flawless_resolveWith {make : String → Built} {s : String} {options : Options} {n : Node} {log : List Record}
    (hmake : ∀ s m log, make s = .ok (m, log) → m.Flawless) (ho : AreTexts options)
    (h : resolveWith make builtin (.str s) options = .ok (n, log)) : n.Flawless := by
  rw [resolveWith] at h
  split at h
  · next t ht =>
    unfold call at h
    dsimp only at h
    split at h
    · cases h
    · obtain ⟨⟨m, log'⟩, hbuild, h⟩ := bind_eq_ok h
      cases h
      refine flawless_builtin ht make _ _ _ hmake (fun e he => ?_) hbuild
      obtain ⟨e', he', heq⟩ := Dict.mem_rename he
      rw [← heq]
      exact ho e' he'
  · split at h
    · exact flawless_snippetBuilt h
    · cases h

/-- Snippets and templates with texts as options give nodes without a flaw. -/
theorem flawless_resolve {s : String} {options : Options} {n : Node} {log : List Record} (ho : AreTexts options)
    (h : resolve builtin (.str s) options = .ok (n, log)) : n.Flawless := by
  refine flawless_resolveWith (fun s m log hm => ?_) ho h
  exact flawless_resolveWith (fun t m log hm => flawless_snippetBuilt hm) (List.forall_mem_nil _) hm

end Template

/-! ## Failures of edits -/

/-- The reply does not say that the tree cannot be written. -/
def Reply.Regular (r : Reply) : Prop := ∀ o, r.result = .ok o → o.error ≠ some .generation

namespace Reply

@[simp] theorem regular_succeeded (tree : Node) (message : String) (extra : Dict (Value Node)) :
    (succeeded tree message extra).Regular := by
  intro o h
  cases h
  exact nofun

@[simp] theorem regular_failed (tree : Node) (kind : ErrorKind) (message : String) (extra : Dict (Value Node)) :
    (failed tree kind message extra).Regular ↔ kind ≠ .generation := by
  constructor
  · intro h heq
    exact h _ rfl (congrArg some heq)
  · intro h o ho
    cases ho
    exact fun heq => h (Option.some.inj heq)

@[simp] theorem regular_invalid (tree : Node) (message : String) (extra : Dict (Value Node)) :
    (invalid tree message extra).Regular := (regular_failed ..).mpr nofun

@[simp] theorem regular_notFound (tree : Node) (id : String) (extra : Dict (Value Node)) :
    (notFound tree id extra).Regular := (regular_failed ..).mpr nofun

@[simp] theorem regular_duplicate (tree : Node) (ids : List String) : (duplicate tree ids).Regular := regular_invalid _ _ _

@[simp] theorem regular_fault (tree : Node) (f : Fault) : (fault tree f).Regular := fun _ h => nomatch h

@[simp] theorem regular_after (log : List Record) (r : Reply) : (after log r).Regular ↔ r.Regular := Iff.rfl

end Reply

namespace Edit

@[simp] theorem regular_notMovable (tree : Node) (id : String) : (notMovable tree id).Regular :=
  Reply.regular_invalid _ _ _

theorem regular_newNode {tree : Node} {r : Request} {reply : Reply} (h : newNode tree r = .error reply) :
    reply.Regular := by
  unfold newNode at h
  repeat' split at h
  all_goals cases h
  all_goals simp

theorem targets_kind {tree : Node} {ids : List String} {t : Targets} (h : targets tree ids = .ok t) :
    t.kind ≠ .generation := by
  induction ids generalizing t with
  | nil =>
    cases h
    exact nofun
  | cons id ids ih =>
    obtain ⟨found, -, h⟩ := bind_eq_ok h
    obtain ⟨rest, hrest, h⟩ := bind_eq_ok h
    have hkind : rest.kind ≠ .generation := ih hrest
    split at h
    · cases h
      exact nofun
    · split at h
      all_goals
        cases h
        exact hkind

theorem regular_removeAll (tree : Node) (ids : List String) : (removeAll tree ids).Regular := by
  unfold removeAll
  split
  · simp
  · next ht =>
    dsimp only
    split
    · split <;> simp
    · exact (Reply.regular_failed ..).mpr (targets_kind ht)

/-- An edit fails because of its target, its arguments or its template. -/
theorem regular_run (c : Command) (tree : Node) : (c.run tree).Regular := by
  cases c with
  | insert id position request =>
    show (insert tree id position request).Regular
    unfold insert
    repeat' split
    all_goals first | exact regular_newNode ‹_› | simp
  | insertAtRoot position component request =>
    show (insertAtRoot tree position component request).Regular
    unfold insertAtRoot
    repeat' split
    all_goals first | exact regular_newNode ‹_› | simp
  | removeAll ids => exact regular_removeAll tree ids
  | _ =>
    -- what the other edits reply is written out in their definitions
    simp only [Command.run, remove, clearChildren, updateText, updateAttribute, updateAttributes, updateTagName,
      replaceChildren, addClassName, removeClassName, updateClassNames, moveUp, moveDown, moveToIndex, withMovable, moveInto,
      swap, updateStyles, updateGiven, setSpacing, setMargin, setPadding, clearStyles]
    repeat' split
    all_goals simp

/-! ## Runs -/

/-- The request is for a snippet, or for a template that is always there with texts as options. -/
def Request.IsTextual (r : Request) : Prop :=
  r.registry = Template.builtin ∧ (∃ s, r.spec = .str s) ∧ Template.AreTexts r.options

namespace Command

/-- What a command brings into the tree is given by texts and other plain values. -/
def IsTextual : Command → Prop
  | .insert _ _ request => request.IsTextual
  | .insertAtRoot _ _ request => request.IsTextual
  | .updateAttribute _ _ value => isPlainValue value = true
  | .updateAttributes _ values => ∀ e ∈ values, isPlainValue e.2 = true
  | .replaceChildren _ children => ∃ vs, Template.items children = .ok vs ∧ ∀ v ∈ vs, ∃ s, v = .str s
  | _ => True

theorem serves_textual {r : Request} (h : r.IsTextual) : flawlessDiscipline.Serves r := by
  obtain ⟨hregistry, ⟨s, hspec⟩, hoptions⟩ := h
  intro n log hn
  rw [hregistry, hspec] at hn
  exact Template.flawless_resolve hoptions hn

theorem gives_plain {v : Value Node} (h : isPlainValue v = true) : flawlessDiscipline.Gives v :=
  fun _ hw => Build.flawless_attributeValue h hw

theorem IsTextual.respects {c : Command} (h : c.IsTextual) : flawlessDiscipline.Respects c := by
  cases c with
  | insert id position request => exact serves_textual h
  | insertAtRoot position component request => exact serves_textual h
  | updateAttribute id name value => exact ⟨fun s _ hs => hs, gives_plain h⟩
  | updateAttributes id values => exact fun e he => ⟨fun hs => hs, gives_plain (h e he)⟩
  | updateTagName id name => exact fun s _ hs => hs
  | replaceChildren id children =>
    obtain ⟨vs, hvs, htexts⟩ := h
    intro vs' hvs' n hn
    obtain rfl := Except.ok.inj (hvs.symm.trans hvs')
    obtain ⟨s, hs⟩ := htexts _ hn
    cases hs
  | _ => trivial

/-- A document that was read has no flaw after any edits. -/
theorem flawless_runAll {text : String} {tree : Node} {commands : List Command} (h : Source.parse text = .ok tree)
    (hc : ∀ c ∈ commands, c.IsTextual) : (runAll tree commands).Flawless :=
  flawlessDiscipline.runAll (Source.flawless_parse h) fun c hmem => (hc c hmem).respects

/-- A document that was read can be written after one edit. -/
theorem generate_run {text : String} {tree : Node} {c : Command} (h : Source.parse text = .ok tree) (hc : c.IsTextual) :
    (c.run tree).tree.generate true = .ok (c.run tree).tree.write :=
  have hrun : (runAll tree [c]).Flawless := flawless_runAll h (List.forall_mem_singleton.mpr hc)
  hrun.generate

/-- Editing a text does not end with a tree that cannot be written. -/
theorem regular_editText (text : String) {c : Command} (hc : c.IsTextual) {edited : EditResult} {outcome : Outcome}
    (h : (editText text (c.run ·)).result = .ok edited) (ho : edited.result = some outcome) :
    outcome.error ≠ some .generation := by
  unfold editText at h
  split at h
  · cases h
    cases ho
  · next tree hparse =>
    have hwrite : (c.run tree).tree.generate true = .ok (c.run tree).tree.write := generate_run hparse hc
    dsimp only at h
    split at h
    · cases h
    · next hresult =>
      have hregular := regular_run c tree _ hresult
      rw [hwrite] at h
      split at h
      all_goals
        cases h
        cases ho
        exact hregular

/-- A document that was read can be written, and so it can after every step of every run of edits. Therefore no edit of a
text ends with a failure to write. -/
theorem writable_after_edits (text : String) :
    (∀ tree commands, Source.parse text = .ok tree → (∀ c ∈ commands, c.IsTextual) → ∀ steps, steps <+: commands →
      (runAll tree steps).generate true = .ok (runAll tree steps).write) ∧
    ∀ c : Command, c.IsTextual → ∀ edited outcome, (editText text (c.run ·)).result = .ok edited →
      edited.result = some outcome → outcome.error ≠ some .generation := by
  refine ⟨fun tree commands h hc steps hsteps => ?_, fun c hc edited outcome => regular_editText text hc⟩
  exact (flawless_runAll h fun c hmem => hc c (hsteps.subset hmem)).generate

/-- A list with an item that closes itself. -/
def listSource : String := "() => <ul data-editable=\"l\"><li data-editable=\"i\" /></ul>;"

/-- A snippet, a template, a style, and a text for an element that closes itself. -/
def textualChanges : List Command :=
  [.insert "i" "after" ⟨.str "<li>\x7bx\x7d</li>", [], Template.builtin, 2, none⟩,
    .insert "i" "before" ⟨.str "span", [("text", .str "a < b")], Template.builtin, 2, none⟩,
    .updateStyles "l" [("font-size", .int 12)],
    .updateText "i" "new"]

/-- The list after the changes. -/
def changedList : String :=
  "() => <ul data-editable=\"l\" style=\x7b\x7b fontSize: 12 \x7d\x7d><span>\x7b'a < b'\x7d</span>" ++
    "<li data-editable=\"i\">new</li><li>\x7bx\x7d</li></ul>;"

theorem textual_textualChanges : ∀ c ∈ textualChanges, c.IsTextual := by
  simp only [textualChanges, List.forall_mem_cons]
  exact ⟨⟨rfl, ⟨_, rfl⟩, List.forall_mem_nil _⟩, ⟨rfl, ⟨_, rfl⟩, List.forall_mem_singleton.mpr ⟨_, rfl⟩⟩, trivial, trivial,
    List.forall_mem_nil _⟩

set_option maxRecDepth 10000 in
theorem writable_after_textualChanges :
    (∃ tree, Source.parse listSource = .ok tree ∧ (runAll tree textualChanges).generate true = .ok changedList) ∧
      ∀ edited outcome, (editText listSource ((Command.updateText "i" "new").run ·)).result = .ok edited →
        edited.result = some outcome → outcome.error ≠ some .generation := by
  obtain ⟨tree, htree⟩ := Source.exists_of_parse (by decide +kernel : (Source.parse listSource).toBool = true)
  have hwrite : (Source.parse listSource).toOption.map (fun tree => (runAll tree textualChanges).write) =
      some changedList := by decide +kernel
  rw [htree] at hwrite
  obtain ⟨hrun, hedit⟩ := writable_after_edits listSource
  refine ⟨⟨tree, htree, ?_⟩, hedit _ trivial⟩
  rw [hrun tree textualChanges htree textual_textualChanges textualChanges List.prefix_rfl]
  exact congrArg Except.ok (Option.some.inj hwrite)

end Command
end Edit
end JsxEdit
