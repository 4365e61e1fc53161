import JsxEdit.Proofs.Copies
import JsxEdit.Proofs.Embedded
import JsxEdit.Proofs.Insertion
import JsxEdit.Proofs.Siblings
import JsxEdit.Proofs.Snippet

/-
The checks of names and the reading of tags.

A text passes as a name if it is one from its first to its last character, or if it is one with a line feed behind it.
Read as the name in a tag it is the name only in the first case: a line feed ends the name, and goes to the white space
behind it. So the names that pass and those that can be read back differ by the names with a line feed behind them, and
by no others.
-/
set_option autoImplicit false

namespace JsxEdit

/-! ## What passes as a name -/

namespace Text

/-- A text passes as a name if it is one, or one with a line feed behind it. -/
theorem isName_iff {kind : NameKind} {s : String} :
    isName kind s = true ↔ IsFullName kind s ∨ ∃ t, s = t ++ "\n" ∧ IsFullName kind t := by
  constructor
  · intro h
    unfold isName at h
    cases hlength : nameLength? kind s.toList with
    | none =>
      rw [hlength] at h
      cases h
    | some n =>
      rw [hlength] at h
      have hend : atEnd (s.toList.drop n) = true := h
      have htake := Scan.nameLength?_take hlength
      have hsplit := List.take_append_drop n s.toList
      -- behind the name there is nothing or a line feed
      unfold atEnd at hend
      split at hend
      · next hdrop =>
        rw [hdrop, List.append_nil] at hsplit
        rw [hsplit] at htake
        exact .inl htake
      · next hdrop =>
        refine .inr ⟨.ofList (s.toList.take n), ?_, ?_⟩
        · have hfeed : "\n".toList = ['\n'] := rfl
          apply String.toList_inj.mp
          rw [String.toList_append, String.toList_ofList, hfeed, ← hdrop, hsplit]
        · rw [IsFullName, String.toList_ofList]
          exact htake
      · cases hend
  · rintro (h | ⟨t, rfl, h⟩)
    · exact h.isName
    · have hlength : nameLength? kind (t.toList ++ ['\n']) = some t.toList.length :=
        h.append (.of_isSpace (by decide))
      have hlist : (t ++ "\n").toList = t.toList ++ ['\n'] := String.toList_append
      rw [isName, hlist, hlength]
      simp [atEnd]

/-- A name has no white space in it. -/
theorem IsFullName.noSpace {kind : NameKind} {s : String} (h : IsFullName kind s) :
    ∀ c ∈ s.toList, isSpace c = false := by
  obtain ⟨c, w, hs, -, hspace⟩ := h.starts
  rw [hs]
  exact hspace

theorem not_isFullName_lineFeed (kind : NameKind) (s : String) : ¬ IsFullName kind (s ++ "\n") := by
  intro h
  have hmem : '\n' ∈ (s ++ "\n").toList := by
    rw [String.toList_append]
    exact List.mem_append_right _ List.mem_cons_self
  exact absurd (h.noSpace '\n' hmem) (by decide)

/-- A name has no angle in it. -/
theorem IsFullName.notMem_angle {kind : NameKind} {s : String} (h : IsFullName kind s) : '<' ∉ s.toList := by
  have hnot : '<' ∉ s.toList.take ((nameLength? kind s.toList).getD 0) :=
    Scan.not_mem_take_nameLength? Scan.outsideTags_angle s.toList
  have hlength : nameLength? kind s.toList = some s.toList.length := h
  rwa [hlength, Option.getD_some, List.take_length] at hnot

end Text

/-! ## Reading a name back -/

theorem Kind.eq_element {k : Kind} (h : k.isElement = true) :
    ∃ name selfClosing spaceEnd closingName, k = .element name selfClosing spaceEnd closingName := by
  cases k with
  | element name selfClosing spaceEnd closingName => exact ⟨_, _, _, _, rfl⟩
  | _ => cases h

open Text (IsFullName)
open Scan (Reads Inside Leaves AtMarkup TagNext)
open Markup (GivesAttributes)

namespace Source

/-- A tag with the text in place of its name. -/
def tagText (s : String) : String := "<" ++ s ++ " />"

/-- A tag with the text in place of the name of its only attribute. -/
def attrText (s : String) : String := "<x " ++ s ++ "=\"v\" />"

/-- The tag with this text in place of its name is read as an element with that name. -/
def ReadsAsTag (s : String) : Prop :=
  ∃ n, snippet (tagText s) = .ok n ∧ n.kind.isElement = true ∧ n.kind.head = .str s

/-- The tag with this text in place of the name of its attribute is read as an element with one attribute, which has that
name and the value that stands behind it. -/
def ReadsAsAttr (s : String) : Prop :=
  ∃ n a v space, snippet (attrText s) = .ok n ∧ n.kind.isElement = true ∧ n.attributes = [a] ∧ a.kind = .attr s space ∧
    a.children = [v] ∧ v.kind.stringValue = .ok (some "v")

theorem solid_tag (w : List Char) : Text.Solid ('<' :: (w ++ ['/', '>'])) where
  starts := ⟨'<', _, rfl, by decide⟩
  ends := ⟨'>', '<' :: (w ++ ['/']), by simp, by decide⟩

theorem trim_tag (w : List Char) :
    Text.trim (.ofList ('<' :: (w ++ ['/', '>']))) = .ofList ('<' :: (w ++ ['/', '>'])) := by
  have h := Text.trim_of_solid (b := []) (e := []) rfl rfl (solid_tag w)
  rwa [List.nil_append, List.append_nil] at h

/-- A tag that closes itself is a snippet, if its attributes are read as such. -/
theorem snippet_selfClosing {name spaceEnd : String} {w : List Char} {P : List Node → Prop}
    (hname : IsFullName .tag name) (hblank : Text.isBlank spaceEnd = true)
    (hw : Reads (Inside .tag) w TagNext (GivesAttributes P)) (hnext : ∀ rest, TagNext rest → TagNext (w ++ rest))
    (hvalid : ∀ as, P as → Node.allValid as = true) :
    ∃ last info as, P as ∧
      snippet (.ofList ('<' :: (name.toList ++ (w ++ spaceEnd.toList) ++ ['/', '>']))) =
        .ok (Node.mk (.element name true spaceEnd last) info as []).withoutOrigin := by
  have hends := Markup.ends_selfClosing name (P := (· = [])) rfl
  have hread := Markup.reads_tag hname hblank hw hnext hends ⟨'/', _, rfl, .inl rfl⟩
  have htext : '<' :: name.toList ++ (w ++ (spaceEnd.toList ++ ['/', '>'])) =
      (String.ofList ('<' :: (name.toList ++ (w ++ spaceEnd.toList) ++ ['/', '>']))).toList := by
    simp
  rw [htext] at hread
  obtain ⟨ps, ⟨p, last, info, as, ns, rfl, hpart, has, rfl⟩, hnodes⟩ := Markup.nodes_of_reads hread
  have hroot := hnodes p _ rfl hpart
  rw [← trim_tag] at hroot
  refine ⟨last, info, as, has, snippet_of_isRoot (isRoot_of_nodes hroot ?_ rfl)⟩
  rw [Node.isValid, hvalid as has]
  rfl

/-- A name with white space behind it, in the place of a tag name, is read as a tag with the name. -/
theorem snippet_tag {name spaceEnd : String} (hname : IsFullName .tag name) (hblank : Text.isBlank spaceEnd = true) :
    ∃ n, snippet ("<" ++ name ++ spaceEnd ++ "/>") = .ok n ∧ n.kind.isElement = true ∧ n.kind.head = .str name := by
  have hnone : Reads (Inside .tag) [] TagNext (GivesAttributes (· = [])) := by
    refine Reads.nil.imp ?_
    rintro ps rfl
    exact ⟨[], rfl, fun _ _ _ _ => rfl⟩
  obtain ⟨last, info, as, rfl, hread⟩ := snippet_selfClosing hname hblank hnone (fun _ => id) (by rintro as rfl; rfl)
  have htext : "<" ++ name ++ spaceEnd ++ "/>" =
      .ofList ('<' :: (name.toList ++ ([] ++ spaceEnd.toList) ++ ['/', '>'])) := by
    apply String.toList_inj.mp
    simp
  refine ⟨_, by rw [htext]; exact hread, ?_⟩
  rw [Node.kind_withoutOrigin]
  exact ⟨rfl, rfl⟩

/-- What is read as a tag name is a name, from its first to its last character, and any name is. -/
theorem readsAsTag_iff {s : String} : ReadsAsTag s ↔ IsFullName .tag s := by
  constructor
  · rintro ⟨n, hread, hn, hhead⟩
    have hpermits := (flawless_snippet hread).permits
    have hname : isTagName s = true := by
      obtain ⟨name, selfClosing, spaceEnd, closingName, hk⟩ := Kind.eq_element hn
      rw [hk] at hpermits hhead
      rw [← Value.str.inj hhead]
      exact hpermits.1
    refine (Text.isName_iff.mp hname).resolve_right ?_
    -- with a line feed behind it, the name is read without it
    rintro ⟨t, rfl, ht⟩
    have hblank : Text.isBlank "\n " = true := by decide
    obtain ⟨m, hm, -, hhead'⟩ := snippet_tag ht hblank
    have htext : tagText (t ++ "\n") = "<" ++ t ++ "\n " ++ "/>" := by
      apply String.toList_inj.mp
      simp [tagText]
    rw [htext, hm] at hread
    obtain rfl := Except.ok.inj hread
    rw [hhead'] at hhead
    have hsame : t = t ++ "\n" := Value.str.inj hhead
    exact Text.not_isFullName_lineFeed .tag t (hsame ▸ ht)
  · intro h
    have htext : tagText s = "<" ++ s ++ " " ++ "/>" := by
      apply String.toList_inj.mp
      simp [tagText]
    rw [ReadsAsTag, htext]
    exact snippet_tag h (by decide)

/-! ### Attributes -/

/-- A name in the place of an attribute name is read as an attribute with the name. -/
theorem snippet_attr {name : String} (hname : IsFullName .attr name) : ReadsAsAttr name := by
  have hblank : Text.isBlank " " = true := by decide
  have hread : Reads (Inside .tag) ([' '] ++ (name.toList ++ (['='] ++ '"' :: ("v".toList ++ ['"'])))) TagNext
      (GivesAttributes fun as => ∃ i i', as = [.mk (.attr name " ") i [] [.mk (.attributeString "v" "\"") i' [] []]]) := by
    refine (Markup.reads_valued hname hblank (by decide)
      (Markup.reads_quoted (.inl rfl) (by decide))).weaken (fun _ _ => id) (fun _ _ => trivial) ?_
    rintro ps ⟨_, ⟨i, _, ⟨i', rfl⟩, rfl⟩, hgive⟩
    exact ⟨_, ⟨i, i', rfl⟩, hgive⟩
  have hletter : IsFullName .tag "x" := rfl
  obtain ⟨last, info, as, ⟨i, i', rfl⟩, hsnippet⟩ := snippet_selfClosing hletter hblank
    hread (fun rest _ => ⟨' ', _, rfl, .inl (by decide)⟩) (by rintro as ⟨i, i', rfl⟩; rfl)
  have htext : attrText name = .ofList ('<' :: ("x".toList ++
      (([' '] ++ (name.toList ++ (['='] ++ '"' :: ("v".toList ++ ['"'])))) ++ " ".toList) ++ ['/', '>'])) := by
    apply String.toList_inj.mp
    simp [attrText]
  rw [ReadsAsAttr, htext]
  exact ⟨_, _, _, " ", hsnippet, rfl, rfl, rfl, rfl, rfl⟩

/-- The pieces spoil the tag they stand in, whatever comes behind them. -/
def Spoils (ps : List Piece) : Prop :=
  ∃ reason t, ∀ angle name more, Markup.elementFrom angle name ⟨[], "", false⟩ (Markup.allParts ps ++ more) =
    Markup.invalid reason t

theorem elementFrom_unexpected {t : Token} (h : t.kind = .equals) {space : String} (hspace : space ≠ "")
    (angle name : Token) (as : List Node) (more : List Part) :
    Markup.elementFrom angle name ⟨as, space, false⟩ (.leaf (.token t) :: more) =
      Markup.invalid "Unexpected '='" t := by
  have htakes : (Markup.Opening.mk as space false).takesValue = false := by
    rw [Markup.Opening.takesValue]
    cases as with
    | nil => rfl
    | cons a as => cases ha : a.kind <;> simp [hspace, ha]
  simp [Markup.elementFrom, Markup.readToken, h, htakes]

theorem nameEnds_space {space : String} (hblank : Text.isBlank space = true) (hne : space ≠ "") (rest : List Char) :
    Scan.NameEnds (space.toList ++ rest) := by
  obtain ⟨c, cs, hspace⟩ := List.exists_cons_of_ne_nil (show space.toList ≠ [] by simpa using hne)
  have hc : Text.isSpace c = true := List.all_eq_true.mp hblank c (by simp [hspace])
  exact ⟨c, cs ++ rest, by rw [hspace]; rfl, .of_isSpace hc⟩

/-- White space between an attribute name and the equals sign spoils the tag. -/
theorem reads_parted {name space : String} (hname : IsFullName .attr name) (hblank : Text.isBlank space = true)
    (hne : space ≠ "") :
    Reads (Inside .tag) (" ".toList ++ (name.toList ++ (space.toList ++ ['=']))) (fun _ => True) Spoils := by
  have hone : Text.isBlank " " = true := by decide
  have hequals := Reads.append (fun _ _ _ h => h) (Markup.reads_space hblank hne) Markup.reads_equals
    fun rest _ => ⟨'=', _, rfl, by decide⟩
  have hnamed := Reads.append (fun _ _ _ h => h) (Markup.reads_name hname) hequals fun rest _ => by
    rw [List.append_assoc]
    exact nameEnds_space hblank hne _
  have hspaced := Reads.append (fun _ _ _ h => h) (Markup.reads_space hone (by decide)) hnamed
    fun rest _ => by
      rw [List.append_assoc]
      exact Markup.starts_name hname _
  refine hspaced.imp ?_
  rintro ps ⟨_, _, rfl, ⟨t, rfl, ht, -⟩, _, _, rfl, ⟨u, rfl, hu, -⟩, _, _, rfl, ⟨s, rfl, hs, htext⟩, e, rfl, he, -⟩
  refine ⟨"Unexpected '='", e, fun angle name more => ?_⟩
  have hafter : "" ++ s.text ≠ "" := by rwa [String.empty_append, htext]
  simp only [Markup.allParts, Markup.part, List.cons_append, List.nil_append, Markup.elementFrom_space ht,
    Markup.elementFrom_name hu, Markup.elementFrom_space hs, elementFrom_unexpected he hafter]

/-- The text of a tag with an attribute name, white space, and the value of the attribute. -/
def partedText (name space : String) : String := "<x " ++ name ++ space ++ "=\"v\" />"

/-- Such a tag is one place that is no markup. -/
theorem nodes_parted {name space : String} (hname : IsFullName .attr name) (hblank : Text.isBlank space = true)
    (hne : space ≠ "") : ∃ reason t, Markup.nodes (partedText name space) = [Markup.invalid reason t] := by
  have hone : Text.isBlank " " = true := by decide
  have hspace := Scan.leaves_tag.after (Markup.reads_spaceEnd hone) fun rest =>
    ⟨'/', '>' :: rest, rfl, by decide⟩
  have hbody : '"' ∉ "v".toList := by decide
  have hvalue := hspace.after (Markup.reads_quoted (.inl rfl) hbody) fun _ => trivial
  have hspoilt := hvalue.after (reads_parted hname hblank hne) fun _ => trivial
  have hno : ¬ Scan.IsTagStart "x" [] := by
    rintro ⟨angle, t, h, -⟩
    cases h
  have hletter : IsFullName .tag "x" := rfl
  have hread := (Scan.enters_tag hletter).stretch hspoilt
    (fun rest => ⟨' ', _, rfl, .of_isSpace (by decide)⟩) hno
  have htext : ('<' :: "x".toList) ++ ((" ".toList ++ (name.toList ++ (space.toList ++ ['=']))) ++
      (('"' :: ("v".toList ++ ['"'])) ++ (" ".toList ++ ['/', '>']))) = (partedText name space).toList := by
    simp [partedText]
  rw [htext] at hread
  obtain ⟨ps, ⟨os, es, rfl, ⟨angle, t, rfl, -⟩, qs, rs, rfl, ⟨reason, u, hspoils⟩, -⟩, hnodes⟩ :=
    Markup.nodes_of_reads hread
  refine ⟨reason, u, hnodes _ _ rfl ?_⟩
  rw [Markup.part, Markup.assemble, Markup.allParts_append, Markup.allParts_append]
  exact congrArg (fun n => Part.leaf (.node n)) (hspoils angle t _)

/-- A closing tag behind white space has an angle. -/
theorem angle_mem_of_closing {rest : String} (h : (Scan.closingTagLength? (Text.trimStart rest).toList).isSome = true) :
    '<' ∈ rest.toList := by
  obtain ⟨n, hn⟩ := Option.isSome_iff_exists.mp h
  obtain ⟨body, hbody, -⟩ := Scan.closingTagLength?_text hn
  have htake : '<' ∈ (Text.trimStart rest).toList.take n := by
    rw [hbody]
    exact List.mem_cons_self
  have hmem := List.mem_of_mem_take htake
  rw [Text.trimStart, String.toList_ofList] at hmem
  exact (List.dropWhile_suffix _).subset hmem

/-- A text with one angle, at its start, that is no markup is no snippet. -/
theorem not_snippet_of_invalid {w : List Char} {reason : String} {t : Token} (hangle : '<' ∉ w)
    (h : Markup.nodes (.ofList ('<' :: (w ++ ['/', '>']))) = [Markup.invalid reason t]) (n : Node) :
    snippet (.ofList ('<' :: (w ++ ['/', '>']))) ≠ .ok n := by
  intro hread
  rcases isRoot_of_snippet hread with hroot | ⟨root, rest, htext, hroot, hclose, -⟩
  · obtain ⟨m, hnodes, -, hm, -⟩ := nodes_of_isRoot hroot
    rw [trim_tag, h] at hnodes
    rw [← (List.cons.inj hnodes).1] at hm
    cases hm
  · -- the root and the closing tag behind it would both need an angle
    obtain ⟨b, core, e, hcore, -, -, -, u, -, -, hstart, -⟩ := core_of_isRoot hroot
    have hlist := congrArg String.toList htext
    rw [String.toList_ofList, String.toList_append] at hlist
    have hmem : '<' ∈ rest.toList := angle_mem_of_closing hclose
    cases hroot : root.toList with
    | nil =>
      rw [hroot, hstart] at hcore
      simp at hcore
    | cons c r =>
      rw [hroot, List.cons_append] at hlist
      have hrest : '<' ∈ w ++ ['/', '>'] := by
        rw [(List.cons.inj hlist).2]
        exact List.mem_append_right r hmem
      rcases List.mem_append.mp hrest with hw | htail
      · exact hangle hw
      · exact absurd htail (by decide)

/-- What is read as an attribute name is a name, from its first to its last character, and any name is. -/
theorem readsAsAttr_iff {s : String} : ReadsAsAttr s ↔ IsFullName .attr s := by
  refine ⟨?_, snippet_attr⟩
  rintro ⟨n, a, v, space, hread, hn, has, ha, -⟩
  have hflawless : a.Flawless := (flawless_snippet hread).attr (has ▸ List.mem_cons_self)
  have hpermits := hflawless.permits
  rw [ha] at hpermits
  refine (Text.isName_iff.mp hpermits.1).resolve_right ?_
  rintro ⟨t, rfl, ht⟩
  have hblank : Text.isBlank "\n" = true := by decide
  obtain ⟨reason, u, hnodes⟩ := nodes_parted ht hblank (by decide)
  have htext : attrText (t ++ "\n") = partedText t "\n" := by
    apply String.toList_inj.mp
    simp [attrText, partedText]
  have hlist : partedText t "\n" =
      .ofList ('<' :: (("x ".toList ++ (t.toList ++ "\n=\"v\" ".toList)) ++ ['/', '>'])) := by
    apply String.toList_inj.mp
    simp [partedText]
  have hangle : '<' ∉ "x ".toList ++ (t.toList ++ "\n=\"v\" ".toList) := by
    simp [ht.notMem_angle]
  rw [hlist] at hnodes
  rw [htext, hlist] at hread
  exact not_snippet_of_invalid hangle hnodes n hread

end Source

/-! ## Where names are checked -/

namespace Node

theorem KeepsAttributes.withKind {n : Node} {k : Kind} (h : n.KeepsAttributes) (hk : k.isElement = n.kind.isElement) :
    (n.withKind k).KeepsAttributes := by
  cases n
  obtain ⟨hown, hbelow⟩ := keepsAttributes_mk.mp h
  exact keepsAttributes_mk.mpr ⟨fun hkind => hown (hk ▸ hkind), hbelow⟩

/-- That attributes are left to elements is true of the nodes in a tree, and stays true if others of which it is true take
their place. -/
theorem KeepsAttributes.inherited : Inherited KeepsAttributes where
  attributeList {n} h := by
    cases n
    exact keepsAttributes_bare (keepsAttributes_mk.mp h).2.1
  child h hc := h.children _ hc
  withChildren h _ hcs := h.withChildren hcs
  withAttributes {n as} h hn has := by
    cases n
    refine keepsAttributes_mk.mpr ⟨?_, has, (keepsAttributes_mk.mp h).2.2⟩
    intro hkind
    rw [kind_mk, hkind] at hn
    cases hn

/-- The checking writer writes the tree. -/
def CanBeWritten (n : Node) : Prop := ∃ text, n.generate true = .ok text

section

variable {tree : Node} (hkeeps : tree.KeepsAttributes) (hwritten : tree.CanBeWritten) {v : Visit} (hv : v ∈ tree.visits)
include hkeeps hwritten hv

/-- If one node of a tree that can be written gets another kind, the tree can be written if that permits the children. -/
theorem canBeWritten_withKind {k : Kind} (hk : k.isElement = v.node.kind.isElement) :
    (tree.set v.path (v.node.withKind k)).CanBeWritten ↔ k.Permits v.node.children.length := by
  obtain ⟨text, hwritten⟩ := hwritten
  have htree := flawless_of_generate hkeeps hwritten
  have hget := hkeeps.get?_visit hv
  constructor
  · rintro ⟨text', hwritten'⟩
    have hkeeps' := KeepsAttributes.inherited.set hkeeps hget ((KeepsAttributes.inherited.get hkeeps hget).withKind hk)
    have hpermits := ((flawless_of_generate hkeeps' hwritten').get (get?_set_child hget _)).permits
    rwa [kind_withKind, children_withKind] at hpermits
  · intro hpermits
    exact ⟨_, (htree.set hget ((htree.get hget).withKind hpermits)).generate⟩

/-- An element can be written under the names that pass as tag names. -/
theorem canBeWritten_renamed (hn : v.node.kind.isElement = true) (s : String) :
    (tree.modify (Edit.renamed s) v.path).CanBeWritten ↔ isTagName s = true := by
  have hget := hkeeps.get?_visit hv
  obtain ⟨name, selfClosing, spaceEnd, closingName, hkind⟩ := Kind.eq_element hn
  obtain ⟨text, hwritten'⟩ := hwritten
  have hpermits := ((flawless_of_generate hkeeps hwritten').get hget).permits
  have hrenamed : Edit.renamed s v.node = v.node.withKind (.element s selfClosing spaceEnd none) := by
    rw [Edit.renamed, hkind]
  rw [hkind] at hpermits
  rw [modify_eq_set _ hget, hrenamed, canBeWritten_withKind hkeeps ⟨text, hwritten'⟩ hv (by rw [hkind]; rfl)]
  constructor
  · intro h
    exact h.1
  · intro h
    exact ⟨h, .inl rfl, hpermits.2.2⟩

/-- An attribute can be written under the names that pass as attribute names. -/
theorem canBeWritten_attr {name space : String} (hn : v.node.kind = .attr name space) (s : String) :
    (tree.set v.path (v.node.withKind (.attr s space))).CanBeWritten ↔ isAttrName s = true := by
  obtain ⟨text, hwritten'⟩ := hwritten
  have hpermits := ((flawless_of_generate hkeeps hwritten').get (hkeeps.get?_visit hv)).permits
  rw [hn] at hpermits
  rw [canBeWritten_withKind hkeeps ⟨text, hwritten'⟩ hv (by rw [hn]; rfl)]
  constructor
  · intro h
    exact h.1
  · intro h
    exact ⟨h, hpermits.2⟩

end

end Node

namespace Edit
open Node

/-- A value is refused because it cannot be used, or because it is an identity that is in use. -/
theorem valueProblem_some {tree : Node} {place : Path} {name problem : String} {v : Value Node}
    (h : valueProblem tree place name v = .ok (some problem)) :
    (∃ value role, problem = "can't use " ++ value ++ " as " ++ role) ∨
      ∃ id, problem = "Duplicate " ++ name ++ " value: " ++ id := by
  unfold valueProblem at h
  cases v with
  | str s =>
    refine .inr ⟨s, ?_⟩
    rw [Build.attributeValue, Literal.attributeString, Literal.attributeText, Literal.references] at h
    cases hdecode : Text.decodeReferences? s with
    | none =>
      rw [hdecode] at h
      cases h
    | some decoded =>
      rw [hdecode] at h
      cases hname : name == identityName with
      | false =>
        rw [hname] at h
        cases h
      | true =>
        rw [hname] at h
        change (tree.findId s).bind _ = _ at h
        cases hfind : tree.findId s with
        | error f =>
          rw [hfind] at h
          cases h
        | ok found =>
          rw [hfind] at h
          cases found with
          | none => cases h
          | some w =>
            dsimp only [Except.bind] at h
            split at h <;> cases h
            rfl
  | _ =>
    dsimp only at h
    split at h
    · split at h
      · cases h
        exact .inl ⟨_, _, rfl⟩
      · cases h
      · cases h
    · cases h

/-- What is wrong with a value is never said in the words for a name. -/
theorem valueProblem_ne {tree : Node} {place : Path} {name problem : String} {v : Value Node}
    (h : valueProblem tree place name v = .ok (some problem)) (s : String) :
    problem ≠ "Invalid attribute name: " ++ s := by
  intro hsame
  rcases valueProblem_some h with ⟨value, role, rfl⟩ | ⟨id, rfl⟩
  all_goals
    have hstart := congrArg (·.toList.head?) hsame
    simp at hstart

/-- The reply to a text that does not pass as an attribute name. -/
def nameRefused (tree : Node) (s : String) : Reply :=
  .invalid tree ("Invalid attribute name: " ++ Text.quoted s) [("old_value", .null)]

section

variable {tree : Node} {id : String} {v : Visit} (hv : tree.findId id = .ok (some v)) (s : String)
include hv

theorem updateTagName_succeeds_iff : (updateTagName tree id (.str s)).Succeeds ↔ isTagName s = true := by
  rw [updateTagName, hv]
  dsimp only
  cases isTagName s with
  | true => exact iff_of_true (Reply.succeeds_succeeded ..) rfl
  | false => exact iff_of_false (Reply.not_succeeds_invalid _ _ _) Bool.false_ne_true

/-- With a name that passes, an attribute is set or refused for its value, or there is a fault. -/
theorem updateAttribute_of_name (hname : isAttrName s = true) (value : Value Node) :
    (∃ f, updateAttribute tree id (.str s) value = .fault tree f) ∨
    (∃ problem, valueProblem tree v.path s value = .ok (some problem) ∧
      updateAttribute tree id (.str s) value = .invalid tree problem [("old_value", .null)]) ∨
    ∃ tree' message extra, updateAttribute tree id (.str s) value = .succeeded tree' message extra := by
  rw [updateAttribute, hv]
  dsimp only
  rw [hname, if_neg (by decide)]
  cases valueProblem tree v.path s value with
  | error f => exact .inl ⟨f, rfl⟩
  | ok problem =>
    cases problem with
    | some problem => exact .inr (.inl ⟨problem, rfl, rfl⟩)
    | none =>
      cases setAttribute v.node.attributes s value with
      | error f => exact .inl ⟨f, rfl⟩
      | ok r => exact .inr (.inr ⟨_, _, _, rfl⟩)

/-- An attribute is refused for its name, whatever its value is, if the name does not pass. -/
theorem updateAttribute_refuses_iff (value : Value Node) :
    updateAttribute tree id (.str s) value = nameRefused tree s ↔ isAttrName s = false := by
  constructor
  · intro h
    refine Bool.eq_false_iff.mpr fun hname => ?_
    rcases updateAttribute_of_name hv s hname value with ⟨f, hreply⟩ | ⟨problem, hproblem, hreply⟩ | ⟨_, _, _, hreply⟩
    · have hresult := congrArg Reply.result (hreply.symm.trans h)
      cases hresult
    · have hresult := congrArg Reply.result (hreply.symm.trans h)
      exact valueProblem_ne hproblem _ (congrArg Outcome.message (Except.ok.inj hresult))
    · have hresult := congrArg Reply.result (hreply.symm.trans h)
      have herror := congrArg Outcome.error (Except.ok.inj hresult)
      cases herror
  · intro hname
    rw [updateAttribute, hv]
    dsimp only
    rw [hname]
    rfl

end

end Edit

open Edit Node Source

/-- A text passes as a name if it can be read back in its place in a tag, or if it has a line feed behind a name that
can; with the line feed it cannot be read back. What passes is what edits take for a name and what is written. -/
theorem names_read_back (s : String) :
    (isTagName s = true ↔ ReadsAsTag s ∨ ∃ t, s = t ++ "\n" ∧ ReadsAsTag t) ∧
    (isAttrName s = true ↔ ReadsAsAttr s ∨ ∃ t, s = t ++ "\n" ∧ ReadsAsAttr t) ∧
    ¬ReadsAsTag (s ++ "\n") ∧ ¬ReadsAsAttr (s ++ "\n") ∧
    (∀ (tree : Node) (id : String) (v : Visit), tree.findId id = .ok (some v) →
      ((updateTagName tree id (.str s)).Succeeds ↔ isTagName s = true) ∧
      ∀ value, updateAttribute tree id (.str s) value = nameRefused tree s ↔ isAttrName s = false) ∧
    ∀ tree : Node, tree.KeepsAttributes → tree.CanBeWritten → ∀ v ∈ tree.visits,
      (v.node.kind.isElement = true → ((tree.modify (renamed s) v.path).CanBeWritten ↔ isTagName s = true)) ∧
      ∀ name space, v.node.kind = .attr name space →
        ((tree.set v.path (v.node.withKind (.attr s space))).CanBeWritten ↔ isAttrName s = true) := by
  have htag : ∀ t, ReadsAsTag t ↔ IsFullName .tag t := fun t => readsAsTag_iff
  have hattr : ∀ t, ReadsAsAttr t ↔ IsFullName .attr t := fun t => readsAsAttr_iff
  simp only [htag, hattr]
  refine ⟨Text.isName_iff, Text.isName_iff, Text.not_isFullName_lineFeed .tag s, Text.not_isFullName_lineFeed .attr s,
    fun tree id v hv => ?_, fun tree hkeeps hwritten v hv => ?_⟩
  · exact ⟨updateTagName_succeeds_iff hv s, updateAttribute_refuses_iff hv s⟩
  · refine ⟨fun hn => canBeWritten_renamed hkeeps hwritten hv hn s, fun name space hn => ?_⟩
    exact canBeWritten_attr hkeeps hwritten hv hn s

theorem fed_name_passes : isTagName "a\n" = true ∧ isAttrName "a\n" = true ∧ ¬ReadsAsTag "a\n" ∧ ¬ReadsAsAttr "a\n" ∧
    (updateTagName Command.nested "item" (.str "a\n")).Succeeds ∧
    updateAttribute Command.nested "item" (.str "a\n") (.str "v") ≠ nameRefused Command.nested "a\n" ∧
    ∃ v, Command.nested.findId "item" = .ok (some v) ∧ (Command.nested.modify (renamed "a\n") v.path).CanBeWritten := by
  have htag : isTagName "a\n" = true := by decide
  have hattr : isAttrName "a\n" = true := by decide
  have hkeeps : Command.nested.KeepsAttributes := by
    unfold KeepsAttributes
    decide
  have hwritten : Command.nested.CanBeWritten := ⟨_, rfl⟩
  obtain ⟨v, hv⟩ : ∃ v, Command.nested.findId "item" = .ok (some v) := ⟨_, rfl⟩
  obtain ⟨-, -, hnotTag, hnotAttr, -, -⟩ := names_read_back "a"
  obtain ⟨-, -, -, -, hedits, hwrites⟩ := names_read_back "a\n"
  obtain ⟨hrename, hset⟩ := hedits _ _ v hv
  have hfound := findId_some hv
  refine ⟨htag, hattr, hnotTag, hnotAttr, hrename.mpr htag, fun hrefused => ?_, v, hv,
    ((hwrites _ hkeeps hwritten v hfound.mem).1 hfound.element).mpr htag⟩
  rw [(hset (.str "v")).mp hrefused] at hattr
  cases hattr

end JsxEdit
