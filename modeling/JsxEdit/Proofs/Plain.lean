import JsxEdit.Node.Equal
import JsxEdit.Node.Generate
import JsxEdit.Source.Expression

/-
Plain markup: elements and fragments of texts and strings, with bare, quoted and whole-number attributes. It is
written without a flaw, and two trees of it are compared piece by piece.

The one comparison that can fail is that of attribute strings, where a decimal reference may have too many digits to
be read. `verdict` says so for whole trees: they agree, or a value cannot be worked out.
-/
set_option autoImplicit false

namespace JsxEdit

/-! ## Plain trees -/

/-- A text that is a name of this kind from its first to its last character. -/
def Text.IsFullName (kind : NameKind) (s : String) : Prop := nameLength? kind s.toList = some s.toList.length

/-- The marks that strings stand between. -/
def Text.IsQuote (q : Char) : Prop := q = '"' ∨ q = '\''

/-- The text between the quotes of one string of the script. -/
def Literal.IsBody (q : Char) (raw : String) : Prop :=
  Expression.quotedLength? false q (raw.toList ++ [q]) = some (raw.toList.length + 1)

/-- Attribute values: a string without its quote in it, or a whole number in braces. -/
inductive PlainValue : Node → Prop where
  | string {raw : String} {q : Char} {info : Info} (quote : Text.IsQuote q) (body : q ∉ raw.toList) :
    PlainValue (.mk (.attributeString raw (.ofList [q])) info [] [])
  | number {lead trail : String} {n : Int} {info inner : Info} (before : Text.isBlank lead = true)
    (after : Text.isBlank trail = true) :
    PlainValue (.mk (.slot lead trail) info [] [.mk (.number (intText n)) inner [] []])

/-- Attributes with white space before them and at most one value. -/
inductive PlainAttribute : Node → Prop where
  | attr {name space : String} {info : Info} {value : Option Node} (isName : Text.IsFullName .attr name)
    (blank : Text.isBlank space = true) (spaced : space ≠ "") (plain : ∀ v ∈ value, PlainValue v) :
    PlainAttribute (.mk (.attr name space) info [] value.toList)

/-- Elements, fragments, texts, and strings of the script in braces. -/
inductive Plain : Node → Prop where
  | element {name spaceEnd : String} {selfClosing : Bool} {closingName : Option String} {info : Info}
    {as cs : List Node} (isName : Text.IsFullName .tag name) (blank : Text.isBlank spaceEnd = true)
    (childless : selfClosing = true → cs = []) (closing : closingName = none ∨ closingName = some name)
    (attributes : ∀ a ∈ as, PlainAttribute a) (children : ∀ c ∈ cs, Plain c) :
    Plain (.mk (.element name selfClosing spaceEnd closingName) info as cs)
  | fragment {info : Info} {cs : List Node} (children : ∀ c ∈ cs, Plain c) : Plain (.mk .fragment info [] cs)
  | text {s : String} {info : Info} (angle : '<' ∉ s.toList) (brace : '\x7b' ∉ s.toList) :
    Plain (.mk (.text s) info [] [])
  | string {raw : String} {q : Char} {info inner : Info} (quote : Text.IsQuote q) (body : Literal.IsBody q raw) :
    Plain (.mk (.slot "" "") info [] [.mk (.string raw (.ofList [q])) inner [] []])

namespace Node

/-- A text put before nodes: an empty one is left out, and one before another text becomes one with it. -/
def prependText (s : String) (ns : List Node) : List Node :=
  if s.isEmpty then ns
  else
    match ns with
    | .mk (.text s') i as cs :: ms => .mk (.text (s ++ s')) i as cs :: ms
    | ns => .text s :: ns

mutual

/-- The tree with empty texts left out and adjacent ones made one, at every depth. -/
def joined : Node → Node
  | .mk k i as cs => .mk k i as (joinAll cs)

/-- The nodes with empty texts left out and adjacent ones made one, at every depth. -/
def joinAll : List Node → List Node
  | [] => []
  | .mk k i as cs :: ns =>
    match k with
    | .text s => prependText s (joinAll ns)
    | _ => joined (.mk k i as cs) :: joinAll ns

end

end Node

/-- Whether the value of the node can be worked out as far as its references go. -/
def Kind.isReadable : Kind → Bool
  | .attributeString raw _ => (Text.decodeReferences? raw).isSome
  | _ => true

namespace Node

mutual

/-- Whether the references of all attribute strings in the tree can be read. -/
def isReadable : Node → Bool
  | .mk k _ as cs => k.isReadable && allReadable as && allReadable cs

/-- Whether the references of all attribute strings in the trees can be read. -/
def allReadable : List Node → Bool
  | [] => true
  | n :: ns => n.isReadable && allReadable ns

end

/-! ## Comparing -/

/-- What comparing trees that agree comes to: they are equal if all values can be worked out. -/
def verdict (readable : Bool) : Except Fault Bool := if readable then .ok true else .error .badNumber

theorem verdict_true : verdict true = .ok true := rfl

theorem length_eq_of_equalsAll {ns ms : List Node} {b : Bool} (h : equalsAll ns ms = verdict b) :
    ns.length = ms.length := by
  have hfalse : verdict b ≠ .ok false := by cases b <;> simp [verdict]
  cases ns with
  | nil =>
    cases ms with
    | nil => rfl
    | cons m ms => exact absurd h.symm hfalse
  | cons n ns =>
    cases ms with
    | nil => exact absurd h.symm hfalse
    | cons m ms =>
      rw [equalsAll] at h
      split at h
      · exact absurd h.symm hfalse
      · next hlen => simpa using hlen

theorem equalsAll_cons {n m : Node} {ns ms : List Node} {a b : Bool} (hn : n.equals m = verdict a)
    (hns : equalsAll ns ms = verdict b) : equalsAll (n :: ns) (m :: ms) = verdict (a && b) := by
  have hlen := length_eq_of_equalsAll hns
  rw [equalsAll, if_neg (by simp [hlen]), hn]
  cases a with
  | false => rfl
  | true => exact hns

/-- Nodes agree if their kinds, attributes and children do. -/
theorem equals_mk {k k' : Kind} {i i' : Info} {as as' cs cs' : List Node} {a b c : Bool}
    (hforeign : k.isForeign = false) (hname : k.name = k'.name) (hbody : k.bodySame k' = verdict a)
    (has : equalsAll as as' = verdict b) (hcs : equalsAll cs cs' = verdict c) :
    (mk k i as cs).equals (mk k' i' as' cs') = verdict (a && b && c) := by
  have hlen := length_eq_of_equalsAll hcs
  rw [equals, hforeign, if_neg (by decide), if_neg (by simp [hname, hlen]), hbody]
  cases a with
  | false => rfl
  | true =>
    simp only [verdict_true, has]
    cases b with
    | false => rfl
    | true => exact hcs

theorem allReadable_eq_all (ns : List Node) : allReadable ns = ns.all (·.isReadable) := by
  induction ns with
  | nil => rfl
  | cons n ns ih => rw [allReadable, ih, List.all_cons]

end Node

/-! ## Writing -/

theorem PlainValue.isForeign {v : Node} (h : PlainValue v) : v.isForeign = false := by
  cases h <;> rfl

theorem PlainAttribute.isForeign {a : Node} (h : PlainAttribute a) : a.isForeign = false := by
  cases h
  rfl

theorem Plain.isForeign {t : Node} (h : Plain t) : t.isForeign = false := by
  cases h <;> rfl

namespace Node

theorem generateAll_eq {ns : List Node} (h : ∀ n ∈ ns, n.generate true = .ok n.write) :
    generateAll true ns = .ok (writeAll ns) := by
  induction ns with
  | nil => rfl
  | cons n ns ih =>
    rw [List.forall_mem_cons] at h
    rw [generateAll, h.1, ih h.2, writeAll]
    rfl

/-- A node has no flaw unless its kind forbids it, if all below it are nodes. -/
theorem find?_isForeign (as cs : List Node) (has : ∀ a ∈ as, a.isForeign = false)
    (hcs : ∀ c ∈ cs, c.isForeign = false) : (as ++ cs).find? (·.isForeign) = none := by
  refine List.find?_eq_none.mpr fun x hx => ?_
  rcases List.mem_append.mp hx with hx | hx
  · simp [has x hx]
  · simp [hcs x hx]

/-- Fragments and documents are written as soon as their children are. -/
theorem generate_inside {k : Kind} {i : Info} {cs : List Node} (hk : k = .fragment ∨ ∃ source, k = .document source)
    (hforeign : ∀ c ∈ cs, c.isForeign = false) (hcs : ∀ c ∈ cs, c.generate true = .ok c.write) :
    (mk k i [] cs).generate true = .ok (mk k i [] cs).write := by
  have hfind := find?_isForeign [] cs (fun a ha => nomatch ha) hforeign
  rcases hk with rfl | ⟨source, rfl⟩
  all_goals
    simp only [generate, flawError?, flaw?, attributes_mk, children_mk, kind_mk, hfind, generateAll_eq hcs, write]
    rfl

end Node

theorem Text.IsFullName.isName {kind : NameKind} {s : String} (h : IsFullName kind s) : isName kind s = true := by
  have hlength : nameLength? kind s.toList = some s.toList.length := h
  simp [Text.isName, hlength, atEnd]

theorem PlainValue.generate {v : Node} (h : PlainValue v) : v.generate true = .ok v.write := by
  cases h with
  | string => rfl
  | number => rfl

theorem PlainAttribute.generate {a : Node} (h : PlainAttribute a) : a.generate true = .ok a.write := by
  cases h with
  | @attr name space info value isName blank spaced plain =>
    have hvalue : ∀ v ∈ value.toList, PlainValue v := fun v hv => plain v (Option.mem_toList.mp hv)
    have hflaw : (Node.mk (.attr name space) info [] value.toList).flaw? = none := by
      have hfind := Node.find?_isForeign [] value.toList (fun a ha => nomatch ha) fun v hv => (hvalue v hv).isForeign
      have hlen : ¬ value.toList.length > 1 := by cases value <;> simp
      simp only [Node.flaw?, Node.attributes_mk, Node.children_mk, Node.kind_mk, hfind, isAttrName, isName.isName]
      simp [hlen]
    rw [Node.generate, Node.flawError?, hflaw, Node.write, Node.generateAll_eq fun v hv => (hvalue v hv).generate]
    rfl

/-- Plain markup is written without a flaw. -/
theorem Plain.generate {t : Node} (h : Plain t) : t.generate true = .ok t.write := by
  induction h with
  | @element name spaceEnd selfClosing closingName info as cs isName blank childless closing attributes children ih =>
    have hfind := Node.find?_isForeign as cs (fun a ha => (attributes a ha).isForeign) fun c hc => (children c hc).isForeign
    have hclosing : closingName.any (· != name) = false := by
      rcases closing with rfl | rfl
      · rfl
      · simp
    have hchildren : (selfClosing && !cs.isEmpty) = false := by
      cases selfClosing with
      | false => rfl
      | true => rw [childless rfl]; rfl
    have hflaw : (Node.mk (.element name selfClosing spaceEnd closingName) info as cs).flaw? = none := by
      simp only [Node.flaw?, Node.attributes_mk, Node.children_mk, Node.kind_mk, hfind, isTagName, isName.isName, hclosing,
        hchildren]
      rfl
    rw [Node.generate, Node.flawError?, hflaw, Node.write, Node.generateAll_eq fun a ha => (attributes a ha).generate,
      Node.generateAll_eq ih]
    rfl
  | @fragment info cs children ih => exact Node.generate_inside (.inl rfl) (fun c hc => (children c hc).isForeign) ih
  | text => rfl
  | string => rfl

/-- A document of plain markup is written as the markup is. -/
theorem Plain.generate_document {t : Node} {source : Option String} {info : Info} (h : Plain t) :
    (Node.mk (.document source) info [] [t]).generate true = .ok t.write := by
  have hdocument : (Node.mk (.document source) info [] [t]).write = t.write := by
    simp [Node.write, Node.writeAll, Kind.opening, Kind.closing]
  rw [← hdocument]
  exact Node.generate_inside (.inr ⟨source, rfl⟩) (by simp [h.isForeign]) (by simp [h.generate])

end JsxEdit
