import JsxEdit.Proofs.Quoting
import JsxEdit.Proofs.Restate

/-
Class names as an ordered list of words.

The class names are put together to one text, which is written as an attribute string and cut into words when it is read
again. Words without white space come back from that as they were, so adding and removing class names are operations on
the list of words; they can be looked at without the attribute.
-/
set_option autoImplicit false

namespace JsxEdit

/-! ## Words -/

namespace Text

/-- A word: a text that is not empty and has no white space. -/
structure IsWord (w : String) : Prop where
  ne : w.toList ≠ []
  solid : ∀ c ∈ w.toList, isSpace c = false

theorem isWord_of_mem_wordsFrom {cs : List Char} {word : List Char} (hword : ∀ c ∈ word, isSpace c = false) :
    ∀ w ∈ wordsFrom word cs, IsWord w := by
  have hone (hne : word ≠ []) : IsWord (.ofList word.reverse) := by
    refine ⟨by simpa using hne, fun c hc => hword c ?_⟩
    simpa using hc
  induction cs generalizing word with
  | nil =>
    rw [wordsFrom]
    intro w hw
    split at hw
    · cases hw
    · next hne =>
      rw [List.mem_singleton.mp hw]
      exact hone (by simpa using hne)
  | cons c cs ih =>
    rw [wordsFrom]
    intro w hw
    split at hw
    · have hrest := @ih [] (List.forall_mem_nil _) (fun hne => absurd rfl hne)
      split at hw
      · exact hrest w hw
      · next hne =>
        rcases List.mem_cons.mp hw with rfl | hw
        · exact hone (by simpa using hne)
        · exact hrest w hw
    · next hc =>
      have hmore : ∀ d ∈ c :: word, isSpace d = false := List.forall_mem_cons.mpr ⟨by simpa using hc, hword⟩
      refine ih hmore (fun _ => ⟨by simp, fun d hd => hmore d ?_⟩) w hw
      simpa [or_comm] using hd

theorem isWord_of_mem_words {s w : String} (h : w ∈ words s) : IsWord w :=
  isWord_of_mem_wordsFrom (List.forall_mem_nil _) w h

theorem wordsFrom_solid {w : List Char} (h : ∀ c ∈ w, isSpace c = false) (word rest : List Char) :
    wordsFrom word (w ++ rest) = wordsFrom (w.reverse ++ word) rest := by
  induction w generalizing word with
  | nil => rfl
  | cons c w ih =>
    rw [List.forall_mem_cons] at h
    rw [List.cons_append, wordsFrom, if_neg (by simp [h.1]), ih h.2]
    simp

theorem join_cons (w v : String) (ws : List String) : (join " " (w :: v :: ws)).toList =
    w.toList ++ ' ' :: (join " " (v :: ws)).toList := by
  rw [join, String.intercalate_cons_cons]
  simp [join]

theorem join_append (ws vs : List String) :
    ∃ rest, (join " " (ws ++ vs)).toList = (join " " ws).toList ++ rest := by
  induction ws with
  | nil => exact ⟨(join " " vs).toList, rfl⟩
  | cons w ws ih =>
    obtain ⟨rest, hrest⟩ := ih
    cases ws with
    | nil =>
      cases vs with
      | nil => exact ⟨[], by simp⟩
      | cons v vs => exact ⟨' ' :: (join " " (v :: vs)).toList, by rw [List.singleton_append, join_cons]; simp [join]⟩
    | cons v ws =>
      refine ⟨rest, ?_⟩
      rw [List.cons_append, List.cons_append, join_cons, join_cons, ← List.cons_append, hrest]
      simp

/-- Words that were put together are cut apart again. -/
theorem words_join {ws : List String} (h : ∀ w ∈ ws, IsWord w) : words (join " " ws) = ws := by
  have hword {w : String} (hw : IsWord w) : (w.toList.reverse ++ []).isEmpty = false ∧
      String.ofList (w.toList.reverse ++ []).reverse = w :=
    ⟨by simpa using hw.ne, by simp⟩
  induction ws with
  | nil => rfl
  | cons w ws ih =>
    obtain ⟨hw, hws⟩ := List.forall_mem_cons.mp h
    obtain ⟨hne, hsame⟩ := hword hw
    cases ws with
    | nil =>
      have hchars : (join " " [w]).toList = w.toList ++ [] := by simp [join]
      rw [words, hchars, wordsFrom_solid hw.solid, wordsFrom, hne, hsame]
      rfl
    | cons v ws =>
      rw [words, join_cons, wordsFrom_solid hw.solid, wordsFrom, if_pos (by decide), hne, hsame]
      exact congrArg (w :: ·) (ih hws)

end Text

namespace Edit
open Node

/-! ## One attribute set -/

section

variable {as as' : List Node} {name : String} {v old : Value Node}

/-- An attribute that was set is found with its value. -/
theorem Sets.find?_given (h : Sets as name v as' old) (hgiven : Build.isAbsent v = false) : ∃ new a,
    Build.attributeValue v = .ok new ∧ as'.find? (·.kind.isAttr name) = some a ∧ a.children = new.toList := by
  have habsurd (habsent : Build.isAbsent v = true) : False := by
    rw [hgiven] at habsent
    cases habsent
  cases h with
  | skip absent missing => exact (habsurd absent).elim
  | remove absent split named first was => exact (habsurd absent).elim
  | add given missing value => exact ⟨_, _, value, find?_of_split rfl (isAttr_iff.mpr ⟨_, rfl⟩) missing, rfl⟩
  | change given split named first was value =>
    exact ⟨_, _, value, find?_of_split rfl (by rw [kind_withChildren, named]) first, children_withChildren _ _⟩

/-- If the value that is there can be worked out, all depends on the new one. -/
theorem setAttribute_of_readable (hold : ∀ a, as.find? (·.kind.isAttr name) = some a → ∃ d, a.attributeValue = .ok d) :
    ∃ left given, setAttribute as name v =
      if Build.isAbsent v then .ok left else (Build.attributeValue v).map given := by
  cases hi : attrIndex? as name with
  | none => exact ⟨_, _, setAttribute_of_missing (attrIndex?_eq_none.mp hi)⟩
  | some i =>
    obtain ⟨left, a, right, hsplit, rfl, ha, hleft⟩ := split_of_findIdx? hi
    obtain ⟨d, hd⟩ := hold a (find?_of_split hsplit ha hleft)
    exact ⟨_, _, by rw [setAttribute_of_named hsplit ha hleft, hd]; rfl⟩

/-- All attributes of other names stay as they are. -/
theorem Sets.filter_other (h : Sets as name v as' old) :
    as'.filter (!·.kind.isAttr name) = as.filter (!·.kind.isAttr name) := by
  have hone {a : Node} (ha : a.kind.isAttr name = true) (bs : List Node) :
      (a :: bs).filter (!·.kind.isAttr name) = bs.filter (!·.kind.isAttr name) := List.filter_cons_of_neg (by simp [ha])
  cases h with
  | skip => rfl
  | @add new given missing value =>
    rw [List.filter_append, hone (isAttr_iff.mpr ⟨_, rfl⟩), List.filter_nil, List.append_nil]
  | remove absent split named first was => rw [split, List.filter_append, List.filter_append, hone named]
  | change given split named first was value =>
    rw [split, List.filter_append, List.filter_append, hone named, hone (by rw [kind_withChildren, named])]

/-- Setting an attribute makes no second one of its name. -/
theorem Sets.length_named (h : Sets as name v as' old) (hone : (as.filter (·.kind.isAttr name)).length ≤ 1) :
    (as'.filter (·.kind.isAttr name)).length ≤ 1 := by
  cases h with
  | skip => exact hone
  | @add new given missing value =>
    rw [List.filter_append, List.filter_eq_nil_iff.mpr fun a ha => by rw [missing a ha]; exact Bool.false_ne_true]
    exact List.length_filter_le _ _
  | @remove left right a old absent split named first was =>
    rw [split] at hone
    exact Nat.le_trans (((List.sublist_cons_self a right).append_left left).filter _).length_le hone
  | @change left right a old new given split named first was value =>
    have hchanged : (a.withChildren new.toList).kind.isAttr name = true := by rw [kind_withChildren, named]
    rw [split] at hone
    simpa [List.filter_cons, named, hchanged] using hone

end

/-! ## Class names and their attribute -/

/-- The value of the class attribute for class names; without any it is left out. -/
def classValue (names : List String) : Value Node := if names.isEmpty then .null else .str (Text.join " " names)

/-- At most one attribute holds class names. -/
def HasOneClass (as : List Node) : Prop := (as.filter (·.kind.isAttr classAttribute)).length ≤ 1

theorem HasOneClass.rest {left right : List Node} {a : Node} (h : HasOneClass (left ++ a :: right))
    (ha : a.kind.isAttr classAttribute = true) : ∀ x ∈ right, x.kind.isAttr classAttribute = false := by
  simp only [HasOneClass, List.filter_append, List.filter_cons, ha, if_true, List.length_append, List.length_cons] at h
  have hnone : right.filter (·.kind.isAttr classAttribute) = [] := List.length_eq_zero_iff.mp (by omega)
  exact fun x hx => by simpa using List.filter_eq_nil_iff.mp hnone x hx

section

variable {n : Node} {names : List String}

theorem isWord_of_classNames (h : classNames n = .ok (some names)) : ∀ w ∈ names, Text.IsWord w := by
  rw [classNames] at h
  split at h
  · cases h
    exact List.forall_mem_nil _
  · split at h
    · cases h
    · obtain ⟨found, -, h⟩ := bind_eq_ok h
      cases found with
      | none => cases h
      | some s =>
        cases h
        exact fun w hw => Text.isWord_of_mem_words hw

/-- An attribute that holds class names is a string. -/
theorem attributeValue_of_classNames (h : classNames n = .ok (some names)) {a : Node}
    (ha : n.attr? classAttribute = some a) : ∃ s, a.attributeValue = .ok (.str s) := by
  rw [classNames, ha] at h
  dsimp only at h
  cases hvalue : a.value? with
  | none =>
    rw [hvalue] at h
    cases h
  | some c =>
    rw [hvalue] at h
    obtain ⟨found, hfound, h⟩ := bind_eq_ok h
    cases found with
    | none => cases h
    | some s =>
      refine ⟨s, ?_⟩
      rw [attributeValue, hvalue]
      dsimp only
      rw [hfound]
      rfl

theorem classNames_of_string {a c : Node} {s : String} (ha : n.attr? classAttribute = some a) (hc : a.children = [c])
    (hs : c.kind.stringValue = .ok (some s)) : classNames n = .ok (some (Text.words s)) := by
  have hthere : c.kind.isNothing = false := by
    cases hk : c.kind with
    | foreign v =>
      rw [hk] at hs
      cases hs
    | _ => rfl
  have hvalue : a.value? = some c := by rw [value?, hc, List.head?_cons, Option.filter_some, hthere]; rfl
  rw [classNames, ha]
  dsimp only
  rw [hvalue]
  dsimp only
  rw [hs]
  rfl

/-- Class names are set like any other attribute. -/
theorem setClassNames_eq {known : List String} (h : classNames n = .ok (some known)) (names : List String) :
    setClassNames n.attributes names =
      (setAttribute n.attributes classAttribute (classValue names)).map (·.1) := by
  cases hi : attrIndex? n.attributes classAttribute with
  | none =>
    rw [setClassNames, hi, setAttribute_of_missing (attrIndex?_eq_none.mp hi)]
    cases names with
    | nil => rfl
    | cons w ws =>
      show ((Literal.attributeString (Text.join " " (w :: ws)) "\"").bind fun k =>
        .ok (n.attributes ++ [.attr classAttribute (some (.new k []))])) = Except.map _ (Except.map _ (Except.bind _ _))
      cases Literal.attributeString (Text.join " " (w :: ws)) "\"" <;> rfl
  | some i =>
    obtain ⟨left, a, right, hsplit, rfl, ha, hleft⟩ := split_of_findIdx? hi
    obtain ⟨s, hs⟩ := attributeValue_of_classNames h (find?_of_split hsplit ha hleft)
    rw [setClassNames, hi, setAttribute_of_named hsplit ha hleft, hs]
    cases names with
    | nil =>
      show Except.ok (n.attributes.eraseIdx left.length) = .ok (left ++ right)
      rw [hsplit, List.eraseIdx_append_of_length_le (Nat.le_refl _), Nat.sub_self, List.eraseIdx_cons_zero]
    | cons w ws =>
      have hmodify (f : Node → Node) : n.attributes.modify left.length f = left ++ f a :: right := by
        rw [hsplit, List.modify_eq_take_cons_drop (by simp)]
        simp
      show ((Literal.attributeString (Text.join " " (w :: ws)) "\"").bind fun k =>
        .ok (n.attributes.modify left.length (·.withChildren [.new k []]))) =
          Except.map _ (Except.map _ (Except.bind _ _))
      cases Literal.attributeString (Text.join " " (w :: ws)) "\"" with
      | error f => rfl
      | ok k => exact congrArg Except.ok (hmodify _)

/-- Attributes that differ from those of the node in the class names only, which are these. -/
structure Reclasses (n : Node) (names : List String) (as : List Node) : Prop where
  others : as.filter (!·.kind.isAttr classAttribute) = n.attributes.filter (!·.kind.isAttr classAttribute)
  one : HasOneClass n.attributes → HasOneClass as
  classes : classNames (n.withAttributes as) = .ok (some names)

theorem attributeValue_join (names : List String) : Build.attributeValue (.str (Text.join " " names) : Value Node) =
    (Literal.attributeString (Text.join " " names) "\"").map fun k => some (Node.new k []) := by
  rw [Build.attributeValue]
  cases Literal.attributeString (Text.join " " names) "\"" <;> rfl

/-- Once words are set as class names, they are the class names. Without any the attribute goes, so there should be no
second one behind it. -/
theorem reclasses_of_sets (hwords : ∀ w ∈ names, Text.IsWord w) {as : List Node} {old : Value Node}
    (h : Sets n.attributes classAttribute (classValue names) as old) (hone : names ≠ [] ∨ HasOneClass n.attributes) :
    Reclasses n names as := by
  refine ⟨h.filter_other, h.length_named, ?_⟩
  cases names with
  | nil =>
    have hnone : as.find? (·.kind.isAttr classAttribute) = none := by
      replace hone : HasOneClass n.attributes := hone.resolve_left fun hne => hne rfl
      cases h with
      | skip absent missing => exact find?_of_missing missing
      | add given missing value => cases given
      | change given split named first was value => cases given
      | @remove left right a old absent split named first was =>
        rw [split] at hone
        exact find?_of_missing fun x hx => (List.mem_append.mp hx).elim (first x) (hone.rest named x)
    rw [classNames, attr?, attributes_withAttributes, hnone]
  | cons w ws =>
    obtain ⟨new, a, hnew, ha, hchildren⟩ := h.find?_given rfl
    replace hnew : (Literal.attributeString (Text.join " " (w :: ws)) "\"").map (fun k => some (Node.new k [])) =
        .ok new := (attributeValue_join _).symm.trans hnew
    cases hk : Literal.attributeString (Text.join " " (w :: ws)) "\"" with
    | error f =>
      rw [hk] at hnew
      cases hnew
    | ok k =>
      rw [hk] at hnew
      cases hnew
      have hread := classNames_of_string (n := n.withAttributes as) (by rw [attr?, attributes_withAttributes, ha])
        hchildren (Literal.stringValue_attributeString hk)
      rwa [Text.words_join hwords] at hread

theorem classValue_of_ne (h : names ≠ []) : classValue names = .str (Text.join " " names) := by
  cases names with
  | nil => exact absurd rfl h
  | cons w ws => rfl

theorem ne_nil_of_overlong (h : Text.Overlong (Text.join " " names).toList) : names ≠ [] := by
  rintro rfl
  obtain ⟨before, after, heq, -⟩ := h
  simp [Text.join] at heq

/-- Other class names that cannot be written, since they have a decimal reference that is too long. -/
def Unwritable (names names' : List String) : Prop :=
  names' ≠ names ∧ Text.Overlong (Text.join " " names').toList

section

variable {names' : List String} (h : classNames n = .ok (some names))
include h

/-- The class names that are there do not keep others from being set. -/
theorem setAttribute_classes (names' : List String) :
    ∃ left given, setAttribute n.attributes classAttribute (classValue names') =
      if Build.isAbsent (classValue names') then .ok left else (Build.attributeValue (classValue names')).map given :=
  setAttribute_of_readable fun a ha => by
    obtain ⟨s, hs⟩ := attributeValue_of_classNames h ha
    exact ⟨_, hs⟩

theorem setClassNames_unwritable (hlong : Unwritable names names') :
    setClassNames n.attributes names' = .error .badNumber := by
  obtain ⟨left, given, hset⟩ := setAttribute_classes h names'
  rw [setClassNames_eq h, hset, classValue_of_ne (ne_nil_of_overlong hlong.2), attributeValue_join,
    (Literal.attributeString_eq_error _ _).mpr hlong.2]
  rfl

theorem setClassNames_writable (hne : names' ≠ names) (hread : ¬ Unwritable names names') : ∃ as old,
    setClassNames n.attributes names' = .ok as ∧ Sets n.attributes classAttribute (classValue names') as old := by
  obtain ⟨as, old, hset⟩ : ∃ as old, setAttribute n.attributes classAttribute (classValue names') = .ok (as, old) := by
    obtain ⟨left, given, hset⟩ := setAttribute_classes h names'
    cases names' with
    | nil => exact ⟨_, _, hset⟩
    | cons w ws =>
      obtain ⟨k, hk⟩ := Literal.attributeString_of_readable (fun hlong => hread ⟨hne, hlong⟩) "\""
      exact ⟨_, _, by rw [hset, classValue_of_ne (List.cons_ne_nil w ws), attributeValue_join, hk]; rfl⟩
  exact ⟨as, old, by rw [setClassNames_eq h, hset]; rfl, sets_of_ok hset⟩

end

end

/-! ## Class names of an element in a tree -/

/-- The edit succeeds, nothing but the class attribute of the element changes, and the element is found with these class
names. -/
structure GivesClasses (tree : Node) (id : String) (v : Visit) (names : List String) (r : Reply) : Prop where
  succeeds : r.Succeeds
  changes : ∃ as, Reclasses v.node names as ∧ r.tree = tree.set v.path (v.node.withAttributes as) ∧
    r.tree.findId id = .ok (some ⟨v.parent, v.index, v.node.withAttributes as⟩)

section

variable {tree : Node} {id message : String} {v : Visit} {names names' : List String}
  {change : List String → Option (List String)} (hget : tree.get? v.path = some v.node)
  (hv : tree.findId id = .ok (some v)) (hnames : classNames v.node = .ok (some names))
  (hchange : change names = if names' = names then none else some names')
include hnames hchange

theorem changeClassNames_eq : changeClassNames v.node change =
    if names' = names then .ok (some v.node.attributes) else (setClassNames v.node.attributes names').map some := by
  rw [changeClassNames, hnames]
  dsimp only [bind, Except.bind]
  rw [hchange]
  by_cases hsame : names' = names
  · rw [if_pos hsame, if_pos hsame]
    rfl
  · rw [if_neg hsame, if_neg hsame]
    dsimp only
    cases setClassNames v.node.attributes names' <;> rfl

include hv

theorem updateClassNames_unwritable (h : Unwritable names names') :
    updateClassNames tree id message change = .fault tree .badNumber := by
  rw [updateClassNames, hv]
  dsimp only
  rw [changeClassNames_eq hnames hchange, if_neg h.1, setClassNames_unwritable hnames h]
  rfl

theorem updateClassNames_writable (hne : names' ≠ names) (h : ¬ Unwritable names names') : ∃ as old,
    updateClassNames tree id message change = .succeeded (tree.modify (·.withAttributes as) v.path) message [] ∧
      Sets v.node.attributes classAttribute (classValue names') as old := by
  obtain ⟨as, old, hset, hsets⟩ := setClassNames_writable hnames hne h
  refine ⟨as, old, ?_, hsets⟩
  rw [updateClassNames, hv]
  dsimp only
  rw [changeClassNames_eq hnames hchange, if_neg hne, hset]
  rfl

include hget

theorem updateClassNames_gives (hwords : ∀ w ∈ names', Text.IsWord w) (h : ¬ Unwritable names names')
    (hone : names' ≠ [] ∨ names' = names ∨ HasOneClass v.node.attributes) :
    GivesClasses tree id v names' (updateClassNames tree id message change) := by
  by_cases hne : names' = names
  · subst hne
    have hsame : updateClassNames tree id message change =
        .succeeded (tree.modify (·.withAttributes v.node.attributes) v.path) message [] := by
      rw [updateClassNames, hv]
      dsimp only
      rw [changeClassNames_eq hnames hchange, if_pos rfl]
    have htree : tree.modify (·.withAttributes v.node.attributes) v.path = tree := by
      rw [modify_eq_set _ hget, withAttributes_attributes, set_self hget]
    rw [hsame, htree]
    refine ⟨Reply.succeeds_succeeded _ _ _, v.node.attributes, ⟨rfl, fun h => h, ?_⟩, ?_, ?_⟩
    · rw [withAttributes_attributes, hnames]
    · rw [withAttributes_attributes, set_self hget]
      rfl
    · rw [withAttributes_attributes]
      exact hv
  · obtain ⟨as, old, hreply, hsets⟩ := updateClassNames_writable hv hnames hchange hne h
    rw [hreply, modify_eq_set _ hget]
    have hidentity := elementIdentity_withAttributes (hsets.find?_other (show classAttribute ≠ identityName by decide))
    have helement : (v.node.withAttributes as).kind.isElement = true := by
      rw [kind_withAttributes]
      exact (findId_some hv).element
    exact ⟨Reply.succeeds_succeeded _ _ _, as,
      reclasses_of_sets hwords hsets (hone.imp_right fun h => h.resolve_left hne), rfl,
      findId_set_of_identity hv hget helement hidentity⟩

/-- Without class names the attribute that held them goes. -/
theorem updateClassNames_clears (hnil : names' = []) (hne : names ≠ []) : ∃ left a right,
    v.node.attributes = left ++ a :: right ∧ a.kind.isAttr classAttribute = true ∧
      (∀ x ∈ left, x.kind.isAttr classAttribute = false) ∧
      (updateClassNames tree id message change).Gives (tree.set v.path (v.node.withAttributes (left ++ right))) := by
  subst hnil
  have hread : ¬ Unwritable names [] := fun h => ne_nil_of_overlong h.2 rfl
  obtain ⟨as, old, hreply, hsets⟩ := updateClassNames_writable hv hnames hchange hne.symm hread
  cases hsets with
  | skip absent missing =>
    rw [classNames, attr?, find?_of_missing missing] at hnames
    cases hnames
    exact absurd rfl hne
  | add given missing value => cases given
  | change given split named first was value => cases given
  | remove absent split named first was =>
    refine ⟨_, _, _, split, named, first, ?_, ?_⟩
    · rw [hreply]
      exact Reply.succeeds_succeeded _ _ _
    · rw [hreply, ← modify_eq_set (·.withAttributes _) hget]
      rfl

end

/-- The words of a text that are no class names yet. -/
def newWords (names : List String) (s : String) : List String := (Text.words s).filter fun w => !names.contains w

/-- The class names with the words of a text that are new. -/
def classesWith (names : List String) (s : String) : List String := names ++ newWords names s

/-- The class names without the words of a text. -/
def classesWithout (names : List String) (s : String) : List String :=
  names.filter fun w => !(Text.words s).contains w

theorem isWord_classesWith {names : List String} (h : ∀ w ∈ names, Text.IsWord w) (s : String) :
    ∀ w ∈ classesWith names s, Text.IsWord w := fun w hw =>
  (List.mem_append.mp hw).elim (h w) fun hw => Text.isWord_of_mem_words (List.mem_of_mem_filter hw)

theorem isWord_classesWithout {names : List String} (h : ∀ w ∈ names, Text.IsWord w) (s : String) :
    ∀ w ∈ classesWithout names s, Text.IsWord w := fun w hw => h w (List.mem_of_mem_filter hw)

theorem change_add (names : List String) (s : String) :
    (let new := (Text.words s).filter fun w => !names.contains w
      if new.isEmpty then none else some (names ++ new)) =
      if classesWith names s = names then none else some (classesWith names s) := by
  simp [classesWith, newWords]

theorem change_remove (names : List String) (s : String) :
    (let gone := Text.words s
      if gone.any names.contains then some (names.filter fun w => !gone.contains w) else none) =
      if classesWithout names s = names then none else some (classesWithout names s) := by
  have hiff : (Text.words s).any names.contains = true ↔ classesWithout names s ≠ names := by
    rw [classesWithout, Ne, List.filter_eq_self]
    simp [and_comm]
  dsimp only
  by_cases h : classesWithout names s = names
  · rw [if_neg (fun hany => hiff.mp hany h), if_pos h]
  · rw [if_pos (hiff.mpr h), if_neg h]
    rfl

theorem mem_classesWith (names : List String) {s w : String} (h : w ∈ Text.words s) : w ∈ classesWith names s := by
  by_cases hw : w ∈ names
  · exact List.mem_append_left _ hw
  · exact List.mem_append_right _ (List.mem_filter.mpr ⟨h, by simpa using hw⟩)

theorem not_mem_classesWithout (names : List String) {s w : String} (h : w ∈ Text.words s) :
    w ∉ classesWithout names s := fun hw => by
  have hnot := List.of_mem_filter hw
  simp [h] at hnot

/-- Words that were all new are gone after their removal, and nothing else is. -/
theorem classesWithout_classesWith {names : List String} {s : String} (h : ∀ w ∈ Text.words s, w ∉ names) :
    classesWithout (classesWith names s) s = names := by
  have hold : names.filter (fun w => !(Text.words s).contains w) = names :=
    List.filter_eq_self.mpr fun w hw => by simpa using fun hs => h w hs hw
  have hnew : (newWords names s).filter (fun w => !(Text.words s).contains w) = [] :=
    List.filter_eq_nil_iff.mpr fun w hw => by simp [List.mem_of_mem_filter hw]
  rw [classesWithout, classesWith, List.filter_append, hold, hnew, List.append_nil]

/-- Class names that could be written together with others can be written alone. -/
theorem writable_of_classesWith {names : List String} {s : String} (h : ¬ Unwritable names (classesWith names s)) :
    ¬ Unwritable (classesWith names s) names := by
  rintro ⟨hne, hlong⟩
  obtain ⟨rest, hrest⟩ := Text.join_append names (newWords names s)
  exact h ⟨hne.symm, by rw [classesWith, hrest]; exact Text.Overlong.append hlong rest⟩

section

variable {tree : Node} {id : String} {v : Visit} {names : List String} (hget : tree.get? v.path = some v.node)
  (hv : tree.findId id = .ok (some v)) (hnames : classNames v.node = .ok (some names)) (s : String)
include hv hnames

theorem addClassName_unwritable (h : Unwritable names (classesWith names s)) :
    addClassName tree id s = .fault tree .badNumber :=
  updateClassNames_unwritable hv hnames (change_add names s) h

theorem removeClassName_unwritable (h : Unwritable names (classesWithout names s)) :
    removeClassName tree id s = .fault tree .badNumber :=
  updateClassNames_unwritable hv hnames (change_remove names s) h

include hget

theorem addClassName_gives (h : ¬ Unwritable names (classesWith names s)) :
    GivesClasses tree id v (classesWith names s) (addClassName tree id s) := by
  refine updateClassNames_gives hget hv hnames (change_add names s) (isWord_classesWith (isWord_of_classNames hnames) s) h ?_
  by_cases hnil : classesWith names s = []
  · have hboth : names = [] := List.append_eq_nil_iff.mp hnil |>.1
    exact .inr (.inl (hnil.trans hboth.symm))
  · exact .inl hnil

theorem removeClassName_gives (h : ¬ Unwritable names (classesWithout names s))
    (hone : classesWithout names s ≠ [] ∨ classesWithout names s = names ∨ HasOneClass v.node.attributes) :
    GivesClasses tree id v (classesWithout names s) (removeClassName tree id s) :=
  updateClassNames_gives hget hv hnames (change_remove names s) (isWord_classesWithout (isWord_of_classNames hnames) s) h
    hone

theorem removeClassName_clears (hnil : classesWithout names s = []) (hne : names ≠ []) : ∃ left a right,
    v.node.attributes = left ++ a :: right ∧ a.kind.isAttr classAttribute = true ∧
      (∀ x ∈ left, x.kind.isAttr classAttribute = false) ∧
      (removeClassName tree id s).Gives (tree.set v.path (v.node.withAttributes (left ++ right))) :=
  updateClassNames_clears hget hv hnames (change_remove names s) hnil hne

/-- Adding class names again changes nothing. -/
theorem addClassName_again : (addClassName (addClassName tree id s).tree id s).tree = (addClassName tree id s).tree := by
  by_cases h : Unwritable names (classesWith names s)
  · have hfault := addClassName_unwritable hv hnames s h
    rw [hfault]
    exact congrArg Reply.tree hfault
  · obtain ⟨-, as, hclasses, htree, hfound⟩ := addClassName_gives hget hv hnames s h
    refine addClassName_of_present (htree ▸ get?_set_child hget _) hfound fun found hnames' w hw => ?_
    rw [hclasses.classes] at hnames'
    cases hnames'
    exact mem_classesWith names hw

/-- Removing class names again changes nothing, unless the attribute went and there is another one behind it. -/
theorem removeClassName_again (hone : classesWithout names s ≠ [] ∨ names = [] ∨ HasOneClass v.node.attributes) :
    (removeClassName (removeClassName tree id s).tree id s).tree = (removeClassName tree id s).tree := by
  by_cases h : Unwritable names (classesWithout names s)
  · have hfault := removeClassName_unwritable hv hnames s h
    rw [hfault]
    exact congrArg Reply.tree hfault
  · have hkept : names = [] → classesWithout names s = names := by
      rintro rfl
      rfl
    obtain ⟨-, as, hclasses, htree, hfound⟩ :=
      removeClassName_gives hget hv hnames s h (hone.imp_right (Or.imp_left hkept))
    refine removeClassName_of_missing (htree ▸ get?_set_child hget _) hfound fun found hnames' w hw => ?_
    rw [hclasses.classes] at hnames'
    cases hnames'
    exact not_mem_classesWithout names hw

/-- New class names are taken back by their removal. -/
theorem removeClassName_added (hnew : ∀ w ∈ Text.words s, w ∉ names) (h : ¬ Unwritable names (classesWith names s))
    (hone : names ≠ [] ∨ HasOneClass v.node.attributes) :
    GivesClasses tree id v names (removeClassName (addClassName tree id s).tree id s) := by
  obtain ⟨-, as, hclasses, htree, hfound⟩ := addClassName_gives hget hv hnames s h
  have hback := classesWithout_classesWith hnew
  obtain ⟨hsucceeds, as', hclasses', htree', hfound'⟩ :=
    removeClassName_gives (htree ▸ get?_set_child hget _) hfound hclasses.classes s
      (by rw [hback]; exact writable_of_classesWith h)
      (by rw [hback]; exact hone.imp_right fun hone => .inr (by rw [attributes_withAttributes]; exact hclasses.one hone))
  rw [hback] at hclasses'
  rw [withAttributes_withAttributes] at htree' hfound'
  refine ⟨hsucceeds, as', ⟨?_, fun hone => ?_, ?_⟩, ?_, hfound'⟩
  · rw [hclasses'.others, attributes_withAttributes, hclasses.others]
  · exact hclasses'.one (by rw [attributes_withAttributes]; exact hclasses.one hone)
  · have hread := hclasses'.classes
    rwa [withAttributes_withAttributes] at hread
  · rw [htree', htree]
    exact set_set _ _ _ _

end

/-- Distinct class names stay distinct exactly if no new word is repeated. -/
theorem nodup_classesWith {names : List String} {s : String} (h : names.Nodup) :
    (classesWith names s).Nodup ↔ (newWords names s).Nodup := by
  refine ⟨fun hall => (List.nodup_append.mp hall).2.1, fun hnew => List.nodup_append.mpr ⟨h, hnew, ?_⟩⟩
  rintro w hw x hx rfl
  simpa [hw] using List.of_mem_filter hx

/-- The class names of an element are a list of words. Adding a text puts its words that are new behind them, as often as
they stand in the text, so that the words stay distinct exactly if none of the new ones is repeated. Removing a text takes
all its words away, and with the last class name the attribute goes; if there is another class attribute behind it, that
one comes forward. Both change nothing else and do nothing when they are done again, unless another class attribute has
come forward, and a removal takes back the addition of new words. Class names that cannot be written are a fault, which
leaves the tree as it is. -/
theorem class_names_as_words {tree : Node} {id : String} {v : Visit} {names : List String} (htree : tree.KeepsAttributes)
    (hv : tree.findId id = .ok (some v)) (hnames : classNames v.node = .ok (some names)) (s : String) :
    (Unwritable names (classesWith names s) → addClassName tree id s = .fault tree .badNumber) ∧
    (¬ Unwritable names (classesWith names s) →
      GivesClasses tree id v (classesWith names s) (addClassName tree id s)) ∧
    (names.Nodup → ((classesWith names s).Nodup ↔ (newWords names s).Nodup)) ∧
    (Unwritable names (classesWithout names s) → removeClassName tree id s = .fault tree .badNumber) ∧
    (¬ Unwritable names (classesWithout names s) → (removeClassName tree id s).Succeeds) ∧
    (¬ Unwritable names (classesWithout names s) →
      classesWithout names s ≠ [] ∨ classesWithout names s = names ∨ HasOneClass v.node.attributes →
      GivesClasses tree id v (classesWithout names s) (removeClassName tree id s)) ∧
    (classesWithout names s = [] → names ≠ [] → ∃ left a right,
      v.node.attributes = left ++ a :: right ∧ a.kind.isAttr classAttribute = true ∧
      (∀ x ∈ left, x.kind.isAttr classAttribute = false) ∧
      (HasOneClass v.node.attributes → ∀ x ∈ right, x.kind.isAttr classAttribute = false) ∧
      (removeClassName tree id s).Gives (tree.set v.path (v.node.withAttributes (left ++ right))) ∧
      (v.node.withAttributes (left ++ right)).attr? classAttribute = right.find? (·.kind.isAttr classAttribute)) ∧
    (addClassName (addClassName tree id s).tree id s).tree = (addClassName tree id s).tree ∧
    (classesWithout names s ≠ [] ∨ names = [] ∨ HasOneClass v.node.attributes →
      (removeClassName (removeClassName tree id s).tree id s).tree = (removeClassName tree id s).tree) ∧
    ((∀ w ∈ Text.words s, w ∉ names) → ¬ Unwritable names (classesWith names s) →
      names ≠ [] ∨ HasOneClass v.node.attributes →
      GivesClasses tree id v names (removeClassName (addClassName tree id s).tree id s)) := by
  have hget := htree.get?_visit (findId_some hv).mem
  refine ⟨addClassName_unwritable hv hnames s, addClassName_gives hget hv hnames s, nodup_classesWith,
    removeClassName_unwritable hv hnames s, fun h => ?_, removeClassName_gives hget hv hnames s, fun hnil hne => ?_,
    addClassName_again hget hv hnames s, removeClassName_again hget hv hnames s, removeClassName_added hget hv hnames s⟩
  · by_cases hcleared : classesWithout names s = [] ∧ names ≠ []
    · obtain ⟨_, _, _, -, -, -, hgives⟩ := removeClassName_clears hget hv hnames s hcleared.1 hcleared.2
      exact hgives.1
    · refine (removeClassName_gives hget hv hnames s h ?_).succeeds
      by_cases hnil : classesWithout names s = []
      · exact .inr (.inl (hnil.trans (not_not.mp fun hne => hcleared ⟨hnil, Ne.symm hne⟩)))
      · exact .inl hnil
  · obtain ⟨left, a, right, hsplit, ha, hleft, hgives⟩ := removeClassName_clears hget hv hnames s hnil hne
    refine ⟨left, a, right, hsplit, ha, hleft, fun hone => (hsplit ▸ hone : HasOneClass _).rest ha, hgives, ?_⟩
    rw [attr?, attributes_withAttributes, List.find?_append, find?_of_missing hleft, Option.none_or]

/-- An element with two class names. -/
def classed : String := "<p data-editable=\"p\" className=\"a b\">Hi</p>"

theorem classed_gets_more : ∃ tree v, Source.parse classed = .ok tree ∧ tree.findId "p" = .ok (some v) ∧
    classNames v.node = .ok (some ["a", "b"]) ∧ newWords ["a", "b"] "b x c& x" = ["x", "c&", "x"] ∧
    GivesClasses tree "p" v ["a", "b", "x", "c&", "x"] (addClassName tree "p" "b x c& x") ∧
    (addClassName tree "p" "b x c& x").tree.write = "<p data-editable=\"p\" className=\"a b x c& x\">Hi</p>" := by
  obtain ⟨tree, v, hparse, hv, hrun⟩ : ∃ tree v, Source.parse classed = .ok tree ∧ tree.findId "p" = .ok (some v) ∧
      decide ((classNames v.node).toOption = some (some ["a", "b"]) ∧ (addClassName tree "p" "b x c& x").tree.write =
        "<p data-editable=\"p\" className=\"a b x c& x\">Hi</p>") = true :=
    exists_found (by decide +kernel)
  obtain ⟨hclass, hwrite⟩ := of_decide_eq_true hrun
  have hnames : classNames v.node = .ok (some ["a", "b"]) := eq_ok_of_toOption hclass
  have hwritable : ¬ Unwritable ["a", "b"] (classesWith ["a", "b"] "b x c& x") := by
    rintro ⟨-, hlong⟩
    rw [← Text.decodeFrom_eq_none] at hlong
    revert hlong
    decide +kernel
  obtain ⟨-, hadd, -⟩ := class_names_as_words (Source.keepsAttributes_parse hparse) hv hnames "b x c& x"
  exact ⟨tree, v, hparse, hv, hnames, by decide +kernel, hadd hwritable, hwrite⟩

/-- An element with two class attributes. -/
def classedTwice : String := "<p data-editable=\"p\" className=\"a\" className=\"b\"/>"

/-- With the only class name of the first attribute gone, the class names are those of the second. -/
theorem classedTwice_keeps_second : ∃ tree v, Source.parse classedTwice = .ok tree ∧
    tree.findId "p" = .ok (some v) ∧ classNames v.node = .ok (some ["a"]) ∧
    (removeClassName tree "p" "a").tree.write = "<p data-editable=\"p\" className=\"b\"/>" := by
  obtain ⟨tree, v, hparse, hv, hrun⟩ : ∃ tree v, Source.parse classedTwice = .ok tree ∧
      tree.findId "p" = .ok (some v) ∧ decide ((classNames v.node).toOption = some (some ["a"]) ∧
        (removeClassName tree "p" "a").tree.write = "<p data-editable=\"p\" className=\"b\"/>") = true :=
    exists_found (by decide +kernel)
  obtain ⟨hclass, hwrite⟩ := of_decide_eq_true hrun
  exact ⟨tree, v, hparse, hv, eq_ok_of_toOption hclass, hwrite⟩

/-- An element without class names. -/
def unclassed : String := "<p data-editable=\"p\">Hi</p>"

/-- A single new class name that cannot be added. -/
theorem unclassed_stays : ∃ tree v, Source.parse unclassed = .ok tree ∧ tree.findId "p" = .ok (some v) ∧
    classNames v.node = .ok (some []) ∧ Text.words longReference = [longReference] ∧
    ¬ (addClassName tree "p" longReference).Succeeds := by
  obtain ⟨tree, v, hparse, hv, hrun⟩ : ∃ tree v, Source.parse unclassed = .ok tree ∧ tree.findId "p" = .ok (some v) ∧
      decide ((classNames v.node).toOption = some (some [])) = true :=
    exists_found (by decide +kernel)
  have hnames : classNames v.node = .ok (some []) := eq_ok_of_toOption (of_decide_eq_true hrun)
  have hwords : Text.words longReference = [longReference] := by
    have hword : ∀ w ∈ [longReference], Text.IsWord w := by
      rw [List.forall_mem_singleton, longReference]
      refine ⟨by simp, fun c hc => ?_⟩
      simp only [String.toList_ofList, List.mem_cons, List.mem_append, List.mem_replicate, List.not_mem_nil,
        or_false] at hc
      rcases hc with rfl | rfl | ⟨-, rfl⟩ | rfl <;> decide
    simpa [Text.join] using Text.words_join hword
  refine ⟨tree, v, hparse, hv, hnames, hwords, ?_⟩
  have hlong : Unwritable [] (classesWith [] longReference) := by
    have hwith : classesWith [] longReference = [longReference] := by simp [classesWith, newWords, hwords]
    rw [hwith]
    refine ⟨List.cons_ne_nil _ _, ?_⟩
    simpa [Text.join] using Text.overlong_longReference
  rw [addClassName_unwritable hv hnames longReference hlong]
  rintro ⟨o, ho, -⟩
  cases ho

end Edit
end JsxEdit
