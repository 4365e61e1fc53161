import JsxEdit.Build
import JsxEdit.Indent
import JsxEdit.Node.Copy
import JsxEdit.Proofs.Tree

/-
Counting over the elements of a tree.

What an element adds to a count depends on its attributes alone: on their names, and on the texts of their values.
So a change of markup below an element does not change what the element adds, even if the change is made in its
attribute list, and a count over a changed tree is the old one with the changed node exchanged.
-/
set_option autoImplicit false

namespace JsxEdit.Node

/-- The name of an attribute, with the text its value stands for. -/
abbrev Entry := String × Except Fault (Option String)

/-- The text of the first node of a list, if that is a string. -/
def firstText (ns : List Node) : Except Fault (Option String) := ns.head?.elim (.ok none) (·.kind.stringValue)

/-- The entry of an attribute; other nodes have none. -/
def entryOf? (a : Node) : Option Entry :=
  match a.kind with
  | .attr name _ => some (name, firstText a.children)
  | _ => none

/-- The entries of a list of attributes. -/
def entriesOf (as : List Node) : List Entry := as.filterMap entryOf?

/-- What a node adds to a count: elements add something by their entries, other nodes nothing. -/
def own (g : List Entry → Nat) (n : Node) : Nat := if n.kind.isElement then g (entriesOf n.attributes) else 0

/-- The count over the nodes of a list, without those below them. -/
def tally (g : List Entry → Nat) : List Node → Nat
  | [] => 0
  | n :: ns => own g n + tally g ns

/-- The count over the nodes of a list and all nodes below them. -/
def total (g : List Entry → Nat) (ns : List Node) : Nat := tally g (within ns)

variable (g : List Entry → Nat)

/-! ## Counts of lists -/

theorem tally_append (ns ms : List Node) : tally g (ns ++ ms) = tally g ns + tally g ms := by
  induction ns with
  | nil => exact (Nat.zero_add _).symm
  | cons n ns ih => rw [List.cons_append, tally, tally, ih, Nat.add_assoc]

@[simp] theorem total_nil : total g [] = 0 := rfl

theorem total_append (ns ms : List Node) : total g (ns ++ ms) = total g ns + total g ms := by
  rw [total, within_append, tally_append]
  rfl

theorem total_cons (n : Node) (ns : List Node) : total g (n :: ns) = total g [n] + total g ns :=
  total_append g [n] ns

theorem total_singleton (n : Node) :
    total g [n] = own g n + total g n.attributes + total g n.children := by
  rw [total, within_singleton, tally, under_eq, tally_append, Nat.add_assoc]
  rfl

theorem own_of_not_element {n : Node} (h : n.kind.isElement = false) : own g n = 0 := by
  rw [own, h]
  rfl

theorem own_congr {n m : Node} (hk : n.kind.isElement = m.kind.isElement)
    (ha : entriesOf n.attributes = entriesOf m.attributes) : own g n = own g m := by
  rw [own, own, hk, ha]

/-- What is below a document is all that counts. -/
theorem total_under {n : Node} (h : n.kind.isElement = false) : tally g n.under = total g [n] := by
  rw [total, within_singleton, tally, own_of_not_element g h, Nat.zero_add]

theorem total_le_of_sublist {ns ms : List Node} (h : List.Sublist ns ms) : total g ns ≤ total g ms := by
  induction h with
  | slnil => exact Nat.le_refl _
  | @cons ns ms n _ ih =>
    rw [total_cons g n ms]
    omega
  | @cons_cons ns ms n _ ih =>
    rw [total_cons g n ns, total_cons g n ms]
    omega

theorem total_perm {ns ms : List Node} (h : ns.Perm ms) : total g ns = total g ms := by
  induction h with
  | nil => rfl
  | cons n _ ih => rw [total_cons, ih, ← total_cons]
  | swap n m ns =>
    rw [total_cons g m, total_cons g n, total_cons g n (m :: ns), total_cons g m ns]
    omega
  | trans _ _ ih ih' => rw [ih, ih']

theorem total_of_mem {n : Node} {ns : List Node} (h : n ∈ ns) : total g [n] ≤ total g ns :=
  total_le_of_sublist g (List.singleton_sublist.mpr h)

/-- Changing one item of a list exchanges its part of the count. -/
theorem total_listModify (f : Node → Node) {ns : List Node} {i : Nat} {n : Node} (h : ns[i]? = some n) :
    total g (ns.modify i f) + total g [n] = total g ns + total g [f n] := by
  induction ns generalizing i with
  | nil => cases h
  | cons m ns ih =>
    cases i with
    | zero =>
      cases h
      rw [List.modify_zero_cons, total_cons g (f n) ns, total_cons g n ns]
      omega
    | succ i =>
      have := ih h
      rw [List.modify_succ_cons, total_cons g m (ns.modify i f), total_cons g m ns]
      omega

/-! ## Changes below an element -/

theorem stringValue_of_markup {k : Kind} (h : k.isMarkup = true) : k.stringValue = .ok none := by
  cases k <;> first | rfl | cases h

theorem entryOf?_of_markup {a : Node} (h : a.kind.isMarkup = true) : a.entryOf? = none := by
  rw [entryOf?]
  split
  · next hk =>
    rw [hk] at h
    cases h
  · rfl

theorem isMarkup_of_isElement {k : Kind} (h : k.isElement = true) : k.isMarkup = true := by
  cases k <;> first | rfl | cases h

/-- An entry is known from the kind of the node and the text of its first child. -/
theorem entryOf?_congr {a b : Node} (hk : a.kind = b.kind) (ht : firstText a.children = firstText b.children) :
    a.entryOf? = b.entryOf? := by
  rw [entryOf?, entryOf?, hk, ht]

section Change

variable {f : Node → Node} {m : Node} (hm : m.kind.isMarkup = true) (hf : (f m).kind.isMarkup = true)
include hm hf

/-- Exchanging markup for markup changes no text. -/
theorem stringValue_modify {p : Path} {n : Node} (h : n.get? p = some m) :
    (n.modify f p).kind.stringValue = n.kind.stringValue := by
  cases p with
  | nil =>
    cases h
    rw [modify_nil, stringValue_of_markup hm, stringValue_of_markup hf]
  | cons step p => rw [kind_modify f (List.cons_ne_nil step p)]

theorem firstText_modify {p : Path} {ns : List Node} {i : Nat} {c : Node} (hc : ns[i]? = some c)
    (h : c.get? p = some m) : firstText (ns.modify i (modify f p)) = firstText ns := by
  cases ns with
  | nil => cases hc
  | cons n ns =>
    cases i with
    | zero =>
      cases hc
      exact stringValue_modify hm hf h
    | succ i => rfl

theorem entryOf?_modify {p : Path} {a : Node} (h : a.get? p = some m) : (a.modify f p).entryOf? = a.entryOf? := by
  cases p with
  | nil =>
    cases h
    rw [modify_nil, entryOf?_of_markup hm, entryOf?_of_markup hf]
  | cons step p =>
    cases step with
    | child i =>
      rw [get?_child, Option.bind_eq_some_iff] at h
      obtain ⟨c, hc, h⟩ := h
      rw [modify_child]
      refine entryOf?_congr (kind_withChildren _ _) ?_
      rw [children_withChildren]
      exact firstText_modify hm hf hc h
    | attributes =>
      rw [get?_attributes] at h
      split at h
      · next he =>
        rw [modify_attributes, if_pos he, entryOf?_of_markup (isMarkup_of_isElement he), entryOf?_of_markup]
        rw [kind_withAttributes]
        exact isMarkup_of_isElement he
      · cases h

theorem entries_modify {p : Path} {as : List Node} {i : Nat} {a : Node} (ha : as[i]? = some a)
    (h : a.get? p = some m) : entriesOf (as.modify i (modify f p)) = entriesOf as := by
  induction as generalizing i with
  | nil => cases ha
  | cons b as ih =>
    cases i with
    | zero =>
      cases ha
      rw [List.modify_zero_cons, entriesOf, List.filterMap_cons, entryOf?_modify hm hf h, ← List.filterMap_cons]
      rfl
    | succ i =>
      have := ih ha
      rw [List.modify_succ_cons, entriesOf, List.filterMap_cons, ← entriesOf, this]
      rfl

/-- A count over a tree with markup exchanged for other markup. -/
theorem total_modify {p : Path} {tree : Node} (h : tree.get? p = some m) :
    total g [tree.modify f p] + total g [m] = total g [tree] + total g [f m] := by
  induction p generalizing tree with
  | nil =>
    cases h
    rw [modify_nil, Nat.add_comm]
  | cons step p ih =>
    cases step with
    | child i =>
      rw [get?_child, Option.bind_eq_some_iff] at h
      obtain ⟨c, hc, h⟩ := h
      have hlist := total_listModify g (modify f p) hc
      have := ih h
      have hown : own g (tree.modify f (.child i :: p)) = own g tree := by
        refine own_congr g ?_ ?_
        · rw [kind_modify f (List.cons_ne_nil _ _)]
        · rw [modify_child, attributes_withChildren]
      rw [total_singleton g (tree.modify f (.child i :: p)), hown, total_singleton g tree, modify_child,
        attributes_withChildren, children_withChildren]
      omega
    | attributes =>
      rw [get?_attributes] at h
      split at h
      · next he =>
        cases p with
        | nil =>
          cases h
          cases hm
        | cons step p =>
          cases step with
          | child i =>
            have := ih h
            rw [get?_child, Option.bind_eq_some_iff] at h
            obtain ⟨a, ha, h⟩ := h
            have hown : own g (tree.modify f (.attributes :: .child i :: p)) = own g tree := by
              refine own_congr g ?_ ?_
              · rw [kind_modify f (List.cons_ne_nil _ _)]
              · rw [modify_attributes, if_pos he, attributes_withAttributes]
                exact entries_modify hm hf ha h
            rw [modify_attributeList f (List.cons_ne_nil _ _), total_singleton g (new _ _),
              own_of_not_element g (by rfl), total_singleton g tree.attributeList,
              own_of_not_element g (by rfl), children_new, attributes_new, children_attributeList] at this
            rw [total_singleton g (tree.modify f _), hown, total_singleton g tree, modify_attributes, if_pos he,
              attributes_withAttributes, children_withAttributes]
            simp only [attributeList, attributes_new, total_nil] at this ⊢
            omega
          | attributes => cases h
      · cases h

end Change

/-! ## Nodes that are changed as a whole -/

theorem total_withKind {k : Kind} {n : Node} (h : k.isElement = n.kind.isElement) :
    total g [n.withKind k] = total g [n] := by
  have hown : own g (n.withKind k) = own g n :=
    own_congr g (by rw [kind_withKind, h]) (by rw [attributes_withKind])
  rw [total_singleton, total_singleton, hown, attributes_withKind, children_withKind]

theorem total_withMark (mark : Option Nat) (n : Node) : total g [n.withMark mark] = total g [n] := by
  have hown : own g (n.withMark mark) = own g n :=
    own_congr g (by rw [kind_withMark]) (by rw [attributes_withMark])
  rw [total_singleton, total_singleton, hown, attributes_withMark, children_withMark]

/-- Other children exchange the part of the count that is theirs. -/
theorem total_withChildren (cs : List Node) (n : Node) :
    total g [n.withChildren cs] + total g n.children = total g [n] + total g cs := by
  have hown : own g (n.withChildren cs) = own g n :=
    own_congr g (by rw [kind_withChildren]) (by rw [attributes_withChildren])
  rw [total_singleton g (n.withChildren cs), total_singleton g n, hown, attributes_withChildren,
    children_withChildren]
  omega

theorem total_opened (n : Node) : total g [n.opened] = total g [n] := by
  rw [opened]
  split
  · next h => exact total_withKind g (by rw [h]; rfl)
  · rfl

theorem children_opened (n : Node) : n.opened.children = n.children := by
  rw [opened]
  split
  · exact children_withKind _ _
  · rfl

theorem isMarkup_opened {n : Node} : n.opened.kind.isMarkup = n.kind.isMarkup := by
  rw [opened]
  split
  · next h =>
    rw [kind_withKind, h]
    rfl
  · rfl

theorem attributes_opened (n : Node) : n.opened.attributes = n.attributes := by
  rw [opened]
  split
  · exact attributes_withKind _ _
  · rfl

theorem isElement_opened {n : Node} : n.opened.kind.isElement = n.kind.isElement := by
  rw [opened]
  split
  · next h =>
    rw [kind_withKind, h]
    rfl
  · rfl

theorem total_closed (n : Node) : total g [n.closed] = total g [n] := by
  rw [closed]
  split
  · next h =>
    split
    · exact total_withKind g (by rw [h]; rfl)
    · rfl
  · rfl

theorem isMarkup_closed {n : Node} : n.closed.kind.isMarkup = n.kind.isMarkup := by
  rw [closed]
  split
  · next h =>
    split
    · rw [kind_withKind, h]
      rfl
    · rfl
  · rfl

/-! ## Texts and expressions -/

/-- A new node that is no element counts as its children do. -/
theorem total_new {k : Kind} (h : k.isElement = false) (cs : List Node) : total g [new k cs] = total g cs := by
  have hown : own g (new k cs) = 0 := own_of_not_element g h
  rw [total_singleton, hown, attributes_new, children_new, total_nil, Nat.zero_add]

@[simp] theorem total_text (s : String) : total g [text s] = 0 := total_new g rfl []

theorem total_slot (e : Node) : total g [slot e] = total g [e] := total_new g rfl [e]

theorem total_attr (name : String) (value : Option Node) : total g [attr name value] = total g value.toList :=
  total_new g rfl _

@[simp] theorem total_buildText (s : String) : total g [Build.text s] = 0 := by
  rw [Build.text]
  split
  · rw [total_slot]
    exact total_new g rfl []
  · exact total_text g s

theorem kind?_not_element {s : String} {k : Kind} (h : Expression.kind? s = some k) : k.isElement = false := by
  unfold Expression.kind? at h
  dsimp only at h
  repeat' split at h
  all_goals cases h
  all_goals rfl

theorem total_ofText (s : String) : total g [Expression.ofText s] = 0 := by
  unfold Expression.ofText
  dsimp only
  split
  · next h => exact total_new g (kind?_not_element h) []
  · rw [Expression.script, total_new g rfl]
    exact total_new g rfl []

/-! ## White space -/

theorem total_prepend (n : Node) (ns : List Node) : total g (prepend n ns) ≤ total g (n :: ns) := by
  unfold prepend
  split
  · exact Nat.le_refl _
  · next m ms =>
    split
    · next s t hs ht =>
      split
      · have hk : total g [n.withKind (.text (Whitespace.heavier s t))] = total g [n] :=
          total_withKind g (by rw [hs]; rfl)
        rw [total_cons g (n.withKind _) ms, total_cons g n (m :: ms), total_cons g m ms, hk]
        omega
      · exact Nat.le_refl _
    · exact Nat.le_refl _

theorem total_mergeWhitespace (ns : List Node) : total g (mergeWhitespace ns) ≤ total g ns := by
  induction ns with
  | nil => exact Nat.le_refl _
  | cons n ns ih =>
    have := total_prepend g n (mergeWhitespace ns)
    rw [total_cons g n (mergeWhitespace ns)] at this
    rw [total_cons g n ns]
    exact Nat.le_trans this (Nat.add_le_add_left ih _)

/-! ## Copies -/

theorem isElement_copied (b : Bool) (k : Kind) : (k.copied b).isElement = k.isElement := by cases k <;> rfl

theorem stringValue_copied (b : Bool) (k : Kind) : (k.copied b).stringValue = k.stringValue := by cases k <;> rfl

theorem firstText_copyAll (ns : List Node) : firstText (copyAll ns) = firstText ns := by
  cases ns with
  | nil => rfl
  | cons n ns =>
    cases n
    exact stringValue_copied _ _

theorem entryOf?_copy (a : Node) : a.copy.entryOf? = a.entryOf? := by
  cases a with
  | mk k i as cs =>
    cases k with
    | attr name space =>
      refine entryOf?_congr rfl ?_
      exact firstText_copyAll cs
    | _ => rfl

theorem entries_copyAll (as : List Node) : entriesOf (copyAll as) = entriesOf as := by
  induction as with
  | nil => rfl
  | cons a as ih =>
    rw [copyAll, entriesOf, List.filterMap_cons, entryOf?_copy, ← entriesOf, ih]
    rfl

mutual

/-- A copy has the elements of what is copied, without those below string literals. -/
theorem total_copy : (n : Node) → total g [n.copy] ≤ total g [n]
  | .mk k i as cs => by
    have has := total_copyAll as
    have hcs := total_copyAll cs
    have hown : own g (copy (.mk k i as cs)) = own g (.mk k i as cs) :=
      own_congr g (isElement_copied _ _) (entries_copyAll as)
    rw [total_singleton g (copy _), hown, total_singleton g (.mk k i as cs)]
    rw [copy, attributes_mk, children_mk, attributes_mk, children_mk]
    split
    · rw [total_nil]
      omega
    · omega

theorem total_copyAll : (ns : List Node) → total g (copyAll ns) ≤ total g ns
  | [] => Nat.le_refl _
  | n :: ns => by
    rw [copyAll, total_cons g n.copy, total_cons g n ns]
    exact Nat.add_le_add (total_copy n) (total_copyAll ns)

end

/-! ## Indentation -/

theorem isElement_reindentKind (s : String) (k : Kind) : (Indent.reindentKind s k).isElement = k.isElement := by
  cases k with
  | text t =>
    unfold Indent.reindentKind
    dsimp only
    split <;> rfl
  | _ => rfl

theorem stringValue_reindentKind (s : String) (k : Kind) :
    (Indent.reindentKind s k).stringValue = k.stringValue := by
  cases k with
  | text t =>
    unfold Indent.reindentKind
    dsimp only
    split <;> rfl
  | _ => rfl

theorem firstText_reindentAll (s : String) (ns : List Node) : firstText (Indent.reindentAll s ns) = firstText ns := by
  cases ns with
  | nil => rfl
  | cons n ns =>
    have := stringValue_reindentKind s n.kind
    rw [Indent.reindentAll, firstText, firstText]
    simpa using this

theorem entryOf?_reindent (s : String) (a : Node) :
    ((Indent.reindent s a).withKind (Indent.reindentKind s a.kind)).entryOf? = a.entryOf? := by
  cases a with
  | mk k i as cs =>
    cases k with
    | attr name space =>
      refine entryOf?_congr rfl ?_
      exact firstText_reindentAll s cs
    | text t =>
      rw [kind_mk, Indent.reindentKind]
      split <;> rfl
    | _ => rfl

theorem entries_reindentAll (s : String) (as : List Node) : entriesOf (Indent.reindentAll s as) = entriesOf as := by
  induction as with
  | nil => rfl
  | cons a as ih =>
    rw [Indent.reindentAll, entriesOf, List.filterMap_cons, entryOf?_reindent, ← entriesOf, ih]
    rfl

mutual

/-- Indentation changes no element. -/
theorem total_reindent (s : String) : (n : Node) → total g [Indent.reindent s n] = total g [n]
  | .mk k i as cs => by
    have hown : own g (Indent.reindent s (.mk k i as cs)) = own g (.mk k i as cs) :=
      own_congr g rfl (entries_reindentAll s as)
    rw [total_singleton g (Indent.reindent s _), hown, total_singleton g (.mk k i as cs)]
    rw [Indent.reindent, attributes_mk, children_mk, attributes_mk, children_mk, total_reindentAll s as,
      total_reindentAll s cs]

theorem total_reindentAll (s : String) : (ns : List Node) → total g (Indent.reindentAll s ns) = total g ns
  | [] => rfl
  | n :: ns => by
    have hk : (Indent.reindent s n).kind = n.kind := by cases n; rfl
    rw [Indent.reindentAll, total_cons g ((Indent.reindent s n).withKind _), total_reindentAll s ns,
      total_withKind g (by rw [isElement_reindentKind, hk]), total_reindent s n, ← total_cons]

end

end JsxEdit.Node
