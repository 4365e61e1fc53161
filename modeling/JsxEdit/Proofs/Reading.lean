import JsxEdit.Proofs.Agree

/-
The parts between brackets are written as they were read, as far as `keepsExpression` and `keepsObject` say.
-/
set_option autoImplicit false

namespace JsxEdit

/-! ## Valid nodes -/

/-- Places that are no markup. -/
def Kind.isInvalid : Kind → Bool
  | .invalid .. => true
  | _ => false

namespace Node

mutual

/-- Whether all of the tree could be read as markup. -/
def isValid : Node → Bool
  | .mk k _ as cs => !k.isInvalid && allValid as && allValid cs

/-- Whether all of the trees could be read as markup. -/
def allValid : List Node → Bool
  | [] => true
  | n :: ns => n.isValid && allValid ns

end

theorem allValid_iff (ns : List Node) : allValid ns = true ↔ ∀ n ∈ ns, n.isValid = true := by
  induction ns with
  | nil => exact iff_of_true rfl fun _ hn => nomatch hn
  | cons n ns ih => rw [allValid, Bool.and_eq_true, ih, List.forall_mem_cons]

theorem isValid_new (k : Kind) (cs : List Node) : (new k cs).isValid = (!k.isInvalid && allValid cs) := by
  rw [new, isValid, allValid, Bool.and_true]

theorem writeAll_append (as bs : List Node) : writeAll (as ++ bs) = writeAll as ++ writeAll bs := by
  induction as with
  | nil => exact (String.empty_append).symm
  | cons a as ih => rw [List.cons_append, writeAll, writeAll, ih, String.append_assoc]

theorem writeAll_singleton (n : Node) : writeAll [n] = n.write := String.append_empty

end Node

/-! ## Tokens and nodes -/

namespace Leaf

/-- The text of a leaf. -/
def written : Leaf → String
  | .token t => t.text
  | .node n => n.write

/-- The text of leaves. -/
def allWritten : List Leaf → String
  | [] => ""
  | l :: ls => l.written ++ allWritten ls

/-- Leaves that are tokens or valid nodes. -/
def isValid : Leaf → Bool
  | .token _ => true
  | .node n => n.isValid

/-- Leaves that are tokens. -/
def AllTokens (leaves : List Leaf) : Prop := ∀ l ∈ leaves, ∃ t, l = .token t

theorem allWritten_append (as bs : List Leaf) : allWritten (as ++ bs) = allWritten as ++ allWritten bs := by
  induction as with
  | nil => exact (String.empty_append).symm
  | cons a as ih => rw [List.cons_append, allWritten, allWritten, ih, String.append_assoc]

theorem join_text (ts : List Token) : Text.join "" (ts.map (·.text)) = allWritten (ts.map .token) := by
  induction ts with
  | nil => rfl
  | cons t ts ih =>
    cases ts with
    | nil => exact (String.append_empty).symm
    | cons u us =>
      rw [List.map_cons, List.map_cons, List.map_cons, allWritten, ← List.map_cons, ← ih, Text.join, Text.join,
        List.map_cons, String.intercalate_cons_cons, String.append_empty]
      rfl

theorem write_codeNode (ts : List Token) : (codeNode ts).write = allWritten (ts.map .token) := by
  rw [← join_text]
  simp [codeNode, Node.write, Node.writeAll, Kind.opening, Kind.closing]

/-- Putting tokens together to code keeps the text. -/
theorem writeAll_codeFrom (pending : List Token) (leaves : List Leaf) :
    Node.writeAll (codeFrom pending leaves) = allWritten (pending.reverse.map .token) ++ allWritten leaves := by
  induction leaves generalizing pending with
  | nil =>
    cases pending with
    | nil => rfl
    | cons t ts =>
      rw [codeFrom, List.isEmpty_cons, if_neg (by decide), Node.writeAll_singleton, write_codeNode, allWritten,
        String.append_empty]
  | cons l leaves ih =>
    cases l with
    | token t =>
      rw [codeFrom, ih, List.reverse_cons, List.map_append, allWritten_append, String.append_assoc]
      simp [allWritten]
    | node n =>
      cases pending with
      | nil =>
        rw [codeFrom, List.isEmpty_nil, if_pos rfl, Node.writeAll, ih]
        simp [allWritten, written]
      | cons t ts =>
        rw [codeFrom, List.isEmpty_cons, if_neg (by decide), Node.writeAll, Node.writeAll, ih, write_codeNode]
        simp [allWritten, written]

theorem writeAll_code (leaves : List Leaf) : Node.writeAll (code leaves) = allWritten leaves := by
  rw [code, writeAll_codeFrom]
  exact String.empty_append

/-- The nodes among the leaves are all in the code. -/
theorem isValid_of_codeFrom (pending : List Token) (leaves : List Leaf)
    (h : Node.allValid (codeFrom pending leaves) = true) : ∀ l ∈ leaves, l.isValid = true := by
  induction leaves generalizing pending with
  | nil => exact fun _ hl => nomatch hl
  | cons l leaves ih =>
    rw [List.forall_mem_cons]
    cases l with
    | token t => exact ⟨rfl, ih (t :: pending) h⟩
    | node n =>
      rw [codeFrom] at h
      have hboth : n.isValid = true ∧ Node.allValid (codeFrom [] leaves) = true := by
        split at h
        · rwa [Node.allValid, Bool.and_eq_true] at h
        · rw [Node.allValid, Node.allValid, Bool.and_eq_true, Bool.and_eq_true] at h
          exact h.2
      exact ⟨hboth.1, ih [] hboth.2⟩

/-- Only tokens have a text of their own. -/
theorem tokenText?_eq_some {leaves : List Leaf} {text : String} (h : tokenText? leaves = some text) :
    AllTokens leaves ∧ text = allWritten leaves := by
  obtain ⟨ts, hts, rfl⟩ := Option.map_eq_some_iff.mp h
  have hleaves : leaves = ts.map .token := by
    clear h
    induction leaves generalizing ts with
    | nil =>
      cases hts
      rfl
    | cons l leaves ih =>
      rw [List.mapM_cons] at hts
      obtain ⟨t, ht, hts⟩ := Option.bind_eq_some_iff.mp hts
      obtain ⟨us, hus, hts⟩ := Option.bind_eq_some_iff.mp hts
      cases hts
      cases l with
      | node n => cases ht
      | token t' =>
        cases ht
        rw [ih us hus]
        rfl
  refine ⟨?_, by rw [hleaves, join_text]⟩
  intro l hl
  rw [hleaves] at hl
  obtain ⟨t, -, rfl⟩ := List.mem_map.mp hl
  exact ⟨t, rfl⟩

theorem tokenText?_of_allTokens {leaves : List Leaf} (h : AllTokens leaves) :
    tokenText? leaves = some (allWritten leaves) := by
  have hts : ∃ ts : List Token, leaves = ts.map .token ∧ leaves.mapM token? = some ts := by
    induction leaves with
    | nil => exact ⟨[], rfl, rfl⟩
    | cons l leaves ih =>
      obtain ⟨ts, rfl, hts⟩ := ih fun l hl => h l (List.mem_cons_of_mem _ hl)
      obtain ⟨t, rfl⟩ := h l List.mem_cons_self
      exact ⟨t :: ts, rfl, by rw [List.mapM_cons, hts]; rfl⟩
  obtain ⟨ts, rfl, hts⟩ := hts
  rw [tokenText?, hts, Option.map_some, join_text]

theorem AllTokens.isValid {leaves : List Leaf} (h : AllTokens leaves) : ∀ l ∈ leaves, l.isValid = true := by
  intro l hl
  obtain ⟨t, rfl⟩ := h l hl
  rfl

end Leaf

/-! ## Parts -/

/-- What is written for the expression between brackets. -/
def Reading.write (r : Reading) : String := r.lead ++ (r.node.map Node.write).getD "" ++ r.trail

theorem Group.allWritten_leaves (g : Group) :
    Leaf.allWritten g.leaves = g.head.text ++ Leaf.allWritten g.inside ++ (g.tail.map (·.text)).getD "" := by
  rw [Group.leaves, Leaf.allWritten_append]
  cases g.tail with
  | none => rfl
  | some t => simp [Leaf.allWritten, Leaf.written]

/-- What `x` says of the group whose inside has the text `middle`. -/
structure Group.Kept (g : Group) (x : Judged) (middle : String) : Prop where
  source : x.source = g.head.text ++ middle ++ (g.tail.map (·.text)).getD ""
  /-- Only a brace that closes ends what a brace opened. -/
  tail : g.head.text = "\x7b" → ∀ t ∈ g.tail, t.text = "\x7d"
  /-- Nodes inside make the expression a script, which holds them. -/
  valid : (∀ n ∈ g.reading.node, n.kind.name = "Script" → n.isValid = true) → ∀ l ∈ g.inside, l.isValid = true
  tokens : Leaf.AllTokens g.inside → middle = Leaf.allWritten g.inside
  markup : (∀ l ∈ g.inside, l.isValid = true) → Agrees (Leaf.allWritten g.inside) middle x.markup
  reading : (∀ l ∈ g.inside, l.isValid = true) → Agrees g.reading.write middle x.reading
  object : Leaf.AllTokens g.inside → ∀ o ∈ g.object, Agrees o.write ("\x7b" ++ middle ++ "\x7d") x.object

namespace Judged

/-- What is said of a part holds of it. -/
def Sound (x : Judged) : Prop :=
  match x.part with
  | .leaf (.token t) => x.source = t.text ∧ x.markup = true
  | .leaf (.node n) => n.isValid = true → Agrees n.write x.source x.markup
  | .group g => ∃ middle, g.Kept x middle
  | .content nodes close =>
    ∃ middle, x.source = middle ++ (close.map (·.text)).getD "" ∧
      (Node.allValid nodes = true → Agrees (Node.writeAll nodes) middle x.markup) ∧
      ∀ t ∈ close, 3 ≤ t.text.length

/-- Parts of expressions: what is between tags cannot be among them. -/
def isInline (x : Judged) : Prop := ∀ nodes close, x.part ≠ .content nodes close

theorem source_token {x : Judged} {t : Token} (h : x.Sound) (hx : x.part.token? = some t) : x.source = t.text := by
  obtain ⟨part, source, markup, reading, object⟩ := x
  cases part with
  | leaf l =>
    cases l with
    | token t' =>
      cases hx
      exact h.1
    | node n => cases hx
  | group g => cases hx
  | content nodes close => cases hx

theorem group_kept {x : Judged} {g : Group} (h : x.Sound) (hx : x.part = .group g) : ∃ middle, g.Kept x middle := by
  unfold Sound at h
  rw [hx] at h
  exact h

/-- The leaves of a part are written as the part was read. -/
theorem leaves_agree {x : Judged} (h : x.Sound) (hinline : x.isInline)
    (hvalid : ∀ l ∈ x.part.leaves, l.isValid = true) : Agrees (Leaf.allWritten x.part.leaves) x.source x.markup := by
  obtain ⟨part, source, markup, reading, object⟩ := x
  cases part with
  | leaf l =>
    cases l with
    | token t =>
      obtain ⟨rfl, rfl⟩ : source = t.text ∧ markup = true := h
      rw [show Leaf.allWritten _ = t.text from String.append_empty]
      exact .refl _
    | node n =>
      rw [show Leaf.allWritten _ = n.write from String.append_empty]
      exact h (hvalid _ List.mem_cons_self)
  | group g =>
    obtain ⟨middle, hg⟩ := h
    have hinside := hg.markup fun l hl => hvalid l (List.mem_append_left _ (List.mem_cons_of_mem _ hl))
    rw [Part.leaves, g.allWritten_leaves, hg.source]
    exact (hinside.cons _).snoc _
  | content nodes close => exact absurd rfl (hinline nodes close)

/-- A part without nodes has the text of its tokens. -/
theorem source_of_tokens {x : Judged} (h : x.Sound) (hinline : x.isInline) (htokens : Leaf.AllTokens x.part.leaves) :
    x.source = Leaf.allWritten x.part.leaves := by
  obtain ⟨part, source, markup, reading, object⟩ := x
  cases part with
  | leaf l =>
    obtain ⟨t, rfl⟩ := htokens l List.mem_cons_self
    exact h.1.trans (String.append_empty).symm
  | group g =>
    obtain ⟨middle, hg⟩ := h
    have hinside : Leaf.AllTokens g.inside := fun l hl =>
      htokens l (List.mem_append_left _ (List.mem_cons_of_mem _ hl))
    rw [Part.leaves, g.allWritten_leaves, hg.source, hg.tokens hinside]
  | content nodes close => exact absurd rfl (hinline nodes close)

/-! ## Lists of parts -/

/-- What is said of the parts of an expression holds of them. -/
def AllSound (xs : List Judged) : Prop := ∀ x ∈ xs, x.Sound ∧ x.isInline

theorem AllSound.sublist {xs ys : List Judged} (h : AllSound ys) (hsub : xs.Sublist ys) : AllSound xs :=
  fun x hx => h x (hsub.mem hx)

theorem allSource_append (xs ys : List Judged) : allSource (xs ++ ys) = allSource xs ++ allSource ys := by
  induction xs with
  | nil => exact (String.empty_append).symm
  | cons x xs ih => rw [List.cons_append, allSource, allSource, ih, String.append_assoc]

theorem allLeaves_cons (x : Judged) (xs : List Judged) :
    Part.allLeaves (parts (x :: xs)) = x.part.leaves ++ Part.allLeaves (parts xs) := rfl

theorem allLeaves_agree {xs : List Judged} (h : AllSound xs)
    (hvalid : ∀ l ∈ Part.allLeaves (parts xs), l.isValid = true) :
    Agrees (Leaf.allWritten (Part.allLeaves (parts xs))) (allSource xs) (xs.all (·.markup)) := by
  induction xs with
  | nil => exact .refl _
  | cons x xs ih =>
    obtain ⟨⟨hsound, hinline⟩, hrest⟩ := List.forall_mem_cons.mp h
    rw [allLeaves_cons] at hvalid ⊢
    rw [Leaf.allWritten_append, allSource, List.all_cons]
    exact (leaves_agree hsound hinline fun l hl => hvalid l (List.mem_append_left _ hl)).append
      (ih hrest fun l hl => hvalid l (List.mem_append_right _ hl))

theorem allSource_of_tokens {xs : List Judged} (h : AllSound xs)
    (htokens : Leaf.AllTokens (Part.allLeaves (parts xs))) :
    allSource xs = Leaf.allWritten (Part.allLeaves (parts xs)) := by
  induction xs with
  | nil => rfl
  | cons x xs ih =>
    obtain ⟨⟨hsound, hinline⟩, hrest⟩ := List.forall_mem_cons.mp h
    rw [allLeaves_cons] at htokens ⊢
    rw [Leaf.allWritten_append, allSource, ih hrest fun l hl => htokens l (List.mem_append_right _ hl),
      source_of_tokens hsound hinline fun l hl => htokens l (List.mem_append_left _ hl)]

/-- Parts of white space only are a blank text. -/
theorem allSource_blank {xs : List Judged} (h : AllSound xs) (hblank : ∀ x ∈ xs, x.part.isBlank = true) :
    (allSource xs).toList.all Text.isSpace = true := by
  induction xs with
  | nil => rfl
  | cons x xs ih =>
    obtain ⟨⟨hsound, -⟩, hrest⟩ := List.forall_mem_cons.mp h
    obtain ⟨hx, hxs⟩ := List.forall_mem_cons.mp hblank
    obtain ⟨t, ht, hspace⟩ := (Option.any_eq_true _ _).mp hx
    rw [allSource, String.toList_append, List.all_append, ih hrest hxs, source_token hsound ht, Bool.and_true]
    exact hspace

/-- An object literal is a single group in braces with nothing but white space around it. -/
theorem object?_spec {xs : List Judged} {o : Node} (h : Part.object? (parts xs) = some o) :
    ∃ bs x es g tail, xs = bs ++ x :: es ∧ x.part = .group g ∧ g.head.text = "\x7b" ∧ g.tail = some tail ∧
      g.object = some o ∧ (∀ b ∈ bs, b.part.isBlank = true) ∧ ∀ e ∈ es, e.part.isBlank = true := by
  unfold Part.object? at h
  split at h
  · next g hfilter =>
    obtain ⟨ps, qs, hparts, hps, -, hqs⟩ := List.filter_eq_cons_iff.mp hfilter
    obtain ⟨bs, rest, rfl, hbs, hrest⟩ := List.map_eq_append_iff.mp hparts
    obtain ⟨x, es, rfl, hx, hes⟩ := List.map_eq_cons_iff.mp hrest
    split at h
    · next hcond =>
      rw [Bool.and_eq_true] at hcond
      obtain ⟨tail, htail⟩ := Option.isSome_iff_exists.mp hcond.2
      refine ⟨bs, x, es, g, tail, rfl, hx, eq_of_beq hcond.1, htail, h, ?_, ?_⟩
      · intro b hb
        simpa using hps b.part (hbs ▸ List.mem_map_of_mem hb)
      · intro e he
        simpa using List.filter_eq_nil_iff.mp hqs e.part (hes ▸ List.mem_map_of_mem he)
    · cases h
  · cases h

/-- Around an object literal there is white space only, so the group in braces is the core of the text. -/
theorem object_agrees {xs : List Judged} {o : Node} (h : AllSound xs)
    (htokens : Leaf.AllTokens (Part.allLeaves (parts xs))) (hobject : Part.object? (parts xs) = some o) :
    Agrees (Text.lead (allSource xs) ++ o.write ++ Text.trail (allSource xs)) (allSource xs)
      (xs.all fun x => x.part.isBlank || x.object) := by
  obtain ⟨bs, x, es, g, tail, rfl, hx, hhead, htail, ho, hbs, hes⟩ := object?_spec hobject
  obtain ⟨middle, hg⟩ := group_kept (h x (List.mem_append_right _ List.mem_cons_self)).1 hx
  have hinside : Leaf.AllTokens g.inside := by
    intro l hl
    apply htokens
    refine List.mem_flatMap.mpr ⟨x.part, List.mem_map_of_mem (List.mem_append_right _ List.mem_cons_self), ?_⟩
    rw [hx]
    exact List.mem_append_left _ (List.mem_cons_of_mem _ hl)
  have hsource : x.source = "\x7b" ++ middle ++ "\x7d" := by
    rw [hg.source, hhead, htail, Option.map_some, Option.getD_some, hg.tail hhead tail htail]
  have hsolid : Text.Solid x.source.toList := by
    rw [hsource]
    simp only [String.toList_append]
    exact ⟨⟨'\x7b', _, rfl, by decide⟩, ⟨'\x7d', _, rfl, by decide⟩⟩
  have hb := allSource_blank (h.sublist (List.sublist_append_left _ _)) hbs
  have he := allSource_blank (h.sublist ((List.sublist_cons_self _ _).trans (List.sublist_append_right _ _))) hes
  have htext : allSource (bs ++ x :: es) = allSource bs ++ x.source ++ allSource es := by
    rw [allSource_append, allSource, String.append_assoc]
  have hchars : allSource bs ++ x.source ++ allSource es =
      .ofList ((allSource bs).toList ++ x.source.toList ++ (allSource es).toList) := by
    rw [← String.toList_append, ← String.toList_append, String.ofList_toList]
  have hkept : ((bs ++ x :: es).all fun x => x.part.isBlank || x.object) = x.object := by
    have hall : ∀ {ys : List Judged}, (∀ y ∈ ys, y.part.isBlank = true) →
        (ys.all fun y => y.part.isBlank || y.object) = true := by
      intro ys hys
      exact List.all_eq_true.mpr fun y hy => by rw [hys y hy, Bool.true_or]
    rw [List.all_append, List.all_cons, hall hbs, hall hes, hx, Bool.true_and, Bool.and_true]
    exact Bool.false_or _
  rw [htext, hkept, hchars, Text.lead_of_solid hb hsolid, Text.trail_of_solid he hsolid, ← hchars,
    String.ofList_toList, String.ofList_toList]
  have hagree := hg.object hinside o ho
  rw [← hsource] at hagree
  exact (hagree.cons _).snoc _

/-- Nodes among the parts make the expression a script, which holds them. -/
theorem valid_of_reading {ps : List Part}
    (h : ∀ n ∈ (Part.reading ps).node, n.kind.name = "Script" → n.isValid = true) :
    ∀ l ∈ Part.allLeaves ps, l.isValid = true := by
  unfold Part.reading at h
  cases htext : Leaf.tokenText? (Part.allLeaves ps) with
  | none =>
    rw [htext] at h
    have hscript := h _ rfl rfl
    rw [Node.isValid_new] at hscript
    exact Leaf.isValid_of_codeFrom [] _ hscript
  | some text => exact (Leaf.tokenText?_eq_some htext).1.isValid

/-- The expression that the parts are is written as they were read. -/
theorem reading_agrees {xs : List Judged} (h : AllSound xs)
    (hvalid : ∀ l ∈ Part.allLeaves (parts xs), l.isValid = true) :
    Agrees (Part.reading (parts xs)).write (allSource xs) (keepsExpression xs) := by
  unfold Part.reading keepsExpression
  cases htext : Leaf.tokenText? (Part.allLeaves (parts xs)) with
  | none =>
    have hwrite : (Reading.mk "" (some (Node.new .script (Leaf.code (Part.allLeaves (parts xs))))) "").write =
        Leaf.allWritten (Part.allLeaves (parts xs)) := by
      simp [Reading.write, Node.new, Node.write, Kind.opening, Kind.closing, Leaf.writeAll_code]
    rw [hwrite]
    exact allLeaves_agree h hvalid
  | some text =>
    obtain ⟨htokens, rfl⟩ := Leaf.tokenText?_eq_some htext
    rw [← allSource_of_tokens h htokens]
    dsimp only
    cases hblank : Text.isBlank (allSource xs) with
    | true =>
      rw [if_pos rfl, Bool.true_or]
      simp only [Reading.write, Option.map_none, Option.getD_none, String.append_empty]
      exact .refl _
    | false =>
      rw [if_neg (by decide), Bool.false_or]
      cases hobject : Part.object? (parts xs) with
      | some o => exact object_agrees h htokens hobject
      | none =>
        have hagree := ((Expression.ofText_agrees (allSource xs)).cons (Text.lead (allSource xs))).snoc
          (Text.trail (allSource xs))
        rw [Text.lead_append_trim_append_trail hblank] at hagree
        rw [Reading.write, Option.getD_none, Option.map_some, Option.getD_some]
        exact hagree

end Judged
end JsxEdit
