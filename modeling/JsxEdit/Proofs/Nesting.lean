import JsxEdit.Proofs.Positions

/-
Elements and fragments are nested or apart.

Of two of them, in document order, the second lies strictly inside the first or after it. This holds for those in the
values of attributes and in expressions, too, since all that is read comes from tokens that stand one after the other.
-/
set_option autoImplicit false

namespace JsxEdit

/-! ## Pieces -/

namespace Piece

/-- The tokens of the second piece stand strictly inside the first one or after it. -/
def Nests (text : String) (p q : Piece) : Prop :=
  ∃ a b c d, Token.Tiles text a p.tokens b ∧ Token.Tiles text c q.tokens d ∧ (a < c ∧ d ≤ b ∨ b ≤ c)

/-- The pieces stand between the positions, and of any two the second one is inside the first or after it. -/
structure Lie (text : String) (a : Nat) (ps : List Piece) (b : Nat) : Prop where
  bounds : ∀ p ∈ ps, ∃ c d, Token.Tiles text c p.tokens d ∧ a ≤ c ∧ d ≤ b
  nested : ps.Pairwise (Nests text)

namespace Lie

variable {text : String} {a b c : Nat} {p : Piece} {ps qs : List Piece}

theorem nil : Lie text a [] b := ⟨fun _ hp => (List.not_mem_nil hp).elim, .nil⟩

theorem append (h : Lie text a ps b) (h' : Lie text b qs c) (hab : a ≤ b) (hbc : b ≤ c) : Lie text a (ps ++ qs) c where
  bounds := by
    intro p hp
    rcases List.mem_append.mp hp with hp | hp
    · obtain ⟨d, e, ht, hd, he⟩ := h.bounds p hp
      exact ⟨d, e, ht, hd, Nat.le_trans he hbc⟩
    · obtain ⟨d, e, ht, hd, he⟩ := h'.bounds p hp
      exact ⟨d, e, ht, Nat.le_trans hab hd, he⟩
  nested := by
    refine List.pairwise_append.mpr ⟨h.nested, h'.nested, fun p hp q hq => ?_⟩
    obtain ⟨d, e, ht, -, he⟩ := h.bounds p hp
    obtain ⟨d', e', ht', hd', -⟩ := h'.bounds q hq
    exact ⟨d, e, d', e', ht, ht', .inr (Nat.le_trans he hd')⟩

theorem weaken (h : Lie text b ps c) (hab : a ≤ b) : Lie text a ps c where
  bounds := fun p hp => by
    obtain ⟨d, e, ht, hd, he⟩ := h.bounds p hp
    exact ⟨d, e, ht, Nat.le_trans hab hd, he⟩
  nested := h.nested

/-- A piece around the others comes before them. -/
theorem around (h : Lie text b ps c) (hp : Token.Tiles text a p.tokens c) (hab : a < b) : Lie text a (p :: ps) c where
  bounds := by
    refine List.forall_mem_cons.mpr ⟨⟨a, c, hp, Nat.le_refl a, Nat.le_refl c⟩, ?_⟩
    exact (h.weaken (Nat.le_of_lt hab)).bounds
  nested := by
    refine List.pairwise_cons.mpr ⟨fun q hq => ?_, h.nested⟩
    obtain ⟨d, e, ht, hd, he⟩ := h.bounds q hq
    exact ⟨a, c, d, e, hp, ht, .inl ⟨Nat.lt_of_lt_of_le hab hd, he⟩⟩

end Lie

theorem lie_all {text : String} {a b : Nat} {ps : List Piece}
    (h : ∀ p ∈ ps, ∀ a b, Token.Tiles text a p.tokens b → Lie text a p.markups b)
    (ht : Token.Tiles text a (allTokens ps) b) : Lie text a (allMarkups ps) b := by
  induction ps generalizing a with
  | nil => exact .nil
  | cons p ps ih =>
    rw [List.forall_mem_cons] at h
    obtain ⟨c, hp, hrest⟩ := Token.Tiles.append_iff.mp ht
    exact (h.1 a c hp).append (ih h.2 hrest) hp.le hrest.le

/-- The elements and fragments in a piece lie where its tokens stand. -/
theorem lie_of_formed {text : String} {p : Piece} (h : Formed p) {a b : Nat} (ht : Token.Tiles text a p.tokens b) :
    Lie text a p.markups b := by
  induction h generalizing a b with
  | token t => exact .nil
  | @stretch mode first items last opens ends accepted inner outer ihinner ihouter =>
    have hitems : ∀ q ∈ items ++ last, ∀ a b, Token.Tiles text a q.tokens b → Lie text a q.markups b := by
      intro q hq a b ht
      rcases List.mem_append.mp hq with hq | hq
      · exact ihinner q hq ht
      · exact ihouter q hq ht
    have hsplit := ht
    rw [tokens, List.append_assoc, allTokens_append] at hsplit
    obtain ⟨c, hfirst, hrest⟩ := Token.Tiles.append_iff.mp hsplit
    have hlie := lie_all hitems hrest
    rw [markups, List.append_assoc, allMarkups_append, allMarkups_opens opens, List.nil_append]
    split
    · next hmode =>
      -- an element or a fragment starts with a token of its own, so what is inside starts later
      rw [List.append_assoc] at ht
      refine hlie.around ht (hfirst.lt ?_)
      rcases opensMarkup_iff.mp hmode with rfl | rfl
      · cases opens
        exact List.cons_ne_nil _ _
      · cases opens
        exact List.cons_ne_nil _ _
    · exact hlie.weaken hfirst.le

end Piece

/-! ## Nodes -/

namespace Node

theorem Spans.unique {a b c d : Nat} {n : Node} (h : n.Spans a b) (h' : n.Spans c d) : a = c ∧ b = d := by
  have hstart := h.2.1.symm.trans h'.2.1
  have hstop := h.2.2.symm.trans h'.2.2
  cases hstart
  cases hstop
  exact ⟨rfl, rfl⟩

/-- The second node lies strictly inside the first one or after it. -/
def Nests (n m : Node) : Prop := ∃ a b c d, n.Spans a b ∧ m.Spans c d ∧ (a < c ∧ d ≤ b ∨ b ≤ c)

end Node

namespace Markup

/-- The elements and fragments of a valid text are nested or apart, in document order. -/
theorem markups_nest {text : String} (hvalid : Node.allValid (nodes text) = true) :
    (Node.markups (nodes text)).Pairwise Node.Nests := by
  obtain ⟨b, htiles, -⟩ := exists_tiles_ofText text
  have hlie := Piece.lie_all (fun p hp _ _ ht => Piece.lie_of_formed (Piece.ofText_formed text p hp).2 ht) htiles
  have hparts : ((Piece.allMarkups (Piece.ofText text)).map part).Pairwise fun p q => ∀ n m, p = .leaf (.node n) →
      q = .leaf (.node m) → n.isValid = true → m.isValid = true → n.Nests m := by
    refine List.pairwise_map.mpr (hlie.nested.imp_of_mem ?_)
    rintro p q hp hq ⟨a, b, c, d, htp, htq, hnest⟩ n m hn hm hnvalid hmvalid
    exact ⟨a, b, c, d, spans_of_tiles (formed_of_mem_allMarkups hp) hn hnvalid htp,
      spans_of_tiles (formed_of_mem_allMarkups hq) hm hmvalid htq, hnest⟩
  rw [(nodes_placed hvalid).2.2, List.pairwise_map] at hparts
  have hmem : ∀ n ∈ Node.markups (nodes text), n.isValid = true := fun n hn =>
    Node.isValid_of_mem_within _ hvalid n (List.mem_filter.mp hn).1
  exact hparts.imp_of_mem fun hn hm hnest => hnest _ _ rfl rfl (hmem _ hn) (hmem _ hm)

end Markup
end JsxEdit
