import LiveUI.Proofs.Expr.Matching

/-! # Expressions and their texts

An expression that was read from a text carries a piece of it. Wherever the piece stands at the same
bracket depth before something that ends expressions, it is read as the same tree. -/

namespace LiveUI

open Source Source.Reader

/-- At bracket depth `d` the text of an expression has tokens that its tree is derived for. -/
def Expression.Written (d : Nat) (e : Expression) : Prop :=
  ∃ ks, Spells Stops d e.source.toList ks d ∧ Expr.Derives (.tree .conditional e.expr) ks

/-- What is left of a stream are tokens of its text, from bracket depth `d` on. -/
def Source.Stream.Stands (d : Nat) (s : Stream) : Prop :=
  Remains s.source d s.rest

theorem Source.Token.isLayout_of_isInner {k : Token} (h : k.isInner = true) : k.isLayout = false := by
  cases k <;> first | rfl | exact absurd h Bool.false_ne_true

namespace Expression

variable {s s' : Stream} {e : Expression}

/-- The reader of expressions gives the text of the tokens that it takes, and the tree that they are
derived for. -/
theorem read_eq_ok (h : read s = .ok (e, s')) :
    ∃ ks, s.kinds = ks ++ s'.kinds ∧ s' = s.skip ks.length ∧
      e = ⟨s'.textSince s.start, e.expr, s.here⟩ ∧ Expr.Derives (.tree .conditional e.expr) ks := by
  rw [read, run_get] at h
  obtain ⟨expr, t, hexpr, hrest⟩ := bind_eq_ok.1 h
  rw [run_get] at hrest
  cases hrest
  obtain ⟨ks, hks, hs', hderives⟩ := Expr.conditional_parses _ s _ _ hexpr
  exact ⟨ks, hks, hs', rfl, hderives⟩

/-- Tokens of an expression are read where no token goes on with it. -/
theorem read_of_derives {expr : Expr} {ks q : List Token}
    (h : Expr.Derives (.tree .conditional expr) ks) (hs : s.kinds = ks ++ q)
    (hq : Expr.Level.conditional.Ends q) :
    read s = .ok (⟨(s.skip ks.length).textSince s.start, expr, s.here⟩, s.skip ks.length) := by
  have hlength : ks.length ≤ s.count := by
    rw [s.count_eq_kinds, hs, List.length_append]
    exact Nat.le_add_right _ _
  have hreads := (h.read s.count s _ hs hlength).2 hq
  rw [read, run_get]
  exact bind_ok hreads

/-- What the reader of expressions takes from a text is written there, and could be written between
more brackets. -/
theorem read_written {d : Nat} (hs : s.Stands d) (h : read s = .ok (e, s')) :
    s'.Stands d ∧ s'.count < s.count ∧ ∀ k, e.Written (d + k) := by
  obtain ⟨ks, hks, rfl, he, hderives⟩ := read_eq_ok h
  obtain ⟨used, hrest, rfl⟩ := exists_used hks rfl
  obtain ⟨k, ks', hcons, -⟩ := hderives.head
  have hne : used ≠ [] := by
    rintro rfl
    cases hcons
  have hplain : ∀ l ∈ used, l.token.isLayout = false := fun l hl =>
    Token.isLayout_of_isInner (hderives.balanced.inner _ (List.mem_map_of_mem hl))
  rw [List.length_map] at hrest he ⊢
  rw [Stream.Stands, hrest] at hs
  obtain ⟨text, d', hspans, hspells, hdepth, hremains⟩ := hs.spells hne hplain
  obtain rfl : d = d' := Option.some.inj ((hderives.balanced.depth d).symm.trans hdepth)
  refine ⟨?_, ?_, fun k => ⟨used.map (·.token), ?_, hderives⟩⟩
  · rwa [Stream.Stands, Stream.source_skip]
  · have hlength := List.length_pos_iff.2 hne
    have := congrArg List.length hrest
    rw [List.length_append] at this
    rw [Stream.count_eq, Stream.count_eq]
    omega
  · rw [he, Stream.textSince_skip hrest hspans, String.toList_ofList]
    exact hspells k

end Expression

end LiveUI
