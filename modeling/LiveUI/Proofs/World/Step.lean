import LiveUI.World.Propagation

/-! # Steps that have a result

A step has no result where announcements nest too deep. What is proved about a step therefore says
two things at once: that it has a result, and what the result is like. -/

namespace LiveUI

namespace Step

variable {α β : Type}

/-- From `w` the step has a result, and the result is as `post` says. -/
def Yields (m : Step α) (w : World) (post : α → World → Prop) : Prop :=
  ∃ a w', m w = some (a, w') ∧ post a w'

namespace Yields

variable {m : Step α} {w : World} {post : α → World → Prop}

theorem imp {post' : α → World → Prop} (h : Yields m w post)
    (himp : ∀ a w', post a w' → post' a w') : Yields m w post' := by
  obtain ⟨a, w', hm, hpost⟩ := h
  exact ⟨a, w', hm, himp a w' hpost⟩

/-- There is one result only. -/
theorem result (h : Yields m w post) {a : α} {w' : World} (hm : m w = some (a, w')) :
    post a w' := by
  obtain ⟨a', w'', hm', hpost⟩ := h
  obtain ⟨rfl, rfl⟩ := by simpa using hm.symm.trans hm'
  exact hpost

theorem of_pure {a : α} (h : post a w) : Yields (pure a) w post :=
  ⟨a, w, rfl, h⟩

theorem bind {f : α → Step β} {post : β → World → Prop}
    (h : Yields m w fun a w' => Yields (f a) w' post) : Yields (m >>= f) w post := by
  obtain ⟨a, w', hm, b, w'', hf, hpost⟩ := h
  refine ⟨b, w'', ?_, hpost⟩
  change (m w).bind _ = _
  rw [hm]
  exact hf

theorem get_bind {f : World → Step β} {post : β → World → Prop}
    (h : Yields (f w) w post) : Yields (get >>= f) w post :=
  bind ⟨w, w, rfl, h⟩

theorem of_modify {f : World → World} {post : PUnit → World → Prop} (h : post ⟨⟩ (f w)) :
    Yields (modify f) w post :=
  ⟨⟨⟩, f w, rfl, h⟩

theorem modify_bind {f : World → World} {g : PUnit → Step β} {post : β → World → Prop}
    (h : Yields (g ⟨⟩) (f w) post) : Yields (modify f >>= g) w post :=
  bind (of_modify h)

end Yields

theorem get_bind_apply {α : Type} (f : World → Step α) (w : World) : (get >>= f) w = f w w :=
  rfl

end Step

/-! ## Writes -/

section Writes

variable {announce : Announce} {w : World} {o : Handle} {attr : String} {v : Value}

theorem setAttr_of_eq {old : Value} (hold : w.attr? o attr = some old) (heq : (old == v) = true) :
    setAttr announce o attr v w = some (false, w) := by
  simp only [setAttr, Step.get_bind_apply, hold, heq, if_true]
  rfl

theorem setAttr_of_ne (hne : ∀ old, w.attr? o attr = some old → (old == v) = false) :
    setAttr announce o attr v w =
      (announce ⟨o, attr, (w.attr? o attr).getD .nil, v⟩ (w.write o attr v)).map
        fun q => (true, q.2) := by
  have hwritten (old : Value) :
      (do modify (·.write o attr v); announce ⟨o, attr, old, v⟩; return true : Step Bool) w =
        (announce ⟨o, attr, old, v⟩ (w.write o attr v)).map fun q => (true, q.2) := by
    change (announce ⟨o, attr, old, v⟩ (w.write o attr v)).bind _ = _
    cases announce ⟨o, attr, old, v⟩ (w.write o attr v) <;> rfl
  rw [setAttr, Step.get_bind_apply]
  cases hattr : w.attr? o attr with
  | none => exact hwritten .nil
  | some old =>
      simp only [hne old hattr, Bool.false_eq_true, if_false]
      exact hwritten old

end Writes

/-- An idle binding is busy for as long as its work takes. -/
theorem guarded_of_idle {b : Nat} {w : World} {x : Binding} (hx : w.binding? b = some x)
    (hidle : x.busy = false) (work : Binding → Step (Except EvalError Unit)) :
    guarded b work w = (work x (w.setBusy b true)).map fun p => (p.1, p.2.setBusy b false) := by
  simp only [guarded, Step.get_bind_apply, hx, hidle, Bool.false_eq_true, if_false]
  change (work x (w.setBusy b true)).bind _ = _
  cases work x (w.setBusy b true) <;> rfl

/-! ## Where steps lead

What a step does to the world is said by a relation between the world that it begins in and the one
that it comes to. Where the relation is transitive, what is known of the parts of a step carries over
to the whole. -/

namespace Step

variable {α β : Type} {T : World → World → Prop} {w : World}

/-- Begun in `w`, the step comes to a world that is to `w` as `T` says, with a result that is as `post`
says. -/
def Along (T : World → World → Prop) (w : World) (m : Step α) (post : α → World → Prop) : Prop :=
  ∀ a w', m w = some (a, w') → T w w' ∧ post a w'

namespace Along

variable {m : Step α} {Q : α → World → Prop} {P : β → World → Prop}

theorem pure (h : T w w) {a : α} (ha : Q a w) : Along T w (Pure.pure a) Q := by
  rintro _ _ ⟨⟩
  exact ⟨h, ha⟩

theorem failure : Along T w (Alternative.failure : Step α) Q :=
  nofun

theorem imp {Q' : α → World → Prop} (h : Along T w m Q) (himp : ∀ a w', Q a w' → Q' a w') :
    Along T w m Q' :=
  fun a w' hrun => (h a w' hrun).imp_right (himp a w')

theorem get_bind {f : World → Step β} (h : Along T w (f w) P) : Along T w (get >>= f) P := h

theorem of_modify {f : World → World} (h : T w (f w)) :
    Along T w (modify f : Step PUnit) fun _ w' => w' = f w := by
  rintro _ _ ⟨⟩
  exact ⟨h, rfl⟩

theorem of_modifyGet {f : World → α × World} (h : T w (f w).2) :
    Along T w (modifyGet f : Step α) fun a w' => a = (f w).1 ∧ w' = (f w).2 := by
  intro a w' hrun
  have heq : f w = (a, w') := Option.some.inj hrun
  rw [heq] at h ⊢
  exact ⟨h, rfl, rfl⟩

/-- The two parts need not be alike, as long as the whole is known by where it began. -/
theorem bind_from {T' : World → World → Prop} {f : α → Step β} (hm : Along T' w m Q)
    (hf : ∀ a w₁, T' w w₁ → Q a w₁ → Along (fun _ => T w) w₁ (f a) P) : Along T w (m >>= f) P := by
  intro b w' hrun
  change (m w).bind _ = _ at hrun
  obtain ⟨⟨a, w₁⟩, hfirst, hrest⟩ := Option.bind_eq_some_iff.mp hrun
  obtain ⟨hT, ha⟩ := hm a w₁ hfirst
  exact hf a w₁ hT ha b w' hrest

variable [Trans T T T]

theorem since {w₀ : World} (h : Along T w m Q) (hT : T w₀ w) : Along (fun _ => T w₀) w m Q :=
  fun a w' hrun => (h a w' hrun).imp_left (Trans.trans hT)

theorem bind {f : α → Step β} (hm : Along T w m Q)
    (hf : ∀ a w₁, T w w₁ → Q a w₁ → Along T w₁ (f a) P) : Along T w (m >>= f) P :=
  hm.bind_from fun a w₁ hT ha => (hf a w₁ hT ha).since hT

theorem modify_bind {f : World → World} {g : PUnit → Step β} (h : T w (f w))
    (hg : Along T (f w) (g ⟨⟩) P) : Along T w (modify f >>= g) P :=
  (of_modify h).bind fun _ _ _ heq => heq ▸ hg

theorem set_bind {w' : World} {g : PUnit → Step β} (h : T w w') (hg : Along T w' (g ⟨⟩) P) :
    Along T w (set w' >>= g) P :=
  modify_bind h hg

theorem modifyGet_bind {f : World → α × World} {g : α → Step β} (h : T w (f w).2)
    (hg : Along T (f w).2 (g (f w).1) P) : Along T w (modifyGet f >>= g) P := by
  refine (of_modifyGet h).bind ?_
  rintro _ _ _ ⟨rfl, rfl⟩
  exact hg

/-- Steps for the elements of a list, one after another. -/
theorem forM {γ : Type} {f : γ → Step Unit} (l : List γ) (h : T w w)
    (hf : ∀ c ∈ l, ∀ w₁, T w w₁ → Along T w₁ (f c) fun _ _ => True) :
    Along T w (l.forM f) fun _ _ => True := by
  suffices hrest : ∀ w₁, T w w₁ → Along (fun _ => T w) w₁ (l.forM f) fun _ _ => True from hrest w h
  induction l with
  | nil => exact fun w₁ hT => pure hT trivial
  | cons c l ih =>
      intro w₁ hT
      refine bind_from (hf c List.mem_cons_self w₁ hT) fun _ w₂ hT' _ => ?_
      exact ih (fun c hc => hf c (List.mem_cons_of_mem _ hc)) w₂ (Trans.trans hT hT')

end Along

end Step

end LiveUI
