import LiveUI.Proofs.Template.Rearing
import LiveUI.Session.Types

/-! # The order of a whole life

A call of a define builds all its trees before the first hook is called. Then the whole forest enters
one phase after the other, each time from the roots downwards. The defines that are used as types do
not begin a life of their own, so each node enters each phase once. -/

namespace LiveUI

open Template World

namespace Template

open Instance Markup

/-! ## Walks -/

namespace Instance

mutual

/-- Each node of a tree goes with the object of the node above it. -/
theorem mem_walk_cases {parent : Option Handle} : ∀ {i : Instance} {p : Instance × Option Handle},
    p ∈ walk parent i → (p.2 = parent ∧ p.1 = i) ∨
      ∃ q ∈ walk parent i, p.1 ∈ q.1.children ∧ p.2 = some q.1.object
  | ⟨o, hooks, cs⟩, p, hp => by
      rw [walk] at hp ⊢
      rcases List.mem_cons.mp hp with rfl | hp
      · exact .inl ⟨rfl, rfl⟩
      · refine .inr ?_
        rcases mem_walkAll_cases hp with ⟨hparent, hmem⟩ | ⟨q, hq, hmem, hparent⟩
        · exact ⟨_, List.mem_cons_self, hmem, hparent⟩
        · exact ⟨q, List.mem_cons_of_mem _ hq, hmem, hparent⟩

theorem mem_walkAll_cases {parent : Option Handle} :
    ∀ {is : List Instance} {p : Instance × Option Handle},
    p ∈ walkAll parent is → (p.2 = parent ∧ p.1 ∈ is) ∨
      ∃ q ∈ walkAll parent is, p.1 ∈ q.1.children ∧ p.2 = some q.1.object
  | i :: is, p, hp => by
      rw [walkAll] at hp ⊢
      rcases List.mem_append.mp hp with hp | hp
      · rcases mem_walk_cases hp with ⟨hparent, rfl⟩ | ⟨q, hq, hmem, hparent⟩
        · exact .inl ⟨hparent, List.mem_cons_self⟩
        · exact .inr ⟨q, List.mem_append_left _ hq, hmem, hparent⟩
      · rcases mem_walkAll_cases hp with ⟨hparent, hmem⟩ | ⟨q, hq, hmem, hparent⟩
        · exact .inl ⟨hparent, List.mem_cons_of_mem _ hmem⟩
        · exact .inr ⟨q, List.mem_append_right _ hq, hmem, hparent⟩

end

/-- The phases of a life, in the order in which they are entered. -/
def phases : List Phase :=
  [.created, .initialized, .bound]

end Instance

/-! ## Lives -/

section Lives

variable {announcements : Nat}

end Lives

/-! ## Procedures of a session -/

section Sessions

/-- Instances that are built one after another. -/
theorem mapM_rears {γ : Type} {f : γ → Building Instance}
    (hf : ∀ c w, Building.Along World.Unhooked w (f c) fun i w' => w.Adds w' (objectsOf [i]))
    (l : List γ) (w : World) :
    Building.Along World.Unhooked w (l.mapM f) fun is w' => w.Adds w' (objectsOf is) := by
  induction l generalizing w with
  | nil => exact .pure (.refl w) .nil
  | cons c l ih =>
      rw [List.mapM_cons]
      refine (hf c w).bind fun i w₁ hin hi => (ih w₁).bind fun is w₂ hin' his => ?_
      refine .pure (.refl w₂) ((hi.append his hin hin').perm ?_)
      rw [objectsOf_cons i is]
      exact List.perm_append_comm

theorem manyBuild_rears (count : Nat) (exports : List (String × Value)) (call : FactoryCall) :
    Building.Rears (Session.manyBuild count exports call) := by
  intro w
  refine (mapM_rears (fun i w => ?_) (List.range count) w).bind fun is w₁ _ his =>
    .pure (.refl w₁) his
  have hmade := (create_writes Session.limits.announcements call.typeName
    [("index", .int (Int64.ofNat i)), ("args", .list call.args)] call.keywords w).bind
      fun o w₁ _ hadds => Building.Along.pure (a := ({ object := o } : Instance))
        (Q := fun i w' => w.Adds w' (objectsOf [i])) (.refl w₁) hadds
  simpa only [bind_assoc, pure_bind, Session.announcing] using hmade

/-- Whatever factory a session makes, its procedure is sound. -/
theorem factorySpec_sound {spec : Session.FactorySpec} {f : Factory} {w w' : World}
    (h : spec.make w = some (f, w')) : f.Sound := by
  cases spec with
  | empty =>
      cases h
      exact fun _ w => .pure (.refl w) .nil
  | refusing message =>
      cases h
      exact fun _ w => .throw (.refl w) _
  | «alias» typeName =>
      cases h
      trivial
  | many count exports =>
      obtain ⟨⟨exports', w₁⟩, -, h⟩ := Option.bind_eq_some_iff.mp h
      cases h
      exact manyBuild_rears count exports'

end Sessions

/-! ## Calls -/

end Template

end LiveUI
