import LiveUI.Proofs.World.Playing
import LiveUI.Proofs.World.Realms

/-! # What is under way

Whatever is done in between, an announcement that has come to its end is forgotten, and a binding that
has done its work is idle again: each script leaves both as they were. While it goes on, just those
announcements are under way and just those bindings at work whose stretches have begun and not ended. -/

namespace LiveUI

namespace World

variable {w w' w'' : World}

/-- The attributes of an object whose changes are being announced, the innermost first. -/
def underway (w : World) (o : Handle) : List String :=
  ((w.object? o).map (·.inFlight)).getD []

/-- The binding is evaluating or writing. -/
def isBusy (w : World) (b : Nat) : Bool :=
  (w.binding? b).any (·.busy)

theorem isInFlight_eq_underway (w : World) (o : Handle) (attr : String) :
    w.isInFlight o attr = (w.underway o).contains attr := by
  unfold isInFlight underway
  cases w.object? o <;> simp

theorem underway_modifyObject (w : World) (o p : Handle) {f : Object → Object}
    (hhandle : ∀ x, (f x).handle = x.handle) (hflight : ∀ x, (f x).inFlight = x.inFlight) :
    (w.modifyObject o f).underway p = w.underway p := by
  rw [underway, object?_modifyObject w o p hhandle, underway]
  split
  · cases w.object? p <;> simp [hflight]
  · rfl

theorem underway_endFlight (w : World) (c : Change) (o : Handle) :
    (w.endFlight c).underway o =
      if c.object.id = o.id then (w.underway o).erase c.attr else w.underway o := by
  have hobject := w.object?_modifyObject c.object o
    (f := fun x => { x with inFlight := x.inFlight.erase c.attr }) fun _ => rfl
  change (((w.modifyObject c.object _).object? o).map _).getD _ = _
  rw [hobject, underway]
  split
  · cases w.object? o <;> simp
  · rfl

theorem underway_beginFlight (w : World) {c : Change} (halive : w.isAlive c.object = true)
    (o : Handle) : (w.beginFlight c).underway o =
      if c.object.id = o.id then c.attr :: w.underway o else w.underway o := by
  have hobject := w.object?_modifyObject c.object o
    (f := fun x => { x with inFlight := c.attr :: x.inFlight }) fun _ => rfl
  change (((w.modifyObject c.object _).object? o).map _).getD _ = _
  rw [hobject, underway]
  split
  next hid =>
    obtain ⟨x, hx⟩ := Option.isSome_iff_exists.mp halive
    rw [w.object?_congr hid] at hx
    simp [hx]
  next => rfl

theorem isBusy_modifyBinding (w : World) (b c : Nat) {f : Binding → Binding}
    (hid : ∀ x, (f x).id = x.id) (hbusy : ∀ x, (f x).busy = x.busy) :
    (w.modifyBinding b f).isBusy c = w.isBusy c := by
  rw [isBusy, w.binding?_modifyBinding b c hid, isBusy]
  split
  · cases w.binding? c <;> simp [hbusy]
  · rfl

theorem isBusy_setBusy (w : World) (b c : Nat) (busy : Bool) : (w.setBusy b busy).isBusy c =
    if b = c then (w.binding? b).isSome && busy else w.isBusy c := by
  rw [isBusy, setBusy, w.binding?_modifyBinding b c (f := fun x => { x with busy }) fun _ => rfl, isBusy]
  split
  next hc =>
    rw [← hc]
    cases w.binding? b <;> simp
  next => rfl

theorem isAlive_of_canBegin {c : Change} (h : (Stretch.dispatch c).canBegin w = true) :
    w.isAlive c.object = true := by
  unfold isAlive
  cases hx : w.object? c.object with
  | none => simp [Stretch.canBegin, observersOf, hx] at h
  | some x => rfl

theorem isBusy_of_canBegin {b : Nat} (h : (Stretch.work b).canBegin w = true) :
    w.isBusy b = false ∧ (w.binding? b).isSome = true := by
  unfold isBusy
  cases hx : w.binding? b with
  | none => simp [Stretch.canBegin, hx] at h
  | some x => simpa [Stretch.canBegin, hx] using h

/-! ## Afterwards -/

/-- The same is under way, and the same bindings are at work. -/
structure Restores (w w' : World) : Prop where
  underway : ∀ o, w'.underway o = w.underway o
  isBusy : ∀ b, w'.isBusy b = w.isBusy b

namespace Restores

theorem lasting : Lasting Restores := by
  refine .of_parts (fun _ => ⟨fun _ => rfl, fun _ => rfl⟩)
    (fun h h' => ⟨fun o => (h'.underway o).trans (h.underway o), fun b => (h'.isBusy b).trans (h.isBusy b)⟩)
    (fun {w w'} hobjects hbindings _ => ⟨fun o => ?_, fun b => ?_⟩)
    (fun w o f hf => ⟨fun p => w.underway_modifyObject o p hf.handle hf.inFlight, fun _ => rfl⟩)
    (fun w typeName attrs => ⟨fun o => map_object?_create (·.inFlight) [] rfl o, fun _ => rfl⟩)
    (fun w o attr callback =>
      ⟨fun p => w.underway_modifyObject o p (fun _ => rfl) (fun _ => rfl), fun _ => rfl⟩)
    (fun w b f hid hbusy _ => ⟨fun _ => rfl, fun c => w.isBusy_modifyBinding b c hid hbusy⟩)
  · unfold World.underway World.object?
    rw [hobjects]
  · unfold World.isBusy World.binding?
    rw [hbindings]

/-- The end of a stretch takes back what its beginning has done. -/
theorem stretch (t : Stretch) {w w₁ : World} (hbegin : t.canBegin w = true)
    (h : Restores (t.begin w) w₁) : Restores w (t.finish w₁) := by
  cases t with
  | evaluation b => exact h
  | dispatch c =>
      refine ⟨fun o => ?_, h.isBusy⟩
      have hbody := h.underway o
      change w₁.underway o = (w.beginFlight c).underway o at hbody
      change (w₁.endFlight c).underway o = _
      rw [underway_beginFlight w (isAlive_of_canBegin hbegin)] at hbody
      rw [underway_endFlight, hbody]
      split <;> simp
  | work b =>
      refine ⟨h.underway, fun c => ?_⟩
      have hbody := h.isBusy c
      change w₁.isBusy c = (w.setBusy b true).isBusy c at hbody
      change (w₁.setBusy b false).isBusy c = _
      rw [isBusy_setBusy] at hbody ⊢
      split
      next hc => rw [Bool.and_false, ← hc, (isBusy_of_canBegin hbegin).1]
      next hc => rwa [if_neg hc] at hbody

theorem run {α : Type} {p : Script α} {a : α} (hrun : p.run w = some (a, w')) : Restores w w' :=
  lasting.run_of_stretch stretch hrun

end Restores

end World

/-! ## Meanwhile -/

open World

/-- The attribute of an object whose change is announced during the stretch. -/
def Stretch.announces? (o : Handle) : Stretch → Option String
  | dispatch c => if c.object.id = o.id then some c.attr else none
  | work _ | evaluation _ => none

/-- The binding that is at work during the stretch. -/
def Stretch.isWorkOf (b : Nat) : Stretch → Bool
  | work c => c == b
  | dispatch _ | evaluation _ => false

namespace Script

variable {α : Type} {p : Script α} {w w' : World} {s : List Stretch}

/-- What is under way in the midst of a script was so before, or belongs to a stretch that has begun. -/
theorem Passes.underway (h : p.Passes w s w') (o : Handle) :
    w'.underway o = s.filterMap (·.announces? o) ++ w.underway o := by
  induction h with
  | now => rfl
  | look _ ih => exact ih
  | act hready _ ih => rw [ih, (Restores.lasting.deed hready).underway]
  | @inside _ _ t _ _ w _ s hbegin _ ih =>
      rw [ih, List.filterMap_append, List.append_assoc]
      congr 1
      cases t with
      | dispatch c =>
          change (w.beginFlight c).underway o = _
          rw [underway_beginFlight w (isAlive_of_canBegin hbegin)]
          by_cases hid : c.object.id = o.id <;> simp [Stretch.announces?, hid]
      | work b => rfl
      | evaluation b => rfl
  | after hbegin hbody _ ih => rw [ih, (Restores.stretch _ hbegin (Restores.run hbody)).underway]

theorem Passes.isBusy (h : p.Passes w s w') (b : Nat) :
    w'.isBusy b = (s.any (·.isWorkOf b) || w.isBusy b) := by
  induction h with
  | now => rfl
  | look _ ih => exact ih
  | act hready _ ih => rw [ih, (Restores.lasting.deed hready).isBusy]
  | @inside _ _ t _ _ w _ s hbegin _ ih =>
      rw [ih, List.any_append, Bool.or_assoc]
      congr 1
      cases t with
      | dispatch c => rfl
      | work c =>
          change (w.setBusy c true).isBusy b = _
          rw [isBusy_setBusy, (isBusy_of_canBegin hbegin).2]
          by_cases hc : c = b <;> simp [Stretch.isWorkOf, hc]
      | evaluation c => rfl
  | after hbegin hbody _ ih => rw [ih, (Restores.stretch _ hbegin (Restores.run hbody)).isBusy]

end Script

end LiveUI
