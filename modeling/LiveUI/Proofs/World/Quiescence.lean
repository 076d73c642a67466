import LiveUI.Proofs.World.Announcing
import LiveUI.Proofs.World.Reached

/-! # Quiescence

However an attribute is written from outside, and whatever observers, expressions and functions of the
host do about it, all announcements have been forgotten and all bindings are idle again once the write
has come to its end. In the meantime an attribute is in flight as long as a change of it is being
announced to observers, and no longer. -/

namespace LiveUI

open World

namespace Script

variable {α : Type} {p : Script α} {w w' : World} {s : List Stretch}

/-- A stretch that the script is in began in a world that the script passed in the stretches around
it. -/
theorem Passes.begun (h : p.Passes w s w') {inner outer : List Stretch} {t : Stretch}
    (hs : s = inner ++ t :: outer) : ∃ v, p.Passes w outer v ∧ t.canBegin v = true := by
  induction h generalizing outer with
  | now => cases inner <;> cases hs
  | look _ ih =>
      obtain ⟨v, hpass, hbegin⟩ := ih hs
      exact ⟨v, .look hpass, hbegin⟩
  | act hready _ ih =>
      obtain ⟨v, hpass, hbegin⟩ := ih hs
      exact ⟨v, .act hready hpass, hbegin⟩
  | inside hbegin _ ih =>
      -- It is the outermost stretch itself, or one within that.
      obtain rfl | ⟨outer, u, rfl⟩ := List.eq_nil_or_concat' outer
      · obtain ⟨-, hlast⟩ := List.append_inj' hs rfl
        obtain rfl := List.singleton_inj.mp hlast
        exact ⟨_, .now, hbegin⟩
      · rw [← List.cons_append, ← List.append_assoc] at hs
        obtain ⟨hwithin, hlast⟩ := List.append_inj' hs rfl
        obtain rfl := List.singleton_inj.mp hlast
        obtain ⟨v, hpass, hbegin'⟩ := ih hwithin
        exact ⟨v, .inside hbegin hpass, hbegin'⟩
  | after hbegin hbody _ ih =>
      obtain ⟨v, hpass, hbegin'⟩ := ih hs
      exact ⟨v, .after hbegin hbody hpass, hbegin'⟩

theorem Passes.isInFlight_iff (h : p.Passes w s w') (o : Handle) (attr : String) :
    w'.isInFlight o attr = true ↔
      (∃ c, .dispatch c ∈ s ∧ c.At o attr) ∨ w.isInFlight o attr = true := by
  rw [isInFlight_eq_underway, isInFlight_eq_underway, h.underway, List.contains_append, Bool.or_eq_true,
    List.contains_iff_mem, List.mem_filterMap]
  refine or_congr_left ⟨?_, ?_⟩
  · rintro ⟨t, ht, hattr⟩
    cases t with
    | dispatch c =>
        rw [Stretch.announces?] at hattr
        split at hattr
        next hid => exact ⟨c, ht, hid, Option.some.inj hattr⟩
        next => cases hattr
    | work b => cases hattr
    | evaluation b => cases hattr
  · rintro ⟨c, hc, hid, rfl⟩
    exact ⟨.dispatch c, hc, if_pos hid⟩

/-- Begun in a world at rest, the script leaves it at rest, and in between an attribute is in flight just
while a change of it is being announced, to observers that were there when that began. -/
structure Quiesces (p : Script α) (w : World) : Prop where
  afterwards : ∀ a w', p.run w = some (a, w') →
    (∀ o, w'.underway o = w.underway o) ∧ (∀ b, w'.isBusy b = w.isBusy b) ∧ w'.Resting
  meanwhile : ∀ s w', p.Passes w s w' → ∀ o attr,
    (w'.isInFlight o attr = true ↔ ∃ c, .dispatch c ∈ s ∧ c.At o attr)
  observed : ∀ inner c outer w', p.Passes w (inner ++ .dispatch c :: outer) w' →
    ∃ v, p.Passes w outer v ∧ v.observersOf c.object c.attr ≠ []

theorem quiesces (h : w.Resting) (p : Script α) : p.Quiesces w := by
  refine ⟨fun a w' hrun => ?_, fun s w' hpass o attr => ?_, fun inner c outer w' hpass => ?_⟩
  · have hrestores := Restores.run hrun
    exact ⟨hrestores.underway, hrestores.isBusy, h.restores hrestores⟩
  · rw [hpass.isInFlight_iff, h.quiet, Bool.false_eq_true, or_false]
  · obtain ⟨v, hpass', hbegin⟩ := hpass.begun rfl
    exact ⟨v, hpass', by simpa [Stretch.canBegin] using hbegin⟩

end Script

/-- A set or emit from outside does what its script says, and the script leaves the world at rest. -/
theorem quiescence_restored {w : World} (h : w.Reached) (n : Nat) (o : Handle) (attr : String)
    (v : Value) :
    w.Resting ∧
    (setAttr (announce n) o attr v = (Script.setAttr (Script.announce n) o attr v).run ∧
      (Script.setAttr (Script.announce n) o attr v).Quiesces w) ∧
    emitAttr (announce n) o attr v = (Script.emitAttr (Script.announce n) o attr v).run ∧
      (Script.emitAttr (Script.announce n) o attr v).Quiesces w := by
  have hset := Script.setAttr_plays (Script.announce_plays n) o attr v
  have hemit := Script.emitAttr_plays (Script.announce_plays n) o attr v
  have hrest := h.calm.2
  exact ⟨hrest, ⟨(funext hset).symm, Script.quiesces hrest _⟩, (funext hemit).symm,
    Script.quiesces hrest _⟩

/-- An object is made, and an observer of it looks whether its value is in flight and sets it again. -/
def observedKnob : World :=
  let knob : Handle := ⟨1, "Knob"⟩
  let looks : Change → Host := fun _ => .inFlight knob "value" fun flying =>
    .write knob "seen" (.bool flying) fun _ => .write knob "value" (.int 5) fun _ => .skip
  ((({} : World).create "Knob" [("value", .int 0)]).2.observe knob "value" (.host looks)).2

theorem quiescence_restored_knob : observedKnob.Reached ∧
    (Script.setAttr (Script.announce 2) ⟨1, "Knob"⟩ "value" (.int 1)).Quiesces observedKnob ∧
    ((setAttr (announce 2) ⟨1, "Knob"⟩ "value" (.int 1) observedKnob).bind fun q =>
      q.2.attr? ⟨1, "Knob"⟩ "seen") = some (.bool true) := by
  have hreached : observedKnob.Reached := by
    refine .operation (n := 0) (.routine (.create "Knob" [("value", .int 0)] fun knob =>
      .observe knob "value" (fun _ => .inFlight knob "value" fun flying =>
        .write knob "seen" (.bool flying) fun _ => .write knob "value" (.int 5) fun _ => .skip)
      fun _ => .skip)) .start rfl
  exact ⟨hreached, (quiescence_restored hreached 2 ⟨1, "Knob"⟩ "value" (.int 1)).2.1.2, rfl⟩

end LiveUI
