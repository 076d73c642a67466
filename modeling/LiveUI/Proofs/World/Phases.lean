import LiveUI.Proofs.World.Realms
import LiveUI.Proofs.World.Scripts
import Mathlib.Data.Nat.Basic
import Mathlib.Order.Lattice

/-! # The phases of objects

The journal tells of every phase that an object enters: a callback of the lifecycle is an entry, and so
is the notice of a destruction. So it is known which phases an object has gone through, and in which
order. Whatever is done to the world without a lifecycle, an object stays in its phase until it is
destroyed, and that happens to it once. -/

namespace LiveUI

namespace Phase

theorem rank_injective : Function.Injective rank := by
  intro p q h
  cases p <;> cases q <;> first | rfl | cases h

/-- Phases are ordered as they come in a life. -/
instance : LinearOrder Phase :=
  LinearOrder.lift' rank rank_injective

theorem le_destroyed (p : Phase) : p ≤ destroyed := by
  cases p <;> decide

end Phase

/-! ## What the journal tells -/

/-- The phase that an entry tells of, for the object that enters it. -/
def Entry.phase? : Entry → Option (Handle × Phase)
  | .hooked phase o _ => some (o, phase)
  | .notice (.destroyed o) => some (o, .destroyed)
  | _ => none

/-- The phase that the object enters, if the entry tells of one. -/
def Entry.phaseOf? (o : Handle) (e : Entry) : Option Phase :=
  (e.phase?.filter (·.1.id == o.id)).map (·.2)

namespace World

variable {w w' w'' : World} {o : Handle} {ps qs : List Phase}

/-- The phases that an object has entered so far, the first one first. -/
def phasesOf (w : World) (o : Handle) : List Phase :=
  w.journal.reverse.filterMap (Entry.phaseOf? o)

theorem phasesOf_log (w : World) (e : Entry) (o : Handle) :
    (w.log e).phasesOf o = w.phasesOf o ++ (e.phaseOf? o).toList := by
  rw [phasesOf, log, List.reverse_cons, List.filterMap_append]
  rfl

theorem phasesOf_log_of_phase? (w : World) {e : Entry} {p : Handle} {phase : Phase}
    (he : e.phase? = some (p, phase)) (o : Handle) :
    (w.log e).phasesOf o = w.phasesOf o ++ if p.id = o.id then [phase] else [] := by
  rw [phasesOf_log, Entry.phaseOf?, he]
  by_cases hid : p.id = o.id <;> simp [hid]

/-- The phase that an object is in. An object that is not there yet has its life before it. -/
def stage (w : World) (o : Handle) : Phase :=
  ((w.object? o).map (·.phase)).getD .pending

theorem stage_congr {p : Handle} (h : p.id = o.id) : w.stage p = w.stage o := by
  rw [stage, object?_congr w h, stage]

theorem stage_of_dead (h : w.isAlive o = false) : w.stage o = .pending := by
  rw [stage, Option.not_isSome_iff_eq_none.mp (Bool.eq_false_iff.mp h)]
  rfl

theorem stage_modifyObject (w : World) (p o : Handle) {f : Object → Object}
    (hhandle : ∀ x, (f x).handle = x.handle) (hphase : ∀ x, (f x).phase = x.phase) :
    (w.modifyObject p f).stage o = w.stage o := by
  rw [stage, object?_modifyObject w p o hhandle, stage]
  split
  · rw [Option.map_map, Function.comp_def]
    simp only [hphase]
  · rfl

theorem stage_setPhase {p : Handle} (halive : w.isAlive p = true) (phase : Phase) (o : Handle) :
    (w.setPhase p phase).stage o = if p.id = o.id then phase else w.stage o := by
  rw [stage, setPhase, object?_modifyObject w p o (f := fun x => { x with phase }) fun _ => rfl]
  split
  next hid =>
    obtain ⟨x, hx⟩ := Option.isSome_iff_exists.mp halive
    rw [← object?_congr w hid, hx]
    rfl
  next => rfl

theorem stage_create (w : World) (typeName : String) (attrs : List (String × Value)) (o : Handle) :
    (w.create typeName attrs).2.stage o = w.stage o :=
  map_object?_create Object.phase .pending rfl o

/-- Between the two worlds the object has entered these phases, one after the other, and it is in the
last of them. -/
structure Enters (o : Handle) (ps : List Phase) (w w' : World) : Prop where
  phasesOf : w'.phasesOf o = w.phasesOf o ++ ps
  stage : w'.stage o = ps.getLastD (w.stage o)

namespace Enters

theorem of_same (hphases : w'.phasesOf o = w.phasesOf o) (hstage : w'.stage o = w.stage o) :
    Enters o [] w w' :=
  ⟨hphases.trans (List.append_nil _).symm, hstage⟩

theorem trans (h : Enters o ps w w') (h' : Enters o qs w' w'') : Enters o (ps ++ qs) w w'' := by
  refine ⟨by rw [h'.phasesOf, h.phasesOf, List.append_assoc], ?_⟩
  rw [h'.stage, h.stage, List.getLastD_eq_getLast?, List.getLastD_eq_getLast?,
    List.getLastD_eq_getLast?, List.getLast?_append]
  cases qs.getLast? <;> rfl

end Enters

/-! ## Numbers -/

/-- No object has gone, and each number that has been given out has an object. -/
structure Augments (w w' : World) : Prop where
  nextObject : w.nextObject ≤ w'.nextObject
  isAlive : ∀ o, w'.isAlive o = true ↔
    w.isAlive o = true ∨ w.nextObject ≤ o.id ∧ o.id < w'.nextObject

namespace Augments

theorem of_alive (hnext : w'.nextObject = w.nextObject) (halive : ∀ o, w'.isAlive o = w.isAlive o) :
    Augments w w' :=
  ⟨Nat.le_of_eq hnext.symm, fun o => by
    rw [halive, hnext]
    exact (or_iff_left fun h => Nat.not_lt.mpr h.1 h.2).symm⟩

theorem trans (h : Augments w w') (h' : Augments w' w'') : Augments w w'' := by
  have hle := h.nextObject
  have hle' := h'.nextObject
  refine ⟨Nat.le_trans hle hle', fun o => ?_⟩
  have hnumbers : (w.nextObject ≤ o.id ∧ o.id < w'.nextObject ∨
      w'.nextObject ≤ o.id ∧ o.id < w''.nextObject) ↔
      w.nextObject ≤ o.id ∧ o.id < w''.nextObject := by omega
  rw [h'.isAlive, h.isAlive, or_assoc, hnumbers]

theorem modifyObject (w : World) (o : Handle) {f : Object → Object}
    (hhandle : ∀ x, (f x).handle = x.handle) : Augments w (w.modifyObject o f) :=
  of_alive rfl fun p => isAlive_modifyObject w o p hhandle

theorem create (w : World) (typeName : String) (attrs : List (String × Value)) :
    Augments w (w.create typeName attrs).2 := by
  refine ⟨Nat.le_succ _, fun o => ?_⟩
  have hnumber : w.nextObject ≤ o.id ∧ o.id < (w.create typeName attrs).2.nextObject ↔
      o.id = w.nextObject := by
    change w.nextObject ≤ o.id ∧ o.id < w.nextObject + 1 ↔ _
    omega
  rw [hnumber]
  by_cases ho : o.id = w.nextObject
  · have hnew : (w.create typeName attrs).2.isAlive o = true := by
      change ((w.objects ++ [_]).find? _).isSome = true
      rw [List.find?_append, Option.isSome_or]
      simp [ho]
    simp [hnew, ho]
  · rw [World.isAlive, object?_create_of_ne typeName attrs ho, ← World.isAlive]
    exact (or_iff_left ho).symm

/-- The numbers of objects are below the next one, then as before. -/
theorem lt_nextObject (h : Augments w w')
    (hlt : ∀ o, w.isAlive o = true → o.id < w.nextObject) :
    ∀ o, w'.isAlive o = true → o.id < w'.nextObject := by
  intro o ho
  rcases (h.isAlive o).mp ho with hold | hnew
  · exact Nat.lt_of_lt_of_le (hlt o hold) h.nextObject
  · exact hnew.2

end Augments

/-! ## Changes that are not told of -/

/-- Everything keeps to the relation that leaves the phases of the objects alone, and that no entry for
a phase is made of. -/
structure Mild (T : World → World → Prop) : Prop where
  trans {w w' w'' : World} (h : T w w') (h' : T w' w'') : T w w''
  same {w w' : World} (hobjects : w'.objects = w.objects) (hnext : w'.nextObject = w.nextObject)
    (hjournal : w'.journal = w.journal) : T w w'
  modifyObject (w : World) (o : Handle) {f : Object → Object}
    (hhandle : ∀ x, (f x).handle = x.handle) (hphase : ∀ x, (f x).phase = x.phase) :
    T w (w.modifyObject o f)
  log (w : World) {e : Entry} (he : e.phase? = none) : T w (w.log e)
  create (w : World) (typeName : String) (attrs : List (String × Value)) :
    T w (w.create typeName attrs).2

namespace Mild

variable {T : World → World → Prop} (h : Mild T)

include h

theorem refl (w : World) : T w w :=
  h.same rfl rfl rfl

theorem foldl {ι : Type} {f : World → ι → World} (hf : ∀ w i, T w (f w i)) (l : List ι)
    (w : World) : T w (l.foldl f w) := by
  induction l generalizing w with
  | nil => exact h.refl w
  | cons i l ih => exact h.trans (hf w i) (ih _)

theorem modifyBinding (w : World) (b : Nat) (f : Binding → Binding) : T w (w.modifyBinding b f) :=
  h.same rfl rfl rfl

theorem write (w : World) (o : Handle) (attr : String) (v : Value) : T w (w.write o attr v) :=
  h.trans (h.modifyObject w o (f := fun x => { x with attrs := x.attrs.put attr v }) (fun _ => rfl)
    fun _ => rfl) (h.log _ rfl)

theorem observe (w : World) (o : Handle) (attr : String) (callback : Callback) :
    T w (w.observe o attr callback).2 :=
  h.modifyObject w o (fun _ => rfl) fun _ => rfl

theorem unobserve (w : World) (s : Subscription) : T w (w.unobserve s) :=
  h.modifyObject w s.object (fun _ => rfl) fun _ => rfl

theorem disconnect (w : World) (b : Nat) : T w (w.disconnect b) := by
  unfold World.disconnect
  split
  · exact h.refl w
  · exact h.trans (h.trans (h.foldl h.unobserve _ w) (h.foldl h.unobserve _ _)) (h.modifyBinding _ b _)

theorem release (w : World) (b : Nat) : T w (w.release b) := by
  obtain heq | heq := w.release_cases b
  · rw [heq]
    exact h.refl w
  · rw [heq]
    exact h.disconnect w b

theorem follow (w : World) (b : Nat) (reads : List (Handle × String)) : T w (w.follow b reads) := by
  have hobserved : T w (w.observeAll b reads).2 := by
    induction reads generalizing w with
    | nil => exact h.refl w
    | cons p reads ih => exact h.trans (h.observe w p.1 p.2 (.source b)) (ih _)
  exact h.trans (h.trans hobserved (h.modifyBinding _ b _)) (h.foldl h.unobserve _ _)

theorem addChild (w : World) (parent child : Handle) : T w (w.addChild parent child) :=
  h.trans (h.modifyObject w child (f := fun x => { x with parent := some parent }) (fun _ => rfl)
    fun _ => rfl) (h.modifyObject _ parent (f := fun x => { x with children := x.children ++ [child] })
    (fun _ => rfl) fun _ => rfl)

/-- The notice is the end of what cuts an object off. -/
theorem exists_dismantle (w : World) (p : Handle) :
    ∃ v, T w v ∧ w.dismantle p = v.notice (.destroyed p) := by
  refine ⟨_, ?_, rfl⟩
  have hemptied := h.modifyObject w p (f := fun x => { x with bindings := [] }) (fun _ => rfl)
    fun _ => rfl
  have hdisowned := h.foldl fun w b => h.modifyBinding w b fun x => { x with owned := false }
  have hcut (w : World) := h.modifyObject w p (f := fun x => { x with observers := [], parent := none })
    (fun _ => rfl) fun _ => rfl
  exact h.trans (h.trans (h.trans hemptied (h.foldl h.disconnect _ _)) (hdisowned _ _)) (hcut _)

theorem begin (t : Stretch) (w : World) : T w (t.begin w) := by
  cases t with
  | dispatch c =>
      exact h.trans (h.modifyObject w c.object (f := fun x =>
        { x with inFlight := c.attr :: x.inFlight }) (fun _ => rfl) fun _ => rfl) (h.log _ rfl)
  | _ => exact h.same rfl rfl rfl

theorem finish (t : Stretch) (w : World) : T w (t.finish w) := by
  cases t with
  | dispatch c =>
      exact h.trans (h.modifyObject w c.object (f := fun x =>
        { x with inFlight := x.inFlight.erase c.attr }) (fun _ => rfl) fun _ => rfl) (h.log _ rfl)
  | _ => exact h.same rfl rfl rfl

end Mild

/-- Destroying an object keeps to the relation as well. -/
structure Everyday (T : World → World → Prop) : Prop extends Mild T where
  destroy (w : World) (o : Handle) : T w (w.destroy o)

end World

open World

/-- The deed is no entry that tells of a phase. -/
def Deed.Untold : Deed → Prop
  | log e => e.phase? = none
  | _ => True

namespace World

/-- Only a lifecycle does anything else. -/
theorem Everyday.deed {T : World → World → Prop} (h : Everyday T) {d : Deed} (hd : d.Untold)
    (w : World) : T w (d.apply w) := by
  cases d with
  | log e => exact h.log w hd
  | write o attr v => exact h.write w o attr v
  | create typeName attrs => exact h.create w typeName attrs
  | observe o attr routine => exact h.observe w o attr _
  | unobserve s => exact h.unobserve w s
  | enter f args =>
      obtain ⟨functions, heq⟩ := Deed.apply_enter f args w
      rw [heq]
      exact h.same rfl rfl rfl
  | destroy o => exact h.destroy w o
  | disconnect b => exact h.disconnect w b
  | release b => exact h.release w b
  | resubscribe b reads => exact h.follow w b reads
  | _ => exact h.same rfl rfl rfl

/-! ## Worlds without a change of phase -/

variable {w w' w'' : World}

/-- Every object is in the phase that it was in, and has entered none. -/
structure Stays (w w' : World) : Prop extends Augments w w' where
  phases : ∀ o, Enters o [] w w'

theorem Stays.mild : Mild Stays where
  trans h h' := ⟨h.toAugments.trans h'.toAugments, fun o => (h.phases o).trans (h'.phases o)⟩
  same {w w'} hobjects hnext hjournal := by
    have hobject (o : Handle) : w'.object? o = w.object? o := by rw [object?, hobjects, object?]
    refine ⟨.of_alive hnext fun o => ?_, fun o => .of_same ?_ ?_⟩
    · rw [isAlive, hobject, isAlive]
    · rw [phasesOf, hjournal, phasesOf]
    · rw [stage, hobject, stage]
  modifyObject w o _ hhandle hphase :=
    ⟨.modifyObject w o hhandle, fun p => .of_same rfl (stage_modifyObject w o p hhandle hphase)⟩
  log w e he := by
    refine ⟨.of_alive rfl fun _ => rfl, fun o => .of_same ?_ rfl⟩
    rw [phasesOf_log, Entry.phaseOf?, he]
    exact List.append_nil _
  create w typeName attrs :=
    ⟨.create w typeName attrs, fun o => .of_same rfl (stage_create w typeName attrs o)⟩

/-! ## Destructions -/

/-- No object has entered a phase, but for those that have been destroyed, once and for good. -/
structure Ages (w w' : World) : Prop extends Augments w w' where
  phases : ∀ o, Enters o [] w w' ∨ w.stage o ≠ .destroyed ∧ Enters o [.destroyed] w w'

theorem Ages.of_stays (h : Stays w w') : Ages w w' :=
  ⟨h.toAugments, fun o => .inl (h.phases o)⟩

theorem Ages.trans (h : Ages w w') (h' : Ages w' w'') : Ages w w'' := by
  refine ⟨h.toAugments.trans h'.toAugments, fun o => ?_⟩
  rcases h.phases o with hin | ⟨hstood, hin⟩
  · rcases h'.phases o with hin' | ⟨hstood', hin'⟩
    · exact .inl (hin.trans hin')
    · exact .inr ⟨fun hfell => hstood' (hin.stage.trans hfell), hin.trans hin'⟩
  · rcases h'.phases o with hin' | ⟨hstood', -⟩
    · exact .inr ⟨hstood, hin.trans hin'⟩
    · exact absurd hin.stage hstood'

instance : Trans Ages Ages Ages :=
  ⟨Ages.trans⟩

theorem Ages.mild : Mild Ages where
  trans := .trans
  same hobjects hnext hjournal := .of_stays (Stays.mild.same hobjects hnext hjournal)
  modifyObject w o _ hhandle hphase := .of_stays (Stays.mild.modifyObject w o hhandle hphase)
  log w _ he := .of_stays (Stays.mild.log w he)
  create w typeName attrs := .of_stays (Stays.mild.create w typeName attrs)

/-- Cutting an object off is told of, and makes no difference to its phase. -/
theorem dismantle_tells (w : World) (p : Handle) : Augments w (w.dismantle p) ∧ ∀ o,
    (w.dismantle p).stage o = w.stage o ∧
    (w.dismantle p).phasesOf o = w.phasesOf o ++ if p.id = o.id then [.destroyed] else [] := by
  obtain ⟨v, hin, heq⟩ := Stays.mild.exists_dismantle w p
  rw [heq]
  refine ⟨hin.toAugments.trans (.of_alive rfl fun _ => rfl), fun o => ⟨(hin.phases o).stage, ?_⟩⟩
  have hphases : v.phasesOf o = w.phasesOf o := by simpa using (hin.phases o).phasesOf
  exact (v.phasesOf_log_of_phase? rfl o).trans (congrArg (· ++ _) hphases)

/-- An object is marked at first, and told of when all below it has been. -/
theorem Ages.dismantle {u v : World} {p : Handle} (hmarked : Augments w u)
    (hself : ∀ o, p.id = o.id → w.stage o ≠ .destroyed ∧ u.stage o = .destroyed)
    (hother : ∀ o, p.id ≠ o.id → u.stage o = w.stage o) (hphases : ∀ o, u.phasesOf o = w.phasesOf o)
    (hbelow : Ages u v) : Ages w (v.dismantle p) := by
  obtain ⟨haugments, htells⟩ := v.dismantle_tells p
  refine ⟨(hmarked.trans hbelow.toAugments).trans haugments, fun o => ?_⟩
  obtain ⟨hstage, htold⟩ := htells o
  by_cases hid : p.id = o.id
  · obtain ⟨hstood, hfell⟩ := hself o hid
    have hlast := (hbelow.phases o).resolve_right fun h => h.1 hfell
    rw [if_pos hid, hlast.phasesOf, hphases, List.append_nil] at htold
    exact .inr ⟨hstood, htold, hstage.trans (hlast.stage.trans hfell)⟩
  · rw [if_neg hid, List.append_nil] at htold
    have hbefore : Enters o [] w u := .of_same (hphases o) (hother o hid)
    have hafter : Enters o [] v (v.dismantle p) := .of_same htold hstage
    rcases hbelow.phases o with hin | ⟨hstood, hin⟩
    · exact .inl ((hbefore.trans hin).trans hafter)
    · exact .inr ⟨fun hfell => hstood ((hother o hid).trans hfell), (hbefore.trans hin).trans hafter⟩

/-- Whatever is destroyed, each object that goes with it is told of once. -/
theorem Ages.destroyTo (depth : Nat) (w : World) (p : Handle) : Ages w (w.destroyTo depth p) := by
  induction depth generalizing w p with
  | zero => exact mild.refl w
  | succ depth ih =>
      unfold World.destroyTo
      split
      next => exact mild.refl w
      next x hx =>
        split
        next => exact mild.refl w
        next hstood =>
          have hobject (o : Handle) := w.object?_modifyObject p o (f := fun x =>
            { x with phase := .destroyed, children := [] }) fun _ => rfl
          have hmarked := Augments.modifyObject w p (f := fun x =>
            { x with phase := .destroyed, children := [] }) fun _ => rfl
          -- The mark comes first, so that nothing below the object can have it told of again.
          refine .dismantle hmarked (fun o hid => ?_) (fun o hid => ?_) (fun _ => rfl)
            (mild.foldl ih x.children _)
          · rw [object?_congr w hid] at hx
            rw [stage, stage, hobject, if_pos hid, hx]
            exact ⟨hstood, rfl⟩
          · rw [stage, hobject, if_neg hid, stage]

theorem Ages.everyday : Everyday Ages where
  toMild := mild
  destroy w o := destroyTo _ w o

end World

end LiveUI
