import LiveUI.Proofs.World.Scripts

/-! # What lasts

A relation between worlds lasts when every deed keeps to it. A deed is made of few kinds of changes, so
it is enough to look at these: objects come, or change and lose observers; observers are registered;
bindings are marked, take new sources and are disconnected. What lasts holds between the beginning of
any script and all that comes later. -/

namespace LiveUI

/-- The object changes in no way that announcements depend on, unless observers go. -/
structure Object.Sheds (f : Object → Object) : Prop where
  handle : ∀ x, (f x).handle = x.handle
  observers : ∀ x, (f x).observers.Sublist x.observers
  nextObserver : ∀ x, (f x).nextObserver = x.nextObserver
  inFlight : ∀ x, (f x).inFlight = x.inFlight

/-- The binding keeps its observers, and goes on with what it is at. -/
structure Binding.Marks (f : Binding → Binding) : Prop where
  id : ∀ x, (f x).id = x.id
  busy : ∀ x, (f x).busy = x.busy
  sources : ∀ x, (f x).sources = x.sources
  targetListener : ∀ x, (f x).targetListener = x.targetListener

/-- Every deed keeps to the relation. -/
structure Lasting (T : World → World → Prop) : Prop where
  refl (w : World) : T w w
  trans {w w' w'' : World} (h : T w w') (h' : T w' w'') : T w w''
  same {w w' : World} (hobjects : w'.objects = w.objects) (hbindings : w'.bindings = w.bindings)
    (hnext : w'.nextBinding = w.nextBinding) : T w w'
  shed (w : World) (o : Handle) {f : Object → Object} (hf : Object.Sheds f) : T w (w.modifyObject o f)
  create (w : World) (typeName : String) (attrs : List (String × Value)) :
    T w (w.create typeName attrs).2
  observe (w : World) (o : Handle) (attr : String) (routine : Change → Host) :
    T w (w.observe o attr (.host routine)).2
  mark (w : World) (b : Nat) {f : Binding → Binding} (hf : Binding.Marks f) :
    T w (w.modifyBinding b f)
  disconnect (w : World) (b : Nat) : T w (w.disconnect b)
  follow (w : World) (b : Nat) (reads : List (Handle × String))
    (hfound : (w.binding? b).isSome = true) : T w (w.follow b reads)

namespace Lasting

variable {T : World → World → Prop}

/-- Where it does not matter whose observers come and go, there is less to look at. -/
theorem of_parts (refl : ∀ w, T w w) (trans : ∀ {w w' w''}, T w w' → T w' w'' → T w w'')
    (same : ∀ {w w'}, w'.objects = w.objects → w'.bindings = w.bindings →
      w'.nextBinding = w.nextBinding → T w w')
    (shed : ∀ w o {f}, Object.Sheds f → T w (w.modifyObject o f))
    (create : ∀ w typeName attrs, T w (w.create typeName attrs).2)
    (observe : ∀ w o attr callback, T w (w.observe o attr callback).2)
    (rewire : ∀ w b {f : Binding → Binding}, (∀ x, (f x).id = x.id) → (∀ x, (f x).busy = x.busy) →
      (∀ x, x.targetListener = none → (f x).targetListener = none) → T w (w.modifyBinding b f)) :
    Lasting T := by
  have unobserveAll (ss : List Subscription) (w : World) : T w (ss.foldl World.unobserve w) := by
    induction ss generalizing w with
    | nil => exact refl w
    | cons s ss ih =>
        have hfirst : T w (w.unobserve s) :=
          shed w s.object ⟨fun _ => rfl, fun _ => List.filter_sublist, fun _ => rfl, fun _ => rfl⟩
        exact trans hfirst (ih _)
  have observeAll (b : Nat) (reads : List (Handle × String)) (w : World) :
      T w (w.observeAll b reads).2 := by
    induction reads generalizing w with
    | nil => exact refl w
    | cons p reads ih => exact trans (observe w p.1 p.2 (.source b)) (ih _)
  refine ⟨refl, trans, same, shed, create, fun w o attr routine => observe w o attr _,
    fun w b f hf => ?_, fun w b => ?_, fun w b reads _ => ?_⟩
  · exact rewire w b hf.id hf.busy fun x hx => (hf.targetListener x).trans hx
  · unfold World.disconnect
    split
    · exact refl w
    · exact trans (trans (unobserveAll _ w) (unobserveAll _ _))
        (rewire _ b (fun _ => rfl) (fun _ => rfl) fun _ _ => rfl)
  · have hsources := rewire (w.observeAll b reads).2 b
      (f := fun x => { x with sources := (w.observeAll b reads).1 }) (fun _ => rfl) (fun _ => rfl)
      fun _ hx => hx
    exact trans (trans (observeAll b reads w) hsources) (unobserveAll _ _)

variable {w w' : World} (h : Lasting T)

include h

theorem foldl {ι : Type} {f : World → ι → World} (hf : ∀ w i, T w (f w i)) (l : List ι) (w : World) :
    T w (l.foldl f w) := by
  induction l generalizing w with
  | nil => exact h.refl w
  | cons i l ih => exact h.trans (hf w i) (ih _)

theorem log (w : World) (e : Entry) : T w (w.log e) :=
  h.same rfl rfl rfl

theorem release (w : World) (b : Nat) : T w (w.release b) := by
  obtain heq | heq := w.release_cases b
  · rw [heq]
    exact h.refl w
  · rw [heq]
    exact h.disconnect w b

theorem disown (w : World) (b : Nat) : T w (w.modifyBinding b fun x => { x with owned := false }) :=
  h.mark w b ⟨fun _ => rfl, fun _ => rfl, fun _ => rfl, fun _ => rfl⟩

theorem dismantle (w : World) (o : Handle) : T w (w.dismantle o) := by
  have hemptied : T w (w.modifyObject o fun x => { x with bindings := [] }) :=
    h.shed w o ⟨fun _ => rfl, fun _ => .refl _, fun _ => rfl, fun _ => rfl⟩
  have hcut (w : World) : T w (w.modifyObject o fun x => { x with observers := [], parent := none }) :=
    h.shed w o ⟨fun _ => rfl, fun _ => List.nil_sublist _, fun _ => rfl, fun _ => rfl⟩
  have hdisconnected := h.foldl h.disconnect (((w.object? o).map (·.bindings)).getD [])
    (w.modifyObject o fun x => { x with bindings := [] })
  exact h.trans (h.trans (h.trans (h.trans hemptied hdisconnected) (h.foldl h.disown _ _)) (hcut _))
    (h.log _ _)

theorem destroyTo (depth : Nat) (w : World) (o : Handle) : T w (w.destroyTo depth o) := by
  induction depth generalizing w o with
  | zero => exact h.refl w
  | succ depth ih =>
      unfold World.destroyTo
      split
      · exact h.refl w
      · split
        · exact h.refl w
        · have hmarked : T w (w.modifyObject o fun x =>
              { x with phase := .destroyed, children := [] }) :=
            h.shed w o ⟨fun _ => rfl, fun _ => .refl _, fun _ => rfl, fun _ => rfl⟩
          exact h.trans (h.trans hmarked (h.foldl ih _ _)) (h.dismantle _ o)

theorem write (w : World) (o : Handle) (attr : String) (v : Value) : T w (w.write o attr v) :=
  h.trans (h.shed w o (f := fun x => { x with attrs := x.attrs.put attr v })
    ⟨fun _ => rfl, fun _ => .refl _, fun _ => rfl, fun _ => rfl⟩) (h.log _ _)

theorem unobserve (w : World) (s : Subscription) : T w (w.unobserve s) :=
  h.shed w s.object ⟨fun _ => rfl, fun _ => List.filter_sublist, fun _ => rfl, fun _ => rfl⟩

theorem deed {d : Deed} (hready : d.ready w = true) : T w (d.apply w) := by
  cases d with
  | log e => exact h.log w e
  | write o attr v => exact h.write w o attr v
  | create typeName attrs => exact h.create w typeName attrs
  | observe o attr routine => exact h.observe w o attr routine
  | unobserve s => exact h.unobserve w s
  | function name body => exact h.same rfl rfl rfl
  | builtin b => exact h.same rfl rfl rfl
  | enter f args =>
      obtain ⟨functions, heq⟩ := Deed.apply_enter f args w
      rw [heq]
      exact h.same rfl rfl rfl
  | remember m => exact h.same rfl rfl rfl
  | destroy o => exact h.destroyTo _ w o
  | disconnect b => exact h.disconnect w b
  | release b => exact h.release w b
  | resubscribe b reads => exact h.follow w b reads hready

/-! ## Scripts -/

section Stretches

variable {α : Type} (hstretch : ∀ (t : Stretch) {w w₁ : World}, t.canBegin w = true →
  T (t.begin w) w₁ → T w (t.finish w₁))

include hstretch

/-- What lasts, and holds again at the end of each stretch, holds at the end of a script. -/
theorem run_of_stretch {p : Script α} {a : α} (hrun : p.run w = some (a, w')) : T w w' := by
  induction p generalizing w w' with
  | done b =>
      obtain ⟨-, rfl⟩ := by simpa [Script.run] using hrun
      exact h.refl w
  | fail => cases hrun
  | look next ih => exact ih w hrun
  | act d next ih =>
      obtain ⟨hready, hrun⟩ := Script.run_act_eq_some.mp hrun
      exact h.trans (h.deed hready) (ih hrun)
  | within t body next hbody ih =>
      obtain ⟨hbegin, r, w₁, hrunBody, hrun⟩ := Script.run_within_eq_some.mp hrun
      exact h.trans (hstretch t hbegin (hbody hrunBody)) (ih r hrun)

end Stretches

end Lasting

/-- Neither deeds nor stretches make a difference to the relation. -/
structure Enduring (T : World → World → Prop) : Prop extends Lasting T where
  flight (w : World) (o : Handle) (f : List String → List String) :
    T w (w.modifyObject o fun x => { x with inFlight := f x.inFlight })
  busy (w : World) (b : Nat) (busy : Bool) : T w (w.setBusy b busy)

namespace Enduring

variable {T : World → World → Prop} {w w' : World} {α : Type} {p : Script α} (h : Enduring T)

include h

theorem begin (t : Stretch) (w : World) : T w (t.begin w) := by
  cases t with
  | dispatch c => exact h.trans (h.flight w c.object (c.attr :: ·)) (h.log _ _)
  | work b => exact h.busy w b true
  | evaluation b => exact h.refl w

theorem finish (t : Stretch) (w : World) : T w (t.finish w) := by
  cases t with
  | dispatch c => exact h.trans (h.flight w c.object (·.erase c.attr)) (h.log _ _)
  | work b => exact h.busy w b false
  | evaluation b => exact h.refl w

theorem run {a : α} (hrun : p.run w = some (a, w')) : T w w' :=
  h.run_of_stretch (fun t _ _ _ hbody => h.trans (h.trans (h.begin t _) hbody) (h.finish t _)) hrun

/-- What endures holds all along a script. -/
theorem passes {s : List Stretch} (hpass : p.Passes w s w') : T w w' := by
  induction hpass with
  | now => exact h.refl _
  | look _ ih => exact ih
  | act hready _ ih => exact h.trans (h.deed hready) ih
  | inside _ _ ih => exact h.trans (h.begin _ _) ih
  | after _ hbody _ ih =>
      exact h.trans (h.trans (h.trans (h.begin _ _) (h.run hbody)) (h.finish _ _)) ih

/-- What endures holds from each world that is passed to the end. -/
theorem rest {v : World} {a : α} {s : List Stretch} (hpass : p.Passes w s v)
    (hrun : p.run w = some (a, w')) : T v w' := by
  induction hpass generalizing w' with
  | now => exact h.run hrun
  | look _ ih => exact ih hrun
  | act _ _ ih => exact ih (Script.run_act_eq_some.mp hrun).2
  | inside _ _ ih =>
      obtain ⟨-, r, w₁, hbody, hnext⟩ := Script.run_within_eq_some.mp hrun
      exact h.trans (h.trans (ih hbody) (h.finish _ _)) (h.run hnext)
  | after _ hbody _ ih =>
      obtain ⟨-, r, w₁, hbody', hnext⟩ := Script.run_within_eq_some.mp hrun
      obtain ⟨rfl, rfl⟩ := Prod.mk.inj (Option.some.inj (hbody.symm.trans hbody'))
      exact ih hnext

end Enduring

namespace World

/-- The bindings are still there, and do not listen to their targets unless they did before. -/
def KeepsBindings (w w' : World) : Prop :=
  ∀ b x, w.binding? b = some x → ∃ y, w'.binding? b = some y ∧
    (x.targetListener = none → y.targetListener = none)

namespace KeepsBindings

variable {w w' w'' : World}

theorem refl (w : World) : KeepsBindings w w :=
  fun _ x hx => ⟨x, hx, id⟩

theorem trans (h : KeepsBindings w w') (h' : KeepsBindings w' w'') : KeepsBindings w w'' := by
  intro b x hx
  obtain ⟨y, hy, hlistener⟩ := h b x hx
  obtain ⟨z, hz, hlistener'⟩ := h' b y hy
  exact ⟨z, hz, fun hnone => hlistener' (hlistener hnone)⟩

theorem of_bindings (hbindings : w'.bindings = w.bindings) : KeepsBindings w w' := by
  intro b x hx
  exact ⟨x, by rwa [binding?, hbindings], id⟩

theorem modifyBinding (w : World) (b : Nat) {f : Binding → Binding} (hid : ∀ x, (f x).id = x.id)
    (hlistener : ∀ x, x.targetListener = none → (f x).targetListener = none) :
    KeepsBindings w (w.modifyBinding b f) := by
  intro c x hx
  rw [binding?_modifyBinding w b c hid]
  split
  · exact ⟨f x, by rw [hx]; rfl, hlistener x⟩
  · exact ⟨x, hx, id⟩

theorem enduring : Enduring KeepsBindings where
  toLasting := .of_parts refl trans (fun _ hbindings _ => of_bindings hbindings)
    (fun _ _ _ _ => of_bindings rfl) (fun _ _ _ => of_bindings rfl)
    (fun _ _ _ _ => of_bindings rfl) fun w b _ hid _ hlistener => modifyBinding w b hid hlistener
  flight _ _ _ := of_bindings rfl
  busy w b _ := modifyBinding w b (fun _ => rfl) fun _ => id

end KeepsBindings

end World

end LiveUI
