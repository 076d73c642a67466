import LiveUI.Proofs.World.Realms

/-! # What is laid over a world

New objects and bindings come into a world, and what was there may be left alone meanwhile. Then each
object is observed as before, with the later observers behind the earlier ones, and owns what it
owned. As a binding that came later holds on to all of its observers, and to no earlier one, it can be
taken away again without a trace. -/

namespace LiveUI

/-- Whatever the answers, the routine and the functions that it makes add and remove no observers,
and they disconnect and destroy nothing. -/
def Host.Meek : Host → Prop
  | done _ => True
  | read _ _ next => ∀ v, (next v).Meek
  | write _ _ _ next => ∀ changed, (next changed).Meek
  | emit _ _ _ next => next.Meek
  | observe _ _ _ _ => False
  | unobserve _ _ => False
  | inFlight _ _ next => ∀ found, (next found).Meek
  | phase _ next => ∀ p, (next p).Meek
  | create _ _ next => ∀ o, (next o).Meek
  | function _ body next => (∀ calls args, (body calls args).Meek) ∧ ∀ f, (next f).Meek
  | builtin _ next => ∀ f, (next f).Meek
  | destroy _ _ => False
  | disconnect _ _ => False
  | report _ next => next.Meek
  | «recall» next => ∀ m, (next m).Meek
  | remember _ next => next.Meek

def Entry.isCall : Entry → Bool
  | called _ _ => true
  | _ => false

namespace World

variable {w₀ w w' w'' : World} {L L' : Nat → List Subscription}

/-- The bindings that an object owns. -/
def owned (w : World) (o : Handle) : List Nat :=
  ((w.object? o).map (·.bindings)).getD []

theorem owned_modifyObject (w : World) (o p : Handle) {f : Object → Object}
    (hhandle : ∀ x, (f x).handle = x.handle) (hbindings : ∀ x, (f x).bindings = x.bindings) :
    (w.modifyObject o f).owned p = w.owned p := by
  rw [owned, object?_modifyObject w o p hhandle, owned]
  split
  · cases w.object? p <;> simp [hbindings]
  · rfl

/-- The observers that a binding holds on to. -/
def entered (w : World) (b : Nat) : List Subscription :=
  ((w.binding? b).map (·.subscriptions)).getD []

/-- The numbers that come next are new, and functions of the host are meek. -/
structure Regular (w : World) : Prop where
  objects : ∀ x ∈ w.objects, x.handle.id < w.nextObject
  bindings : ∀ x ∈ w.bindings, x.id < w.nextBinding
  observers : ∀ o, ∀ obs ∈ w.observers o, obs.id < w.nextObserver o ∧
    ∀ b, obs.callback.binding? = some b → b < w.nextBinding
  functions : ∀ f ∈ w.functions, ∀ calls args, (f.body calls args).Meek

/-- No observer that was registered in `w₀` has been called since. -/
def Undisturbed (w₀ w : World) : Prop :=
  ∀ recent, w.journal = recent ++ w₀.journal →
    ∀ c id, Entry.called c id ∈ recent → w₀.isRegistered ⟨c.object, id⟩ = false

theorem Undisturbed.of_suffix (h : Undisturbed w₀ w') (hjournal : w.journal <:+ w'.journal) :
    Undisturbed w₀ w := by
  intro recent hrecent c id hmem
  obtain ⟨later, hlater⟩ := hjournal
  refine h (later ++ recent) ?_ c id (List.mem_append_right later hmem)
  rw [← hlater, hrecent, List.append_assoc]

/-! ## Observers -/

/-- Behind the observers that were there in `w₀` there are only those of later bindings, and these are
entered in `L`, where no earlier observer is. -/
structure Layered (w₀ w : World) (L : Nat → List Subscription) : Prop where
  nextObserver : ∀ o, w₀.nextObserver o ≤ w.nextObserver o
  observers : ∀ o, ∃ later, w.observers o = w₀.observers o ++ later ∧ ∀ obs ∈ later,
    w₀.nextObserver o ≤ obs.id ∧ ∃ b, obs.callback.binding? = some b ∧ w₀.nextBinding ≤ b
  heard : ∀ o, ∀ obs ∈ w.observers o, ∀ b, obs.callback.binding? = some b → w₀.nextBinding ≤ b →
    ∃ s ∈ L b, s.object.id = o.id ∧ s.id = obs.id
  issued : ∀ b, w₀.nextBinding ≤ b → ∀ s ∈ L b, w₀.nextObserver s.object ≤ s.id

namespace Layered

theorem congr (h : Layered w₀ w L) (hobs : ∀ o, w'.observers o = w.observers o)
    (hnext : ∀ o, w'.nextObserver o = w.nextObserver o) : Layered w₀ w' L := by
  refine ⟨fun o => ?_, fun o => ?_, fun o => ?_, h.issued⟩
  · rw [hnext]
    exact h.nextObserver o
  · rw [hobs]
    exact h.observers o
  · rw [hobs]
    exact h.heard o

/-- More may be entered, as long as it is of later observers. -/
theorem weaken (h : Layered w₀ w L) (hle : ∀ b, w₀.nextBinding ≤ b → ∀ s ∈ L b, s ∈ L' b)
    (hissued : ∀ b, w₀.nextBinding ≤ b → ∀ s ∈ L' b, w₀.nextObserver s.object ≤ s.id) :
    Layered w₀ w L' := by
  refine ⟨h.nextObserver, h.observers, fun o obs hobs b hcall hb => ?_, hissued⟩
  obtain ⟨s, hs, hsame⟩ := h.heard o obs hobs b hcall hb
  exact ⟨s, hle b hb s hs, hsame⟩

theorem observe (h : Layered w₀ w L) (o : Handle) (attr : String) {callback : Callback} {b : Nat}
    (hcall : callback.binding? = some b) (hb : w₀.nextBinding ≤ b) :
    Layered w₀ (w.observe o attr callback).2
      fun c => if c = b then L c ++ [(w.observe o attr callback).1] else L c := by
  have hnew : w₀.nextObserver o ≤ w.nextObserver o := h.nextObserver o
  refine ⟨fun p => ?_, fun p => ?_, fun p obs hobs c hc hlate => ?_, fun c hlate s hs => ?_⟩
  · rw [nextObserver_observe]
    split
    next hp =>
      rw [← w₀.nextObserver_congr hp.1]
      omega
    next => exact h.nextObserver p
  · obtain ⟨later, heq, hlater⟩ := h.observers p
    rw [observers_observe]
    split
    next hp =>
      refine ⟨later ++ [⟨w.nextObserver o, attr, callback⟩], by rw [heq, List.append_assoc], ?_⟩
      refine List.forall_mem_append.mpr ⟨hlater, List.forall_mem_singleton.mpr ⟨?_, b, hcall, hb⟩⟩
      rw [← w₀.nextObserver_congr hp.1]
      exact hnew
    next => exact ⟨later, heq, hlater⟩
  · have hold : obs ∈ w.observers p → ∃ s ∈ if c = b then L c ++ [(w.observe o attr callback).1]
        else L c, s.object.id = p.id ∧ s.id = obs.id := by
      intro hobs
      obtain ⟨s, hs, hsame⟩ := h.heard p obs hobs c hc hlate
      refine ⟨s, ?_, hsame⟩
      split
      · exact List.mem_append_left _ hs
      · exact hs
    obtain hobs | ⟨hid, -, rfl⟩ := mem_observers_observe.mp hobs
    · exact hold hobs
    · obtain rfl : c = b := Option.some.inj (hc.symm.trans hcall)
      rw [if_pos rfl]
      exact ⟨_, List.mem_append_right _ (List.mem_singleton_self _), hid, rfl⟩
  · split at hs
    · rcases List.mem_append.mp hs with hs | hs
      · exact h.issued c hlate s hs
      · rw [List.mem_singleton.mp hs]
        exact hnew
    · exact h.issued c hlate s hs

/-- A later observer may go. -/
theorem unobserve (h : Layered w₀ w L) (hw : Regular w₀) {s : Subscription}
    (hs : w₀.nextObserver s.object ≤ s.id) :
    Layered w₀ (w.unobserve s) fun b => (L b).filter fun t => ¬t.Same s := by
  refine ⟨fun o => ?_, fun o => ?_, fun o obs hobs b hcall hb => ?_, fun b hb t ht => ?_⟩
  · rw [nextObserver_unobserve]
    exact h.nextObserver o
  · obtain ⟨later, heq, hlater⟩ := h.observers o
    rw [observers_unobserve]
    split
    next hid =>
      -- Earlier observers have smaller numbers than the one that goes.
      have hearlier : (w₀.observers o).filter (·.id != s.id) = w₀.observers o := by
        refine List.filter_eq_self.mpr fun obs hobs => ?_
        have hlt := (hw.observers o obs hobs).1
        rw [w₀.nextObserver_congr hid] at hs
        simp only [bne_iff_ne, ne_eq]
        omega
      refine ⟨later.filter (·.id != s.id), by rw [heq, List.filter_append, hearlier], ?_⟩
      exact fun obs hobs => hlater obs (List.mem_of_mem_filter hobs)
    next => exact ⟨later, heq, hlater⟩
  · obtain ⟨hobs, hne⟩ := mem_observers_unobserve.mp hobs
    obtain ⟨t, ht, hid, hnum⟩ := h.heard o obs hobs b hcall hb
    refine ⟨t, List.mem_filter.mpr ⟨ht, ?_⟩, hid, hnum⟩
    simp only [decide_eq_true_eq]
    exact fun hsame => hne ⟨hsame.1.symm.trans hid, hsame.2.symm.trans hnum⟩
  · exact h.issued b hb t (List.mem_of_mem_filter ht)

theorem unobserveAll (h : Layered w₀ w L) (hw : Regular w₀) {stale : List Subscription}
    (hstale : ∀ s ∈ stale, w₀.nextObserver s.object ≤ s.id) :
    Layered w₀ (stale.foldl World.unobserve w) fun b =>
      (L b).filter fun t => ∀ s ∈ stale, ¬t.Same s := by
  induction stale generalizing w L with
  | nil => simpa using h
  | cons s stale ih =>
      have hrest := ih (h.unobserve hw (hstale s List.mem_cons_self)) fun t ht =>
        hstale t (List.mem_cons_of_mem s ht)
      simp only [List.filter_filter] at hrest
      simpa [Bool.and_comm] using hrest

end Layered

/-! ## Worlds laid over others -/

/-- A world in which all of `w₀` is there as it was, for all that concerns observers and the ownership
of bindings. Further observers are entered in `L`. -/
structure OverlaidBy (w₀ w : World) (L : Nat → List Subscription) : Prop where
  journal : w₀.journal <:+ w.journal
  objects : ∀ x ∈ w.objects, x.handle.id < w.nextObject
  bindings : ∀ x ∈ w.bindings, x.id < w.nextBinding
  nextObject : w₀.nextObject ≤ w.nextObject
  nextBinding : w₀.nextBinding ≤ w.nextBinding
  layered : Layered w₀ w L
  /-- An object owns later bindings that write into it. -/
  owned : ∀ o, ∃ later, w.owned o = w₀.owned o ++ later ∧ ∀ b ∈ later, w₀.nextBinding ≤ b ∧
    ∃ x, w.binding? b = some x ∧ x.target.id = o.id
  functions : ∀ f ∈ w.functions, ∀ calls args, (f.body calls args).Meek

/-- Each further observer is held on to by its binding. -/
abbrev Overlaid (w₀ w : World) : Prop :=
  OverlaidBy w₀ w w.entered

/-- The objects are there with the same children, and none has been destroyed. -/
structure KeepsTrees (w w' : World) : Prop where
  nextObject : w.nextObject ≤ w'.nextObject
  objects : ∀ o x, w.object? o = some x → ∃ y, w'.object? o = some y ∧ y.children = x.children ∧
    (x.phase ≠ .destroyed → y.phase ≠ .destroyed)

/-- The bindings have the same targets, and none has begun to listen to its target. -/
structure Retains (w w' : World) : Prop extends KeepsTrees w w' where
  bindings : ∀ b x, w.binding? b = some x → ∃ y, w'.binding? b = some y ∧ y.target = x.target ∧
    (x.targetListener = none → y.targetListener = none)

/-- What was done between the two worlds is laid over `w₀`. -/
structure Overlays (w₀ w w' : World) : Prop where
  overlaid : Overlaid w₀ w'
  retains : Retains w w'

theorem KeepsTrees.trans (h : KeepsTrees w w') (h' : KeepsTrees w' w'') : KeepsTrees w w'' := by
  refine ⟨Nat.le_trans h.nextObject h'.nextObject, fun o x hx => ?_⟩
  obtain ⟨y, hy, hchildren, hphase⟩ := h.objects o x hx
  obtain ⟨z, hz, hchildren', hphase'⟩ := h'.objects o y hy
  exact ⟨z, hz, hchildren'.trans hchildren, hphase' ∘ hphase⟩

theorem KeepsTrees.of_same (hobjects : w'.objects = w.objects)
    (hnextObject : w'.nextObject = w.nextObject) : KeepsTrees w w' := by
  refine ⟨Nat.le_of_eq hnextObject.symm, fun o x hx => ⟨x, ?_, rfl, id⟩⟩
  simpa only [World.object?, hobjects] using hx

theorem KeepsTrees.refl (w : World) : KeepsTrees w w :=
  .of_same rfl rfl

theorem KeepsTrees.modifyObject (w : World) (o : Handle) {f : Object → Object}
    (hhandle : ∀ x, (f x).handle = x.handle) (hchildren : ∀ x, (f x).children = x.children)
    (hphase : ∀ x, x.phase ≠ .destroyed → (f x).phase ≠ .destroyed) : KeepsTrees w (w.modifyObject o f) := by
  refine ⟨Nat.le_refl _, fun p x hx => ?_⟩
  rw [object?_modifyObject w o p hhandle, hx]
  split
  · exact ⟨f x, rfl, hchildren x, hphase x⟩
  · exact ⟨x, rfl, rfl, id⟩

namespace Retains

theorem trans (h : Retains w w') (h' : Retains w' w'') : Retains w w'' := by
  refine ⟨h.toKeepsTrees.trans h'.toKeepsTrees, fun b x hx => ?_⟩
  obtain ⟨y, hy, htarget, hlistener⟩ := h.bindings b x hx
  obtain ⟨z, hz, htarget', hlistener'⟩ := h'.bindings b y hy
  exact ⟨z, hz, htarget'.trans htarget, fun hnone => hlistener' (hlistener hnone)⟩

theorem of_bindings (h : KeepsTrees w w') (hbindings : w'.bindings = w.bindings) : Retains w w' := by
  refine ⟨h, fun b x hx => ⟨x, ?_, rfl, id⟩⟩
  simpa only [World.binding?, hbindings] using hx

theorem refl (w : World) : Retains w w :=
  .of_bindings (.refl w) rfl

theorem modifyObject (w : World) (o : Handle) {f : Object → Object}
    (hhandle : ∀ x, (f x).handle = x.handle) (hchildren : ∀ x, (f x).children = x.children)
    (hphase : ∀ x, x.phase ≠ .destroyed → (f x).phase ≠ .destroyed) :
    Retains w (w.modifyObject o f) :=
  .of_bindings (.modifyObject w o hhandle hchildren hphase) rfl

theorem modifyBinding (w : World) (b : Nat) {f : Binding → Binding} (hid : ∀ x, (f x).id = x.id)
    (htarget : ∀ x, (f x).target = x.target)
    (hlistener : ∀ x, x.targetListener = none → (f x).targetListener = none) :
    Retains w (w.modifyBinding b f) := by
  refine ⟨.of_same rfl rfl, fun c x hx => ?_⟩
  rw [binding?_modifyBinding w b c hid, hx]
  split
  · exact ⟨f x, rfl, htarget x, hlistener x⟩
  · exact ⟨x, rfl, rfl, id⟩

/-- Only the binding that begins to listen changes. -/
theorem listen (h : Retains w w') {b : Nat} (hnone : w.binding? b = none) (o : Handle)
    (attr : String) : Retains w (w'.listen o attr b) := by
  have hobserve : KeepsTrees w' (w'.observe o attr (.target b)).2 :=
    .modifyObject w' o (fun _ => rfl) (fun _ => rfl) fun _ hphase => hphase
  refine ⟨(h.toKeepsTrees.trans hobserve).trans (.of_same rfl rfl), fun c x hx => ?_⟩
  have hne : ¬b = c := by
    rintro rfl
    rw [hnone] at hx
    cases hx
  obtain ⟨y, hy, hkept⟩ := h.bindings c x hx
  refine ⟨y, ?_, hkept⟩
  rw [World.listen, binding?_modifyBinding _ b c (f := fun x =>
    { x with targetListener := some (w'.observe o attr (.target b)).1 }) fun _ => rfl, if_neg hne]
  exact hy

theorem unobserveAll (w : World) (stale : List Subscription) :
    Retains w (stale.foldl World.unobserve w) := by
  induction stale generalizing w with
  | nil => exact .refl w
  | cons s stale ih =>
      have hfirst : Retains w (w.unobserve s) :=
        modifyObject w s.object (fun _ => rfl) (fun _ => rfl) fun _ hphase => hphase
      exact hfirst.trans (ih _)

end Retains

/-- A world is laid over itself. -/
theorem Regular.overlaid (h : Regular w) : Overlaid w w := by
  refine ⟨List.suffix_refl _, h.objects, h.bindings, Nat.le_refl _, Nat.le_refl _, ⟨fun _ =>
    Nat.le_refl _, fun o => ⟨[], (List.append_nil _).symm, nofun⟩, fun o obs hobs b hcall hb => ?_,
    fun b hb s hs => ?_⟩, fun o => ⟨[], (List.append_nil _).symm, nofun⟩, h.functions⟩
  · have hlt := (h.observers o obs hobs).2 b hcall
    omega
  · unfold entered at hs
    cases hx : w.binding? b with
    | none => simp [hx] at hs
    | some x =>
        have hlt := h.bindings x (w.mem_of_binding? hx)
        rw [w.id_of_binding? hx] at hlt
        omega

namespace OverlaidBy

/-- Objects may change in all but their bindings, if the observers are entered after it. -/
theorem modifyObject (h : OverlaidBy w₀ w L) (o : Handle) {f : Object → Object}
    (hhandle : ∀ x, (f x).handle = x.handle) (hbindings : ∀ x, (f x).bindings = x.bindings)
    (hlayered : Layered w₀ (w.modifyObject o f) L') : OverlaidBy w₀ (w.modifyObject o f) L' := by
  refine ⟨h.journal, fun x hx => ?_, h.bindings, h.nextObject, h.nextBinding, hlayered, fun p => ?_,
    h.functions⟩
  · obtain ⟨y, hy, rfl⟩ := List.mem_map.mp hx
    split
    · rw [hhandle]
      exact h.objects y hy
    · exact h.objects y hy
  · rw [owned_modifyObject w o p hhandle hbindings]
    exact h.owned p

theorem observe (h : OverlaidBy w₀ w L) (o : Handle) (attr : String) {callback : Callback} {b : Nat}
    (hcall : callback.binding? = some b) (hb : w₀.nextBinding ≤ b) :
    OverlaidBy w₀ (w.observe o attr callback).2
      fun c => if c = b then L c ++ [(w.observe o attr callback).1] else L c :=
  h.modifyObject o (fun _ => rfl) (fun _ => rfl) (h.layered.observe o attr hcall hb)

theorem unobserveAll (h : OverlaidBy w₀ w L) (hw : Regular w₀) {stale : List Subscription}
    (hstale : ∀ s ∈ stale, w₀.nextObserver s.object ≤ s.id) :
    OverlaidBy w₀ (stale.foldl World.unobserve w) fun b =>
      (L b).filter fun t => ∀ s ∈ stale, ¬t.Same s := by
  have hlayered := h.layered.unobserveAll hw hstale
  suffices hsame : ∀ L', Layered w₀ (stale.foldl World.unobserve w) L' →
      OverlaidBy w₀ (stale.foldl World.unobserve w) L' from hsame _ hlayered
  clear hlayered
  induction stale generalizing w L with
  | nil => exact fun L' hlayered => { h with layered := hlayered }
  | cons s stale ih =>
      have hfirst := h.modifyObject s.object (f := fun x =>
        { x with observers := x.observers.filter (·.id != s.id) }) (fun _ => rfl) (fun _ => rfl)
        (h.layered.unobserve hw (hstale s List.mem_cons_self))
      exact ih hfirst fun t ht => hstale t (List.mem_cons_of_mem s ht)

theorem modifyBinding (h : OverlaidBy w₀ w L) (b : Nat) {f : Binding → Binding}
    (hid : ∀ x, (f x).id = x.id) (htarget : ∀ x, (f x).target = x.target) :
    OverlaidBy w₀ (w.modifyBinding b f) L := by
  refine ⟨h.journal, h.objects, fun x hx => ?_, h.nextObject, h.nextBinding,
    h.layered.congr (fun _ => rfl) fun _ => rfl, fun o => ?_, h.functions⟩
  · obtain ⟨y, hy, ⟨-, rfl⟩ | ⟨-, rfl⟩⟩ := w.mem_bindings_modifyBinding hx
    · rw [hid]
      exact h.bindings y hy
    · exact h.bindings x hy
  · obtain ⟨later, heq, hlater⟩ := h.owned o
    refine ⟨later, heq, fun c hc => ?_⟩
    obtain ⟨hlate, x, hx, hxtarget⟩ := hlater c hc
    refine ⟨hlate, ?_⟩
    rw [binding?_modifyBinding w b c hid, hx]
    split
    · exact ⟨f x, rfl, (congrArg (·.id) (htarget x)).trans hxtarget⟩
    · exact ⟨x, rfl, hxtarget⟩

/-- The bindings hold on to what is entered. -/
theorem overlaid (h : OverlaidBy w₀ w L)
    (hle : ∀ b, w₀.nextBinding ≤ b → ∀ s ∈ L b, s ∈ w.entered b)
    (hissued : ∀ b, w₀.nextBinding ≤ b → ∀ s ∈ w.entered b, w₀.nextObserver s.object ≤ s.id) :
    Overlaid w₀ w :=
  { h with layered := h.layered.weaken hle hissued }

end OverlaidBy

theorem entered_of_binding? {b : Nat} {x : Binding} (hx : w.binding? b = some x) :
    w.entered b = x.subscriptions := by
  simp only [entered, hx, Option.map_some, Option.getD_some]

theorem entered_modifyBinding (w : World) (b c : Nat) {f : Binding → Binding}
    (hid : ∀ x, (f x).id = x.id) : (w.modifyBinding b f).entered c =
      if b = c then ((w.binding? c).map fun x => (f x).subscriptions).getD [] else w.entered c := by
  simp only [entered, binding?_modifyBinding w b c hid]
  split
  · cases w.binding? c <;> rfl
  · rfl

namespace Overlaid

theorem refl (h : Overlaid w₀ w) : Overlays w₀ w w :=
  ⟨h, .refl w⟩

/-! ## Operations on objects -/

theorem of_same (h : Overlaid w₀ w) (hobjects : w'.objects = w.objects)
    (hbindings : w'.bindings = w.bindings) (hnextObject : w'.nextObject = w.nextObject)
    (hnextBinding : w'.nextBinding = w.nextBinding) (hjournal : w.journal <:+ w'.journal)
    (hfunctions : ∀ f ∈ w'.functions, ∀ calls args, (f.body calls args).Meek) :
    Overlays w₀ w w' := by
  have hobject (o : Handle) : w'.object? o = w.object? o := by
    simp only [World.object?, hobjects]
  have hbinding (b : Nat) : w'.binding? b = w.binding? b := by
    simp only [World.binding?, hbindings]
  refine ⟨⟨h.journal.trans hjournal, ?_, ?_, hnextObject ▸ h.nextObject, hnextBinding ▸ h.nextBinding,
    ?_, fun o => ?_, hfunctions⟩, .of_bindings (.of_same hobjects hnextObject) hbindings⟩
  · rw [hobjects, hnextObject]
    exact h.objects
  · rw [hbindings, hnextBinding]
    exact h.bindings
  · have hentered : w'.entered = w.entered := funext fun b => by simp only [entered, hbinding]
    rw [hentered]
    exact h.layered.congr (fun o => by simp only [World.observers, hobject])
      fun o => by simp only [World.nextObserver, hobject]
  · simp only [World.owned, hobject, hbinding]
    exact h.owned o

theorem log (h : Overlaid w₀ w) (e : Entry) : Overlays w₀ w (w.log e) :=
  h.of_same rfl rfl rfl rfl (List.suffix_cons e _) h.functions

/-- Objects may change in all but their observers and bindings. -/
theorem modifyObject (h : Overlaid w₀ w) (o : Handle) {f : Object → Object}
    (hhandle : ∀ x, (f x).handle = x.handle) (hobservers : ∀ x, (f x).observers = x.observers)
    (hnext : ∀ x, (f x).nextObserver = x.nextObserver) (hbindings : ∀ x, (f x).bindings = x.bindings) :
    Overlaid w₀ (w.modifyObject o f) :=
  OverlaidBy.modifyObject h o hhandle hbindings <| h.layered.congr
    (fun p => w.observers_modifyObject o p hhandle hobservers)
    fun p => w.nextObserver_modifyObject o p hhandle hnext

/-- Such a change is noted. It leaves children alone and destroys nothing. -/
theorem noted {o : Handle} {f : Object → Object} (hput : Overlaid w₀ (w.modifyObject o f))
    (hhandle : ∀ x, (f x).handle = x.handle) (hchildren : ∀ x, (f x).children = x.children)
    (hphase : ∀ x, x.phase ≠ .destroyed → (f x).phase ≠ .destroyed) (e : Entry) :
    Overlays w₀ w ((w.modifyObject o f).log e) :=
  ⟨(hput.log e).overlaid, (Retains.modifyObject w o hhandle hchildren hphase).trans
    (hput.log e).retains⟩

theorem write (h : Overlaid w₀ w) (o : Handle) (attr : String) (v : Value) :
    Overlays w₀ w (w.write o attr v) :=
  have hput : Overlaid w₀ (w.modifyObject o fun x => { x with attrs := x.attrs.put attr v }) :=
    h.modifyObject o (fun _ => rfl) (fun _ => rfl) (fun _ => rfl) fun _ => rfl
  hput.noted (fun _ => rfl) (fun _ => rfl) (fun _ hphase => hphase) _

theorem beginFlight (h : Overlaid w₀ w) (c : Change) : Overlays w₀ w (w.beginFlight c) :=
  have hput : Overlaid w₀ (w.modifyObject c.object fun x => { x with inFlight := c.attr :: x.inFlight }) :=
    h.modifyObject c.object (fun _ => rfl) (fun _ => rfl) (fun _ => rfl) fun _ => rfl
  hput.noted (fun _ => rfl) (fun _ => rfl) (fun _ hphase => hphase) _

theorem endFlight (h : Overlaid w₀ w) (c : Change) : Overlays w₀ w (w.endFlight c) :=
  have hput : Overlaid w₀ (w.modifyObject c.object fun x => { x with inFlight := x.inFlight.erase c.attr }) :=
    h.modifyObject c.object (fun _ => rfl) (fun _ => rfl) (fun _ => rfl) fun _ => rfl
  hput.noted (fun _ => rfl) (fun _ => rfl) (fun _ hphase => hphase) _

theorem create (h : Overlaid w₀ w) (typeName : String) (attrs : List (String × Value)) :
    Overlays w₀ w (w.create typeName attrs).2 := by
  refine ⟨⟨h.journal, fun x hx => ?_, h.bindings, Nat.le_succ_of_le h.nextObject, h.nextBinding, ?_,
    fun o => ?_, h.functions⟩, .of_bindings ⟨Nat.le_succ _, fun o x hx => ?_⟩ rfl⟩
  · rcases List.mem_append.mp hx with hx | hx
    · exact Nat.lt_succ_of_lt (h.objects x hx)
    · rw [List.mem_singleton.mp hx]
      exact Nat.lt_succ_self _
  · exact h.layered.congr (map_object?_create (·.observers) [] rfl)
      (map_object?_create (·.nextObserver) 0 rfl)
  · have howned : (w.create typeName attrs).2.owned o = w.owned o :=
      map_object?_create (·.bindings) [] rfl o
    rw [howned]
    exact h.owned o
  · exact ⟨x, object?_create_of_some hx typeName attrs, rfl, id⟩

/-! ## Operations on bindings -/

/-- Bindings may change in all but their observers. -/
theorem modifyBinding (h : Overlaid w₀ w) (b : Nat) {f : Binding → Binding}
    (hid : ∀ x, (f x).id = x.id) (htarget : ∀ x, (f x).target = x.target)
    (hsubscriptions : ∀ x, (f x).subscriptions = x.subscriptions) :
    Overlaid w₀ (w.modifyBinding b f) := by
  have hset := OverlaidBy.modifyBinding h b hid htarget
  have hentered : (w.modifyBinding b f).entered = w.entered := by
    refine funext fun c => ?_
    rw [entered_modifyBinding w b c hid]
    split
    · simp only [hsubscriptions, entered]
    · rfl
  rwa [Overlaid, hentered]

theorem setBusy (h : Overlaid w₀ w) (b : Nat) (busy : Bool) : Overlays w₀ w (w.setBusy b busy) :=
  ⟨h.modifyBinding b (fun _ => rfl) (fun _ => rfl) fun _ => rfl,
    .modifyBinding w b (fun _ => rfl) (fun _ => rfl) fun _ hnone => hnone⟩

/-- A later binding has new sources, and its observers on the old ones go. -/
theorem resubscribe (h : Overlaid w₀ w) (hw : Regular w₀) {b : Nat} (hb : w₀.nextBinding ≤ b)
    {x : Binding} (hx : w.binding? b = some x) {fresh : List Subscription} {w₁ : World}
    (hobserved : OverlaidBy w₀ w₁ fun c => if c = b then w.entered c ++ fresh else w.entered c)
    (hbindings : w₁.bindings = w.bindings) (hretains : Retains w w₁) :
    Overlays w₀ w (x.sources.foldl World.unobserve
      (w₁.modifyBinding b fun x => { x with sources := fresh })) := by
  have hx₁ : w₁.binding? b = some x := by simpa only [World.binding?, hbindings] using hx
  -- The old sources were entered after `w₀`, so their numbers are new to it.
  have hstale : ∀ s ∈ x.sources, w₀.nextObserver s.object ≤ s.id := by
    intro s hs
    refine h.layered.issued b hb s ?_
    rw [entered_of_binding? hx]
    exact List.mem_append_left _ hs
  have hrenewed := hobserved.modifyBinding b (f := fun x => { x with sources := fresh })
    (fun _ => rfl) fun _ => rfl
  have hleft := hrenewed.unobserveAll hw hstale
  have hentered (c : Nat) : (x.sources.foldl World.unobserve
      (w₁.modifyBinding b fun x => { x with sources := fresh })).entered c =
      if b = c then fresh ++ x.targetListener.toList else w.entered c := by
    have hsame : (x.sources.foldl World.unobserve
        (w₁.modifyBinding b fun x => { x with sources := fresh })).entered c =
        (w₁.modifyBinding b fun x => { x with sources := fresh }).entered c := by
      simp only [entered, World.binding?, (Rewires.unobserveAll _ x.sources).bindings]
    rw [hsame, entered_modifyBinding w₁ b c (f := fun x => { x with sources := fresh }) fun _ => rfl]
    split
    next hbc =>
      subst hbc
      rw [hx₁]
      rfl
    next => simp only [entered, World.binding?, hbindings]
  have hmark : Retains w₁ (w₁.modifyBinding b fun x => { x with sources := fresh }) :=
    .modifyBinding w₁ b (fun _ => rfl) (fun _ => rfl) fun _ hnone => hnone
  refine ⟨hleft.overlaid (fun c hc s hs => ?_) (fun c hc s hs => ?_),
    (hretains.trans hmark).trans (.unobserveAll _ _)⟩
  · obtain ⟨hs, hgone⟩ := List.mem_filter.mp hs
    simp only [decide_eq_true_eq] at hgone
    rw [hentered]
    by_cases hbc : b = c
    · subst hbc
      rw [if_pos rfl] at hs
      rw [if_pos rfl, List.mem_append]
      rcases List.mem_append.mp hs with hs | hs
      · rw [entered_of_binding? hx] at hs
        rcases List.mem_append.mp hs with hs | hs
        · exact absurd ⟨rfl, rfl⟩ (hgone s hs)
        · exact .inr hs
      · exact .inl hs
    · rw [if_neg (Ne.symm hbc)] at hs
      rwa [if_neg hbc]
  · refine hobserved.layered.issued c hc s ?_
    rw [hentered] at hs
    by_cases hbc : b = c
    · subst hbc
      rw [if_pos rfl] at hs
      rw [if_pos rfl, List.mem_append, entered_of_binding? hx]
      exact (List.mem_append.mp hs).symm.imp_left (List.mem_append_right _)
    · rw [if_neg hbc] at hs
      rwa [if_neg (Ne.symm hbc)]

/-- A later binding that is disconnected is without observers. -/
theorem disconnect (h : Overlaid w₀ w) (hw : Regular w₀) {b : Nat} (hb : w₀.nextBinding ≤ b) :
    Overlays w₀ w (w.disconnect b) ∧ (w.disconnect b).entered b = [] ∧
      ∀ c, c ≠ b → (w.disconnect b).entered c = w.entered c := by
  unfold World.disconnect
  cases hx : w.binding? b with
  | none => exact ⟨h.refl, by simp [entered, hx], fun _ _ => rfl⟩
  | some x =>
      have hstale : ∀ s ∈ x.subscriptions, w₀.nextObserver s.object ≤ s.id :=
        entered_of_binding? hx ▸ h.layered.issued b hb
      have hleft := (h.unobserveAll hw hstale).modifyBinding b
        (f := fun x => { x with sources := [], targetListener := none }) (fun _ => rfl) fun _ => rfl
      have hbindings := (Rewires.unobserveAll w x.subscriptions).bindings
      have hretains := (Retains.unobserveAll w x.subscriptions).trans (.modifyBinding _ b
        (f := fun x => { x with sources := [], targetListener := none }) (fun _ => rfl)
        (fun _ => rfl) fun _ _ => rfl)
      have hentered (c : Nat) : ((x.subscriptions.foldl World.unobserve w).modifyBinding b fun x =>
          { x with sources := [], targetListener := none }).entered c =
          if b = c then [] else w.entered c := by
        rw [entered_modifyBinding _ b c
          (f := fun x => { x with sources := [], targetListener := none }) fun _ => rfl]
        split
        · cases (x.subscriptions.foldl World.unobserve w).binding? c <;> rfl
        · simp only [entered, World.binding?, hbindings]
      rw [Binding.subscriptions, List.foldl_append] at hleft hretains hentered
      refine ⟨⟨hleft.overlaid (fun c hc s hs => ?_) fun c hc s hs => ?_, hretains⟩, ?_,
        fun c hc => ?_⟩
      · obtain ⟨hs, hgone⟩ := List.mem_filter.mp hs
        simp only [decide_eq_true_eq] at hgone
        rw [hentered]
        split
        next hbc =>
          subst hbc
          rw [entered_of_binding? hx] at hs
          exact absurd ⟨rfl, rfl⟩ (hgone s hs)
        next => exact hs
      · rw [hentered] at hs
        split at hs
        · exact absurd hs List.not_mem_nil
        · exact h.layered.issued c hc s hs
      · exact (hentered b).trans (if_pos rfl)
      · exact (hentered c).trans (if_neg (Ne.symm hc))

theorem release (h : Overlaid w₀ w) (hw : Regular w₀) {b : Nat} (hb : w₀.nextBinding ≤ b) :
    Overlays w₀ w (w.release b) := by
  obtain heq | heq := w.release_cases b
  · rw [heq]
    exact h.refl
  · rw [heq]
    exact (h.disconnect hw hb).1

/-! ## Making bindings -/

theorem addBinding (h : Overlaid w₀ w) {x : Binding} (hid : x.id = w.nextBinding)
    (hsources : x.sources = []) (hlistener : x.targetListener = none) :
    Overlays w₀ w (w.addBinding x) := by
  have hbinding (c : Nat) : (w.addBinding x).binding? c =
      if c = w.nextBinding then some x else w.binding? c :=
    binding?_addBinding_of_lt h.bindings hid c
  have hentered : (w.addBinding x).entered = w.entered := by
    refine funext fun c => ?_
    simp only [entered, hbinding]
    split
    next hc =>
      rw [hc, binding?_next_of_lt h.bindings]
      simp [Binding.subscriptions, hsources, hlistener]
    next => rfl
  have hkept {c : Nat} {y : Binding} (hy : w.binding? c = some y) :
      (w.addBinding x).binding? c = some y := by
    have hlt := h.bindings y (w.mem_of_binding? hy)
    rw [w.id_of_binding? hy] at hlt
    rw [hbinding, if_neg (Nat.ne_of_lt hlt), hy]
  refine ⟨⟨h.journal, h.objects, lt_addBinding h.bindings hid, h.nextObject,
    Nat.le_succ_of_le h.nextBinding, ?_, fun o => ?_, h.functions⟩,
    ⟨.of_same rfl rfl, fun c y hy => ⟨y, hkept hy, rfl, id⟩⟩⟩
  · rw [hentered]
    exact h.layered.congr (fun _ => rfl) fun _ => rfl
  · obtain ⟨later, heq, hlater⟩ := h.owned o
    refine ⟨later, heq, fun c hc => ?_⟩
    obtain ⟨hlate, y, hy, htarget⟩ := hlater c hc
    exact ⟨hlate, y, hkept hy, htarget⟩

/-- A later binding begins to listen to its target. -/
theorem listen (h : Overlaid w₀ w) {b : Nat} (hb : w₀.nextBinding ≤ b) {x : Binding}
    (hx : w.binding? b = some x) (hnone : x.targetListener = none) (o : Handle) (attr : String) :
    Overlaid w₀ (w.listen o attr b) := by
  have hcall : (Callback.target b).binding? = some b := rfl
  have hobserved := OverlaidBy.observe h o attr hcall hb
  have hentered (c : Nat) : (w.listen o attr b).entered c =
      if c = b then w.entered c ++ [(w.observe o attr (.target b)).1] else w.entered c := by
    rw [World.listen, entered_modifyBinding _ b c (f := fun x =>
      { x with targetListener := some (w.observe o attr (.target b)).1 }) fun _ => rfl]
    by_cases hbc : b = c
    · subst hbc
      have hx' : (w.observe o attr (.target b)).2.binding? b = some x := hx
      rw [if_pos rfl, if_pos rfl, entered_of_binding? hx, hx']
      simp [Binding.subscriptions, hnone]
    · rw [if_neg hbc, if_neg (Ne.symm hbc)]
      rfl
  have hlistens : OverlaidBy w₀ (w.listen o attr b) _ :=
    hobserved.modifyBinding b (fun _ => rfl) fun _ => rfl
  exact hlistens.overlaid (fun c _ s hs => hentered c ▸ hs) fun c hc s hs =>
    hobserved.layered.issued c hc s (hentered c ▸ hs)

/-- An object takes a later binding that writes into it. -/
theorem own (h : Overlaid w₀ w) {b : Nat} (hb : w₀.nextBinding ≤ b) {x : Binding}
    (hx : w.binding? b = some x) (o : Handle) (htarget : x.target.id = o.id) :
    Overlays w₀ w (w.own o b) := by
  have hset : Overlaid w₀ (w.modifyBinding b fun x => { x with owned := true }) :=
    h.modifyBinding b (fun _ => rfl) (fun _ => rfl) fun _ => rfl
  have hobject (p : Handle) : (w.own o b).object? p = if o.id = p.id then
      (w.object? p).map fun x => { x with bindings := x.bindings ++ [b] } else w.object? p :=
    object?_modifyObject (w.modifyBinding b fun x => { x with owned := true }) o p fun _ => rfl
  have hretains : Retains w (w.own o b) := .trans
    (.modifyBinding w b (f := fun x => { x with owned := true }) (fun _ => rfl) (fun _ => rfl)
      fun _ hnone => hnone)
    (.modifyObject _ o (f := fun x => { x with bindings := x.bindings ++ [b] }) (fun _ => rfl)
      (fun _ => rfl) fun _ hphase => hphase)
  refine ⟨⟨hset.journal, fun y hy => ?_, hset.bindings, hset.nextObject, hset.nextBinding, ?_,
    fun p => ?_, hset.functions⟩, hretains⟩
  · obtain ⟨z, hz, rfl⟩ := List.mem_map.mp hy
    split <;> exact h.objects z hz
  · exact hset.layered.congr (fun p => observers_modifyObject _ o p (fun _ => rfl) fun _ => rfl)
      fun p => nextObserver_modifyObject _ o p (fun _ => rfl) fun _ => rfl
  · obtain ⟨later, heq, hlater⟩ := hset.owned p
    change w.owned p = _ at heq
    by_cases hp : o.id = p.id ∧ w.isAlive p = true
    · obtain ⟨y, hy⟩ := Option.isSome_iff_exists.mp hp.2
      refine ⟨later ++ [b], ?_, List.forall_mem_append.mpr ⟨hlater, List.forall_mem_singleton.mpr
        ⟨hb, { x with owned := true }, ?_, htarget.trans hp.1⟩⟩⟩
      · rw [← List.append_assoc, ← heq, World.owned, hobject, if_pos hp.1, World.owned, hy]
        rfl
      · change (w.modifyBinding b fun x => { x with owned := true }).binding? b = _
        rw [binding?_modifyBinding w b b (f := fun x => { x with owned := true }) fun _ => rfl,
          if_pos rfl, hx]
        rfl
    · refine ⟨later, ?_, hlater⟩
      rw [← heq, World.owned, hobject, World.owned]
      split
      next hid =>
        have hdead : w.object? p = none := by
          simpa [World.isAlive, hid] using hp
        rw [hdead]
        rfl
      next => rfl

end Overlaid

theorem Overlays.trans (h : Overlays w₀ w w') (h' : Overlays w₀ w' w'') : Overlays w₀ w w'' :=
  ⟨h'.overlaid, h.retains.trans h'.retains⟩

end World

end LiveUI
