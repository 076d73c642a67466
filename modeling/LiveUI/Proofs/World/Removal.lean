import LiveUI.Proofs.World.Orderly

/-! # Observers that go

A binding that is disconnected has no observers left, and an object that is destroyed has none either,
nor do the bindings that it owned. What else takes an observer away gives up a subscription to it. -/

namespace LiveUI

/-- What an object keeps when another one is destroyed. -/
def Object.ties (x : Object) : Phase × List Handle × List Nat :=
  (x.phase, x.children, x.bindings)

namespace World

variable {w w' w'' : World}

/-! ## Ties -/

theorem owned_eq_ties (w : World) (o : Handle) :
    w.owned o = (((w.object? o).map Object.ties).map (·.2.2)).getD [] := by
  rw [Option.map_map]
  rfl

theorem phase_eq_ties (w : World) (o : Handle) :
    w.phase o = (((w.object? o).map Object.ties).map (·.1)).getD .destroyed := by
  rw [Option.map_map]
  rfl

theorem map_ties_modifyObject (w : World) (o p : Handle) {f : Object → Object}
    (hhandle : ∀ x, (f x).handle = x.handle) (hties : ∀ x, (f x).ties = x.ties) :
    ((w.modifyObject o f).object? p).map Object.ties = (w.object? p).map Object.ties := by
  rw [object?_modifyObject w o p hhandle]
  split
  · rw [Option.map_map]
    exact congrArg (fun g => (w.object? p).map g) (funext hties)
  · rfl

theorem map_ties_unobserveAll (w : World) (stale : List Subscription) (p : Handle) :
    ((stale.foldl unobserve w).object? p).map Object.ties = (w.object? p).map Object.ties := by
  induction stale generalizing w with
  | nil => rfl
  | cons s stale ih =>
      exact (ih _).trans (map_ties_modifyObject w s.object p
        (f := fun x => { x with observers := x.observers.filter (·.id != s.id) })
        (fun _ => rfl) fun _ => rfl)

theorem map_ties_disconnect (w : World) (b : Nat) (p : Handle) :
    ((w.disconnect b).object? p).map Object.ties = (w.object? p).map Object.ties := by
  unfold disconnect
  split
  · rfl
  · exact (map_ties_unobserveAll _ _ p).trans (map_ties_unobserveAll _ _ p)

theorem map_ties_disconnectAll (w : World) (bs : List Nat) (p : Handle) :
    ((bs.foldl disconnect w).object? p).map Object.ties = (w.object? p).map Object.ties := by
  induction bs generalizing w with
  | nil => rfl
  | cons b bs ih => exact (ih _).trans (map_ties_disconnect w b p)

theorem object?_disownAll (w : World) (bs : List Nat) (p : Handle) :
    (bs.foldl (fun w b => w.modifyBinding b fun x => { x with owned := false }) w).object? p =
      w.object? p := by
  induction bs generalizing w with
  | nil => rfl
  | cons b bs ih => exact ih _

theorem phase_modifyObject (w : World) (o p : Handle) {f : Object → Object}
    (hhandle : ∀ x, (f x).handle = x.handle) (hphase : ∀ x, (f x).phase = x.phase) :
    (w.modifyObject o f).phase p = w.phase p := by
  rw [phase, object?_modifyObject w o p hhandle, phase]
  split
  · cases w.object? p <;> simp [hphase]
  · rfl

/-- Another object keeps its ties. -/
theorem map_ties_dismantle (w : World) {o p : Handle} (hne : ¬o.id = p.id) :
    ((w.dismantle o).object? p).map Object.ties = (w.object? p).map Object.ties := by
  have hother (w : World) {f : Object → Object} (hf : ∀ x, (f x).handle = x.handle) :
      (w.modifyObject o f).object? p = w.object? p := by
    rw [object?_modifyObject w o p hf, if_neg hne]
  unfold dismantle
  change ((World.modifyObject _ o fun x =>
    { x with observers := [], parent := none }).object? p).map Object.ties = _
  rw [hother _ (f := fun x => { x with observers := [], parent := none }) fun _ => rfl,
    object?_disownAll, map_ties_disconnectAll,
    hother w (f := fun x => { x with bindings := [] }) fun _ => rfl]

theorem phase_dismantle (w : World) (o p : Handle) : (w.dismantle o).phase p = w.phase p := by
  unfold dismantle
  change (World.modifyObject _ o fun x => { x with observers := [], parent := none }).phase p = _
  rw [phase_modifyObject _ o p (f := fun x => { x with observers := [], parent := none })
      (fun _ => rfl) fun _ => rfl,
    phase, object?_disownAll, ← phase, phase_eq_ties, map_ties_disconnectAll, ← phase_eq_ties,
    phase_modifyObject w o p (f := fun x => { x with bindings := [] }) (fun _ => rfl) fun _ => rfl]

/-! ## Worlds that lose observers -/

/-- No observer has come. -/
structure Wanes (w w' : World) : Prop where
  heard : w.Heard → w'.Heard
  observers : ∀ o, w'.observers o ⊆ w.observers o

namespace Wanes

theorem refl (w : World) : Wanes w w :=
  ⟨id, fun _ => List.Subset.refl _⟩

theorem trans (h : Wanes w w') (h' : Wanes w' w'') : Wanes w w'' :=
  ⟨fun hw => h'.heard (h.heard hw), fun o => List.Subset.trans (h'.observers o) (h.observers o)⟩

theorem foldl {ι : Type} {f : World → ι → World} (hf : ∀ w i, Wanes w (f w i)) (l : List ι)
    (w : World) : Wanes w (l.foldl f w) := by
  induction l generalizing w with
  | nil => exact refl w
  | cons i l ih => exact (hf w i).trans (ih _)

theorem shed (w : World) (o : Handle) {f : Object → Object} (hf : Object.Sheds f) :
    Wanes w (w.modifyObject o f) :=
  ⟨Heard.enduring.shed w o hf, fun p => (observers_shed w o p hf).subset⟩

theorem disconnect (w : World) (b : Nat) : Wanes w (w.disconnect b) :=
  ⟨Heard.enduring.disconnect w b, fun _ _ hobs => (mem_observers_disconnect.mp hobs).1⟩

theorem disown (w : World) (b : Nat) : Wanes w (w.modifyBinding b fun x => { x with owned := false }) :=
  ⟨Heard.enduring.toLasting.disown w b, fun _ => List.Subset.refl _⟩

theorem log (w : World) (e : Entry) : Wanes w (w.log e) :=
  ⟨Heard.enduring.toLasting.log w e, fun _ => List.Subset.refl _⟩

end Wanes

/-! ## Bindings without observers -/

/-- No observer serves the binding. -/
def Silent (b : Nat) (w : World) : Prop :=
  ∀ o, ∀ obs ∈ w.observers o, obs.callback.binding? ≠ some b

theorem Silent.wanes {b : Nat} (h : w.Silent b) (hwanes : Wanes w w') : w'.Silent b :=
  fun o obs hobs => h o obs (hwanes.observers o hobs)

theorem Heard.silent_disconnect (h : w.Heard) (b : Nat) : (w.disconnect b).Silent b := by
  intro o obs hobs hcall
  obtain ⟨hobs, hgone⟩ := mem_observers_disconnect.mp hobs
  obtain ⟨s, hs, hsame⟩ := h o obs hobs b hcall
  exact hgone s hs hsame

theorem Heard.silent_disconnectAll (h : w.Heard) {bs : List Nat} {b : Nat} (hb : b ∈ bs) :
    (bs.foldl World.disconnect w).Silent b := by
  induction bs generalizing w with
  | nil => cases hb
  | cons c bs ih =>
      rcases List.mem_cons.mp hb with rfl | hb
      · exact (h.silent_disconnect b).wanes (.foldl .disconnect bs _)
      · exact ih (h.disconnect c) hb

/-! ## Objects that are destroyed -/

/-- Nothing of what the object owned, and none of its observers, is left where it has been destroyed. -/
structure Fells (o : Handle) (w w' : World) : Prop extends Wanes w w' where
  destroyed : w.phase o = .destroyed → w'.phase o = .destroyed
  owned : w.phase o = .destroyed ∨ w'.phase o ≠ .destroyed → w'.owned o = w.owned o
  fallen : w.Heard → w.phase o ≠ .destroyed → w'.phase o = .destroyed →
    w'.observers o = [] ∧ ∀ b ∈ w.owned o, w'.Silent b

namespace Fells

variable {o : Handle}

theorem of_ties (h : Wanes w w')
    (hties : (w'.object? o).map Object.ties = (w.object? o).map Object.ties) : Fells o w w' := by
  have hphase : w'.phase o = w.phase o := by rw [phase_eq_ties, hties, ← phase_eq_ties]
  refine ⟨h, fun hdestroyed => hphase.trans hdestroyed, fun _ => ?_, fun _ hstood hfell => ?_⟩
  · rw [owned_eq_ties, hties, ← owned_eq_ties]
  · exact absurd (hphase.symm.trans hfell) hstood

theorem refl (w : World) : Fells o w w :=
  of_ties (.refl w) rfl

theorem trans (h : Fells o w w') (h' : Fells o w' w'') : Fells o w w'' := by
  refine ⟨h.toWanes.trans h'.toWanes, fun hw => h'.destroyed (h.destroyed hw), fun hor => ?_,
    fun hheard hstood hfell => ?_⟩
  · rcases hor with hw | hw''
    · rw [h'.owned (.inl (h.destroyed hw)), h.owned (.inl hw)]
    · rw [h'.owned (.inr hw''), h.owned (.inr fun hw' => hw'' (h'.destroyed hw'))]
  · by_cases hw' : w'.phase o = .destroyed
    · obtain ⟨hempty, hsilent⟩ := h.fallen hheard hstood hw'
      exact ⟨List.subset_nil.mp (hempty ▸ h'.observers o),
        fun b hb => (hsilent b hb).wanes h'.toWanes⟩
    · obtain ⟨hempty, hsilent⟩ := h'.fallen (h.heard hheard) hw' hfell
      exact ⟨hempty, fun b hb => hsilent b (h.owned (.inr hw') ▸ hb)⟩

theorem foldl {ι : Type} {f : World → ι → World} (hf : ∀ w i, Fells o w (f w i)) (l : List ι)
    (w : World) : Fells o w (l.foldl f w) := by
  induction l generalizing w with
  | nil => exact refl w
  | cons i l ih => exact (hf w i).trans (ih _)

end Fells

theorem Wanes.emptied (w : World) (o : Handle) :
    Wanes w (w.modifyObject o fun x => { x with bindings := [] }) :=
  .shed w o ⟨fun _ => rfl, fun _ => .refl _, fun _ => rfl, fun _ => rfl⟩

/-- What is left to do once the bindings of the object have been disconnected. -/
theorem Wanes.cutOff (w : World) (o : Handle) (bs : List Nat) (e : Entry) :
    Wanes w (((bs.foldl (fun w b => w.modifyBinding b fun x => { x with owned := false }) w).modifyObject o
      fun x => { x with observers := [], parent := none }).log e) := by
  have hcut (w : World) :
      Wanes w (w.modifyObject o fun x => { x with observers := [], parent := none }) :=
    .shed w o ⟨fun _ => rfl, fun _ => List.nil_sublist _, fun _ => rfl, fun _ => rfl⟩
  exact ((Wanes.foldl .disown bs w).trans (hcut _)).trans (.log _ e)

theorem Wanes.dismantle (w : World) (o : Handle) : Wanes w (w.dismantle o) :=
  ((Wanes.emptied w o).trans (.foldl .disconnect _ _)).trans (.cutOff _ o _ _)

theorem observers_dismantle (w : World) (o : Handle) : (w.dismantle o).observers o = [] := by
  unfold dismantle
  change (World.modifyObject _ o fun x => { x with observers := [], parent := none }).observers o = []
  rw [observers, object?_modifyObject _ o o (f := fun x => { x with observers := [], parent := none })
    fun _ => rfl, if_pos rfl, Option.map_map]
  cases World.object? _ o <;> rfl

theorem silent_dismantle (h : w.Heard) {o : Handle} {b : Nat} (hb : b ∈ w.owned o) :
    (w.dismantle o).Silent b :=
  (((Wanes.emptied w o).heard h).silent_disconnectAll hb).wanes (.cutOff _ o _ _)

/-- An object that has been marked is cut off in the end. -/
theorem Fells.of_dismantle {o p : Handle} (hid : p.id = o.id) (h : Wanes w w')
    (hstood : w.phase o ≠ .destroyed) (hmarked : w'.phase o = .destroyed)
    (howned : w'.owned o = w.owned o) : Fells o w (w'.dismantle p) := by
  have hfell : (w'.dismantle p).phase o = .destroyed := (phase_dismantle w' p o).trans hmarked
  refine ⟨h.trans (.dismantle w' p), fun _ => hfell, fun hor => ?_, fun hheard _ _ => ⟨?_, fun b hb => ?_⟩⟩
  · exact (hor.elim hstood (· hfell)).elim
  · rw [← observers_congr _ hid]
    exact observers_dismantle w' p
  · have howner : b ∈ w'.owned p := by rwa [World.owned, object?_congr w' hid, ← World.owned, howned]
    exact silent_dismantle (h.heard hheard) howner

/-- Whatever is destroyed, an object that goes with it loses its observers, and so do its bindings. -/
theorem destroyTo_fells (depth : Nat) (w : World) (p o : Handle) : Fells o w (w.destroyTo depth p) := by
  induction depth generalizing w p with
  | zero => exact .refl w
  | succ depth ih =>
      unfold destroyTo
      split
      next => exact .refl w
      next x hx =>
        split
        next => exact .refl w
        next hstood =>
          have hmarked : Wanes w (w.modifyObject p fun x =>
              { x with phase := .destroyed, children := [] }) :=
            .shed w p ⟨fun _ => rfl, fun _ => .refl _, fun _ => rfl, fun _ => rfl⟩
          have hobject := w.object?_modifyObject p o (f := fun x =>
            { x with phase := .destroyed, children := [] }) fun _ => rfl
          have hbelow := Fells.foldl (o := o) ih x.children
            (w.modifyObject p fun x => { x with phase := .destroyed, children := [] })
          -- The object itself is marked at first and cut off last; another one keeps its ties meanwhile.
          by_cases hid : p.id = o.id
          · rw [if_pos hid] at hobject
            rw [object?_congr w hid] at hx
            have hgone : (w.modifyObject p fun x =>
                { x with phase := .destroyed, children := [] }).phase o = .destroyed := by
              rw [phase, hobject, hx]
              rfl
            refine .of_dismantle hid (hmarked.trans hbelow.toWanes) ?_ (hbelow.destroyed hgone) ?_
            · rwa [phase, hx]
            · rw [hbelow.owned (.inl hgone)]
              exact w.owned_modifyObject p o (fun _ => rfl) fun _ => rfl
          · rw [if_neg hid] at hobject
            exact ((Fells.of_ties hmarked (congrArg _ hobject)).trans hbelow).trans
              (.of_ties (.dismantle _ p) (map_ties_dismantle _ hid))

/-! ## Subscriptions that are given up -/

theorem mem_observers_observeAll {b : Nat} {reads : List (Handle × String)} {o : Handle}
    {obs : Observer} (hobs : obs ∈ w.observers o) : obs ∈ (w.observeAll b reads).2.observers o := by
  induction reads generalizing w with
  | nil => exact hobs
  | cons p reads ih => exact ih (mem_observers_observe.mpr (.inl hobs))

end World

/-- The deed gives up a subscription to the observer, or it destroys something. -/
def Deed.Removes (o : Handle) (obs : Observer) (w : World) : Deed → Prop
  | unobserve s => s.object.id = o.id ∧ s.id = obs.id
  | disconnect b | release b | resubscribe b _ =>
      ∃ s ∈ w.entered b, s.object.id = o.id ∧ s.id = obs.id
  | destroy _ => True
  | log _ | write _ _ _ | create _ _ | observe _ _ _ | function _ _ | builtin _ | enter _ _
  | remember _ => False

namespace Deed

open World

variable {w : World} {o : Handle} {obs : Observer}

/-- Nothing else takes an observer away. -/
theorem removes_of_gone {d : Deed} (hobs : obs ∈ w.observers o)
    (hgone : obs ∉ (d.apply w).observers o) : d.Removes o obs w := by
  have hdisconnect {b : Nat} (hgone : obs ∉ (w.disconnect b).observers o) :
      ∃ s ∈ w.entered b, s.object.id = o.id ∧ s.id = obs.id := by
    by_contra hnone
    exact hgone (mem_observers_disconnect.mpr ⟨hobs, fun s hs hsame => hnone ⟨s, hs, hsame⟩⟩)
  cases d with
  | log e => exact absurd hobs hgone
  | write p attr v => exact absurd (by rwa [← observers_write w p o attr v] at hobs) hgone
  | create typeName attrs =>
      exact absurd (by rwa [← observers_create w typeName attrs o] at hobs) hgone
  | observe p attr routine => exact absurd (mem_observers_observe.mpr (.inl hobs)) hgone
  | unobserve s =>
      by_contra hother
      exact hgone (mem_observers_unobserve.mpr ⟨hobs, hother⟩)
  | function name body => exact absurd hobs hgone
  | builtin b => exact absurd hobs hgone
  | enter f args =>
      obtain ⟨functions, heq⟩ := Deed.apply_enter f args w
      rw [heq] at hgone
      exact absurd hobs hgone
  | remember m => exact absurd hobs hgone
  | destroy p => trivial
  | disconnect b => exact hdisconnect hgone
  | release b =>
      change obs ∉ (w.release b).observers o at hgone
      obtain heq | heq := w.release_cases b
      · exact absurd hobs (heq ▸ hgone)
      · exact hdisconnect (heq ▸ hgone)
  | resubscribe b reads =>
      by_contra hnone
      refine hgone (mem_observers_unobserveAll.mpr ⟨mem_observers_observeAll hobs, fun s hs hsame => ?_⟩)
      rw [binding?, Heard.bindings_observeAll, ← binding?] at hs
      cases hx : w.binding? b with
      | none => simp [hx] at hs
      | some x =>
          rw [hx] at hs
          refine hnone ⟨s, ?_, hsame⟩
          rw [entered_of_binding? hx]
          exact List.mem_append_left _ hs

end Deed

end LiveUI
