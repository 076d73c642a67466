import LiveUI.Proofs.World.Layers
import LiveUI.Proofs.World.Lasting

/-! # Orderly worlds

Each observer of an object has a number of its own, and numbers are not used again: one that is gone
does not come back, and one that comes has a number that no other had before. A binding holds on to every
observer that serves it. Nothing that is done in a world disturbs this order. -/

namespace LiveUI

namespace World

variable {w w' w'' : World}

/-! ## Observers and their numbers -/

theorem observers_create (w : World) (typeName : String) (attrs : List (String × Value)) (o : Handle) :
    (w.create typeName attrs).2.observers o = w.observers o :=
  map_object?_create (·.observers) [] rfl o

theorem nextObserver_create (w : World) (typeName : String) (attrs : List (String × Value))
    (o : Handle) : (w.create typeName attrs).2.nextObserver o = w.nextObserver o :=
  map_object?_create (·.nextObserver) 0 rfl o

theorem observers_shed (w : World) (o p : Handle) {f : Object → Object} (hf : Object.Sheds f) :
    ((w.modifyObject o f).observers p).Sublist (w.observers p) := by
  rw [observers, w.object?_modifyObject o p hf.handle, observers]
  split
  · cases w.object? p with
    | none => exact .refl _
    | some x => exact hf.observers x
  · exact .refl _

/-- The numbers of the observers of an object go up in the order of registration, and stay below the
next one. -/
structure Tidy (w : World) : Prop where
  lt : ∀ o, ∀ obs ∈ w.observers o, obs.id < w.nextObserver o
  increasing : ∀ o, ((w.observers o).map (·.id)).Pairwise (· < ·)

/-- There are no observers with old numbers but old observers. -/
structure Succeeds (w w' : World) : Prop where
  nextObserver : ∀ o, w.nextObserver o ≤ w'.nextObserver o
  old : ∀ o, ∀ obs ∈ w'.observers o, obs.id < w.nextObserver o → obs ∈ w.observers o

/-- The world is tidy as before, and no number has been used again. -/
def StaysTidy (w w' : World) : Prop :=
  w.Tidy → w'.Tidy ∧ w.Succeeds w'

namespace StaysTidy

/-- Observers may go, as long as no number comes back. -/
theorem of_sublist (hobservers : ∀ o, (w'.observers o).Sublist (w.observers o))
    (hnext : ∀ o, w'.nextObserver o = w.nextObserver o) : StaysTidy w w' := by
  refine fun h => ⟨⟨fun o obs hobs => ?_, fun o => ?_⟩, fun o => Nat.le_of_eq (hnext o).symm,
    fun o obs hobs _ => (hobservers o).subset hobs⟩
  · rw [hnext]
    exact h.lt o obs ((hobservers o).subset hobs)
  · exact (h.increasing o).sublist ((hobservers o).map _)

theorem refl (w : World) : StaysTidy w w :=
  of_sublist (fun _ => .refl _) fun _ => rfl

theorem trans (h : StaysTidy w w') (h' : StaysTidy w' w'') : StaysTidy w w'' := by
  intro hw
  obtain ⟨hw', hfirst⟩ := h hw
  obtain ⟨hw'', hsecond⟩ := h' hw'
  refine ⟨hw'', fun o => Nat.le_trans (hfirst.nextObserver o) (hsecond.nextObserver o),
    fun o obs hobs hlt => ?_⟩
  have hmiddle := hsecond.old o obs hobs (Nat.lt_of_lt_of_le hlt (hfirst.nextObserver o))
  exact hfirst.old o obs hmiddle hlt

theorem of_objects (hobjects : w'.objects = w.objects) : StaysTidy w w' := by
  have hobject (o : Handle) : w'.object? o = w.object? o := by rw [object?, hobjects, object?]
  refine of_sublist (fun o => ?_) fun o => ?_
  · rw [observers, hobject, ← observers]
  · rw [nextObserver, hobject, ← nextObserver]

theorem shed (w : World) (o : Handle) {f : Object → Object} (hf : Object.Sheds f) :
    StaysTidy w (w.modifyObject o f) :=
  of_sublist (fun p => observers_shed w o p hf) fun p =>
    w.nextObserver_modifyObject o p hf.handle hf.nextObserver

theorem observe (w : World) (o : Handle) (attr : String) (callback : Callback) :
    StaysTidy w (w.observe o attr callback).2 := by
  refine fun h => ⟨⟨fun p obs hobs => ?_, fun p => ?_⟩, fun p => ?_, fun p obs hobs hlt => ?_⟩
  · exact lt_nextObserver_observe (h.lt p) hobs
  · rw [observers_observe]
    split
    next hp =>
      rw [List.map_append, List.pairwise_append]
      refine ⟨h.increasing p, List.pairwise_singleton _ _, fun i hi j hj => ?_⟩
      obtain ⟨obs, hobs, rfl⟩ := List.mem_map.mp hi
      obtain rfl : j = w.nextObserver o := by simpa using hj
      rw [w.nextObserver_congr hp.1]
      exact h.lt p obs hobs
    next => exact h.increasing p
  · exact w.le_nextObserver_observe o attr callback p
  · obtain hobs | ⟨hid, -, rfl⟩ := mem_observers_observe.mp hobs
    · exact hobs
    · rw [w.nextObserver_congr hid] at hlt
      exact absurd hlt (Nat.lt_irrefl _)

/-- Numbers are not used again by anything that is done. -/
theorem enduring : Enduring StaysTidy where
  toLasting := .of_parts refl trans (fun hobjects _ _ => of_objects hobjects)
    (fun w o _ hf => shed w o hf)
    (fun w typeName attrs => of_sublist
      (fun o => observers_create w typeName attrs o ▸ .refl _) (nextObserver_create w typeName attrs))
    observe fun _ _ _ _ _ _ => of_objects rfl
  flight w o f := of_sublist
    (fun p => w.observers_modifyObject o p (f := fun x => { x with inFlight := f x.inFlight })
      (fun _ => rfl) (fun _ => rfl) ▸ .refl _)
    fun p => w.nextObserver_modifyObject o p (fun _ => rfl) fun _ => rfl
  busy _ _ _ := of_objects rfl

end StaysTidy

/-- An observer is known by its number. -/
theorem Tidy.eq_of_id (h : w.Tidy) {o : Handle} {obs obs' : Observer} (hobs : obs ∈ w.observers o)
    (hobs' : obs' ∈ w.observers o) (hid : obs.id = obs'.id) : obs = obs' :=
  List.inj_on_of_nodup_map ((h.increasing o).imp Nat.ne_of_lt) hobs hobs' hid

/-! ## Bindings and their observers -/

/-- Where an observer serves a binding, the binding holds on to it. -/
def Heard (w : World) : Prop :=
  ∀ o, ∀ obs ∈ w.observers o, ∀ b, obs.callback.binding? = some b →
    ∃ s ∈ w.entered b, s.object.id = o.id ∧ s.id = obs.id

theorem mem_observers_unobserveAll {ss : List Subscription} {o : Handle} {obs : Observer} :
    obs ∈ (ss.foldl unobserve w).observers o ↔
      obs ∈ w.observers o ∧ ∀ s ∈ ss, ¬(s.object.id = o.id ∧ s.id = obs.id) := by
  induction ss generalizing w with
  | nil => simp
  | cons s ss ih =>
      rw [List.foldl_cons, ih, mem_observers_unobserve, List.forall_mem_cons, and_assoc]

theorem bindings_unobserveAll (ss : List Subscription) (w : World) :
    (ss.foldl unobserve w).bindings = w.bindings := by
  induction ss generalizing w with
  | nil => rfl
  | cons s ss ih => exact ih _

theorem entered_of_bindings (hbindings : w'.bindings = w.bindings) (b : Nat) :
    w'.entered b = w.entered b := by
  rw [entered, binding?, hbindings, ← binding?, ← entered]

/-- A binding that is disconnected loses the observers that it holds on to. -/
theorem mem_observers_disconnect {b : Nat} {o : Handle} {obs : Observer} :
    obs ∈ (w.disconnect b).observers o ↔
      obs ∈ w.observers o ∧ ∀ s ∈ w.entered b, ¬(s.object.id = o.id ∧ s.id = obs.id) := by
  unfold disconnect
  split
  next hnone => simp [entered, hnone]
  next x hx =>
    rw [entered_of_binding? hx, ← mem_observers_unobserveAll, Binding.subscriptions, List.foldl_append]
    rfl

theorem entered_disconnect (w : World) (b c : Nat) :
    (w.disconnect b).entered c = if b = c then [] else w.entered c := by
  unfold disconnect
  split
  next hnone =>
    split
    next hc => simp [← hc, entered, hnone]
    next => rfl
  next x hx =>
    rw [entered_modifyBinding _ b c (f := fun x => { x with sources := [], targetListener := none })
      fun _ => rfl]
    split
    · cases World.binding? _ c <;> rfl
    · refine entered_of_bindings ?_ c
      rw [bindings_unobserveAll, bindings_unobserveAll]

namespace Heard

/-- Nothing is to be held on to but what was held on to before. -/
theorem of_subset (h : w.Heard) (hobservers : ∀ o, ∀ obs ∈ w'.observers o,
      obs ∈ w.observers o ∨ obs.callback.binding? = none)
    (hentered : ∀ b, w'.entered b = w.entered b) : w'.Heard := by
  intro o obs hobs b hcall
  rcases hobservers o obs hobs with hold | hnone
  · rw [hentered]
    exact h o obs hold b hcall
  · rw [hnone] at hcall
    cases hcall

theorem disconnect (h : w.Heard) (b : Nat) : (w.disconnect b).Heard := by
  intro o obs hobs c hcall
  obtain ⟨hobs, hgone⟩ := mem_observers_disconnect.mp hobs
  obtain ⟨s, hs, hsame⟩ := h o obs hobs c hcall
  rw [entered_disconnect]
  split
  next hc =>
    subst hc
    exact absurd hsame (hgone s hs)
  next => exact ⟨s, hs, hsame⟩

/-- What is observed on behalf of a binding comes with a subscription. -/
theorem mem_observeAll {b : Nat} {reads : List (Handle × String)} {o : Handle} {obs : Observer}
    (hobs : obs ∈ (w.observeAll b reads).2.observers o) :
    obs ∈ w.observers o ∨ obs.callback = .source b ∧
      ∃ s ∈ (w.observeAll b reads).1, s.object.id = o.id ∧ s.id = obs.id := by
  induction reads generalizing w with
  | nil => exact .inl hobs
  | cons p reads ih =>
      rcases ih hobs with hobs | ⟨hcall, s, hs, hsame⟩
      · obtain hobs | ⟨hid, -, rfl⟩ := mem_observers_observe.mp hobs
        · exact .inl hobs
        · exact .inr ⟨rfl, _, List.mem_cons_self, hid, rfl⟩
      · exact .inr ⟨hcall, s, List.mem_cons_of_mem _ hs, hsame⟩

theorem bindings_observeAll (w : World) (b : Nat) (reads : List (Handle × String)) :
    (w.observeAll b reads).2.bindings = w.bindings := by
  induction reads generalizing w with
  | nil => rfl
  | cons p reads ih => exact ih _

theorem follow (h : w.Heard) {b : Nat} (hfound : (w.binding? b).isSome = true)
    (reads : List (Handle × String)) : (w.follow b reads).Heard := by
  obtain ⟨x, hx⟩ := Option.isSome_iff_exists.mp hfound
  have hx' : (w.observeAll b reads).2.binding? b = some x := by
    rwa [binding?, bindings_observeAll]
  have hentered (c : Nat) : (w.follow b reads).entered c =
      if b = c then (w.observeAll b reads).1 ++ x.targetListener.toList else w.entered c := by
    rw [World.follow, entered_of_bindings (bindings_unobserveAll _ _),
      entered_modifyBinding _ b c (f := fun x => { x with sources := (w.observeAll b reads).1 })
        fun _ => rfl]
    split
    next hc =>
      rw [← hc, hx']
      rfl
    next => exact entered_of_bindings (bindings_observeAll w b reads) c
  intro o obs hobs c hcall
  obtain ⟨hobs, hgone⟩ := mem_observers_unobserveAll.mp hobs
  rw [hx'] at hgone
  rw [hentered]
  rcases mem_observeAll hobs with hold | ⟨hsource, s, hs, hsame⟩
  · obtain ⟨s, hs, hsame⟩ := h o obs hold c hcall
    split
    next hc =>
      -- It is not one of the sources from before, for these are gone.
      rw [← hc, entered_of_binding? hx] at hs
      refine ⟨s, List.mem_append_right _ ((List.mem_append.mp hs).resolve_left fun hstale => ?_), hsame⟩
      exact hgone s hstale hsame
    next => exact ⟨s, hs, hsame⟩
  · rw [hsource] at hcall
    obtain rfl : b = c := Option.some.inj hcall
    rw [if_pos rfl]
    exact ⟨s, List.mem_append_left _ hs, hsame⟩

/-- Bindings go on holding on to their observers, whatever is done. -/
theorem enduring : Enduring fun w w' => w.Heard → w'.Heard where
  refl _ := id
  trans h h' := fun hw => h' (h hw)
  same {w w'} hobjects hbindings _ := fun h => by
    refine h.of_subset (fun o obs hobs => .inl ?_) fun b => entered_of_bindings hbindings b
    rwa [observers, object?, hobjects, ← object?, ← observers] at hobs
  shed w o {f} hf := fun h =>
    h.of_subset (fun p obs hobs => .inl ((observers_shed w o p hf).subset hobs)) fun _ => rfl
  create w typeName attrs := fun h =>
    h.of_subset (fun o obs hobs => .inl (observers_create w typeName attrs o ▸ hobs)) fun _ => rfl
  observe w o attr routine := fun h => by
    refine h.of_subset (fun p obs hobs => ?_) fun _ => rfl
    refine (mem_observers_observe.mp hobs).imp_right ?_
    rintro ⟨-, -, rfl⟩
    rfl
  mark w b {f} hf := fun h => by
    refine h.of_subset (fun o obs hobs => .inl hobs) fun c => ?_
    rw [entered_modifyBinding w b c hf.id]
    split
    · rw [entered]
      cases w.binding? c <;> simp [Binding.subscriptions, hf.sources, hf.targetListener]
    · rfl
  disconnect w b := fun h => h.disconnect b
  follow w b reads hfound := fun h => h.follow hfound reads
  flight w o f := fun h => h.of_subset (fun p obs hobs => .inl <|
    w.observers_modifyObject o p (f := fun x => { x with inFlight := f x.inFlight })
      (fun _ => rfl) (fun _ => rfl) ▸ hobs) fun _ => rfl
  busy w b busy := fun h => by
    refine h.of_subset (fun o obs hobs => .inl hobs) fun c => ?_
    rw [setBusy, entered_modifyBinding w b c (f := fun x => { x with busy }) fun _ => rfl, entered]
    split
    · cases w.binding? c <;> rfl
    · rfl

end Heard

end World

end LiveUI
