import Mathlib.Data.List.Nodup
import LiveUI.World.Binding

/-! # What each operation on the world changes

A world is looked at through its objects, attributes, observers, bindings and the announcements in
progress. For each operation and each of these views one lemma says what the view shows
afterwards. -/

namespace LiveUI

namespace Attrs

theorem get?_put_of_ne (attrs : Attrs) {name other : String} (v : Value) (h : name ≠ other) :
    (attrs.put name v).get? other = attrs.get? other := by
  induction attrs with
  | nil => simp [put, get?, h]
  | cons a rest ih =>
      obtain ⟨n, u⟩ := a
      by_cases hn : n = name
      · subst hn
        simp [put, get?, h]
      · simp only [put, hn, if_false]
        by_cases ho : n = other
        · simp [get?, ho]
        · simpa [get?, List.find?_cons, ho] using ih

end Attrs

namespace World

variable (w : World)

/-! ## Objects -/

theorem object?_congr {o p : Handle} (h : o.id = p.id) : w.object? o = w.object? p := by
  simp only [object?, h]

theorem object?_modifyObject (o p : Handle) {f : Object → Object}
    (hf : ∀ x, (f x).handle = x.handle) :
    (w.modifyObject o f).object? p =
      if o.id = p.id then (w.object? p).map f else w.object? p := by
  have hsame : ((fun x : Object => x.handle.id == p.id) ∘
      fun x => if x.handle.id == o.id then f x else x) = fun x => x.handle.id == p.id := by
    funext x
    by_cases h : x.handle.id = o.id <;> simp [h, hf]
  simp only [object?, modifyObject, List.find?_map, hsame]
  cases hfind : w.objects.find? (fun x => x.handle.id == p.id) with
  | none => simp
  | some x =>
      have hx : x.handle.id = p.id := by simpa using List.find?_some hfind
      by_cases h : o.id = p.id
      · simp [h, hx]
      · have hne : x.handle.id ≠ o.id := fun heq => h (heq.symm.trans hx)
        simp [h, hne]

theorem isAlive_modifyObject (o p : Handle) {f : Object → Object}
    (hf : ∀ x, (f x).handle = x.handle) : (w.modifyObject o f).isAlive p = w.isAlive p := by
  rw [isAlive, object?_modifyObject w o p hf, isAlive]
  split <;> simp

theorem isInFlight_modifyObject (o p : Handle) {f : Object → Object} (attr : String)
    (hf : ∀ x, (f x).handle = x.handle) (hi : ∀ x, (f x).inFlight = x.inFlight) :
    (w.modifyObject o f).isInFlight p attr = w.isInFlight p attr := by
  rw [isInFlight, object?_modifyObject w o p hf, isInFlight]
  split
  · cases w.object? p <;> simp [hi]
  · rfl

theorem isInFlight_beginFlight {c : Change} {o : Handle} {attr : String}
    (h : (w.beginFlight c).isInFlight o attr = true) :
    (o.id = c.object.id ∧ attr = c.attr) ∨ w.isInFlight o attr = true := by
  have hobj := object?_modifyObject w c.object o
    (f := fun x => { x with inFlight := c.attr :: x.inFlight }) fun _ => rfl
  change (((w.modifyObject c.object _).object? o).map _).getD _ = _ at h
  rw [hobj] at h
  rw [isInFlight]
  split at h
  next hid =>
    cases hx : w.object? o with
    | none => simp [hx] at h
    | some x =>
        simp only [hx, Option.map_some, Option.getD_some, List.contains_cons, Bool.or_eq_true,
          beq_iff_eq] at h ⊢
        exact h.imp_left fun ha => ⟨hid.symm, ha⟩
  next => exact .inr h

@[simp] theorem binding?_modifyObject (o : Handle) (f : Object → Object) (b : Nat) :
    (w.modifyObject o f).binding? b = w.binding? b := rfl

/-! ## Attributes -/

theorem attr?_congr {o p : Handle} (h : o.id = p.id) (attr : String) :
    w.attr? o attr = w.attr? p attr := by
  simp only [attr?, object?_congr w h]

/-- A change that leaves all attributes of an object alone is not seen through them. -/
theorem attr?_modifyObject (o p : Handle) {f : Object → Object} (attr : String)
    (hf : ∀ x, (f x).handle = x.handle) (ha : ∀ x, (f x).attrs = x.attrs) :
    (w.modifyObject o f).attr? p attr = w.attr? p attr := by
  rw [attr?, object?_modifyObject w o p hf, attr?]
  split
  · cases w.object? p <;> simp [ha]
  · rfl

theorem attr?_write_self {o : Handle} (attr : String) (v : Value) (h : w.isAlive o) :
    (w.write o attr v).attr? o attr = some v := by
  obtain ⟨x, hx⟩ := Option.isSome_iff_exists.mp h
  have hobj := object?_modifyObject w o o
    (f := fun x => { x with attrs := x.attrs.put attr v }) (fun _ => rfl)
  change ((w.modifyObject o _).object? o).bind _ = _
  rw [hobj, if_pos rfl, hx]
  exact Attrs.get?_put_self x.attrs attr v

theorem attr?_write_of_ne {o p : Handle} {attr other : String} (v : Value)
    (h : ¬(o.id = p.id ∧ attr = other)) :
    (w.write o attr v).attr? p other = w.attr? p other := by
  have hobj := object?_modifyObject w o p
    (f := fun x => { x with attrs := x.attrs.put attr v }) (fun _ => rfl)
  change ((w.modifyObject o _).object? p).bind _ = _
  rw [hobj]
  split
  next hid =>
    rw [attr?]
    cases w.object? p with
    | none => rfl
    | some x => exact Attrs.get?_put_of_ne x.attrs v fun ha => h ⟨hid, ha⟩
  next => rfl

theorem attr?_write {o : Handle} {attr : String} (halive : w.isAlive o = true) (v : Value)
    (p : Handle) (other : String) : (w.write o attr v).attr? p other =
      if p.id = o.id ∧ other = attr then some v else w.attr? p other := by
  split
  next hsame =>
    obtain ⟨hid, rfl⟩ := hsame
    rw [attr?_congr _ hid]
    exact w.attr?_write_self other v halive
  next hdiff => exact w.attr?_write_of_ne v fun heq => hdiff ⟨heq.1.symm, heq.2.symm⟩

/-- An object that is gone is not written. -/
theorem attr?_write_of_dead {o : Handle} (attr : String) (v : Value) (h : w.isAlive o = false)
    (p : Handle) (other : String) : (w.write o attr v).attr? p other = w.attr? p other := by
  have hobj := object?_modifyObject w o p
    (f := fun x => { x with attrs := x.attrs.put attr v }) (fun _ => rfl)
  change ((w.modifyObject o _).object? p).bind _ = _
  rw [hobj]
  split
  next hid =>
    have hnone : w.object? p = none := by
      rw [← object?_congr w hid]
      simpa [isAlive] using h
    rw [attr?, hnone]
    rfl
  next => rfl

/-- An attribute that is there stays there. -/
theorem isSome_attr?_write (o : Handle) (attr : String) (v : Value) {p : Handle} {other : String}
    (h : (w.attr? p other).isSome = true) : ((w.write o attr v).attr? p other).isSome = true := by
  by_cases hsame : o.id = p.id ∧ attr = other
  · obtain ⟨hid, rfl⟩ := hsame
    cases halive : w.isAlive o with
    | true =>
        rw [← attr?_congr _ hid, w.attr?_write_self attr v halive]
        rfl
    | false => rwa [w.attr?_write_of_dead attr v halive]
  · rwa [w.attr?_write_of_ne v hsame]

theorem attr?_beginFlight (c : Change) (o : Handle) (attr : String) :
    (w.beginFlight c).attr? o attr = w.attr? o attr :=
  attr?_modifyObject w c.object o attr (fun _ => rfl) fun _ => rfl

theorem attr?_endFlight (c : Change) (o : Handle) (attr : String) :
    (w.endFlight c).attr? o attr = w.attr? o attr :=
  attr?_modifyObject w c.object o attr (fun _ => rfl) fun _ => rfl

/-! ## Observers -/

/-- The observers of an object, those of all its attributes. -/
def observers (o : Handle) : List Observer :=
  ((w.object? o).map (·.observers)).getD []

theorem observersOf_eq_filter (o : Handle) (attr : String) :
    w.observersOf o attr = (w.observers o).filter (·.attr == attr) := by
  unfold observersOf observers
  cases w.object? o <;> simp

theorem mem_observersOf {w : World} {o : Handle} {attr : String} {obs : Observer} :
    obs ∈ w.observersOf o attr ↔ obs ∈ w.observers o ∧ obs.attr = attr := by
  simp [observersOf_eq_filter]

theorem observersOf_sublist (o : Handle) (attr : String) :
    (w.observersOf o attr).Sublist (w.observers o) :=
  w.observersOf_eq_filter o attr ▸ List.filter_sublist

theorem isRegistered_iff (s : Subscription) :
    w.isRegistered s = true ↔ ∃ obs ∈ w.observers s.object, obs.id = s.id := by
  unfold isRegistered observers
  cases w.object? s.object <;> simp

theorem observers_congr {o p : Handle} (h : o.id = p.id) : w.observers o = w.observers p := by
  simp only [observers, object?_congr w h]

theorem isAlive_of_mem_observers {o : Handle} {obs : Observer} (h : obs ∈ w.observers o) :
    w.isAlive o = true := by
  unfold observers at h
  unfold isAlive
  cases hx : w.object? o with
  | none => simp [hx] at h
  | some x => rfl

theorem observers_modifyObject (o p : Handle) {f : Object → Object}
    (hf : ∀ x, (f x).handle = x.handle) (ho : ∀ x, (f x).observers = x.observers) :
    (w.modifyObject o f).observers p = w.observers p := by
  rw [observers, object?_modifyObject w o p hf, observers]
  split
  · cases w.object? p <;> simp [ho]
  · rfl

@[simp] theorem observers_write (o p : Handle) (attr : String) (v : Value) :
    (w.write o attr v).observers p = w.observers p :=
  observers_modifyObject w o p (f := fun x => { x with attrs := x.attrs.put attr v })
    (fun _ => rfl) (fun _ => rfl)

theorem observers_unobserve (s : Subscription) (p : Handle) :
    (w.unobserve s).observers p =
      if s.object.id = p.id then (w.observers p).filter (·.id != s.id) else w.observers p := by
  rw [observers, unobserve, object?_modifyObject w s.object p, observers]
  · split
    · cases w.object? p <;> simp
    · rfl
  · exact fun _ => rfl

theorem mem_observers_unobserve {w : World} {s : Subscription} {o : Handle} {obs : Observer} :
    obs ∈ (w.unobserve s).observers o ↔
      obs ∈ w.observers o ∧ ¬(s.object.id = o.id ∧ s.id = obs.id) := by
  rw [observers_unobserve]
  split
  next hid =>
    rw [List.mem_filter, bne_iff_ne]
    exact and_congr_right fun _ =>
      ⟨fun hne hsame => hne hsame.2.symm, fun hnot heq => hnot ⟨hid, heq.symm⟩⟩
  next hid => simp [hid]

/-- The number that the next observer of an object gets. -/
def nextObserver (o : Handle) : Nat :=
  ((w.object? o).map (·.nextObserver)).getD 0

theorem nextObserver_congr {o p : Handle} (h : o.id = p.id) :
    w.nextObserver o = w.nextObserver p := by
  simp only [nextObserver, object?_congr w h]

theorem nextObserver_modifyObject (o p : Handle) {f : Object → Object}
    (hf : ∀ x, (f x).handle = x.handle) (hn : ∀ x, (f x).nextObserver = x.nextObserver) :
    (w.modifyObject o f).nextObserver p = w.nextObserver p := by
  rw [nextObserver, object?_modifyObject w o p hf, nextObserver]
  split
  · cases w.object? p <;> simp [hn]
  · rfl

@[simp] theorem nextObserver_write (o p : Handle) (attr : String) (v : Value) :
    (w.write o attr v).nextObserver p = w.nextObserver p :=
  nextObserver_modifyObject w o p (f := fun x => { x with attrs := x.attrs.put attr v })
    (fun _ => rfl) (fun _ => rfl)

@[simp] theorem observers_beginFlight (c : Change) (p : Handle) :
    (w.beginFlight c).observers p = w.observers p :=
  observers_modifyObject w c.object p (f := fun x => { x with inFlight := c.attr :: x.inFlight })
    (fun _ => rfl) (fun _ => rfl)

@[simp] theorem nextObserver_beginFlight (c : Change) (p : Handle) :
    (w.beginFlight c).nextObserver p = w.nextObserver p :=
  nextObserver_modifyObject w c.object p (f := fun x => { x with inFlight := c.attr :: x.inFlight })
    (fun _ => rfl) (fun _ => rfl)

@[simp] theorem observers_endFlight (c : Change) (p : Handle) :
    (w.endFlight c).observers p = w.observers p :=
  observers_modifyObject w c.object p
    (f := fun x => { x with inFlight := x.inFlight.erase c.attr }) (fun _ => rfl) (fun _ => rfl)

@[simp] theorem nextObserver_endFlight (c : Change) (p : Handle) :
    (w.endFlight c).nextObserver p = w.nextObserver p :=
  nextObserver_modifyObject w c.object p
    (f := fun x => { x with inFlight := x.inFlight.erase c.attr }) (fun _ => rfl) (fun _ => rfl)

theorem nextObserver_unobserve (s : Subscription) (p : Handle) :
    (w.unobserve s).nextObserver p = w.nextObserver p :=
  nextObserver_modifyObject w s.object p (fun _ => rfl) (fun _ => rfl)

theorem nextObserver_observe (o : Handle) (attr : String) (callback : Callback) (p : Handle) :
    (w.observe o attr callback).2.nextObserver p =
      if o.id = p.id ∧ w.isAlive p then w.nextObserver o + 1 else w.nextObserver p := by
  rw [nextObserver, observe, object?_modifyObject w o p]
  · unfold isAlive nextObserver
    by_cases h : o.id = p.id
    · cases w.object? p <;> simp [h]
    · simp [h]
  · exact fun _ => rfl

theorem observe_fst (o : Handle) (attr : String) (callback : Callback) :
    (w.observe o attr callback).1 = ⟨o, w.nextObserver o⟩ := rfl

theorem observers_observe (o : Handle) (attr : String) (callback : Callback) (p : Handle) :
    (w.observe o attr callback).2.observers p =
      if o.id = p.id ∧ w.isAlive p then
        w.observers p ++ [⟨w.nextObserver o, attr, callback⟩]
      else w.observers p := by
  rw [observers, observe, object?_modifyObject w o p, observers]
  · unfold isAlive
    by_cases h : o.id = p.id
    · cases w.object? p <;> simp [h, nextObserver]
    · simp [h]
  · exact fun _ => rfl

/-- An observer was there before, or it is the new one. -/
theorem mem_observers_observe {w : World} {o p : Handle} {attr : String} {callback : Callback}
    {obs : Observer} : obs ∈ (w.observe o attr callback).2.observers p ↔
      obs ∈ w.observers p ∨
        o.id = p.id ∧ w.isAlive p = true ∧ obs = ⟨w.nextObserver o, attr, callback⟩ := by
  rw [observers_observe]
  split
  next h => simp [h]
  next h => exact (or_iff_left fun hnew => h ⟨hnew.1, hnew.2.1⟩).symm

theorem le_nextObserver_observe (o : Handle) (attr : String) (callback : Callback) (p : Handle) :
    w.nextObserver p ≤ (w.observe o attr callback).2.nextObserver p := by
  rw [nextObserver_observe]
  split
  next hp =>
    rw [w.nextObserver_congr hp.1]
    exact Nat.le_succ _
  next => exact Nat.le_refl _

theorem lt_nextObserver_observe {w : World} {o p : Handle} {attr : String} {callback : Callback}
    {obs : Observer} (h : ∀ obs ∈ w.observers p, obs.id < w.nextObserver p)
    (hobs : obs ∈ (w.observe o attr callback).2.observers p) :
    obs.id < (w.observe o attr callback).2.nextObserver p := by
  obtain hobs | ⟨hid, halive, rfl⟩ := mem_observers_observe.mp hobs
  · exact Nat.lt_of_lt_of_le (h obs hobs) (w.le_nextObserver_observe o attr callback p)
  · rw [nextObserver_observe, if_pos ⟨hid, halive⟩]
    exact Nat.lt_succ_self _

theorem attr?_observe (o : Handle) (attr : String) (callback : Callback) (p : Handle)
    (other : String) : (w.observe o attr callback).2.attr? p other = w.attr? p other :=
  attr?_modifyObject w o p other (fun _ => rfl) (fun _ => rfl)

theorem attr?_unobserve (s : Subscription) (p : Handle) (other : String) :
    (w.unobserve s).attr? p other = w.attr? p other :=
  attr?_modifyObject w s.object p other (fun _ => rfl) (fun _ => rfl)

/-! ## Bindings -/

theorem binding?_modifyBinding (b c : Nat) {f : Binding → Binding} (hf : ∀ x, (f x).id = x.id) :
    (w.modifyBinding b f).binding? c =
      if b = c then (w.binding? c).map f else w.binding? c := by
  have hsame : ((fun x : Binding => x.id == c) ∘
      fun x => if x.id == b then f x else x) = fun x => x.id == c := by
    funext x
    by_cases h : x.id = b <;> simp [h, hf]
  simp only [binding?, modifyBinding, List.find?_map, hsame]
  cases hfind : w.bindings.find? (fun x => x.id == c) with
  | none => simp
  | some x =>
      have hx : x.id = c := by simpa using List.find?_some hfind
      by_cases h : b = c
      · simp [h, hx]
      · have hne : x.id ≠ b := fun heq => h (heq.symm.trans hx)
        simp [h, hne]

theorem binding?_setBusy {w : World} {b : Nat} {x : Binding} (hx : w.binding? b = some x)
    (busy : Bool) :
    (w.setBusy b busy).binding? b = some { x with busy } := by
  rw [setBusy, binding?_modifyBinding w b b (f := fun x => { x with busy }) fun _ => rfl,
    if_pos rfl, hx]
  rfl

theorem id_of_binding? {b : Nat} {x : Binding} (h : w.binding? b = some x) : x.id = b := by
  simpa using List.find?_some h

theorem mem_of_binding? {b : Nat} {x : Binding} (h : w.binding? b = some x) : x ∈ w.bindings :=
  List.mem_of_find?_eq_some h

/-- What is said of some binding of a number is said of the one that is there. -/
theorem of_binding? {w : World} {b : Nat} {x : Binding} {P : Binding → Prop}
    (hx : w.binding? b = some x) (h : ∃ y, w.binding? b = some y ∧ P y) : P x := by
  obtain ⟨y, hy, hp⟩ := h
  rwa [Option.some.inj (hx.symm.trans hy)]

theorem mem_bindings_modifyBinding {b : Nat} {f : Binding → Binding} {y : Binding}
    (hy : y ∈ (w.modifyBinding b f).bindings) :
    ∃ x ∈ w.bindings, (x.id = b ∧ y = f x) ∨ (x.id ≠ b ∧ y = x) := by
  obtain ⟨x, hx, rfl⟩ := List.mem_map.mp hy
  by_cases hb : x.id = b
  · exact ⟨x, hx, .inl ⟨hb, by simp [hb]⟩⟩
  · exact ⟨x, hx, .inr ⟨hb, by simp [hb]⟩⟩

theorem length_modifyBinding (b : Nat) (f : Binding → Binding) :
    (w.modifyBinding b f).bindings.length = w.bindings.length := by
  simp [modifyBinding]

theorem ids_modifyBinding (b : Nat) {f : Binding → Binding} (hf : ∀ x, (f x).id = x.id) :
    (w.modifyBinding b f).bindings.map (·.id) = w.bindings.map (·.id) := by
  simp only [modifyBinding, List.map_map]
  refine List.map_congr_left fun x _ => ?_
  by_cases hb : x.id = b <;> simp [hb, hf]

theorem modifyBinding_modifyBinding (b : Nat) {f g : Binding → Binding}
    (hf : ∀ x, (f x).id = x.id) :
    (w.modifyBinding b f).modifyBinding b g = w.modifyBinding b fun x => g (f x) := by
  simp only [modifyBinding, List.map_map]
  congr 1
  refine List.map_congr_left fun x _ => ?_
  by_cases hx : x.id = b <;> simp [hx, hf]

theorem binding?_of_nodup {w : World} (h : (w.bindings.map (·.id)).Nodup) {x : Binding}
    (hx : x ∈ w.bindings) : w.binding? x.id = some x := by
  cases hfind : w.binding? x.id with
  | none =>
      have hnone := List.find?_eq_none.mp hfind x hx
      simp at hnone
  | some y =>
      have heq := List.inj_on_of_nodup_map h (w.mem_of_binding? hfind) hx (w.id_of_binding? hfind)
      rw [heq]

theorem eq_of_nodup {w : World} (h : (w.bindings.map (·.id)).Nodup) {b : Nat} {x y : Binding}
    (hx : w.binding? b = some x) (hy : y ∈ w.bindings) (hid : y.id = b) : y = x := by
  have heq := binding?_of_nodup h hy
  rw [hid, hx] at heq
  exact (Option.some.inj heq).symm

/-- Where a binding cannot be let go of, nothing happens. -/
theorem release_cases (b : Nat) : w.release b = w ∨ w.release b = w.disconnect b := by
  unfold release
  split
  · split
    · exact .inl rfl
    · exact .inr rfl
  · exact .inl rfl

end World

end LiveUI
