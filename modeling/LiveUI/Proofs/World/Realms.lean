import LiveUI.Proofs.World.Confinement
import LiveUI.Proofs.World.Making
import LiveUI.Proofs.World.Reaching
import LiveUI.World.Reclaim

/-! # Realms

A realm is a part of the world that keeps to itself. Its attributes hold no objects but its own and
no functions of the host, only its bindings observe it, and these bindings know, read and write
nothing outside. What is not made yet counts as part of the realm, so a realm grows by what is made in
it.

Each operation that is done to a realm leaves it a realm, and leaves all that is outside as it was. -/

namespace LiveUI

/-! ## The objects in a value -/

namespace Value

theorem mem_objectsList {id : Nat} {vs : List Value} :
    id ∈ objectsList vs ↔ ∃ v ∈ vs, id ∈ v.objects := by
  induction vs with
  | nil => simp [objectsList]
  | cons v vs ih => simp [objectsList, ih]

theorem allInnocent_iff {vs : List Value} :
    allInnocent vs = true ↔ ∀ v ∈ vs, v.isInnocent = true := by
  induction vs with
  | nil => simp [allInnocent]
  | cons v vs ih => simp [allInnocent, ih]

end Value

namespace Attrs

theorem forall_put {P : Value → Prop} {attrs : Attrs} (h : ∀ a ∈ attrs, P a.2) (name : String)
    {v : Value} (hv : P v) : ∀ a ∈ attrs.put name v, P a.2 := by
  induction attrs with
  | nil => simpa [put] using hv
  | cons b rest ih =>
      obtain ⟨n, u⟩ := b
      simp only [List.forall_mem_cons] at h
      simp only [put]
      split
      · exact List.forall_mem_cons.mpr ⟨hv, h.2⟩
      · exact List.forall_mem_cons.mpr ⟨h.1, ih h.2⟩

theorem forall_ofList {P : Value → Prop} {assignments : List (String × Value)}
    (h : ∀ a ∈ assignments, P a.2) : ∀ a ∈ ofList assignments, P a.2 :=
  List.foldlRecOn (motive := fun attrs : Attrs => ∀ a ∈ attrs, P a.2) assignments _ nofun
    fun _ hattrs a ha => forall_put hattrs a.1 (h a ha)

end Attrs

/-- Some objects and some bindings, by their numbers. -/
structure Realm where
  objects : Nat → Prop
  bindings : Nat → Prop

/-! ## Numbers -/

/-- The observers that a binding holds on to. -/
def Binding.subscriptions (x : Binding) : List Subscription :=
  x.sources ++ x.targetListener.toList

namespace World

/-- The observer has been given its number. -/
def Issued (w : World) (s : Subscription) : Prop :=
  s.object.id < w.nextObject ∧ ∀ x, w.object? s.object = some x → s.id < x.nextObserver

/-- Each object has a number of its own, and whatever is referred to by a number has been given
it. -/
structure Numbered (w : World) : Prop where
  distinct : (w.objects.map (·.handle.id)).Nodup
  objects : ∀ x ∈ w.objects, x.handle.id < w.nextObject
  bindings : ∀ x ∈ w.bindings, x.id < w.nextBinding
  owned : ∀ o x, w.object? o = some x → ∀ b ∈ x.bindings, b < w.nextBinding
  subscriptions : ∀ b x, w.binding? b = some x → ∀ s ∈ x.subscriptions, w.Issued s

variable {w w' : World}

theorem handle_of_object? {o : Handle} {x : Object} (h : w.object? o = some x) :
    x.handle.id = o.id := by
  simpa using List.find?_some h

theorem Numbered.object?_of_mem (h : w.Numbered) {x : Object} (hx : x ∈ w.objects) :
    w.object? x.handle = some x := by
  cases hfind : w.object? x.handle with
  | none => simpa using List.find?_eq_none.mp hfind x hx
  | some y =>
      have heq := List.inj_on_of_nodup_map h.distinct (List.mem_of_find?_eq_some hfind) hx
        (handle_of_object? hfind)
      rw [heq]

theorem Numbered.lt_of_object? (h : w.Numbered) {o : Handle} {x : Object}
    (hx : w.object? o = some x) : o.id < w.nextObject :=
  handle_of_object? hx ▸ h.objects x (List.mem_of_find?_eq_some hx)

theorem Numbered.lt_of_attr? (h : w.Numbered) {o : Handle} {attr : String} {v : Value}
    (hv : w.attr? o attr = some v) : o.id < w.nextObject := by
  obtain ⟨x, hx, -⟩ := Option.bind_eq_some_iff.mp hv
  exact h.lt_of_object? hx

theorem Numbered.lt_of_observer (h : w.Numbered) {o : Handle} {obs : Observer}
    (hobs : obs ∈ w.observers o) : o.id < w.nextObject := by
  obtain ⟨x, hx⟩ := Option.isSome_iff_exists.mp (w.isAlive_of_mem_observers hobs)
  exact h.lt_of_object? hx

theorem Numbered.lt_of_binding? (h : w.Numbered) {b : Nat} {x : Binding}
    (hx : w.binding? b = some x) : b < w.nextBinding :=
  w.id_of_binding? hx ▸ h.bindings x (w.mem_of_binding? hx)

theorem Issued.mono {s : Subscription} (h : w.Issued s) (hle : w.nextObject ≤ w'.nextObject)
    (hobject : ∀ y, w'.object? s.object = some y → w.nextObject ≤ s.object.id ∨
      ∃ x, w.object? s.object = some x ∧ x.nextObserver ≤ y.nextObserver) : w'.Issued s := by
  refine ⟨Nat.lt_of_lt_of_le h.1 hle, fun y hy => ?_⟩
  rcases hobject y hy with hnew | ⟨x, hx, hnext⟩
  · exact absurd h.1 (Nat.not_lt.mpr hnew)
  · exact Nat.lt_of_lt_of_le (h.2 x hx) hnext

theorem issued_observe (o : Handle) (attr : String) (callback : Callback)
    (ho : o.id < w.nextObject) :
    (w.observe o attr callback).2.Issued (w.observe o attr callback).1 := by
  refine ⟨ho, fun y hy => ?_⟩
  rw [observe, object?_modifyObject w o o, if_pos rfl] at hy
  · obtain ⟨x, -, rfl⟩ := Option.map_eq_some_iff.mp hy
    exact Nat.lt_succ_self _
  · exact fun _ => rfl

/-- A new object is found under its number, and the others under theirs. -/
theorem object?_create {typeName : String} {attrs : List (String × Value)} {o : Handle} {y : Object}
    (hy : (w.create typeName attrs).2.object? o = some y) :
    w.object? o = some y ∨
      o.id = w.nextObject ∧ y = { handle := ⟨w.nextObject, typeName⟩, attrs := Attrs.ofList attrs } := by
  change (w.objects ++ [_]).find? _ = some y at hy
  rw [List.find?_append] at hy
  cases hx : w.object? o with
  | some z =>
      rw [show w.objects.find? (·.handle.id == o.id) = some z from hx] at hy
      exact .inl hy
  | none =>
      rw [show w.objects.find? (·.handle.id == o.id) = none from hx, Option.none_or] at hy
      obtain rfl := List.mem_singleton.mp (List.mem_of_find?_eq_some hy)
      exact .inr ⟨(handle_of_object? (w := { w with objects := [_] }) hy).symm, rfl⟩

theorem object?_create_of_some {o : Handle} {x : Object} (hx : w.object? o = some x)
    (typeName : String) (attrs : List (String × Value)) :
    (w.create typeName attrs).2.object? o = some x := by
  change (w.objects ++ [_]).find? _ = some x
  rw [List.find?_append, show w.objects.find? (·.handle.id == o.id) = some x from hx]
  rfl

/-- What is asked of an object has the same answer after another one has been made, where the new one
answers like none. -/
theorem map_object?_create {β : Type} (f : Object → β) (d : β) {typeName : String}
    {attrs : List (String × Value)}
    (hnew : f { handle := ⟨w.nextObject, typeName⟩, attrs := Attrs.ofList attrs } = d) (o : Handle) :
    (((w.create typeName attrs).2.object? o).map f).getD d = ((w.object? o).map f).getD d := by
  cases hx : w.object? o with
  | some x => rw [object?_create_of_some hx]
  | none =>
      cases hy : (w.create typeName attrs).2.object? o with
      | none => rfl
      | some y =>
          obtain ⟨-, rfl⟩ := (object?_create hy).resolve_left (by simp [hx])
          exact hnew

theorem object?_create_of_ne (typeName : String) (attrs : List (String × Value)) {o : Handle}
    (ho : o.id ≠ w.nextObject) : (w.create typeName attrs).2.object? o = w.object? o := by
  change (w.objects ++ [_]).find? _ = _
  rw [List.find?_append]
  simp [object?, ho.symm]

/-- The child gets the parent, and the parent one more child. -/
theorem object?_addChild (w : World) (parent child o : Handle) :
    (w.addChild parent child).object? o = (w.object? o).map fun x =>
      { x with
        parent := if child.id = o.id then some parent else x.parent
        children := if parent.id = o.id then x.children ++ [child] else x.children } := by
  unfold addChild
  rw [object?_modifyObject _ parent o (f := fun x => { x with children := x.children ++ [child] })
    fun _ => rfl, object?_modifyObject w child o (f := fun x => { x with parent := some parent })
    fun _ => rfl]
  cases w.object? o <;> by_cases hp : parent.id = o.id <;> by_cases hc : child.id = o.id <;>
    simp [hp, hc]

theorem Numbered.create (h : w.Numbered) (typeName : String) (attrs : List (String × Value)) :
    (w.create typeName attrs).2.Numbered := by
  refine ⟨?_, fun x hx => ?_, h.bindings, fun o y hy b hb => ?_, fun b x hx s hs => ?_⟩
  · change ((w.objects ++ [_]).map _).Nodup
    simp only [List.map_append, List.map_cons, List.map_nil]
    refine List.nodup_append.mpr ⟨h.distinct, List.nodup_singleton _, ?_⟩
    intro a ha c hc hac
    obtain ⟨x, hx, rfl⟩ := List.mem_map.mp ha
    rw [List.mem_singleton.mp hc] at hac
    exact Nat.ne_of_lt (h.objects x hx) hac
  · rcases List.mem_append.mp hx with hx | hx
    · exact Nat.lt_succ_of_lt (h.objects x hx)
    · rw [List.mem_singleton.mp hx]
      exact Nat.lt_succ_self _
  · rcases object?_create hy with hy | ⟨-, rfl⟩
    · exact h.owned o y hy b hb
    · cases hb
  · refine (h.subscriptions b x hx s hs).mono (Nat.le_succ _) fun y hy => ?_
    rcases object?_create hy with hy | ⟨hid, -⟩
    · exact .inr ⟨y, hy, Nat.le_refl _⟩
    · exact .inl (Nat.le_of_eq hid.symm)

end World

namespace Realm

/-! ## What belongs to a realm -/

section Belonging

variable (R : Realm) (w : World)

/-- An object of the realm that has been made. -/
def Has (id : Nat) : Prop :=
  R.objects id ∧ id < w.nextObject

/-- A binding of the realm that has been made. -/
def Serves (b : Nat) : Prop :=
  R.bindings b ∧ b < w.nextBinding

/-- A value all of whose objects are of the realm, without functions of the host. -/
structure Contains (v : Value) : Prop where
  objects : ∀ id ∈ v.objects, R.Has w id
  innocent : v.isInnocent = true

/-- An observer that is a binding of the realm. -/
def Hears (obs : Observer) : Prop :=
  ∃ b, obs.callback.binding? = some b ∧ R.Serves w b

/-- A binding that knows the realm only. -/
structure Holds (x : Binding) : Prop where
  target : R.Has w x.target.id
  slots : ∀ v ∈ x.frame.slots, R.Contains w v
  constants : ∀ v ∈ x.code.constants, R.Contains w v
  subscriptions : ∀ s ∈ x.subscriptions, R.Has w s.object.id

/-- Nothing in the realm leads out of it, and it has all numbers that are still to be given. -/
structure Sealed : Prop where
  numbered : w.Numbered
  newObjects : ∀ id, w.nextObject ≤ id → R.objects id
  newBindings : ∀ b, w.nextBinding ≤ b → R.bindings b
  attrs : ∀ o attr v, R.objects o.id → w.attr? o attr = some v → R.Contains w v
  observers : ∀ o, R.objects o.id → ∀ obs ∈ w.observers o, R.Hears w obs
  bindings : ∀ b x, R.bindings b → w.binding? b = some x → R.Holds w x

end Belonging

variable {R : Realm} {w w' w'' : World} {v : Value}

theorem Has.mono {id : Nat} (h : R.Has w id) (hle : w.nextObject ≤ w'.nextObject) : R.Has w' id :=
  ⟨h.1, Nat.lt_of_lt_of_le h.2 hle⟩

theorem Serves.mono {b : Nat} (h : R.Serves w b) (hle : w.nextBinding ≤ w'.nextBinding) :
    R.Serves w' b :=
  ⟨h.1, Nat.lt_of_lt_of_le h.2 hle⟩

theorem Contains.mono (h : R.Contains w v) (hle : w.nextObject ≤ w'.nextObject) : R.Contains w' v :=
  ⟨fun id hid => (h.objects id hid).mono hle, h.innocent⟩

theorem Hears.mono {obs : Observer} (h : R.Hears w obs) (hle : w.nextBinding ≤ w'.nextBinding) :
    R.Hears w' obs := by
  obtain ⟨b, hb, hserves⟩ := h
  exact ⟨b, hb, hserves.mono hle⟩

theorem Holds.mono {x : Binding} (h : R.Holds w x) (hle : w.nextObject ≤ w'.nextObject) :
    R.Holds w' x :=
  ⟨h.target.mono hle, fun v hv => (h.slots v hv).mono hle, fun v hv => (h.constants v hv).mono hle,
    fun s hs => (h.subscriptions s hs).mono hle⟩

theorem contains_object {o : Handle} : R.Contains w (.object o) ↔ R.Has w o.id :=
  ⟨fun h => h.objects _ (by simp [Value.objects]),
    fun h => ⟨by simpa [Value.objects] using h, rfl⟩⟩

theorem partwise_contains (R : Realm) (w : World) : Value.Partwise (R.Contains w) where
  scalar v hv := by
    cases v with
    | list | object | func => simp [Value.isScalar] at hv
    | _ => exact ⟨by simp [Value.objects], rfl⟩
  list items := by
    refine ⟨fun h v hv => ⟨fun id hid => ?_, ?_⟩, fun h => ⟨fun id hid => ?_, ?_⟩⟩
    · exact h.objects id (Value.mem_objectsList.mpr ⟨v, hv, hid⟩)
    · exact Value.allInnocent_iff.mp h.innocent v hv
    · obtain ⟨v, hv, hid⟩ := Value.mem_objectsList.mp hid
      exact (h v hv).objects id hid
    · exact Value.allInnocent_iff.mpr fun v hv => (h v hv).innocent

theorem contains_nil : R.Contains w .nil :=
  (R.partwise_contains w).scalar _ rfl

theorem contains_str (s : String) : R.Contains w (.str s) :=
  (R.partwise_contains w).scalar _ rfl

theorem Sealed.hereditary (h : R.Sealed w) : w.Hereditary (R.Contains w) where
  toPartwise := R.partwise_contains w
  attr ho hattr := h.attrs _ _ _ (contains_object.mp ho).1 hattr
  func hf := by simpa [Value.isInnocent] using hf.innocent

/-! ## Changes within a realm -/

/-- An object before and after a change: new observers have new numbers, and new bindings are of the
realm. -/
structure Grows (R : Realm) (w : World) (x y : Object) : Prop where
  nextObserver : x.nextObserver ≤ y.nextObserver
  observers : ∀ obs ∈ y.observers, obs ∈ x.observers ∨ x.nextObserver ≤ obs.id
  bindings : ∀ b ∈ y.bindings, b ∈ x.bindings ∨ R.Serves w b

theorem Grows.of_same {x y : Object} (hnext : y.nextObserver = x.nextObserver)
    (hobservers : y.observers = x.observers) (hbindings : y.bindings = x.bindings) :
    R.Grows w x y :=
  ⟨Nat.le_of_eq hnext.symm, fun _ hobs => .inl (hobservers ▸ hobs), fun _ hb => .inl (hbindings ▸ hb)⟩

theorem Grows.trans {x y z : Object} (h : R.Grows w x y) (h' : R.Grows w' y z)
    (hle : w.nextBinding ≤ w'.nextBinding) : R.Grows w' x z := by
  refine ⟨Nat.le_trans h.nextObserver h'.nextObserver, fun obs hobs => ?_, fun b hb => ?_⟩
  · rcases h'.observers obs hobs with hobs | hnew
    · exact h.observers obs hobs
    · exact .inr (Nat.le_trans h.nextObserver hnew)
  · rcases h'.bindings b hb with hb | hserves
    · exact (h.bindings b hb).imp_right fun hserves => hserves.mono hle
    · exact .inr hserves

/-- The world has changed within the realm only. -/
structure Within (R : Realm) (w w' : World) : Prop where
  isSealed : R.Sealed w'
  objects : ∀ o, ¬R.objects o.id → w'.object? o = w.object? o
  bindings : ∀ b, ¬R.bindings b → w'.binding? b = w.binding? b
  nextObject : w.nextObject ≤ w'.nextObject
  nextBinding : w.nextBinding ≤ w'.nextBinding
  past : ∀ o y, R.objects o.id → w'.object? o = some y →
    (w.nextObject ≤ o.id ∧ ∀ b ∈ y.bindings, R.Serves w' b) ∨
      ∃ x, w.object? o = some x ∧ R.Grows w' x y

namespace Within

/-- What is said of bindings and objects is so of a world that has the same ones. -/
theorem of_same (h : R.Sealed w) (hobjects : w'.objects = w.objects)
    (hbindings : w'.bindings = w.bindings) (hnextObject : w'.nextObject = w.nextObject)
    (hnextBinding : w'.nextBinding = w.nextBinding) : R.Within w w' := by
  have hobject (o : Handle) : w'.object? o = w.object? o := by
    simp only [World.object?, hobjects]
  have hbinding (b : Nat) : w'.binding? b = w.binding? b := by
    simp only [World.binding?, hbindings]
  have hle := Nat.le_of_eq hnextObject.symm
  have hle' := Nat.le_of_eq hnextBinding.symm
  have hnumbered : w'.Numbered := by
    refine ⟨?_, ?_, ?_, fun o x hx => ?_, fun b x hx s hs => ?_⟩
    · rw [hobjects]
      exact h.numbered.distinct
    · rw [hobjects, hnextObject]
      exact h.numbered.objects
    · rw [hbindings, hnextBinding]
      exact h.numbered.bindings
    · rw [hobject] at hx
      rw [hnextBinding]
      exact h.numbered.owned o x hx
    · rw [hbinding] at hx
      exact (h.numbered.subscriptions b x hx s hs).mono hle fun y hy =>
        .inr ⟨y, hobject s.object ▸ hy, Nat.le_refl _⟩
  refine ⟨⟨hnumbered, ?_, ?_, fun o attr v ho hv => ?_, fun o ho obs hobs => ?_, fun b x hb hx => ?_⟩,
    fun o _ => hobject o, fun b _ => hbinding b, hle, hle',
    fun o y _ hy => .inr ⟨y, hobject o ▸ hy, .of_same rfl rfl rfl⟩⟩
  · rw [hnextObject]
    exact h.newObjects
  · rw [hnextBinding]
    exact h.newBindings
  · rw [World.attr?, hobject] at hv
    exact (h.attrs o attr v ho hv).mono hle
  · rw [World.observers, hobject] at hobs
    exact (h.observers o ho obs hobs).mono hle'
  · rw [hbinding] at hx
    exact (h.bindings b x hb hx).mono hle

theorem refl (h : R.Sealed w) : R.Within w w :=
  of_same h rfl rfl rfl rfl

theorem trans (h : R.Within w w') (h' : R.Within w' w'') : R.Within w w'' := by
  refine ⟨h'.isSealed, fun o ho => (h'.objects o ho).trans (h.objects o ho),
    fun b hb => (h'.bindings b hb).trans (h.bindings b hb), Nat.le_trans h.nextObject h'.nextObject,
    Nat.le_trans h.nextBinding h'.nextBinding, fun o z ho hz => ?_⟩
  rcases h'.past o z ho hz with ⟨hnew, hb⟩ | ⟨y, hy, hgrows'⟩
  · exact .inl ⟨Nat.le_trans h.nextObject hnew, hb⟩
  · rcases h.past o y ho hy with ⟨hnew, hserves⟩ | ⟨x, hx, hgrows⟩
    · refine .inl ⟨hnew, fun b hb => ?_⟩
      rcases hgrows'.bindings b hb with hb | hserves'
      · exact (hserves b hb).mono h'.nextBinding
      · exact hserves'
    · exact .inr ⟨x, hx, hgrows.trans hgrows' h'.nextBinding⟩

/-- The number of an observer is not given again. -/
theorem issued (h : R.Within w w') {s : Subscription} (hs : w.Issued s) : w'.Issued s := by
  refine hs.mono h.nextObject fun y hy => ?_
  by_cases ho : R.objects s.object.id
  · exact (h.past _ y ho hy).imp And.left fun ⟨x, hx, hgrows⟩ => ⟨x, hx, hgrows.nextObserver⟩
  · exact .inr ⟨y, h.objects _ ho ▸ hy, Nat.le_refl _⟩

theorem log (h : R.Sealed w) (e : Entry) : R.Within w (w.log e) :=
  of_same h rfl rfl rfl rfl

theorem modifyObject (h : R.Sealed w) {o : Handle} (ho : R.objects o.id) {f : Object → Object}
    (hf : ∀ x, (f x).handle = x.handle)
    (hattrs : ∀ x attr v, (f x).attrs.get? attr = some v →
      x.attrs.get? attr = some v ∨ R.Contains w v)
    (hobservers : ∀ x, ∀ obs ∈ (f x).observers, obs ∈ x.observers ∨ R.Hears w obs)
    (hgrows : ∀ x, w.object? o = some x → R.Grows w x (f x)) : R.Within w (w.modifyObject o f) := by
  have hobject := fun p => w.object?_modifyObject o p hf
  have hpast : ∀ p y, (w.modifyObject o f).object? p = some y →
      ∃ x, w.object? p = some x ∧ R.Grows (w.modifyObject o f) x y := by
    intro p y hy
    rw [hobject] at hy
    split at hy
    next hid =>
      obtain ⟨x, hx, rfl⟩ := Option.map_eq_some_iff.mp hy
      have hhere := hgrows x (w.object?_congr hid ▸ hx)
      exact ⟨x, hx, hhere.trans (.of_same rfl rfl rfl) (Nat.le_refl _)⟩
    next => exact ⟨y, hy, .of_same rfl rfl rfl⟩
  have hnumbered : (w.modifyObject o f).Numbered := by
    refine ⟨?_, fun x hx => ?_, h.numbered.bindings, fun p y hy b hb => ?_, fun b x hx s hs => ?_⟩
    · have hids : (w.modifyObject o f).objects.map (·.handle.id) = w.objects.map (·.handle.id) := by
        simp only [World.modifyObject, List.map_map]
        refine List.map_congr_left fun x _ => ?_
        by_cases hx : x.handle.id = o.id <;> simp [hx, hf]
      rw [hids]
      exact h.numbered.distinct
    · obtain ⟨y, hy, rfl⟩ := List.mem_map.mp hx
      split
      · rw [hf]
        exact h.numbered.objects y hy
      · exact h.numbered.objects y hy
    · obtain ⟨x, hx, hgrows⟩ := hpast p y hy
      rcases hgrows.bindings b hb with hb | hserves
      · exact h.numbered.owned p x hx b hb
      · exact hserves.2
    · exact (h.numbered.subscriptions b x hx s hs).mono (Nat.le_refl _) fun y hy =>
        .inr ((hpast _ y hy).imp fun _ hx => ⟨hx.1, hx.2.nextObserver⟩)
  refine ⟨⟨hnumbered, h.newObjects, h.newBindings, fun p attr v hp hv => ?_,
    fun p hp obs hobs => ?_, fun b x hb hx => (h.bindings b x hb hx).mono (Nat.le_refl _)⟩,
    fun p hp => ?_, fun _ _ => rfl, Nat.le_refl _, Nat.le_refl _, fun p y _ hy => .inr (hpast p y hy)⟩
  · refine Contains.mono (w := w) ?_ (Nat.le_refl _)
    obtain ⟨x, hx, hattr⟩ := Option.bind_eq_some_iff.mp hv
    rw [hobject] at hx
    split at hx
    · obtain ⟨y, hy, rfl⟩ := Option.map_eq_some_iff.mp hx
      rcases hattrs y attr v hattr with hold | hnew
      · exact h.attrs p attr v hp (Option.bind_eq_some_iff.mpr ⟨y, hy, hold⟩)
      · exact hnew
    · exact h.attrs p attr v hp (Option.bind_eq_some_iff.mpr ⟨x, hx, hattr⟩)
  · have hold := h.observers p hp
    unfold World.observers at hobs hold
    rw [hobject] at hobs
    split at hobs
    · cases hy : w.object? p with
      | none => simp [hy] at hobs
      | some y =>
          rw [hy] at hobs hold
          exact (hobservers y obs hobs).elim (hold obs) id
    · exact hold obs hobs
  · rw [hobject, if_neg fun hid : o.id = p.id => hp (hid ▸ ho)]

/-- A mark on an object that leaves its attributes, its observers and its bindings alone. -/
theorem mark (h : R.Sealed w) {o : Handle} (ho : R.objects o.id) {f : Object → Object}
    (hhandle : ∀ x, (f x).handle = x.handle) (hattrs : ∀ x, (f x).attrs = x.attrs)
    (hobservers : ∀ x, (f x).observers = x.observers)
    (hnext : ∀ x, (f x).nextObserver = x.nextObserver)
    (hbindings : ∀ x, (f x).bindings = x.bindings) : R.Within w (w.modifyObject o f) :=
  modifyObject h ho hhandle (fun x _ _ hv => .inl (hattrs x ▸ hv))
    (fun x _ hobs => .inl (hobservers x ▸ hobs))
    fun x _ => .of_same (hnext x) (hobservers x) (hbindings x)

theorem modifyBinding (h : R.Sealed w) {b : Nat} (hb : R.bindings b) {f : Binding → Binding}
    (hid : ∀ x, (f x).id = x.id) (hf : ∀ x, R.Holds w x → R.Holds w (f x))
    (hsubscriptions : ∀ x, ∀ s ∈ (f x).subscriptions, s ∈ x.subscriptions ∨ w.Issued s) :
    R.Within w (w.modifyBinding b f) := by
  have hbinding := fun c => w.binding?_modifyBinding b c hid
  have hnumbered : (w.modifyBinding b f).Numbered := by
    refine ⟨h.numbered.distinct, h.numbered.objects, fun x hx => ?_, h.numbered.owned,
      fun c x hx s hs => ?_⟩
    · obtain ⟨y, hy, ⟨-, rfl⟩ | ⟨-, rfl⟩⟩ := w.mem_bindings_modifyBinding hx
      · rw [hid]
        exact h.numbered.bindings y hy
      · exact h.numbered.bindings _ hy
    · refine World.Issued.mono (w := w) ?_ (Nat.le_refl _) fun y hy => .inr ⟨y, hy, Nat.le_refl _⟩
      rw [hbinding] at hx
      split at hx
      · obtain ⟨y, hy, rfl⟩ := Option.map_eq_some_iff.mp hx
        rcases hsubscriptions y s hs with hs | hissued
        · exact h.numbered.subscriptions c y hy s hs
        · exact hissued
      · exact h.numbered.subscriptions c x hx s hs
  refine ⟨⟨hnumbered, h.newObjects, h.newBindings,
    fun o attr v ho hv => (h.attrs o attr v ho hv).mono (Nat.le_refl _), h.observers,
    fun c x hc hx => ?_⟩, fun _ _ => rfl, fun c hc => ?_, Nat.le_refl _, Nat.le_refl _,
    fun o y _ hy => .inr ⟨y, hy, .of_same rfl rfl rfl⟩⟩
  · refine Holds.mono (w := w) ?_ (Nat.le_refl _)
    rw [hbinding] at hx
    split at hx
    · obtain ⟨y, hy, rfl⟩ := Option.map_eq_some_iff.mp hx
      exact hf y (h.bindings c y hc hy)
    · exact h.bindings c x hc hx
  · rw [hbinding, if_neg fun hbc : b = c => hc (hbc ▸ hb)]

/-! ### Objects and observers -/

theorem write (h : R.Sealed w) {o : Handle} (ho : R.objects o.id) (attr : String)
    (hv : R.Contains w v) : R.Within w (w.write o attr v) := by
  have hput : R.Within w (w.modifyObject o fun x => { x with attrs := x.attrs.put attr v }) := by
    refine modifyObject h ho (fun _ => rfl) (fun x other u hu => ?_) (fun _ _ => .inl) fun _ _ =>
      .of_same rfl rfl rfl
    by_cases hattr : attr = other
    · subst hattr
      rw [Attrs.get?_put_self] at hu
      exact .inr (Option.some.inj hu ▸ hv)
    · rw [Attrs.get?_put_of_ne _ _ hattr] at hu
      exact .inl hu
  exact hput.trans (log hput.isSealed _)

theorem observe (h : R.Sealed w) {o : Handle} (ho : R.objects o.id) (attr : String)
    (callback : Callback) {b : Nat} (hcall : callback.binding? = some b) (hb : R.Serves w b) :
    R.Within w (w.observe o attr callback).2 := by
  refine modifyObject h ho (fun _ => rfl) (fun _ _ _ => .inl) (fun x obs hobs => ?_) fun x hx => ?_
  · rcases List.mem_append.mp hobs with hold | hnew
    · exact .inl hold
    · obtain rfl := List.mem_singleton.mp hnew
      exact .inr ⟨b, hcall, hb⟩
  · simp only [hx, Option.map_some, Option.getD_some]
    refine ⟨Nat.le_succ _, fun obs hobs => ?_, fun _ => .inl⟩
    rcases List.mem_append.mp hobs with hold | hnew
    · exact .inl hold
    · rw [List.mem_singleton.mp hnew]
      exact .inr (Nat.le_refl _)

theorem unobserve (h : R.Sealed w) {s : Subscription} (hs : R.objects s.object.id) :
    R.Within w (w.unobserve s) :=
  modifyObject h hs (fun _ => rfl) (fun _ _ _ => .inl)
    (fun _ _ hobs => .inl (List.mem_of_mem_filter hobs)) fun _ _ =>
      ⟨Nat.le_refl _, fun _ hobs => .inl (List.mem_of_mem_filter hobs), fun _ => .inl⟩

theorem unobserveAll (h : R.Sealed w) {ss : List Subscription}
    (hs : ∀ s ∈ ss, R.objects s.object.id) : R.Within w (ss.foldl World.unobserve w) := by
  induction ss generalizing w with
  | nil => exact refl h
  | cons s ss ih =>
      have hfirst := unobserve h (hs s List.mem_cons_self)
      exact hfirst.trans (ih hfirst.isSealed fun t ht => hs t (List.mem_cons_of_mem s ht))

theorem beginFlight (h : R.Sealed w) {c : Change} (hc : R.objects c.object.id) :
    R.Within w (w.beginFlight c) := by
  have hmark : R.Within w
      (w.modifyObject c.object fun x => { x with inFlight := c.attr :: x.inFlight }) :=
    mark h hc (fun _ => rfl) (fun _ => rfl) (fun _ => rfl) (fun _ => rfl) fun _ => rfl
  exact hmark.trans (log hmark.isSealed _)

theorem endFlight (h : R.Sealed w) {c : Change} (hc : R.objects c.object.id) :
    R.Within w (w.endFlight c) := by
  have hmark : R.Within w
      (w.modifyObject c.object fun x => { x with inFlight := x.inFlight.erase c.attr }) :=
    mark h hc (fun _ => rfl) (fun _ => rfl) (fun _ => rfl) (fun _ => rfl) fun _ => rfl
  exact hmark.trans (log hmark.isSealed _)

theorem setPhase (h : R.Sealed w) {o : Handle} (ho : R.objects o.id) (p : Phase) :
    R.Within w (w.setPhase o p) :=
  mark h ho (fun _ => rfl) (fun _ => rfl) (fun _ => rfl) (fun _ => rfl) fun _ => rfl

theorem addChild (h : R.Sealed w) {parent child : Handle} (hparent : R.objects parent.id)
    (hchild : R.objects child.id) : R.Within w (w.addChild parent child) := by
  have hfirst : R.Within w (w.modifyObject child fun x => { x with parent := some parent }) :=
    mark h hchild (fun _ => rfl) (fun _ => rfl) (fun _ => rfl) (fun _ => rfl) fun _ => rfl
  exact hfirst.trans (mark hfirst.isSealed hparent (fun _ => rfl) (fun _ => rfl) (fun _ => rfl)
    (fun _ => rfl) fun _ => rfl)

/-! ### Bindings -/

theorem setBusy (h : R.Sealed w) {b : Nat} (hb : R.bindings b) (busy : Bool) :
    R.Within w (w.setBusy b busy) :=
  modifyBinding h hb (fun _ => rfl)
    (fun _ hx => ⟨hx.target, hx.slots, hx.constants, hx.subscriptions⟩) fun _ _ => .inl

theorem disconnect (h : R.Sealed w) {b : Nat} (hb : R.bindings b) : R.Within w (w.disconnect b) := by
  unfold World.disconnect
  cases hx : w.binding? b with
  | none => exact refl h
  | some x =>
      have hold := h.bindings b x hb hx
      have hsources : R.Within w (x.sources.foldl World.unobserve w) :=
        unobserveAll h fun s hs => (hold.subscriptions s (List.mem_append_left _ hs)).1
      have htarget : R.Within _ (x.targetListener.toList.foldl World.unobserve _) :=
        unobserveAll hsources.isSealed fun s hs =>
          (hold.subscriptions s (List.mem_append_right _ hs)).1
      exact (hsources.trans htarget).trans <| modifyBinding htarget.isSealed hb (fun _ => rfl)
        (fun _ hy => ⟨hy.target, hy.slots, hy.constants, fun _ hs => absurd hs List.not_mem_nil⟩)
        fun _ _ hs => absurd hs List.not_mem_nil

theorem release (h : R.Sealed w) {b : Nat} (hb : R.bindings b) : R.Within w (w.release b) := by
  obtain heq | heq := w.release_cases b
  · rw [heq]
    exact refl h
  · rw [heq]
    exact disconnect h hb

/-! ### What is made -/

/-- A new object is one of the realm. -/
theorem create (h : R.Sealed w) (typeName : String) {attrs : List (String × Value)}
    (hattrs : ∀ a ∈ attrs, R.Contains w a.2) :
    R.Within w (w.create typeName attrs).2 ∧
      R.Has (w.create typeName attrs).2 (w.create typeName attrs).1.id := by
  have hnew : R.objects w.nextObject := h.newObjects _ (Nat.le_refl _)
  have hle : w.nextObject ≤ (w.create typeName attrs).2.nextObject := Nat.le_succ _
  refine ⟨⟨⟨h.numbered.create typeName attrs, fun id hid => h.newObjects id (Nat.le_of_succ_le hid),
    h.newBindings, fun o attr v ho hv => ?_, fun o ho obs hobs => ?_,
    fun b y hb hy => (h.bindings b y hb hy).mono hle⟩, fun o ho => ?_, fun _ _ => rfl, hle,
    Nat.le_refl _, fun o y _ hy => ?_⟩, hnew, Nat.lt_succ_self _⟩
  · refine Contains.mono (w := w) ?_ hle
    obtain ⟨y, hy, hattr⟩ := Option.bind_eq_some_iff.mp hv
    rcases World.object?_create hy with hy | ⟨-, rfl⟩
    · exact h.attrs o attr v ho (Option.bind_eq_some_iff.mpr ⟨y, hy, hattr⟩)
    · obtain ⟨a, ha, rfl⟩ := Option.map_eq_some_iff.mp hattr
      exact Attrs.forall_ofList hattrs a (List.mem_of_find?_eq_some ha)
  · unfold World.observers at hobs
    cases hy : (w.create typeName attrs).2.object? o with
    | none => simp [hy] at hobs
    | some y =>
        rw [hy] at hobs
        rcases World.object?_create hy with hy | ⟨-, rfl⟩
        · exact h.observers o ho obs (by simpa [World.observers, hy] using hobs)
        · simp at hobs
  · exact World.object?_create_of_ne typeName attrs fun hid : o.id = w.nextObject => ho (hid ▸ hnew)
  · rcases World.object?_create hy with hy | ⟨hid, rfl⟩
    · exact .inr ⟨y, hy, .of_same rfl rfl rfl⟩
    · exact .inl ⟨Nat.le_of_eq hid.symm, fun b hb => absurd hb List.not_mem_nil⟩

/-- A new binding is one of the realm. -/
theorem addBinding (h : R.Sealed w) {x : Binding} (hid : x.id = w.nextBinding) (hx : R.Holds w x)
    (hfree : x.subscriptions = []) :
    R.Within w (w.addBinding x) ∧ R.Serves (w.addBinding x) w.nextBinding := by
  have hnew : R.bindings w.nextBinding := h.newBindings _ (Nat.le_refl _)
  have hle : w.nextBinding ≤ (w.addBinding x).nextBinding := Nat.le_succ _
  have hbinding : ∀ b y, (w.addBinding x).binding? b = some y → w.binding? b = some y ∨ y = x := by
    intro b y hy
    change (w.bindings ++ [x]).find? _ = some y at hy
    rw [List.find?_append] at hy
    cases hold : w.binding? b with
    | some z =>
        rw [show w.bindings.find? (·.id == b) = some z from hold] at hy
        exact .inl hy
    | none =>
        rw [show w.bindings.find? (·.id == b) = none from hold, Option.none_or] at hy
        exact .inr (List.mem_singleton.mp (List.mem_of_find?_eq_some hy))
  have hnumbered : (w.addBinding x).Numbered := by
    refine ⟨h.numbered.distinct, h.numbered.objects, fun y hy => ?_,
      fun o y hy b hb => Nat.lt_of_lt_of_le (h.numbered.owned o y hy b hb) hle,
      fun b y hy s hs => ?_⟩
    · rcases List.mem_append.mp hy with hy | hy
      · exact Nat.lt_succ_of_lt (h.numbered.bindings y hy)
      · rw [List.mem_singleton.mp hy, hid]
        exact Nat.lt_succ_self _
    · rcases hbinding b y hy with hy | rfl
      · exact h.numbered.subscriptions b y hy s hs
      · rw [hfree] at hs
        cases hs
  refine ⟨⟨⟨hnumbered, h.newObjects, fun b hb => h.newBindings b (Nat.le_of_succ_le hb),
    fun o attr v ho hv => (h.attrs o attr v ho hv).mono (Nat.le_refl _),
    fun o ho obs hobs => (h.observers o ho obs hobs).mono hle, fun b y hb hy => ?_⟩, fun _ _ => rfl,
    fun b hb => ?_, Nat.le_refl _, hle, fun o y _ hy => .inr ⟨y, hy, .of_same rfl rfl rfl⟩⟩, hnew,
    Nat.lt_succ_self _⟩
  · refine Holds.mono (w := w) ?_ (Nat.le_refl _)
    rcases hbinding b y hy with hy | rfl
    · exact h.bindings b y hb hy
    · exact hx
  · change (w.bindings ++ [x]).find? _ = _
    have hne : ¬w.nextBinding = b := fun hbid => hb (hbid ▸ hnew)
    rw [List.find?_append]
    simp [World.binding?, hid, hne]

end Within

/-! ## Realms from realms -/

/-- The realm in a world that has moved on without it: what it had, and all numbers that are still
to be given. -/
def carried (R : Realm) (w w' : World) : Realm where
  objects id := R.Has w id ∨ w'.nextObject ≤ id
  bindings b := R.Serves w b ∨ w'.nextBinding ≤ b

/-- A realm that nobody touches stays one. -/
theorem Sealed.carried (h : R.Sealed w) (hnumbered : w'.Numbered)
    (hobjects : ∀ o, R.Has w o.id → w'.object? o = w.object? o)
    (hbindings : ∀ b, R.Serves w b → w'.binding? b = w.binding? b)
    (hnextObject : w.nextObject ≤ w'.nextObject) (hnextBinding : w.nextBinding ≤ w'.nextBinding) :
    (R.carried w w').Sealed w' := by
  have has {id : Nat} (hid : R.Has w id) : (R.carried w w').Has w' id :=
    ⟨.inl hid, Nat.lt_of_lt_of_le hid.2 hnextObject⟩
  have contains {v : Value} (hv : R.Contains w v) : (R.carried w w').Contains w' v :=
    ⟨fun id hid => has (hv.objects id hid), hv.innocent⟩
  -- a number that is still to be given has no object and no binding
  have hmade {o : Handle} (ho : (R.carried w w').objects o.id) (hlt : o.id < w'.nextObject) :
      R.Has w o.id := ho.resolve_right (Nat.not_le.mpr hlt)
  refine ⟨hnumbered, fun id => .inr, fun b => .inr, fun o attr v ho hv => ?_,
    fun o ho obs hobs => ?_, fun b x hb hx => ?_⟩
  · have hid := hmade ho (hnumbered.lt_of_attr? hv)
    rw [World.attr?, hobjects o hid] at hv
    exact contains (h.attrs o attr v hid.1 hv)
  · have hid := hmade ho (hnumbered.lt_of_observer hobs)
    rw [World.observers, hobjects o hid] at hobs
    obtain ⟨b, hcall, hb⟩ := h.observers o hid.1 obs hobs
    exact ⟨b, hcall, .inl hb, Nat.lt_of_lt_of_le hb.2 hnextBinding⟩
  · have hid := hb.resolve_right (Nat.not_le.mpr (hnumbered.lt_of_binding? hx))
    rw [hbindings b hid] at hx
    have hold := h.bindings b x hid.1 hx
    exact ⟨has hold.target, fun v hv => contains (hold.slots v hv),
      fun v hv => contains (hold.constants v hv), fun s hs => has (hold.subscriptions s hs)⟩

/-- The realm with further objects. -/
def joined (R : Realm) (extra : Nat → Prop) : Realm where
  objects id := R.objects id ∨ extra id
  bindings := R.bindings

theorem Contains.joined (h : R.Contains w v) (extra : Nat → Prop) :
    (R.joined extra).Contains w v :=
  ⟨fun id hid => ⟨.inl (h.objects id hid).1, (h.objects id hid).2⟩, h.innocent⟩

/-- A realm takes in objects that nobody observes, if it takes in all that they lead to. -/
theorem Sealed.joined (h : R.Sealed w) {extra : Nat → Prop}
    (hattrs : ∀ o attr v, extra o.id → w.attr? o attr = some v → (R.joined extra).Contains w v)
    (hobservers : ∀ o, extra o.id → R.objects o.id ∨ w.observers o = []) :
    (R.joined extra).Sealed w := by
  have has {id : Nat} (hid : R.Has w id) : (R.joined extra).Has w id := ⟨.inl hid.1, hid.2⟩
  refine ⟨h.numbered, fun id hid => .inl (h.newObjects id hid), h.newBindings,
    fun o attr v ho hv => ?_, fun o ho obs hobs => ?_, fun b x hb hx => ?_⟩
  · rcases ho with ho | ho
    · exact (h.attrs o attr v ho hv).joined extra
    · exact hattrs o attr v ho hv
  · have hold : R.objects o.id := by
      rcases ho with ho | ho
      · exact ho
      · exact (hobservers o ho).resolve_right (List.ne_nil_of_mem hobs)
    exact h.observers o hold obs hobs
  · have hold := h.bindings b x hb hx
    exact ⟨has hold.target, fun v hv => (hold.slots v hv).joined extra,
      fun v hv => (hold.constants v hv).joined extra, fun s hs => has (hold.subscriptions s hs)⟩

/-- The realm of what is still to be made. -/
def rest (w : World) : Realm where
  objects id := w.nextObject ≤ id
  bindings b := w.nextBinding ≤ b

theorem sealed_rest (h : w.Numbered) : (rest w).Sealed w where
  numbered := h
  newObjects _ := id
  newBindings _ := id
  attrs _ _ _ ho hv := absurd (h.lt_of_attr? hv) (Nat.not_lt.mpr ho)
  observers _ ho _ hobs := absurd (h.lt_of_observer hobs) (Nat.not_lt.mpr ho)
  bindings _ _ hb hx := absurd (h.lt_of_binding? hx) (Nat.not_lt.mpr hb)

end Realm

end LiveUI
