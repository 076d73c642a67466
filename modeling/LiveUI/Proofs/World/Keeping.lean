import Mathlib.Data.List.Basic
import LiveUI.Proofs.World.Store

/-! # What propagation leaves alone

Between the beginning and the end of an announcement attributes are written, observers come and go
and bindings take new sources. All else stays: which objects there are and what is being announced
in them, which bindings there are, what they do and which of them are at work. The journal only
grows, no attribute goes, and the number of an observer is not used again. -/

namespace LiveUI

/-- An object without what propagation changes in it. -/
def Object.shell (x : Object) : Object :=
  { x with attrs := [], observers := [], nextObserver := 0 }

/-- A binding without what propagation changes in it. -/
def Binding.core (x : Binding) : Binding :=
  { x with sources := [], targetListener := none }

namespace World

structure Keeps (w w' : World) : Prop where
  objects : w'.objects.map Object.shell = w.objects.map Object.shell
  bindings : w'.bindings.map Binding.core = w.bindings.map Binding.core
  nextBinding : w'.nextBinding = w.nextBinding
  journal : w.journal <:+ w'.journal
  attrs : ∀ o attr, (w.attr? o attr).isSome = true → (w'.attr? o attr).isSome = true
  nextObserver : ∀ o, w.nextObserver o ≤ w'.nextObserver o
  observers : ∀ o, ∀ obs ∈ w'.observers o, obs ∈ w.observers o ∨ w.nextObserver o ≤ obs.id

variable {w w' w'' : World}

/-- The number of bindings that are not at work. -/
def idle (w : World) : Nat :=
  w.bindings.countP fun x => !x.busy

theorem object?_map_shell (w : World) (o : Handle) :
    (w.object? o).map Object.shell =
      (w.objects.map Object.shell).find? (·.handle.id == o.id) := by
  rw [List.find?_map]
  rfl

theorem binding?_map_core (w : World) (b : Nat) :
    (w.binding? b).map Binding.core = (w.bindings.map Binding.core).find? (·.id == b) := by
  rw [List.find?_map]
  rfl

theorem binding?_of_cores (h : w'.bindings.map Binding.core = w.bindings.map Binding.core) (b : Nat) :
    (w'.binding? b).map Binding.core = (w.binding? b).map Binding.core := by
  rw [binding?_map_core, h, ← binding?_map_core]

theorem idle_of_cores (h : w'.bindings.map Binding.core = w.bindings.map Binding.core) :
    w'.idle = w.idle := by
  have hview (x : World) : x.idle = (x.bindings.map Binding.core).countP (!·.busy) := by
    rw [List.countP_map]
    rfl
  rw [hview, hview, h]

theorem cores_setBusy (w : World) (b : Nat) (busy : Bool) :
    (w.setBusy b busy).bindings.map Binding.core =
      (w.bindings.map Binding.core).map fun x : Binding => if x.id == b then { x with busy } else x := by
  simp only [setBusy, World.modifyBinding, List.map_map]
  refine List.map_congr_left fun x _ => ?_
  by_cases hid : x.id = b <;> simp [hid, Binding.core]

/-- The busy mark of a binding that was idle before leaves no trace. -/
theorem cores_work {b : Nat}
    (h : w'.bindings.map Binding.core = (w.setBusy b true).bindings.map Binding.core)
    (hidle : ∀ x ∈ w.bindings, x.id = b → x.busy = false) :
    (w'.setBusy b false).bindings.map Binding.core = w.bindings.map Binding.core := by
  rw [cores_setBusy, h, cores_setBusy]
  simp only [List.map_map]
  refine List.map_congr_left fun x hx => ?_
  by_cases hid : x.id = b
  · simp [hid, Binding.core, hidle x hx hid]
  · simp [hid, Binding.core]

namespace Keeps

theorem refl (w : World) : Keeps w w :=
  ⟨rfl, rfl, rfl, List.suffix_refl _, fun _ _ => id, fun _ => Nat.le_refl _, fun _ _ => .inl⟩

theorem trans (h : Keeps w w') (h' : Keeps w' w'') : Keeps w w'' := by
  refine ⟨h'.objects.trans h.objects, h'.bindings.trans h.bindings,
    h'.nextBinding.trans h.nextBinding, h.journal.trans h'.journal,
    fun o attr hsome => h'.attrs o attr (h.attrs o attr hsome),
    fun o => Nat.le_trans (h.nextObserver o) (h'.nextObserver o), ?_⟩
  intro o obs hobs
  rcases h'.observers o obs hobs with hobs | hnew
  · exact h.observers o obs hobs
  · exact .inr (Nat.le_trans (h.nextObserver o) hnew)

theorem object? (h : Keeps w w') (o : Handle) :
    (w'.object? o).map Object.shell = (w.object? o).map Object.shell := by
  rw [object?_map_shell, h.objects, ← object?_map_shell]

theorem binding? (h : Keeps w w') (b : Nat) :
    (w'.binding? b).map Binding.core = (w.binding? b).map Binding.core :=
  binding?_of_cores h.bindings b

theorem length (h : Keeps w w') : w'.bindings.length = w.bindings.length := by
  simpa using congrArg List.length h.bindings

theorem exists_binding? (h : Keeps w w') {b : Nat} {x' : Binding} (hx : w'.binding? b = some x') :
    ∃ x, w.binding? b = some x ∧ x'.core = x.core := by
  have heq := h.binding? b
  rw [hx] at heq
  obtain ⟨x, hx, hcore⟩ := Option.map_eq_some_iff.mp heq.symm
  exact ⟨x, hx, hcore.symm⟩

theorem isAlive (h : Keeps w w') (o : Handle) : w'.isAlive o = w.isAlive o := by
  have heq := congrArg Option.isSome (h.object? o)
  simpa [World.isAlive] using heq

theorem isInFlight (h : Keeps w w') (o : Handle) (attr : String) :
    w'.isInFlight o attr = w.isInFlight o attr := by
  have hview (x : World) : x.isInFlight o attr =
      (((x.object? o).map Object.shell).map (·.inFlight.contains attr)).getD false := by
    unfold World.isInFlight
    cases x.object? o <;> rfl
  rw [hview, hview, h.object?]

theorem idle (h : Keeps w w') : w'.idle = w.idle :=
  idle_of_cores h.bindings

theorem log (w : World) (e : Entry) : Keeps w (w.log e) :=
  ⟨rfl, rfl, rfl, List.suffix_cons e _, fun _ _ => id, fun _ => Nat.le_refl _, fun _ _ => .inl⟩

theorem shell_modifyObject (w : World) (o : Handle) {f : Object → Object}
    (hf : ∀ x, (f x).shell = x.shell) :
    (w.modifyObject o f).objects.map Object.shell = w.objects.map Object.shell := by
  simp only [World.modifyObject, List.map_map]
  refine List.map_congr_left fun x _ => ?_
  by_cases h : x.handle.id = o.id <;> simp [h, hf]

theorem modifyBinding (w : World) (b : Nat) {f : Binding → Binding}
    (hf : ∀ x, (f x).core = x.core) : Keeps w (w.modifyBinding b f) := by
  refine ⟨rfl, ?_, rfl, List.suffix_refl _, fun _ _ => id, fun _ => Nat.le_refl _,
    fun _ _ => .inl⟩
  simp only [World.modifyBinding, List.map_map]
  refine List.map_congr_left fun x _ => ?_
  by_cases h : x.id = b <;> simp [h, hf]

theorem write (w : World) (o : Handle) (attr : String) (v : Value) :
    Keeps w (w.write o attr v) := by
  refine ⟨shell_modifyObject w o fun _ => rfl, rfl, rfl, List.suffix_cons _ _, ?_, ?_, ?_⟩
  · exact fun p other hsome => w.isSome_attr?_write o attr v hsome
  · exact fun p => Nat.le_of_eq (w.nextObserver_write o p attr v).symm
  · intro p obs hobs
    rw [observers_write] at hobs
    exact .inl hobs

theorem observe (w : World) (o : Handle) (attr : String) (callback : Callback) :
    Keeps w (w.observe o attr callback).2 := by
  refine ⟨shell_modifyObject w o fun _ => rfl, rfl, rfl, List.suffix_refl _, ?_, ?_, ?_⟩
  · exact fun p other hsome => (w.attr?_observe o attr callback p other).symm ▸ hsome
  · exact fun p => w.le_nextObserver_observe o attr callback p
  · intro p obs hobs
    refine (mem_observers_observe.mp hobs).imp_right ?_
    rintro ⟨hid, -, rfl⟩
    exact Nat.le_of_eq (w.nextObserver_congr hid).symm

theorem unobserve (w : World) (s : Subscription) : Keeps w (w.unobserve s) := by
  refine ⟨shell_modifyObject w s.object fun _ => rfl, rfl, rfl, List.suffix_refl _, ?_, ?_, ?_⟩
  · exact fun p other hsome => (w.attr?_unobserve s p other).symm ▸ hsome
  · exact fun p => Nat.le_of_eq (w.nextObserver_unobserve s p).symm
  · intro p obs hobs
    exact .inl (mem_observers_unobserve.mp hobs).1

/-- An announcement that has ended is no longer in progress. -/
theorem flight {c : Change} (h : Keeps (w.beginFlight c) w') : Keeps w (w'.endFlight c) := by
  have hend (l : List Object) : (l.map fun x : Object => if x.handle.id == c.object.id then
      { x with inFlight := x.inFlight.erase c.attr } else x).map Object.shell =
      (l.map Object.shell).map fun x : Object => if x.handle.id == c.object.id then
        { x with inFlight := x.inFlight.erase c.attr } else x := by
    simp only [List.map_map]
    refine List.map_congr_left fun x _ => ?_
    by_cases hid : x.handle.id = c.object.id <;> simp [hid, Object.shell]
  refine ⟨?_, h.bindings, h.nextBinding, ?_, ?_, ?_, ?_⟩
  · have hobjects := h.objects
    simp only [World.beginFlight, World.endFlight, World.modifyObject, World.log] at hobjects ⊢
    rw [hend, hobjects]
    simp only [List.map_map]
    refine List.map_congr_left fun x _ => ?_
    by_cases hid : x.handle.id = c.object.id <;> simp [hid, Object.shell]
  · exact ((List.suffix_cons _ _).trans h.journal).trans (List.suffix_cons _ _)
  · intro o attr hsome
    rw [attr?_endFlight]
    exact h.attrs o attr (by rwa [attr?_beginFlight])
  · intro o
    have hnext := h.nextObserver o
    rwa [nextObserver_beginFlight, ← nextObserver_endFlight w' c] at hnext
  · intro o obs hobs
    rw [observers_endFlight] at hobs
    have hold := h.observers o obs hobs
    rwa [observers_beginFlight, nextObserver_beginFlight] at hold

/-- A binding that was not at work is so again when its work is done. -/
theorem work {b : Nat} (h : Keeps (w.setBusy b true) w')
    (hidle : ∀ x ∈ w.bindings, x.id = b → x.busy = false) : Keeps w (w'.setBusy b false) :=
  ⟨h.objects, cores_work h.bindings hidle, h.nextBinding, h.journal, h.attrs, h.nextObserver,
    h.observers⟩

end Keeps

theorem countP_lt {α : Type} {p q : α → Bool} {l : List α} (hle : ∀ x ∈ l, p x → q x) {x : α}
    (hx : x ∈ l) (hq : q x = true) (hp : p x = false) : l.countP p < l.countP q := by
  induction l with
  | nil => simp at hx
  | cons y l ih =>
      have hrest := List.countP_mono_left fun z hz => hle z (List.mem_cons_of_mem y hz)
      simp only [List.countP_cons]
      rcases List.mem_cons.mp hx with rfl | hx
      · simp only [hq, hp, if_true]
        simp
        omega
      · have hlt := ih (fun z hz => hle z (List.mem_cons_of_mem y hz)) hx
        have hy := hle y List.mem_cons_self
        by_cases hpy : p y = true
        · rw [if_pos hpy, if_pos (hy hpy)]
          omega
        · rw [if_neg hpy]
          split <;> omega

/-- A binding that goes to work is idle no longer. -/
theorem idle_setBusy_lt {b : Nat} {x : Binding} (hx : x ∈ w.bindings) (hid : x.id = b)
    (hidle : x.busy = false) : (w.setBusy b true).idle < w.idle := by
  simp only [idle, setBusy, modifyBinding, List.countP_map]
  refine countP_lt (fun y _ => ?_) hx ?_ ?_
  · by_cases hy : y.id = b <;> simp [hy]
  · simp [hidle]
  · simp [hid]

end World

end LiveUI
