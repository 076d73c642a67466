import LiveUI.Proofs.World.Ledgers
import LiveUI.Proofs.World.Reading

/-! # Networks of bindings

A network is a world in which nothing but binds and delegates hears of changes. Each of them calls
builtins only; it is subscribed to what its last evaluation read, and a delegate that its target
owns also to the target. -/

namespace LiveUI

/-- What the code of a binding comes to in a world, and what it reads there. -/
def Binding.look (x : Binding) (w : World) : Except EvalError Value × List (Handle × String) :=
  x.code.look { frame := x.frame } w

/-- A binding that is owned or at work. Any other one has been let go of. -/
def Binding.inService (x : Binding) : Bool :=
  x.owned || x.busy

theorem Binding.inService_of_busy {x : Binding} (h : x.busy = true) : x.inService = true := by
  simp [inService, h]

theorem Binding.inService_of_core {x y : Binding} (h : x.core = y.core) :
    x.inService = y.inService := by
  have howned : x.owned = y.owned := congrArg (·.owned) h
  have hbusy : x.busy = y.busy := congrArg (·.busy) h
  rw [inService, inService, howned, hbusy]

theorem Binding.owned_of_idle {x : Binding} (h : x.inService = true) (hbusy : x.busy = false) :
    x.owned = true := by
  simpa [inService, hbusy] using h

namespace World

/-- A binding that takes part in propagation. -/
structure InUse (w : World) (x : Binding) : Prop where
  alive : w.isAlive x.target
  kind : x.kind ≠ .notify
  hostFree : x.code.HostFree { frame := x.frame }
  aligned : x.sources.map (·.object) = (w.lastReads x.id).map (·.1)
  listener : x.targetListener.map (·.object) =
    if x.kind = .delegate ∧ x.owned = true then some x.target else none

structure Network (w : World) : Prop where
  wired : w.WiredBy w.ledger
  /-- There are no other observers. -/
  served : ∀ o, ∀ obs ∈ w.observers o, ∃ (role : Role) (b : Nat), obs.callback = role.callback b
  nodup : (w.bindings.map (·.id)).Nodup
  lt : ∀ x ∈ w.bindings, x.id < w.nextBinding
  unevaluated : ∀ b, w.nextBinding ≤ b → w.lastEvaluation? b = none
  inUse : ∀ x ∈ w.bindings, x.inService = true → w.InUse x
  spent : ∀ x ∈ w.bindings, x.inService = false → x.sources = [] ∧ x.targetListener = none

variable {w w' : World}

theorem InUse.congr {x : Binding} (h : w.InUse x) (halive : ∀ o, w'.isAlive o = w.isAlive o)
    (hlast : w'.lastReads x.id = w.lastReads x.id) : w'.InUse x := by
  refine ⟨?_, h.kind, h.hostFree, ?_, h.listener⟩
  · rw [halive]
    exact h.alive
  · rw [hlast]
    exact h.aligned

theorem InUse.setBusy {x : Binding} (h : w.InUse x) (busy : Bool) :
    w.InUse { x with busy } :=
  ⟨h.alive, h.kind, h.hostFree, h.aligned, h.listener⟩

namespace Network

theorem eq_of_id (h : Network w) {b : Nat} {x y : Binding} (hx : w.binding? b = some x)
    (hy : y ∈ w.bindings) (hid : y.id = b) : y = x :=
  eq_of_nodup h.nodup hx hy hid

theorem lt_of_binding? (h : Network w) {b : Nat} {x : Binding} (hx : w.binding? b = some x) :
    b < w.nextBinding := by
  rw [← w.id_of_binding? hx]
  exact h.lt x (w.mem_of_binding? hx)

theorem aligned (h : Network w) {b : Nat} {x : Binding} (hx : w.binding? b = some x)
    (hservice : x.inService = true) : x.sources.map (·.object) = (w.lastReads b).map (·.1) := by
  have haligned := (h.inUse x (w.mem_of_binding? hx) hservice).aligned
  rwa [w.id_of_binding? hx] at haligned

/-- A binding in service is subscribed to everything that it read last. -/
theorem exists_entry (h : Network w) {b : Nat} {x : Binding} (hx : w.binding? b = some x)
    (hservice : x.inService = true) {p : Handle × String} (hp : p ∈ w.lastReads b) :
    ∃ e ∈ w.ledger .source b, e.1.object = p.1 ∧ e.2 = p.2 := by
  rw [← ledger_places hx (h.aligned hx hservice)] at hp
  obtain ⟨e, he, rfl⟩ := List.mem_map.mp hp
  exact ⟨e, he, rfl, rfl⟩

/-- So it hears of every change there. -/
theorem exists_observer (h : Network w) {b : Nat} {x : Binding} (hx : w.binding? b = some x)
    (hservice : x.inService = true) {p : Handle × String} (hp : p ∈ w.lastReads b)
    (halive : w.isAlive p.1 = true) :
    ∃ obs ∈ w.observers p.1, obs.attr = p.2 ∧ obs.callback = .source b := by
  obtain ⟨e, he, hobject, hattr⟩ := h.exists_entry hx hservice hp
  obtain ⟨obs, hobs, -, hobsattr, hcall⟩ := h.wired.kept .source b e he (by rwa [hobject])
  rw [hobject] at hobs
  exact ⟨obs, hobs, hobsattr.trans hattr, hcall⟩

/-- What a binding hears of as a source is something that it read last. -/
theorem exists_read (h : Network w) {o : Handle} {obs : Observer} (hobs : obs ∈ w.observers o)
    {b : Nat} (hcall : obs.callback = .source b) :
    ∃ x, w.binding? b = some x ∧ x.inService = true ∧
      ∃ p ∈ w.lastReads b, p.1.id = o.id ∧ p.2 = obs.attr := by
  obtain ⟨e, he, hid, -, hattr⟩ := h.wired.heard o obs hobs .source b hcall
  cases hx : w.binding? b with
  | none => simp [ledger, hx] at he
  | some x =>
      have hmem := he
      rw [ledger_source hx] at hmem
      have hservice : x.inService = true := by
        by_contra hspent
        have hsources := (h.spent x (w.mem_of_binding? hx) (by simpa using hspent)).1
        simp [hsources] at hmem
      refine ⟨x, rfl, hservice, (e.1.object, e.2), ?_, hid, hattr⟩
      rw [← ledger_places hx (h.aligned hx hservice)]
      exact List.mem_map_of_mem he

/-- What a binding hears of as a target is its target. -/
theorem exists_target (h : Network w) {o : Handle} {obs : Observer} (hobs : obs ∈ w.observers o)
    {b : Nat} (hcall : obs.callback = .target b) :
    ∃ x, w.binding? b = some x ∧ x.kind = .delegate ∧ x.owned = true ∧
      x.target.id = o.id ∧ x.attr = obs.attr := by
  obtain ⟨e, he, hid, -, hattr⟩ := h.wired.heard o obs hobs .target b hcall
  cases hx : w.binding? b with
  | none => simp [ledger, hx] at he
  | some x =>
      cases hs : x.targetListener with
      | none => simp [ledger, hx, hs] at he
      | some s =>
          obtain rfl : e = (s, x.attr) := by simpa [ledger, hx, hs] using he
          have hmem := w.mem_of_binding? hx
          have hservice : x.inService = true := by
            by_contra hspent
            have hlistener := (h.spent x hmem (by simpa using hspent)).2
            simp [hs] at hlistener
          have hlistener := (h.inUse x hmem hservice).listener
          rw [hs] at hlistener
          split at hlistener
          next howned =>
            have hobject : s.object = x.target := by simpa using hlistener
            exact ⟨x, rfl, howned.1, howned.2, hobject ▸ hid, hattr⟩
          next => simp at hlistener

/-- A delegate that its target owns hears of the target. -/
theorem exists_listener (h : Network w) {b : Nat} {x : Binding} (hx : w.binding? b = some x)
    (hkind : x.kind = .delegate) (howned : x.owned = true) :
    ∃ obs ∈ w.observers x.target, obs.attr = x.attr ∧ obs.callback = .target b := by
  have huse := h.inUse x (w.mem_of_binding? hx) (by simp [Binding.inService, howned])
  have hlistener := huse.listener
  rw [if_pos ⟨hkind, howned⟩] at hlistener
  obtain ⟨s, hs, hobject⟩ := Option.map_eq_some_iff.mp hlistener
  have he : (s, x.attr) ∈ w.ledger .target b := by simp [ledger, hx, hs]
  obtain ⟨obs, hobs, -, hattr, hcall⟩ := h.wired.kept .target b _ he (by
    rw [hobject]
    exact huse.alive)
  rw [hobject] at hobs
  exact ⟨obs, hobs, hattr, hcall⟩

/-! ## What keeps a network -/

/-- Attributes, announcements and all else that is not about bindings may change. -/
theorem congr (h : Network w) (hobs : ∀ o, w'.observers o = w.observers o)
    (hnext : ∀ o, w'.nextObserver o = w.nextObserver o)
    (halive : ∀ o, w'.isAlive o = w.isAlive o) (hbindings : w'.bindings = w.bindings)
    (hnextBinding : w'.nextBinding = w.nextBinding)
    (hlast : ∀ b, w'.lastEvaluation? b = w.lastEvaluation? b) : Network w' := by
  have hreads := lastReads_congr hlast
  have hledger : w'.ledger = w.ledger :=
    ledger_congr (fun b => by simp only [binding?, hbindings]) hreads
  refine ⟨?_, ?_, ?_, ?_, ?_, ?_, ?_⟩
  · rw [hledger]
    exact h.wired.of_observers_eq hobs hnext halive
  · intro o obs
    rw [hobs]
    exact h.served o obs
  · rw [hbindings]
    exact h.nodup
  · rw [hbindings, hnextBinding]
    exact h.lt
  · intro b
    rw [hnextBinding, hlast]
    exact h.unevaluated b
  · intro x
    rw [hbindings]
    exact fun hx hservice => (h.inUse x hx hservice).congr halive (hreads x.id)
  · rw [hbindings]
    exact h.spent

theorem log (h : Network w) {e : Entry} (he : ∀ b, e.evaluationOf? b = none) :
    Network (w.log e) :=
  h.congr (fun _ => rfl) (fun _ => rfl) (fun _ => rfl) rfl rfl fun b => by
    rw [lastEvaluation?_log, he]
    rfl

theorem modifyObject (h : Network w) (o : Handle) {f : Object → Object}
    (hf : ∀ x, (f x).handle = x.handle) (hobs : ∀ x, (f x).observers = x.observers)
    (hnext : ∀ x, (f x).nextObserver = x.nextObserver) : Network (w.modifyObject o f) :=
  h.congr (fun p => w.observers_modifyObject o p hf hobs)
    (fun p => w.nextObserver_modifyObject o p hf hnext)
    (fun p => w.isAlive_modifyObject o p hf) rfl rfl fun _ => rfl

theorem write (h : Network w) (o : Handle) (attr : String) (v : Value) :
    Network (w.write o attr v) :=
  (h.modifyObject o (f := fun x => { x with attrs := x.attrs.put attr v })
    (fun _ => rfl) (fun _ => rfl) (fun _ => rfl)).log fun _ => rfl

theorem beginFlight (h : Network w) (c : Change) : Network (w.beginFlight c) :=
  (h.modifyObject c.object (f := fun x => { x with inFlight := c.attr :: x.inFlight })
    (fun _ => rfl) (fun _ => rfl) (fun _ => rfl)).log fun _ => rfl

theorem endFlight (h : Network w) (c : Change) : Network (w.endFlight c) :=
  (h.modifyObject c.object (f := fun x => { x with inFlight := x.inFlight.erase c.attr })
    (fun _ => rfl) (fun _ => rfl) (fun _ => rfl)).log fun _ => rfl

end Network

/-! ## Changing one binding -/

/-- The rest of a network goes on as before. -/
theorem Replaces.network {b : Nat} {f : Binding → Binding} {x : Binding} (h : Replaces w b f w')
    (hw : Network w) (hf : ∀ x, (f x).id = x.id) (hx : w.binding? b = some x)
    (hwired : w'.WiredBy w'.ledger)
    (hserved : ∀ o, ∀ obs ∈ w'.observers o, ∃ (role : Role) (b : Nat),
      obs.callback = role.callback b)
    (huse : (f x).inService = true → w'.InUse (f x))
    (hspent : (f x).inService = false → (f x).sources = [] ∧ (f x).targetListener = none) :
    Network w' := by
  refine ⟨hwired, hserved, h.nodup hf hw.nodup, h.lt hf hw.lt,
    h.unevaluated (hw.lt_of_binding? hx) hw.unevaluated, ?_, ?_⟩
  · intro y hy hservice
    obtain rfl | ⟨hy, hb⟩ := h.mem_bindings hw.nodup hx hy
    · exact huse hservice
    · exact (hw.inUse y hy hservice).congr h.isAlive (h.lastReads hb)
  · intro y hy hservice
    obtain rfl | ⟨hy, -⟩ := h.mem_bindings hw.nodup hx hy
    · exact hspent hservice
    · exact hw.spent y hy hservice

namespace Network

/-- A binding may change in all but its subscriptions, as long as it is still in use or, when it is
no longer in service, has none. -/
theorem modifyBinding (h : Network w) {b : Nat} {f : Binding → Binding} {x : Binding}
    (hf : ∀ x, (f x).wires = x.wires) (hx : w.binding? b = some x)
    (huse : (f x).inService = true → w.InUse (f x))
    (hspent : (f x).inService = false → x.sources = [] ∧ x.targetListener = none) :
    Network (w.modifyBinding b f) := by
  have hsources : (f x).sources = x.sources := congrArg (·.2.2.1) (hf x)
  have hlistener : (f x).targetListener = x.targetListener := congrArg (·.2.2.2) (hf x)
  refine (Replaces.of_modifyBinding w b f).network h (fun x => congrArg (·.1) (hf x)) hx ?_ h.served
    ?_ ?_
  · rw [ledger_modifyBinding hf]
    exact h.wired.of_observers_eq (fun _ => rfl) (fun _ => rfl) fun _ => rfl
  · exact fun hservice => (huse hservice).congr (fun _ => rfl) rfl
  · rw [hsources, hlistener]
    exact hspent

/-- A binding goes to work. -/
theorem setBusy (h : Network w) {b : Nat} {x : Binding} (hx : w.binding? b = some x)
    (huse : w.InUse x) : Network (w.setBusy b true) :=
  h.modifyBinding (fun _ => rfl) hx (fun _ => huse.setBusy true) fun hservice => by
    simp [Binding.inService] at hservice

/-- An owned binding ends its work. -/
theorem endWork (h : Network w) {b : Nat} {x : Binding} (hx : w.binding? b = some x)
    (howned : x.owned = true) : Network (w.setBusy b false) := by
  have hservice : x.inService = true := by simp [Binding.inService, howned]
  have huse := h.inUse x (w.mem_of_binding? hx) hservice
  refine h.modifyBinding (fun _ => rfl) hx (fun _ => huse.setBusy false) fun hspent => ?_
  simp [Binding.inService, howned] at hspent

end Network

/-! ## An evaluation -/

/-- A binding has been evaluated and listens to what it read; nothing else is different. -/
structure Evaluated (w : World) (b : Nat) (result : Except EvalError Value)
    (reads : List (Handle × String)) (w' : World) : Prop where
  network : Network w'
  keeps : Keeps w w'
  attr? : ∀ o attr, w'.attr? o attr = w.attr? o attr
  lastEvaluation? : ∀ c, w'.lastEvaluation? c =
    if b = c then some (result, reads) else w.lastEvaluation? c
  lastValue? : ∀ c, w'.lastValue? c =
    if b = c then result.toOption.or (w.lastValue? c) else w.lastValue? c
  ledger : ∀ r c, ¬(r = .source ∧ c = b) → w'.ledger r c = w.ledger r c

/-- `evaluated` is an entry of the journal, after which new sources are taken. -/
theorem Network.evaluated (h : Network w) {b : Nat} {x : Binding} (hx : w.binding? b = some x)
    (hservice : x.inService = true) (result : Except EvalError Value)
    (reads : List (Handle × String)) :
    Step.Yields (resubscribe b reads) (w.log (.evaluated b result reads)) fun _ w' =>
      Evaluated w b result reads w' := by
  have huse := h.inUse x (w.mem_of_binding? hx) hservice
  refine (h.wired.resubscribed hx (h.aligned hx hservice) result reads).imp ?_
  rintro - w' ⟨fresh, hnew⟩
  refine ⟨?_, hnew.keeps, hnew.attr?, hnew.lastEvaluation?, hnew.lastValue?, hnew.ledger⟩
  refine hnew.replaces.network h (fun _ => rfl) hx hnew.wired (fun o obs hobs => ?_) (fun _ => ?_)
    fun hspent => ?_
  · obtain hold | ⟨c, hc⟩ := hnew.served o obs hobs
    · exact h.served o obs hold
    · exact ⟨.source, c, hc⟩
  · refine ⟨(hnew.keeps.isAlive _).trans huse.alive, huse.kind, huse.hostFree, ?_, huse.listener⟩
    simp [w.id_of_binding? hx, hnew.lastReads, hnew.objects]
  · exact absurd (hservice.symm.trans hspent) (by simp)

end World

end LiveUI
