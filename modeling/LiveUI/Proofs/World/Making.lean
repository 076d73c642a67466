import LiveUI.Proofs.World.Settling

/-! # Making a binding

A binding is at work while it is made: it is entered without observers, evaluated for the first
time, and then taken into possession by its target or let go of. -/

namespace LiveUI

/-- The record of a binding that has just been made. -/
def Site.record (site : Site) (kind : BindingKind) (code : Code) (id : Nat) : Binding :=
  { id, kind, target := site.target, attr := site.attr, code, frame := site.frame, run := site.run
    label := site.label }

namespace World

def addBinding (w : World) (x : Binding) : World :=
  { w with bindings := w.bindings ++ [x], nextBinding := w.nextBinding + 1 }

/-- The world in which a binding that is being made is at work for the first time. -/
def begin (w : World) (site : Site) (kind : BindingKind) (code : Code) : World :=
  (w.addBinding (site.record kind code w.nextBinding)).setBusy w.nextBinding true

/-- A binding listens to its target. -/
def listen (w : World) (o : Handle) (attr : String) (b : Nat) : World :=
  (w.observe o attr (.target b)).2.modifyBinding b fun x =>
    { x with targetListener := some (w.observe o attr (.target b)).1 }

/-- An object takes a binding into its possession. -/
def own (w : World) (o : Handle) (b : Nat) : World :=
  (w.modifyBinding b fun x => { x with owned := true }).modifyObject o fun x =>
    { x with bindings := x.bindings ++ [b] }

end World

/-- A binding that has ended its work in the possession of an object, to which it listens. -/
def Binding.taken (s : Subscription) (x : Binding) : Binding :=
  { x with busy := false, targetListener := some s, owned := true }

namespace World

variable {w w' : World}

section Add

variable (hlt : ∀ x ∈ w.bindings, x.id < w.nextBinding)

include hlt

/-- The number of the next binding has no binding. -/
theorem binding?_next_of_lt : w.binding? w.nextBinding = none := by
  refine List.find?_eq_none.mpr fun x hx => ?_
  have hlt := hlt x hx
  simp only [beq_iff_eq]
  omega

theorem binding?_addBinding_of_lt {x : Binding} (hid : x.id = w.nextBinding) (c : Nat) :
    (w.addBinding x).binding? c = if c = w.nextBinding then some x else w.binding? c := by
  simp only [binding?, addBinding, List.find?_append]
  split
  next hc =>
    subst hc
    have hnone := binding?_next_of_lt hlt
    simp only [binding?] at hnone
    simp [hnone, hid]
  next hc =>
    have hne : ¬ w.nextBinding = c := fun heq => hc heq.symm
    simp [hid, hne]

/-- A binding without subscriptions enters nothing. -/
theorem ledger_addBinding {x : Binding} (hid : x.id = w.nextBinding) (hsources : x.sources = [])
    (hlistener : x.targetListener = none) : (w.addBinding x).ledger = w.ledger := by
  funext role c
  have hnone := binding?_next_of_lt hlt
  by_cases hc : c = w.nextBinding
  · subst hc
    cases role <;> simp [ledger, binding?_addBinding_of_lt hlt hid, hnone, hsources, hlistener]
  · have hreads : (w.addBinding x).lastReads c = w.lastReads c := rfl
    cases role <;> simp [ledger, binding?_addBinding_of_lt hlt hid, hc, hreads]

theorem nodup_addBinding (hnodup : (w.bindings.map (·.id)).Nodup) {x : Binding}
    (hid : x.id = w.nextBinding) : ((w.addBinding x).bindings.map (·.id)).Nodup := by
  simp only [World.addBinding, List.map_append, List.map_cons, List.map_nil, List.nodup_append]
  refine ⟨hnodup, by simp, ?_⟩
  intro i hi j hj
  obtain ⟨y, hy, rfl⟩ := List.mem_map.mp hi
  have hlt := hlt y hy
  simp only [List.mem_singleton] at hj
  omega

theorem lt_addBinding {x : Binding} (hid : x.id = w.nextBinding) :
    ∀ y ∈ (w.addBinding x).bindings, y.id < (w.addBinding x).nextBinding := by
  intro y hy
  change y.id < w.nextBinding + 1
  rcases List.mem_append.mp hy with hy | hy
  · have hlt := hlt y hy
    omega
  · rw [List.mem_singleton.mp hy]
    omega

end Add

theorem binding?_addBinding (h : Network w) {x : Binding} (hid : x.id = w.nextBinding) (c : Nat) :
    (w.addBinding x).binding? c = if c = w.nextBinding then some x else w.binding? c :=
  binding?_addBinding_of_lt h.lt hid c

/-- A binding that is not in service yet makes no difference. -/
theorem Network.addBinding (h : Network w) {x : Binding} (hid : x.id = w.nextBinding)
    (hservice : x.inService = false) (hsources : x.sources = [])
    (hlistener : x.targetListener = none) : Network (w.addBinding x) := by
  have hmem : ∀ y ∈ (w.addBinding x).bindings, y ∈ w.bindings ∨ y = x := by
    intro y hy
    simpa [World.addBinding] using hy
  refine ⟨?_, h.served, nodup_addBinding h.lt h.nodup hid, lt_addBinding h.lt hid, ?_, ?_, ?_⟩
  · rw [ledger_addBinding h.lt hid hsources hlistener]
    exact h.wired.of_observers_eq (fun _ => rfl) (fun _ => rfl) fun _ => rfl
  · intro c hc
    exact h.unevaluated c (Nat.le_of_succ_le hc)
  · intro y hy hyservice
    rcases hmem y hy with hy | rfl
    · exact (h.inUse y hy hyservice).congr (fun _ => rfl) rfl
    · exact absurd (hservice.symm.trans hyservice) (by simp)
  · intro y hy hyservice
    rcases hmem y hy with hy | rfl
    · exact h.spent y hy hyservice
    · exact ⟨hsources, hlistener⟩

/-- A binding that is made is in use from its first evaluation on. -/
theorem Network.inUse_record (h : Network w) {site : Site} {kind : BindingKind} {code : Code}
    (halive : w.isAlive site.target = true) (hfree : code.HostFree { frame := site.frame })
    (hkind : kind ≠ .notify) :
    (w.addBinding (site.record kind code w.nextBinding)).InUse
      (site.record kind code w.nextBinding) := by
  refine ⟨halive, hkind, hfree, ?_, ?_⟩
  · have hreads : (w.addBinding (site.record kind code w.nextBinding)).lastReads w.nextBinding
        = [] := by
      have hnone := h.unevaluated w.nextBinding (Nat.le_refl _)
      change (w.lastEvaluation? w.nextBinding).elim [] (·.2) = []
      rw [hnone]
      rfl
    change ([] : List Subscription).map _ =
      (World.lastReads (w.addBinding (site.record kind code w.nextBinding)) w.nextBinding).map _
    rw [hreads]
    rfl
  · simp [Site.record]

theorem idle_addBinding {x : Binding} (hbusy : x.busy = false) :
    (w.addBinding x).idle = w.idle + 1 := by
  simp [idle, World.addBinding, List.countP_append, hbusy]

/-! ## Taking a binding -/

/-- A binding ends its work, listens to an object, and is owned. -/
def take (w : World) (o : Handle) (attr : String) (b : Nat) : World :=
  (w.observe o attr (.target b)).2.modifyBinding b (Binding.taken ⟨o, w.nextObserver o⟩)

theorem own_listen_eq_take (w : World) (o : Handle) (attr : String) (b : Nat) :
    ((w.setBusy b false).listen o attr b).own o b =
      (w.take o attr b).modifyObject o fun x => { x with bindings := x.bindings ++ [b] } := by
  let w₁ := (w.observe o attr (.target b)).2
  let s : Subscription := ⟨o, w.nextObserver o⟩
  have hmerged : ((w₁.modifyBinding b fun y => { y with busy := false }).modifyBinding b fun y =>
      { y with targetListener := some s }).modifyBinding b (fun y => { y with owned := true }) =
      w.take o attr b := by
    rw [modifyBinding_modifyBinding w₁ b (f := fun y => { y with busy := false }) fun _ => rfl,
      modifyBinding_modifyBinding w₁ b
        (f := fun y => { y with busy := false, targetListener := some s }) fun _ => rfl]
    rfl
  rw [← hmerged]
  rfl

theorem Replaces.of_take (w : World) (o : Handle) (attr : String) (b : Nat) :
    Replaces w b (Binding.taken ⟨o, w.nextObserver o⟩) (w.take o attr b) :=
  ⟨rfl, rfl, (Keeps.observe w o attr (.target b)).isAlive, fun _ _ => rfl⟩

theorem mem_observers_take {o p : Handle} {attr : String} {b : Nat} {obs : Observer}
    (hobs : obs ∈ (w.take o attr b).observers p) :
    obs ∈ w.observers p ∨ obs.callback = .target b := by
  change obs ∈ (w.observe o attr (.target b)).2.observers p at hobs
  exact (mem_observers_observe.mp hobs).imp_right fun ⟨_, _, hnew⟩ => by rw [hnew]

/-- The observer that the binding listens with is entered. -/
theorem WiredBy.take (h : WiredBy w w.ledger) {b : Nat} {x : Binding} (hx : w.binding? b = some x)
    (hlistener : x.targetListener = none) (o : Handle) :
    (w.take o x.attr b).WiredBy (w.take o x.attr b).ledger := by
  have hledger : (w.take o x.attr b).ledger = w.ledger.put .target b
      (w.ledger .target b ++ [(⟨o, w.nextObserver o⟩, x.attr)]) := by
    have hreads : (w.take o x.attr b).lastReads b = w.lastReads b := rfl
    have hsource := Ledger.put_eq_self (ledger_source hx)
    have htarget : w.ledger .target b = [] := by simp [ledger_target hx, hlistener]
    rw [(Replaces.of_take w o x.attr b).ledger (fun _ => rfl) hx, hreads, htarget]
    simp only [Binding.taken, hsource]
    rfl
  rw [hledger]
  exact (h.observe o x.attr .target b).of_observers_eq (fun _ => rfl) (fun _ => rfl) fun _ => rfl

/-- A binding goes home after it was made: it is owned from now on, or let go of without observers.
Nothing else is different. -/
structure Homes (w : World) (b : Nat) (owned : Bool) (w' : World) : Prop where
  network : Network w'
  isAlive : ∀ o, w'.isAlive o = w.isAlive o
  isInFlight : ∀ o attr, w'.isInFlight o attr = w.isInFlight o attr
  attr? : ∀ o attr, w'.attr? o attr = w.attr? o attr
  journal : w'.journal = w.journal
  nextBinding : w'.nextBinding = w.nextBinding
  length : w'.bindings.length = w.bindings.length
  other : ∀ c, c ≠ b → w'.binding? c = w.binding? c
  self : ∀ x, w.binding? b = some x →
    ∃ y, w'.binding? b = some y ∧ y.SamePlan x ∧ y.busy = false ∧ y.owned = owned

variable {b : Nat} {x : Binding}

theorem Homes.takeBinding (h : Homes w b true w') (o : Handle) :
    Homes w b true (w'.modifyObject o fun x => { x with bindings := x.bindings ++ [b] }) := by
  let f : Object → Object := fun x => { x with bindings := x.bindings ++ [b] }
  refine ⟨h.network.modifyObject o (fun _ => rfl) (fun _ => rfl) (fun _ => rfl), ?_, ?_, ?_,
    h.journal, h.nextBinding, h.length, h.other, h.self⟩
  · intro p
    exact (isAlive_modifyObject w' o p (f := f) fun _ => rfl).trans (h.isAlive p)
  · intro p attr
    exact (isInFlight_modifyObject w' o p (f := f) attr (fun _ => rfl) fun _ => rfl).trans
      (h.isInFlight p attr)
  · intro p attr
    exact (attr?_modifyObject w' o p (f := f) attr (fun _ => rfl) fun _ => rfl).trans
      (h.attr? p attr)

/-- A bind that has been made. -/
theorem Network.own (h : Network w) (hx : w.binding? b = some x) (hbusy : x.busy = true)
    (hkind : x.kind = .bind) (o : Handle) : Homes w b true ((w.setBusy b false).own o b) := by
  have huse := h.inUse x (w.mem_of_binding? hx) (Binding.inService_of_busy hbusy)
  let f : Binding → Binding := fun y => { y with busy := false, owned := true }
  have hmerged : ((w.setBusy b false).modifyBinding b fun y => { y with owned := true }) =
      w.modifyBinding b f :=
    modifyBinding_modifyBinding w b (f := fun y => { y with busy := false }) fun _ => rfl
  have hbinding (c : Nat) := binding?_modifyBinding w b c (f := f) fun _ => rfl
  refine Homes.takeBinding ?_ o
  rw [hmerged]
  refine ⟨?_, fun _ => rfl, fun _ _ => rfl, fun _ _ => rfl, rfl, rfl,
    w.length_modifyBinding b f, fun c hc => ?_, fun y hy => ?_⟩
  · refine h.modifyBinding (fun _ => rfl) hx (fun _ => ?_) fun hservice => ?_
    · refine ⟨huse.alive, huse.kind, huse.hostFree, huse.aligned, ?_⟩
      have hlistener : x.targetListener = none := by simpa [hkind] using huse.listener
      simp [f, hlistener, hkind]
    · simp [f, Binding.inService] at hservice
  · rw [hbinding, if_neg (Ne.symm hc)]
  · rw [hbinding, if_pos rfl, hy]
    exact ⟨f y, rfl, ⟨rfl, rfl, rfl, rfl, rfl, rfl⟩, rfl, rfl⟩

/-- A delegate that has been made listens to its target. -/
theorem Network.listen (h : Network w) (hx : w.binding? b = some x) (hbusy : x.busy = true)
    (howned : x.owned = false) (hkind : x.kind = .delegate) :
    Homes w b true (((w.setBusy b false).listen x.target x.attr b).own x.target b) := by
  have huse := h.inUse x (w.mem_of_binding? hx) (Binding.inService_of_busy hbusy)
  have hlistener : x.targetListener = none := by simpa [howned] using huse.listener
  have hkeeps := Keeps.observe w x.target x.attr (.target b)
  have hreplaces := Replaces.of_take w x.target x.attr b
  have hbinding := hreplaces.binding? fun _ => rfl
  rw [own_listen_eq_take]
  refine Homes.takeBinding ?_ x.target
  refine ⟨?_, hkeeps.isAlive, hkeeps.isInFlight, w.attr?_observe x.target x.attr _, rfl, rfl,
    length_modifyBinding _ b _, fun c hc => ?_, fun y hy => ?_⟩
  · refine hreplaces.network h (fun _ => rfl) hx (h.wired.take hx hlistener x.target)
      (fun o obs hobs => ?_) (fun _ => ?_) fun hservice => ?_
    · obtain hold | hnew := mem_observers_take hobs
      · exact h.served o obs hold
      · exact ⟨.target, b, hnew⟩
    · refine ⟨?_, huse.kind, huse.hostFree, huse.aligned, ?_⟩
      · exact (hreplaces.isAlive x.target).trans huse.alive
      · simp [Binding.taken, hkind]
    · simp [Binding.taken, Binding.inService] at hservice
  · rw [hbinding, if_neg (Ne.symm hc)]
  · rw [hbinding, if_pos rfl, hy]
    exact ⟨_, rfl, ⟨rfl, rfl, rfl, rfl, rfl, rfl⟩, rfl, rfl⟩

/-- A binding that could not be made has no observers any more. -/
theorem Network.disconnect (h : Network w) (hx : w.binding? b = some x) (hbusy : x.busy = true)
    (howned : x.owned = false) : Homes w b false ((w.setBusy b false).disconnect b) := by
  have haligned := h.aligned hx (Binding.inService_of_busy hbusy)
  have hwired := h.wired.disconnect hx (fun _ => exists_entry_of_aligned hx haligned) false
  have hreplaces := Replaces.of_disconnect hx false
  have hbinding := hreplaces.binding? fun _ => rfl
  have hrewires := Rewires.unobserveAll w (x.sources ++ x.targetListener.toList)
  rw [disconnect_setBusy hx] at hwired hreplaces hbinding ⊢
  refine ⟨?_, hrewires.keeps.isAlive, hrewires.keeps.isInFlight, hrewires.attr?, hrewires.journal,
    hrewires.keeps.nextBinding, ?_, fun c hc => ?_, fun y hy => ?_⟩
  · refine hreplaces.network h (fun _ => rfl) hx hwired ?_ (fun hspent => ?_) fun _ => ⟨rfl, rfl⟩
    · intro o obs hobs
      obtain hold | ⟨c, hc⟩ := hrewires.served o obs hobs
      · exact h.served o obs hold
      · exact ⟨.source, c, hc⟩
    · simp [Binding.silenced, Binding.inService, howned] at hspent
  · rw [hreplaces.bindings, length_modifyBinding]
  · rw [hbinding, if_neg (Ne.symm hc)]
  · obtain rfl := Option.some.inj (hx.symm.trans hy)
    rw [hbinding, if_pos rfl, hx]
    exact ⟨x.silenced false, rfl, ⟨rfl, rfl, rfl, rfl, rfl, rfl⟩, rfl, howned⟩

/-- Whatever is in service after a binding has gone home was so before. -/
theorem Homes.samePlanAt {b : Nat} {x : Binding} {owned : Bool} (h : Homes w b owned w')
    (hx : w.binding? b = some x) (hbusy : x.busy = true) {c : Nat} {y : Binding}
    (hy : w'.binding? c = some y) (hservice : y.inService = true) : SamePlanAt w w' c := by
  intro z hz
  obtain rfl := Option.some.inj (hy.symm.trans hz)
  by_cases hc : c = b
  · subst hc
    obtain ⟨y', hy', hplan, -, -⟩ := h.self x hx
    obtain rfl := Option.some.inj (hy.symm.trans hy')
    exact ⟨x, hx, hplan, hservice.trans (Binding.inService_of_busy hbusy).symm⟩
  · rw [h.other c hc] at hy
    exact ⟨y, hy, .refl y, rfl⟩

section Begin

variable {site : Site} {kind : BindingKind} {code : Code}

theorem Network.binding?_begin (h : Network w) (c : Nat) :
    (w.begin site kind code).binding? c =
      if c = w.nextBinding then
        some { site.record kind code w.nextBinding with busy := true }
      else w.binding? c := by
  rw [World.begin, World.setBusy, binding?_modifyBinding _ _ c (f := fun x => { x with busy := true })
    fun _ => rfl, binding?_addBinding h rfl]
  by_cases hc : c = w.nextBinding
  · simp [hc]
  · simp [hc, Ne.symm hc]

theorem Network.samePlanAt_begin (h : Network w) {c : Nat} (hc : c ≠ w.nextBinding) :
    SamePlanAt w (w.begin site kind code) c := by
  intro x hx
  rw [h.binding?_begin, if_neg hc] at hx
  exact ⟨x, hx, .refl x, rfl⟩

end Begin

end World

end LiveUI
