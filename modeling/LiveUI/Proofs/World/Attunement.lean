import LiveUI.Proofs.World.Provenance

/-! # Bindings in tune

A connected binding hears of what its last evaluation read and, unless it is a bind, of its target;
one that has been disconnected, or let go of, hears of nothing. Here are the operations that keep it
so. Other than in a network there may be bindings that run for their effect, and those make objects. -/

namespace LiveUI

/-- A binding of this kind can hear of changes in this role. -/
def Role.Fits : Role → BindingKind → Prop
  | source, kind => kind ≠ .notify
  | target, kind => kind ≠ .bind

namespace World

variable {w w' w'' : World} {off off' : List Nat}

/-- A binding with the subscriptions that it should have. What it observes is alive. -/
structure InTune (w : World) (x : Binding) : Prop where
  alive : w.isAlive x.target = true
  hostFree : x.code.HostFree { frame := x.frame }
  effect : x.kind = .notify → ∀ change, x.code.HostFree ⟨x.frame, change⟩
  aligned : x.sources.map (·.object) = (w.lastReads x.id).map (·.1)
  distinct : (w.lastReads x.id).Pairwise fun p q => ¬(p.1.id = q.1.id ∧ p.2 = q.2)
  known : ∀ p ∈ w.lastReads x.id, w.isAlive p.1 = true
  /-- What is read for the effect is not recorded. -/
  unread : x.kind = .notify → w.lastReads x.id = []
  listener : x.targetListener.map (·.object) =
    if x.kind ≠ .bind ∧ x.owned = true then some x.target else none

/-- Nothing but bindings observes, and all of them are in tune but for those in `off`, which have
been disconnected. -/
structure Attuned (off : List Nat) (w : World) : Prop where
  wired : w.WiredBy w.ledger
  served : ∀ o, ∀ obs ∈ w.observers o, ∃ (role : Role) (b : Nat), obs.callback = role.callback b
  nodup : (w.bindings.map (·.id)).Nodup
  lt : ∀ x ∈ w.bindings, x.id < w.nextBinding
  lt_off : ∀ b ∈ off, b < w.nextBinding
  unevaluated : ∀ b, w.nextBinding ≤ b → w.lastEvaluation? b = none
  intact : Intact w
  inTune : ∀ x ∈ w.bindings, x.inService = true → x.id ∉ off → w.InTune x
  silent : ∀ x ∈ w.bindings, x.inService = false ∨ x.id ∈ off →
    x.sources = [] ∧ x.targetListener = none

/-- A connected binding in service may be called in this role. -/
def Calls (off : List Nat) (w : World) (role : Role) (b : Nat) : Prop :=
  ∃ x, w.binding? b = some x ∧ x.inService = true ∧ b ∉ off ∧ role.Fits x.kind

/-- There may be further objects, and propagation may have taken place. -/
structure Follows (w w' : World) : Prop where
  isAlive : ∀ o, w.isAlive o = true → w'.isAlive o = true
  bindings : w'.bindings.map Binding.core = w.bindings.map Binding.core
  nextBinding : w'.nextBinding = w.nextBinding

namespace Follows

theorem refl (w : World) : Follows w w :=
  ⟨fun _ => id, rfl, rfl⟩

theorem trans (h : Follows w w') (h' : Follows w' w'') : Follows w w'' :=
  ⟨fun o ho => h'.isAlive o (h.isAlive o ho), h'.bindings.trans h.bindings,
    h'.nextBinding.trans h.nextBinding⟩

theorem of_keeps (h : Keeps w w') : Follows w w' :=
  ⟨fun o ho => (h.isAlive o).trans ho, h.bindings, h.nextBinding⟩

theorem idle (h : Follows w w') : w'.idle = w.idle :=
  idle_of_cores h.bindings

theorem knows (h : Follows w w') {v : Value} (hv : w.Knows v) : w'.Knows v :=
  fun o ho => h.isAlive o (hv o ho)

theorem exists_core (h : Follows w w') {b : Nat} {x : Binding} (hx : w.binding? b = some x) :
    ∃ x', w'.binding? b = some x' ∧ x'.core = x.core := by
  have heq := binding?_of_cores h.bindings b
  rw [hx] at heq
  exact Option.map_eq_some_iff.mp heq

theorem work {b : Nat} {x : Binding} (hnodup : (w.bindings.map (·.id)).Nodup)
    (hx : w.binding? b = some x) (hbusy : x.busy = false) (h : Follows (w.setBusy b true) w') :
    Follows w (w'.setBusy b false) := by
  refine ⟨h.isAlive, cores_work h.bindings fun y hy hid => ?_, h.nextBinding⟩
  rw [eq_of_nodup hnodup hx hy hid]
  exact hbusy

end Follows

theorem Calls.follows {role : Role} {b : Nat} (h : w.Calls off role b) (hf : Follows w w') :
    w'.Calls off role b := by
  obtain ⟨x, hx, hservice, hon, hrole⟩ := h
  obtain ⟨y, hy, hcore⟩ := hf.exists_core hx
  have hkind : y.kind = x.kind := congrArg (·.kind) hcore
  exact ⟨y, hy, (Binding.inService_of_core hcore).trans hservice, hon, hkind ▸ hrole⟩

/-- Propagation has left the bindings in tune. -/
structure Tended (off : List Nat) (w w' : World) : Prop where
  attuned : Attuned off w'
  follows : Follows w w'

theorem Tended.trans (h : Tended off w w') (h' : Tended off w' w'') : Tended off w w'' :=
  ⟨h'.attuned, h.follows.trans h'.follows⟩

/-! ## One binding -/

theorem InTune.congr {x : Binding} (h : w.InTune x)
    (halive : ∀ o, w.isAlive o = true → w'.isAlive o = true)
    (hreads : w'.lastReads x.id = w.lastReads x.id) : w'.InTune x := by
  refine ⟨halive _ h.alive, h.hostFree, h.effect, ?_, ?_, ?_, ?_, h.listener⟩
  · rw [hreads]
    exact h.aligned
  · rw [hreads]
    exact h.distinct
  · rw [hreads]
    exact fun p hp => halive p.1 (h.known p hp)
  · rw [hreads]
    exact h.unread

theorem InTune.setBusy {x : Binding} (h : w.InTune x) (busy : Bool) :
    w.InTune { x with busy } :=
  ⟨h.alive, h.hostFree, h.effect, h.aligned, h.distinct, h.known, h.unread, h.listener⟩

namespace Attuned

theorem eq_of_id (h : Attuned off w) {b : Nat} {x y : Binding} (hx : w.binding? b = some x)
    (hy : y ∈ w.bindings) (hid : y.id = b) : y = x :=
  eq_of_nodup h.nodup hx hy hid

theorem lt_of_binding? (h : Attuned off w) {b : Nat} {x : Binding} (hx : w.binding? b = some x) :
    b < w.nextBinding := by
  rw [← w.id_of_binding? hx]
  exact h.lt x (w.mem_of_binding? hx)

theorem aligned (h : Attuned off w) {b : Nat} {x : Binding} (hx : w.binding? b = some x)
    (hservice : x.inService = true) (hon : b ∉ off) :
    x.sources.map (·.object) = (w.lastReads b).map (·.1) := by
  have hid := w.id_of_binding? hx
  have haligned := (h.inTune x (w.mem_of_binding? hx) hservice (hid ▸ hon)).aligned
  rwa [hid] at haligned

/-- A binding that is entered is connected, and what it is entered for is alive. -/
theorem exists_entered (h : Attuned off w) {role : Role} {b : Nat} {e : Subscription × String}
    (he : e ∈ w.ledger role b) : w.isAlive e.1.object = true ∧
      ∃ x, w.binding? b = some x ∧ x.inService = true ∧ b ∉ off ∧ w.InTune x ∧
        match role with
        | .source => x.kind ≠ .notify ∧ (e.1.object, e.2) ∈ w.lastReads b
        | .target => x.kind ≠ .bind ∧ x.owned = true ∧ x.targetListener = some e.1 ∧
            x.target = e.1.object ∧ x.attr = e.2 := by
  cases hx : w.binding? b with
  | none => cases role <;> simp [ledger, hx] at he
  | some x =>
      have hmem := w.mem_of_binding? hx
      have hid := w.id_of_binding? hx
      have hheard : ¬(x.inService = false ∨ x.id ∈ off) := by
        intro hsilent
        obtain ⟨hsources, hlistener⟩ := h.silent x hmem hsilent
        cases role <;> simp [ledger, hx, hsources, hlistener] at he
      obtain ⟨hservice, hon⟩ := not_or.mp hheard
      rw [Bool.not_eq_false] at hservice
      have htune := h.inTune x hmem hservice hon
      rw [hid] at hon
      cases role with
      | source =>
          have hread : (e.1.object, e.2) ∈ w.lastReads b := by
            rw [← ledger_places hx (h.aligned hx hservice hon)]
            exact List.mem_map_of_mem he
          refine ⟨htune.known _ (hid ▸ hread), x, rfl, hservice, hon, htune, fun hkind => ?_, hread⟩
          rw [← hid, htune.unread hkind] at hread
          exact List.not_mem_nil hread
      | target =>
          rw [ledger_target hx] at he
          obtain ⟨s, hs, rfl⟩ := List.mem_map.mp he
          have hlistener := htune.listener
          rw [Option.mem_toList.mp hs] at hlistener
          split at hlistener
          next hkind =>
            have htarget : s.object = x.target := Option.some.inj hlistener
            exact ⟨htarget ▸ htune.alive, x, rfl, hservice, hon, htune, hkind.1, hkind.2,
              Option.mem_toList.mp hs, htarget.symm, rfl⟩
          next => cases hlistener

/-- The binding that an observer serves is connected and in service. -/
theorem calls (h : Attuned off w) {o : Handle} {obs : Observer} (hobs : obs ∈ w.observers o)
    {role : Role} {b : Nat} (hcall : obs.callback = role.callback b) : w.Calls off role b := by
  obtain ⟨e, he, -⟩ := h.wired.heard o obs hobs role b hcall
  obtain ⟨-, x, hx, hservice, hon, -, hrole⟩ := h.exists_entered he
  refine ⟨x, hx, hservice, hon, ?_⟩
  cases role <;> exact hrole.1

/-! ## Operations on objects -/

/-- Attributes, announcements, new objects and all else that is not about bindings may change. -/
theorem congr (h : Attuned off w) (hobs : ∀ o, w'.observers o = w.observers o)
    (hnext : ∀ o, w'.nextObserver o = w.nextObserver o)
    (halive : ∀ o, w.isAlive o = true → w'.isAlive o = true) (hbindings : w'.bindings = w.bindings)
    (hnextBinding : w'.nextBinding = w.nextBinding) (hreads : ∀ b, w'.lastReads b = w.lastReads b)
    (hunevaluated : ∀ b, w.nextBinding ≤ b → w'.lastEvaluation? b = none) (hintact : Intact w') :
    Tended off w w' := by
  have hsame : w'.ledger = w.ledger :=
    ledger_congr (fun b => by simp only [binding?, hbindings]) hreads
  refine ⟨⟨⟨?_, ?_, ?_, ?_⟩, ?_, ?_, ?_, ?_, ?_, hintact, ?_, ?_⟩, halive, by rw [hbindings],
    hnextBinding⟩
  · intro o obs
    rw [hobs, hnext]
    exact h.wired.lt o obs
  · intro o
    rw [hobs]
    exact h.wired.nodup o
  · intro o obs
    rw [hobs, hsame]
    exact h.wired.heard o obs
  · intro role b e he _
    rw [hsame] at he
    rw [hobs]
    exact h.wired.kept role b e he (h.exists_entered he).1
  · intro o obs
    rw [hobs]
    exact h.served o obs
  · rw [hbindings]
    exact h.nodup
  · rw [hbindings, hnextBinding]
    exact h.lt
  · rw [hnextBinding]
    exact h.lt_off
  · rw [hnextBinding]
    exact hunevaluated
  · rw [hbindings]
    exact fun x hx hservice hon => (h.inTune x hx hservice hon).congr halive (hreads x.id)
  · rw [hbindings]
    exact h.silent

theorem log (h : Attuned off w) {e : Entry} (he : ∀ b, e.evaluationOf? b = none) :
    Tended off w (w.log e) := by
  have hlast : ∀ b, (w.log e).lastEvaluation? b = w.lastEvaluation? b := fun b => by
    rw [lastEvaluation?_log, he]
    rfl
  exact h.congr (fun _ => rfl) (fun _ => rfl) (fun _ => id) rfl rfl (lastReads_congr hlast)
    (fun b hb => (hlast b).trans (h.unevaluated b hb)) ⟨h.intact.attrs, h.intact.bindings⟩

theorem modifyObject (h : Attuned off w) (o : Handle) {f : Object → Object}
    (hf : ∀ x, (f x).handle = x.handle) (hobs : ∀ x, (f x).observers = x.observers)
    (hnext : ∀ x, (f x).nextObserver = x.nextObserver)
    (hattrs : ∀ p attr v, (w.modifyObject o f).attr? p attr = some v → w.Knows v) :
    Tended off w (w.modifyObject o f) := by
  have halive := fun p => w.isAlive_modifyObject o p hf
  refine h.congr (fun p => w.observers_modifyObject o p hf hobs)
    (fun p => w.nextObserver_modifyObject o p hf hnext) (fun p hp => (halive p).trans hp) rfl rfl
    (fun _ => rfl) h.unevaluated ⟨fun hv => ?_, fun hx v hv => ?_⟩
  · exact (knows_congr halive _).mpr (hattrs _ _ _ hv)
  · exact (knows_congr halive _).mpr (h.intact.bindings hx v hv)

theorem write (h : Attuned off w) {o : Handle} (attr : String) {v : Value}
    (halive : w.isAlive o = true) (hv : w.Knows v) : Tended off w (w.write o attr v) := by
  have hwritten := h.modifyObject o (f := fun x => { x with attrs := x.attrs.put attr v })
    (fun _ => rfl) (fun _ => rfl) (fun _ => rfl) fun p other u hu => by
      have hstored : (w.write o attr v).attr? p other = some u := hu
      rw [attr?_write w halive] at hstored
      split at hstored
      · exact Option.some.inj hstored ▸ hv
      · exact h.intact.attrs hstored
  exact hwritten.trans (hwritten.attuned.log fun _ => rfl)

theorem beginFlight (h : Attuned off w) (c : Change) : Tended off w (w.beginFlight c) := by
  have hbegun := h.modifyObject c.object (f := fun x => { x with inFlight := c.attr :: x.inFlight })
    (fun _ => rfl) (fun _ => rfl) (fun _ => rfl) fun p other u hu =>
      h.intact.attrs ((w.attr?_beginFlight c p other).symm.trans hu)
  exact hbegun.trans (hbegun.attuned.log fun _ => rfl)

theorem endFlight (h : Attuned off w) (c : Change) : Tended off w (w.endFlight c) := by
  have hended := h.modifyObject c.object
    (f := fun x => { x with inFlight := x.inFlight.erase c.attr })
    (fun _ => rfl) (fun _ => rfl) (fun _ => rfl) fun p other u hu =>
      h.intact.attrs ((w.attr?_endFlight c p other).symm.trans hu)
  exact hended.trans (hended.attuned.log fun _ => rfl)

/-- What a binding was evaluated to for the effect is noted without any reads. -/
theorem fired (h : Attuned off w) {b : Nat} {x : Binding} (hx : w.binding? b = some x)
    (hservice : x.inService = true) (hon : b ∉ off) (hkind : x.kind = .notify)
    (result : Except EvalError Value) : Tended off w (w.log (.evaluated b result [])) := by
  have hid := w.id_of_binding? hx
  refine h.congr (fun _ => rfl) (fun _ => rfl) (fun _ => id) rfl rfl (fun c => ?_) (fun c hc => ?_)
    ⟨h.intact.attrs, h.intact.bindings⟩
  · rw [lastReads, lastEvaluation?_evaluated]
    split
    next hbc =>
      have hunread := (h.inTune x (w.mem_of_binding? hx) hservice (hid ▸ hon)).unread hkind
      rw [← hbc, ← hid, hunread]
      rfl
    next => rfl
  · have hlt := h.lt_of_binding? hx
    rw [lastEvaluation?_evaluated, if_neg (by omega)]
    exact h.unevaluated c hc

end Attuned

/-! ## New objects -/

/-- An object that is new has no observers yet, and what it knows is known. -/
theorem Attuned.create (h : Attuned off w) (typeName : String) {attrs : List (String × Value)}
    (hattrs : ∀ a ∈ attrs, w.Knows a.2) : Tended off w (w.create typeName attrs).2 := by
  have halive : ∀ o, w.isAlive o = true → (w.create typeName attrs).2.isAlive o = true := by
    intro o ho
    obtain ⟨x, hx⟩ := Option.isSome_iff_exists.mp ho
    rw [isAlive, object?_create_of_some hx]
    rfl
  refine h.congr (map_object?_create (·.observers) [] rfl)
    (map_object?_create (·.nextObserver) 0 rfl) halive rfl rfl
    (fun _ => rfl) h.unevaluated ⟨fun {o attr v} hv p hp => halive p ?_, fun hx v hv p hp =>
      halive p (h.intact.bindings hx v hv p hp)⟩
  obtain ⟨y, hy, hattr⟩ := Option.bind_eq_some_iff.mp hv
  rcases object?_create hy with hx | ⟨-, rfl⟩
  · exact h.intact.attrs (Option.bind_eq_some_iff.mpr ⟨y, hx, hattr⟩) p hp
  · obtain ⟨a, ha, rfl⟩ := Option.map_eq_some_iff.mp hattr
    exact Attrs.forall_ofList hattrs a (List.mem_of_find?_eq_some ha) p hp

/-! ## Operations on bindings -/

theorem Intact.replaces (h : Intact w) {b : Nat} {f : Binding → Binding} (hr : Replaces w b f w')
    (hf : ∀ x, (f x).id = x.id) (hcode : ∀ x, (f x).code = x.code ∧ (f x).frame = x.frame)
    (hattr : ∀ o attr, w'.attr? o attr = w.attr? o attr) : Intact w' := by
  have hknows := fun v => (knows_congr hr.isAlive v).mpr
  refine ⟨fun hv => hknows _ ?_, fun {c x} hx v hv => hknows v ?_⟩
  · rw [hattr] at hv
    exact h.attrs hv
  · rw [hr.binding? hf] at hx
    split at hx
    · obtain ⟨y, hy, rfl⟩ := Option.map_eq_some_iff.mp hx
      rw [(hcode y).1, (hcode y).2] at hv
      exact h.bindings hy v hv
    · exact h.bindings hx v hv

/-- The other bindings go on as before. -/
theorem Replaces.attuned {b : Nat} {f : Binding → Binding} {x : Binding} (h : Replaces w b f w')
    (hw : Attuned off w) (hf : ∀ x, (f x).id = x.id)
    (hcode : ∀ x, (f x).code = x.code ∧ (f x).frame = x.frame) (hx : w.binding? b = some x)
    (hoff : ∀ c, c ≠ b → (c ∈ off' ↔ c ∈ off))
    (hattr : ∀ o attr, w'.attr? o attr = w.attr? o attr) (hwired : w'.WiredBy w'.ledger)
    (hserved : ∀ o, ∀ obs ∈ w'.observers o, ∃ (role : Role) (b : Nat),
      obs.callback = role.callback b)
    (htune : (f x).inService = true → b ∉ off' → w'.InTune (f x))
    (hsilent : (f x).inService = false ∨ b ∈ off' →
      (f x).sources = [] ∧ (f x).targetListener = none) : Attuned off' w' := by
  have hlt := hw.lt_of_binding? hx
  have hid := w.id_of_binding? hx
  refine ⟨hwired, hserved, h.nodup hf hw.nodup, h.lt hf hw.lt, fun c hc => ?_,
    h.unevaluated hlt hw.unevaluated, hw.intact.replaces h hf hcode hattr, ?_, ?_⟩
  · rw [h.nextBinding]
    by_cases hcb : c = b
    · exact hcb ▸ hlt
    · exact hw.lt_off c ((hoff c hcb).mp hc)
  · intro y hy hservice hon
    obtain rfl | ⟨hy, hb⟩ := h.mem_bindings hw.nodup hx hy
    · rw [hf, hid] at hon
      exact htune hservice hon
    · exact (hw.inTune y hy hservice fun hin => hon ((hoff y.id hb).mpr hin)).congr
        (fun o ho => (h.isAlive o).trans ho) (h.lastReads hb)
  · intro y hy hspent
    obtain rfl | ⟨hy, hb⟩ := h.mem_bindings hw.nodup hx hy
    · rw [hf, hid] at hspent
      exact hsilent hspent
    · exact hw.silent y hy (hspent.imp_right (hoff y.id hb).mp)

namespace Attuned

/-- A binding may change in all but its subscriptions, as long as it stays in tune. -/
theorem modifyBinding (h : Attuned off w) {b : Nat} {f : Binding → Binding} {x : Binding}
    (hf : ∀ x, (f x).wires = x.wires) (hcode : ∀ x, (f x).code = x.code ∧ (f x).frame = x.frame)
    (hx : w.binding? b = some x) (htune : (f x).inService = true → b ∉ off → w.InTune (f x))
    (hsilent : (f x).inService = false ∨ b ∈ off → x.sources = [] ∧ x.targetListener = none) :
    Attuned off (w.modifyBinding b f) := by
  have hsources : (f x).sources = x.sources := congrArg (·.2.2.1) (hf x)
  have hlistener : (f x).targetListener = x.targetListener := congrArg (·.2.2.2) (hf x)
  refine (Replaces.of_modifyBinding w b f).attuned h (fun x => congrArg (·.1) (hf x)) hcode hx
    (fun _ _ => Iff.rfl) (fun _ _ => rfl) ?_ h.served ?_ ?_
  · rw [ledger_modifyBinding hf]
    exact h.wired.of_observers_eq (fun _ => rfl) (fun _ => rfl) fun _ => rfl
  · exact fun hservice hon => (htune hservice hon).congr (fun _ => id) rfl
  · rw [hsources, hlistener]
    exact hsilent

/-- A binding goes to work. -/
theorem setBusy (h : Attuned off w) {b : Nat} {x : Binding} (hx : w.binding? b = some x)
    (hon : b ∉ off) (htune : w.InTune x) : Attuned off (w.setBusy b true) := by
  refine h.modifyBinding (fun _ => rfl) (fun _ => ⟨rfl, rfl⟩) hx (fun _ _ => htune.setBusy true) ?_
  rintro (hservice | hin)
  · simp [Binding.inService] at hservice
  · exact absurd hin hon

/-- An owned binding ends its work. -/
theorem endWork (h : Attuned off w) {b : Nat} {x : Binding} (hx : w.binding? b = some x)
    (hon : b ∉ off) (howned : x.owned = true) : Attuned off (w.setBusy b false) := by
  have hservice : x.inService = true := by simp [Binding.inService, howned]
  have htune := h.inTune x (w.mem_of_binding? hx) hservice (w.id_of_binding? hx ▸ hon)
  refine h.modifyBinding (fun _ => rfl) (fun _ => ⟨rfl, rfl⟩) hx (fun _ _ => htune.setBusy false) ?_
  rintro (hspent | hin)
  · simp [Binding.inService, howned] at hspent
  · exact absurd hin hon

/-- The work of a binding that its target owns leaves all in tune, with the busy mark around it. -/
theorem work (h : Attuned off w) {b : Nat} {x : Binding} (hx : w.binding? b = some x)
    (hon : b ∉ off) (howned : x.owned = true) (hbusy : x.busy = false)
    (htended : Tended off (w.setBusy b true) w') : Tended off w (w'.setBusy b false) := by
  obtain ⟨x', hx', hcore⟩ := htended.follows.exists_core (binding?_setBusy hx true)
  have howned' : x'.owned = true := (congrArg Binding.owned hcore).trans howned
  exact ⟨htended.attuned.endWork hx' hon howned', htended.follows.work h.nodup hx hbusy⟩

/-- A binding listens to what it read in an evaluation, which is noted before. -/
theorem evaluated (h : Attuned off w) {b : Nat} {x : Binding} (hx : w.binding? b = some x)
    (hservice : x.inService = true) (hon : b ∉ off) (hkind : x.kind ≠ .notify)
    (result : Except EvalError Value) {reads : List (Handle × String)}
    (hdistinct : reads.Pairwise fun p q => ¬(p.1.id = q.1.id ∧ p.2 = q.2))
    (hknown : ∀ p ∈ reads, w.isAlive p.1 = true) :
    Step.Yields (resubscribe b reads) (w.log (.evaluated b result reads)) fun _ w' =>
      Tended off w w' := by
  have hid := w.id_of_binding? hx
  have htune := h.inTune x (w.mem_of_binding? hx) hservice (hid ▸ hon)
  refine (h.wired.resubscribed hx (h.aligned hx hservice hon) result reads).imp ?_
  rintro - w' ⟨fresh, hnew⟩
  have halive := hnew.keeps.isAlive
  refine ⟨hnew.replaces.attuned h (fun _ => rfl) (fun _ => ⟨rfl, rfl⟩) hx (fun _ _ => Iff.rfl)
    hnew.attr? hnew.wired (fun o obs hobs => ?_) (fun _ _ => ?_) ?_, .of_keeps hnew.keeps⟩
  · obtain hold | ⟨c, hc⟩ := hnew.served o obs hobs
    · exact h.served o obs hold
    · exact ⟨.source, c, hc⟩
  · refine ⟨(halive _).trans htune.alive, htune.hostFree, htune.effect, ?_, ?_, ?_,
      fun hnotify => absurd hnotify hkind, htune.listener⟩
    · simp [hid, hnew.lastReads, hnew.objects]
    · simpa [hid, hnew.lastReads] using hdistinct
    · simp only [hid, hnew.lastReads]
      exact fun p hp => (halive p.1).trans (hknown p hp)
  · rintro (hspent | hin)
    · exact absurd (hservice.symm.trans hspent) (by simp)
    · exact absurd hin hon

end Attuned

end World

end LiveUI
