import LiveUI.Proofs.World.History
import LiveUI.Proofs.World.Wiring

/-! # The ledger of a world

The bindings of a world hold subscriptions, and the ledger of the world lists them. What changes one
binding leaves the entries of the others as they are, so a world stays wired by its ledger when a
binding takes new sources and when it loses all that it is subscribed to. -/

namespace LiveUI

/-- What the observers of a binding depend on. -/
def Binding.wires (x : Binding) : Nat × String × List Subscription × Option Subscription :=
  (x.id, x.attr, x.sources, x.targetListener)

/-- A binding that has been disconnected. -/
def Binding.silenced (busy : Bool) (x : Binding) : Binding :=
  { x with busy, sources := [], targetListener := none }

namespace World

/-- The subscriptions that the bindings of a world hold. -/
def ledger (w : World) : Ledger
  | .source, b =>
      match w.binding? b with
      | some x => x.sources.zip ((w.lastReads b).map (·.2))
      | none => []
  | .target, b =>
      match w.binding? b with
      | some x => x.targetListener.toList.map fun s => (s, x.attr)
      | none => []

variable {w w' : World} {b : Nat} {x : Binding}

theorem ledger_congr (hbindings : ∀ b, (w'.binding? b).map Binding.wires =
      (w.binding? b).map Binding.wires)
    (hlast : ∀ b, w'.lastReads b = w.lastReads b) : w'.ledger = w.ledger := by
  funext role b
  have h := hbindings b
  cases hx : w.binding? b with
  | none =>
      cases hx' : w'.binding? b with
      | none => cases role <;> simp [ledger, hx, hx']
      | some x' => simp [hx, hx'] at h
  | some x =>
      cases hx' : w'.binding? b with
      | none => simp [hx, hx'] at h
      | some x' =>
          obtain ⟨-, hattr, hsources, hlistener⟩ := by
            simpa [hx, hx', Binding.wires] using h
          cases role <;> simp [ledger, hx, hx', hattr, hsources, hlistener, hlast]

theorem ledger_write (w : World) (o : Handle) (attr : String) (v : Value) :
    (w.write o attr v).ledger = w.ledger :=
  ledger_congr (fun _ => rfl) fun b => by simp only [lastReads, lastEvaluation?_write]

theorem ledger_modifyBinding {f : Binding → Binding} (hf : ∀ x, (f x).wires = x.wires) :
    (w.modifyBinding b f).ledger = w.ledger := by
  refine ledger_congr (fun c => ?_) fun _ => rfl
  rw [binding?_modifyBinding w b c fun x => congrArg (·.1) (hf x)]
  split
  · cases w.binding? c <;> simp [hf]
  · rfl

theorem ledger_source (hx : w.binding? b = some x) :
    w.ledger .source b = x.sources.zip ((w.lastReads b).map (·.2)) := by
  simp only [ledger, hx]

theorem ledger_target (hx : w.binding? b = some x) :
    w.ledger .target b = x.targetListener.toList.map fun s => (s, x.attr) := by
  simp only [ledger, hx]

theorem mem_subscriptions_of_entry (hx : w.binding? b = some x) {role : Role}
    {e : Subscription × String} (he : e ∈ w.ledger role b) :
    e.1 ∈ x.sources ++ x.targetListener.toList := by
  cases role with
  | source =>
      rw [ledger_source hx] at he
      exact List.mem_append_left _ (List.of_mem_zip he).1
  | target =>
      rw [ledger_target hx] at he
      obtain ⟨s, hs, rfl⟩ := List.mem_map.mp he
      exact List.mem_append_right _ hs

section Aligned

/- The binding is subscribed to what it read last. -/
variable (hx : w.binding? b = some x)
  (haligned : x.sources.map (·.object) = (w.lastReads b).map (·.1))

include hx haligned

/-- Its entries are for just that. -/
theorem ledger_places :
    (w.ledger .source b).map (fun e => (e.1.object, e.2)) = w.lastReads b := by
  rw [ledger_source hx]
  calc (x.sources.zip ((w.lastReads b).map (·.2))).map (fun e => (e.1.object, e.2))
      = (x.sources.map (·.object)).zip ((w.lastReads b).map (·.2)) := by
        rw [List.zip_map_left]
        rfl
    _ = w.lastReads b := by
        rw [haligned]
        exact (List.zip_of_prod rfl rfl).symm

/-- They are for all subscriptions that the binding holds as sources. -/
theorem ledger_subscriptions : (w.ledger .source b).map (·.1) = x.sources := by
  have hlength : x.sources.length = (w.lastReads b).length := by
    simpa using congrArg List.length haligned
  rw [ledger_source hx]
  exact List.map_fst_zip (by simp [hlength])

/-- Whatever it is subscribed to is entered. -/
theorem exists_entry_of_aligned {s : Subscription} (hs : s ∈ x.sources ++ x.targetListener.toList) :
    ∃ role, ∃ e ∈ w.ledger role b, e.1 = s := by
  rcases List.mem_append.mp hs with hs | hs
  · rw [← ledger_subscriptions hx haligned] at hs
    exact ⟨.source, List.mem_map.mp hs⟩
  · refine ⟨.target, (s, x.attr), ?_, rfl⟩
    rw [ledger_target hx]
    exact List.mem_map_of_mem hs

end Aligned

/-! ## Changing one binding -/

/-- Apart from observers and attributes, the worlds differ in one binding only, as `f` says. -/
structure Replaces (w : World) (b : Nat) (f : Binding → Binding) (w' : World) : Prop where
  bindings : w'.bindings = (w.modifyBinding b f).bindings
  nextBinding : w'.nextBinding = w.nextBinding
  isAlive : ∀ o, w'.isAlive o = w.isAlive o
  lastEvaluation? : ∀ c, c ≠ b → w'.lastEvaluation? c = w.lastEvaluation? c

namespace Replaces

variable {f : Binding → Binding}

theorem of_modifyBinding (w : World) (b : Nat) (f : Binding → Binding) :
    Replaces w b f (w.modifyBinding b f) :=
  ⟨rfl, rfl, fun _ => rfl, fun _ _ => rfl⟩

theorem binding? (h : Replaces w b f w') (hf : ∀ x, (f x).id = x.id) (c : Nat) :
    w'.binding? c = if b = c then (w.binding? c).map f else w.binding? c := by
  rw [← binding?_modifyBinding w b c hf]
  simp only [World.binding?, h.bindings]

theorem lastReads (h : Replaces w b f w') {c : Nat} (hc : c ≠ b) :
    w'.lastReads c = w.lastReads c := by
  simp only [World.lastReads, h.lastEvaluation? c hc]

/-- Any other binding was there before. -/
theorem mem_bindings (h : Replaces w b f w') (hnodup : (w.bindings.map (·.id)).Nodup)
    (hx : w.binding? b = some x) {y : Binding} (hy : y ∈ w'.bindings) :
    y = f x ∨ y ∈ w.bindings ∧ y.id ≠ b := by
  rw [h.bindings] at hy
  obtain ⟨z, hz, ⟨hb, rfl⟩ | ⟨hb, rfl⟩⟩ := w.mem_bindings_modifyBinding hy
  · exact .inl (congrArg f (eq_of_nodup hnodup hx hz hb))
  · exact .inr ⟨hz, hb⟩

theorem nodup (h : Replaces w b f w') (hf : ∀ x, (f x).id = x.id)
    (hnodup : (w.bindings.map (·.id)).Nodup) : (w'.bindings.map (·.id)).Nodup := by
  rw [h.bindings, w.ids_modifyBinding b hf]
  exact hnodup

theorem lt (h : Replaces w b f w') (hf : ∀ x, (f x).id = x.id)
    (hlt : ∀ x ∈ w.bindings, x.id < w.nextBinding) :
    ∀ y ∈ w'.bindings, y.id < w'.nextBinding := by
  intro y hy
  rw [h.bindings] at hy
  rw [h.nextBinding]
  obtain ⟨z, hz, ⟨-, rfl⟩ | ⟨-, rfl⟩⟩ := w.mem_bindings_modifyBinding hy
  · rw [hf]
    exact hlt z hz
  · exact hlt y hz

theorem unevaluated (h : Replaces w b f w') (hb : b < w.nextBinding)
    (hnone : ∀ c, w.nextBinding ≤ c → w.lastEvaluation? c = none) :
    ∀ c, w'.nextBinding ≤ c → w'.lastEvaluation? c = none := by
  intro c hc
  rw [h.nextBinding] at hc
  rw [h.lastEvaluation? c (by omega)]
  exact hnone c hc

/-- Only the entries of the changed binding are others. -/
theorem ledger (h : Replaces w b f w') (hf : ∀ x, (f x).id = x.id) (hx : w.binding? b = some x) :
    w'.ledger = (w.ledger.put .source b ((f x).sources.zip ((w'.lastReads b).map (·.2)))).put
      .target b ((f x).targetListener.toList.map fun s => (s, (f x).attr)) := by
  have hx' : w'.binding? b = some (f x) := by
    rw [h.binding? hf, if_pos rfl, hx]
    rfl
  funext role c
  by_cases hc : c = b
  · subst hc
    cases role with
    | source =>
        rw [Ledger.put_of_ne _ (by simp), Ledger.put_self]
        simp [World.ledger, hx']
    | target =>
        rw [Ledger.put_self]
        simp [World.ledger, hx']
  · rw [Ledger.put_of_ne _ fun heq => hc heq.2, Ledger.put_of_ne _ fun heq => hc heq.2]
    cases role <;> simp [World.ledger, h.binding? hf, h.lastReads hc, Ne.symm hc]

end Replaces

/-! ## Taking new sources -/

/-- An evaluation of a binding has been noted, and the binding is subscribed to what was read. -/
structure Resubscribed (w : World) (b : Nat) (result : Except EvalError Value)
    (reads : List (Handle × String)) (fresh : List Subscription) (w' : World) : Prop where
  objects : fresh.map (·.object) = reads.map (·.1)
  keeps : Keeps w w'
  attr? : ∀ o attr, w'.attr? o attr = w.attr? o attr
  lastEvaluation? : ∀ c, w'.lastEvaluation? c =
    if b = c then some (result, reads) else w.lastEvaluation? c
  lastValue? : ∀ c, w'.lastValue? c =
    if b = c then result.toOption.or (w.lastValue? c) else w.lastValue? c
  replaces : Replaces w b (fun x => { x with sources := fresh }) w'
  wired : w'.WiredBy w'.ledger
  ledger : ∀ r c, ¬(r = .source ∧ c = b) → w'.ledger r c = w.ledger r c
  /-- New observers serve bindings as sources. -/
  served : ∀ o, ∀ obs ∈ w'.observers o, obs ∈ w.observers o ∨ ∃ c, obs.callback = .source c

theorem Resubscribed.lastReads {result : Except EvalError Value} {reads : List (Handle × String)}
    {fresh : List Subscription} (h : Resubscribed w b result reads fresh w') :
    w'.lastReads b = reads := by
  rw [World.lastReads, h.lastEvaluation?, if_pos rfl]
  rfl

theorem WiredBy.resubscribed (h : WiredBy w w.ledger) (hx : w.binding? b = some x)
    (haligned : x.sources.map (·.object) = (w.lastReads b).map (·.1))
    (result : Except EvalError Value) (reads : List (Handle × String)) :
    Step.Yields (resubscribe b reads) (w.log (.evaluated b result reads)) fun _ w' =>
      ∃ fresh, Resubscribed w b result reads fresh w' := by
  have hnoted : WiredBy (w.log (.evaluated b result reads)) w.ledger :=
    h.of_observers_eq (fun _ => rfl) (fun _ => rfl) fun _ => rfl
  have hentries := ledger_subscriptions hx haligned
  refine (resubscribe_yields hnoted hx (fun e he => ?_) (fun s hs => ?_) reads).imp ?_
  · rw [← hentries]
    exact List.mem_map_of_mem he
  · rw [← hentries] at hs
    exact List.mem_map.mp hs
  rintro - w' ⟨fresh, hobjects, hwired, hrewires⟩
  have hlast (c : Nat) : w'.lastEvaluation? c =
      if b = c then some (result, reads) else w.lastEvaluation? c := by
    rw [← lastEvaluation?_evaluated, lastEvaluation?, hrewires.journal]
    rfl
  have hvalue (c : Nat) : w'.lastValue? c =
      if b = c then result.toOption.or (w.lastValue? c) else w.lastValue? c := by
    rw [← lastValue?_evaluated w b result reads, lastValue?, hrewires.journal]
    rfl
  have hkeeps : Keeps w w' :=
    ((Keeps.log w _).trans (Keeps.modifyBinding _ b
      (f := fun x => { x with sources := fresh }) fun _ => rfl)).trans hrewires.keeps
  have hreplaces : Replaces w b (fun x => { x with sources := fresh }) w' := by
    refine ⟨hrewires.bindings, hkeeps.nextBinding, hkeeps.isAlive, fun c hc => ?_⟩
    rw [hlast, if_neg (Ne.symm hc)]
  have hreads : w'.lastReads b = reads := by
    rw [lastReads, hlast, if_pos rfl]
    rfl
  have hledger : w'.ledger = w.ledger.put .source b (fresh.zip (reads.map (·.2))) := by
    rw [hreplaces.ledger (fun _ => rfl) hx, hreads]
    refine Ledger.put_eq_self ?_
    rw [Ledger.put_of_ne _ (by simp), ledger_target hx]
  refine ⟨fresh, hobjects, hkeeps, hrewires.attr?, hlast, hvalue, hreplaces, by rwa [hledger],
    fun r c hrc => ?_, hrewires.served⟩
  rw [hledger, Ledger.put_of_ne _ hrc]

/-! ## Disconnecting -/

/-- A binding may end its work at the same time. -/
theorem disconnect_setBusy (hx : w.binding? b = some x) (busy : Bool) :
    (w.setBusy b busy).disconnect b =
      ((x.sources ++ x.targetListener.toList).foldl World.unobserve w).modifyBinding b
        (Binding.silenced busy) := by
  have hset (ss : List Subscription) (v : World) : ss.foldl World.unobserve (v.setBusy b busy) =
      (ss.foldl World.unobserve v).setBusy b busy := by
    induction ss generalizing v with
    | nil => rfl
    | cons s ss ih => exact ih (v.unobserve s)
  simp only [disconnect, binding?_setBusy hx, ← List.foldl_append, hset]
  exact modifyBinding_modifyBinding _ b (f := fun y => { y with busy }) fun _ => rfl

theorem Replaces.of_disconnect (hx : w.binding? b = some x) (busy : Bool) :
    Replaces w b (Binding.silenced busy) ((w.setBusy b busy).disconnect b) := by
  rw [disconnect_setBusy hx]
  have hrewires := Rewires.unobserveAll w (x.sources ++ x.targetListener.toList)
  refine ⟨?_, hrewires.keeps.nextBinding, hrewires.keeps.isAlive, fun c _ => ?_⟩
  · simp only [World.modifyBinding, hrewires.bindings]
  · change (List.foldl World.unobserve w _).journal.findSome? _ = _
    rw [hrewires.journal]
    rfl

/-- Without its observers a binding has no entries either, and all others keep theirs. -/
theorem WiredBy.disconnect (h : WiredBy w w.ledger) (hx : w.binding? b = some x)
    (hentry : ∀ s ∈ x.sources ++ x.targetListener.toList,
      ∃ role, ∃ e ∈ w.ledger role b, e.1 = s) (busy : Bool) :
    ((w.setBusy b busy).disconnect b).WiredBy ((w.setBusy b busy).disconnect b).ledger := by
  have hreplaces := Replaces.of_disconnect hx busy
  rw [hreplaces.ledger (fun _ => rfl) hx]
  rw [disconnect_setBusy hx] at hreplaces ⊢
  have hfiltered : WiredBy (World.modifyBinding _ b (Binding.silenced busy)) _ :=
    (h.unobserveAll (x.sources ++ x.targetListener.toList)).of_observers_eq (fun _ => rfl)
      (fun _ => rfl) fun _ => rfl
  refine hfiltered.of_ledger_iff fun r c e halive => ?_
  rw [hreplaces.isAlive] at halive
  simp only [List.mem_filter, decide_eq_true_eq]
  by_cases hc : c = b
  · subst hc
    have hnone : ((w.ledger.put .source c []).put .target c []) r c = [] := by
      cases r <;> simp [Ledger.put]
    change e ∈ ((w.ledger.put .source c []).put .target c []) r c ↔ _
    rw [hnone]
    refine ⟨fun he => absurd he List.not_mem_nil, fun he => ?_⟩
    exact (he.2 e.1 (mem_subscriptions_of_entry hx he.1) ⟨rfl, rfl⟩).elim
  · rw [Ledger.put_of_ne _ fun heq => hc heq.2, Ledger.put_of_ne _ fun heq => hc heq.2]
    refine ⟨fun he => ⟨he, fun s hs hsame => ?_⟩, fun he => he.1⟩
    obtain ⟨role, old, hold, rfl⟩ := hentry s hs
    exact hc (h.owner he hold halive hsame).2

end World

end LiveUI
