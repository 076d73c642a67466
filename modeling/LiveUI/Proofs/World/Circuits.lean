import Mathlib.Data.ZMod.Basic
import LiveUI.Proofs.World.Consulting
import LiveUI.Proofs.World.Delegates
import LiveUI.Proofs.World.Provenance
import LiveUI.Proofs.World.Targets

/-! # Circuits of bindings

In a circuit each attribute is made of the one before it, and the first one of the last one. Each has
one observer at most, the binding that reads it and writes the next one. -/

namespace LiveUI

open World

/-- Code comes to what `f` makes of one attribute, in every world that has it, and reads nothing else. -/
structure Code.Computes (code : Code) (scope : Scope) (p : Handle × String) (f : Value → Value) :
    Prop where
  hostFree : code.HostFree scope
  reads : ∀ w, ∀ q ∈ (code.look scope w).2, q.1.id = p.1.id ∧ q.2 = p.2
  value : ∀ w v, w.attr? p.1 p.2 = some v → (code.look scope w).1 = .ok (f v)

namespace Code.Computes

variable {code : Code} {scope : Scope} {p : Handle × String} {f g : Value → Value} {w w' : World}

/-- The attribute is noted once at most. -/
theorem reads_eq (h : code.Computes scope p f) (w : World) :
    (code.look scope w).2 = [] ∨ ∃ q, (code.look scope w).2 = [q] := by
  have hdistinct := h.hostFree.look_distinct w
  have hreads := h.reads w
  cases hlook : (code.look scope w).2 with
  | nil => exact .inl rfl
  | cons q rest =>
      rw [hlook] at hdistinct hreads
      refine .inr ⟨q, ?_⟩
      cases rest with
      | nil => rfl
      | cons q' rest =>
          obtain ⟨hid, hattr⟩ := hreads q List.mem_cons_self
          obtain ⟨hid', hattr'⟩ := hreads q' (List.mem_cons_of_mem _ List.mem_cons_self)
          exact absurd ⟨hid.trans hid'.symm, hattr.trans hattr'.symm⟩
            ((List.pairwise_cons.mp hdistinct).1 q' List.mem_cons_self)

/-- Code that does not read the attribute comes to the same whatever the value. -/
theorem constant (h : code.Computes scope p f) (hsilent : (code.look scope w').2 = [])
    (halive : w.isAlive p.1 = true) (u v : Value) : f u = f v := by
  have hlook (z : Value) : (code.look scope w').1 = .ok (f z) := by
    have hsame : code.look scope (w.write p.1 p.2 z) = code.look scope w' :=
      h.hostFree.look_congr fun q hq => absurd hq (by simp [hsilent])
    rw [← hsame]
    exact h.value _ z (w.attr?_write_self p.2 z halive)
  exact Except.ok.inj ((hlook u).symm.trans (hlook v))

/-- An attribute of an object that never changes is what it is. -/
theorem of_denotes {frame : Frame} {o : Handle} {attr : String} (h : code.Denotes frame o attr) :
    code.Computes { frame } (o, attr) id := by
  refine ⟨h.hostFree, fun w q hq => ?_, fun w v hv => ?_⟩
  · rw [h.look_eq] at hq
    obtain rfl := List.mem_singleton.mp hq
    exact ⟨rfl, rfl⟩
  · rw [h.look_eq]
    change w.attr? o attr = some v at hv
    rw [hv]
    rfl

/-- An operation that has a value for every operand is computed as well. -/
theorem unary (h : code.Computes scope p f) {op : UnaryOp} (hop : ∀ v, Value.unary op v = .ok (g v)) :
    (Code.unary op code).Computes scope p fun v => g (f v) := by
  have heval (w : World) : ∃ out, (Code.unary op code).evaluate builtinsOnly scope true w = some (out, w) ∧
      out.2 = (code.look scope w).2 ∧ out.1 = (code.look scope w).1.map g := by
    obtain ⟨s, hs, hreads⟩ := h.hostFree.outcome_eq w
    have hunary : (Code.unary op code).eval builtinsOnly scope =
        code.eval builtinsOnly scope >>= fun v => ofExcept (Value.unary op v) := by
      simp only [eval]
    rw [evaluate_eq_outcome, hunary, Evaluation.outcome_bind, hs]
    cases hresult : (code.look scope w).1 with
    | error e => exact ⟨_, rfl, hreads, rfl⟩
    | ok v =>
        refine ⟨(.ok (g v), s.pairs), ?_, hreads, rfl⟩
        simp only [Option.bind_some, hop]
        rfl
  refine ⟨fun w => ?_, fun w q hq => ?_, fun w v hv => ?_⟩
  · obtain ⟨out, hout, -⟩ := heval w
    exact ⟨_, hout⟩
  · obtain ⟨out, hout, hreads, -⟩ := heval w
    simp only [look, hout] at hq
    rw [hreads] at hq
    exact h.reads w q hq
  · obtain ⟨out, hout, -, hvalue⟩ := heval w
    simp only [look, hout]
    rw [hvalue, h.value w v hv]
    rfl

end Code.Computes

/-- Attributes in a circle, with the bindings that lead from each to the next one. -/
structure Circuit (n : ℕ) where
  place : ZMod n → Handle × String
  /-- What the attribute after this one is made of the value here. -/
  function : ZMod n → Value → Value
  binding : ZMod n → ℕ
  distinct : ∀ i j, (place i).1.id = (place j).1.id → (place i).2 = (place j).2 → i = j

namespace Circuit

variable {n : ℕ}

/-- A binding reads the attribute at a place and writes the next one. -/
structure Edge (r : Circuit n) (i : ZMod n) (x : Binding) : Prop where
  kind : x.kind = .bind
  inService : x.inService = true
  target : x.target.id = (r.place (i + 1)).1.id
  attr : x.attr = (r.place (i + 1)).2
  computes : x.code.Computes { frame := x.frame } (r.place i) (r.function i)

end Circuit

namespace World

variable {n : ℕ} {r : Circuit n} {w w' w'' : World} {i : ZMod n}

/-- The bindings of the circuit are there, and there is nothing else that hears of changes. -/
structure Closes (w : World) (r : Circuit n) : Prop where
  network : Network w
  consulted : ∀ b, Consulted w b
  edge : ∀ i, ∃ x, w.binding? (r.binding i) = some x ∧ r.Edge i x
  only : ∀ b x, w.binding? b = some x → x.inService = true → ∃ i, b = r.binding i

/-- The attribute after this one holds what the function makes of the value here. -/
def Satisfies (w : World) (r : Circuit n) (i : ZMod n) : Prop :=
  ∃ u, w.attr? (r.place i).1 (r.place i).2 = some u ∧
    w.HasValue (r.place (i + 1)).1 (r.place (i + 1)).2 (r.function i u)

theorem HasValue.congr {p : Handle × String} {v : Value}
    (heq : w'.attr? p.1 p.2 = w.attr? p.1 p.2) (h : w.HasValue p.1 p.2 v) : w'.HasValue p.1 p.2 v := by
  rwa [HasValue, heq]

theorem Satisfies.congr (hsource : w'.attr? (r.place i).1 (r.place i).2 =
      w.attr? (r.place i).1 (r.place i).2)
    (htarget : w'.attr? (r.place (i + 1)).1 (r.place (i + 1)).2 =
      w.attr? (r.place (i + 1)).1 (r.place (i + 1)).2) (h : w.Satisfies r i) : w'.Satisfies r i := by
  obtain ⟨u, hu, hvalue⟩ := h
  exact ⟨u, hsource.trans hu, hvalue.congr htarget⟩

namespace Closes

/-- Each binding leads from one place only. -/
theorem binding_inj (h : w.Closes r) {i j : ZMod n} (heq : r.binding i = r.binding j) : i = j := by
  obtain ⟨x, hx, hi⟩ := h.edge i
  obtain ⟨y, hy, hj⟩ := h.edge j
  rw [heq, hy] at hx
  obtain rfl := Option.some.inj hx
  exact add_right_cancel (r.distinct _ _ (hi.target.symm.trans hj.target) (hi.attr.symm.trans hj.attr))

/-- What a circuit is said to be is kept where the bindings ask for the same. -/
theorem of_plans (h : w.Closes r) (hnet : Network w') (hconsulted : ∀ b, Consulted w' b)
    (hplans : SamePlans w w')
    (hfound : ∀ b, (w.binding? b).isSome = true → (w'.binding? b).isSome = true) : w'.Closes r := by
  refine ⟨hnet, hconsulted, fun i => ?_, fun b x' hx' hservice => ?_⟩
  · obtain ⟨x, hx, hedge⟩ := h.edge i
    obtain ⟨x', hx'⟩ := Option.isSome_iff_exists.mp (hfound _ (Option.isSome_of_eq_some hx))
    obtain ⟨y, hy, hplan, hservice⟩ := hplans _ x' hx'
    obtain rfl := Option.some.inj (hx.symm.trans hy)
    refine ⟨x', hx', hplan.kind.trans hedge.kind, hservice.trans hedge.inService, ?_, ?_, ?_⟩
    · rw [hplan.target, hedge.target]
    · rw [hplan.attr, hedge.attr]
    · rw [hplan.code, hplan.frame]
      exact hedge.computes
  · obtain ⟨x, hx, -, heq⟩ := hplans b x' hx'
    exact h.only b x hx (heq.symm.trans hservice)

/-- Propagation keeps it. -/
theorem run (h : w.Closes r) {k : Work} (run : Runs k w w') (hready : k.Ready w) : w'.Closes r := by
  obtain ⟨hnet, hkeeps⟩ := run.keeps h.network hready
  have hconsulted (b : Nat) := (Consulted.durable b).runs run h.network hready (h.consulted b)
  refine h.of_plans hnet hconsulted hkeeps.samePlans fun b hb => ?_
  obtain ⟨x, hx⟩ := Option.isSome_iff_exists.mp hb
  obtain ⟨x', hx', -⟩ := hkeeps.exists_core hx
  exact Option.isSome_of_eq_some hx'

theorem write (h : w.Closes r) (o : Handle) (attr : String) (v : Value) :
    (w.write o attr v).Closes r := by
  have hplans := (Keeps.write w o attr v).samePlans
  exact h.of_plans (h.network.write o attr v) (fun b =>
    (h.consulted b).of_same (hplans b) (w.lastEvaluation?_write o attr v b)) hplans fun _ => id

/-- What is written by an edge is alive. -/
theorem alive (h : w.Closes r) (i : ZMod n) : w.isAlive (r.place i).1 = true := by
  obtain ⟨x, hx, hedge⟩ := h.edge (i - 1)
  have htarget := hedge.target
  rw [sub_add_cancel] at htarget
  rw [isAlive, ← w.object?_congr htarget]
  exact (h.network.inUse x (w.mem_of_binding? hx) hedge.inService).alive

/-- A binding listens to what its expression reads in some world. -/
theorem lastReads (h : w.Closes r) {i : ZMod n} {x : Binding} (hx : w.binding? (r.binding i) = some x)
    (hedge : r.Edge i x) : ∃ u, w.lastReads (r.binding i) = (x.look u).2 := by
  obtain ⟨u, hu⟩ := h.consulted _ x hx hedge.inService
  exact ⟨u, by rw [World.lastReads, hu]; rfl⟩

/-! ## The observers of an attribute -/

section Observers

variable {o : Handle} {attr : String} (h : w.Closes r) (hid : o.id = (r.place i).1.id)
  (hattr : attr = (r.place i).2)

include h hid hattr

/-- Whoever observes an attribute of the circuit is the binding that reads it. -/
theorem callback {obs : Observer} (hobs : obs ∈ w.observersOf o attr) :
    obs.callback = .source (r.binding i) := by
  obtain ⟨hobs, hat⟩ := mem_observersOf.mp hobs
  obtain ⟨role, b, hcall⟩ := h.network.served o obs hobs
  cases role with
  | target =>
      obtain ⟨x, hx, hkind, howned, -⟩ := h.network.exists_target hobs hcall
      obtain ⟨j, rfl⟩ := h.only b x hx (by simp [Binding.inService, howned])
      obtain ⟨y, hy, hedge⟩ := h.edge j
      obtain rfl := Option.some.inj (hx.symm.trans hy)
      exact absurd (hkind.symm.trans hedge.kind) (by simp)
  | source =>
      obtain ⟨x, hx, hservice, p, hp, hpid, hpattr⟩ := h.network.exists_read hobs hcall
      obtain ⟨j, rfl⟩ := h.only b x hx hservice
      obtain ⟨y, hy, hedge⟩ := h.edge j
      obtain rfl := Option.some.inj (hx.symm.trans hy)
      obtain ⟨v, hv⟩ := h.lastReads hx hedge
      rw [hv] at hp
      obtain ⟨hid', hattr'⟩ := hedge.computes.reads v p hp
      obtain rfl : j = i := r.distinct j i (hid'.symm.trans (hpid.trans hid))
        (hattr'.symm.trans (hpattr.trans (hat.trans hattr)))
      exact hcall

/-- There is one at most. -/
theorem observersOf_eq : w.observersOf o attr = [] ∨ ∃ obs, w.observersOf o attr = [obs] := by
  obtain ⟨x, hx, hedge⟩ := h.edge i
  obtain ⟨v, hv⟩ := h.lastReads hx hedge
  have hplaces := ledger_places hx (h.network.aligned hx hedge.inService)
  have hsole : ∀ obs ∈ w.observersOf o attr, ∀ obs' ∈ w.observersOf o attr, obs = obs' := by
    intro obs hobs obs' hobs'
    have hcall := h.callback hid hattr hobs
    have hcall' := h.callback hid hattr hobs'
    obtain ⟨hmem, -⟩ := mem_observersOf.mp hobs
    obtain ⟨hmem', -⟩ := mem_observersOf.mp hobs'
    obtain ⟨e, he, -, heid, -⟩ := h.network.wired.heard o obs hmem .source _ hcall
    obtain ⟨e', he', -, heid', -⟩ := h.network.wired.heard o obs' hmem' .source _ hcall'
    refine h.network.wired.eq_of_id hmem hmem' (heid.symm.trans (Eq.trans ?_ heid'))
    rw [hv] at hplaces
    rcases hedge.computes.reads_eq v with hnil | ⟨q, hq⟩
    · rw [Binding.look, hnil] at hplaces
      rw [List.map_eq_nil_iff.mp hplaces] at he
      cases he
    · rw [Binding.look, hq] at hplaces
      obtain ⟨d, hd, -⟩ := List.map_eq_singleton_iff.mp hplaces
      rw [hd] at he he'
      rw [List.mem_singleton.mp he, List.mem_singleton.mp he']
  have hnodup := h.network.wired.nodup_observersOf o attr
  cases hlist : w.observersOf o attr with
  | nil => exact .inl rfl
  | cons obs rest =>
      refine .inr ⟨obs, ?_⟩
      rw [hlist] at hsole hnodup
      cases rest with
      | nil => rfl
      | cons obs' rest =>
          have heq := hsole obs List.mem_cons_self obs' (List.mem_cons_of_mem _ List.mem_cons_self)
          exact absurd (heq ▸ List.mem_cons_self) (List.nodup_cons.mp hnodup).1

/-- Where nobody observes the attribute, the next one does not depend on it. -/
theorem constant (hnone : w.observersOf o attr = []) (u v : Value) :
    r.function i u = r.function i v := by
  obtain ⟨x, hx, hedge⟩ := h.edge i
  obtain ⟨w₀, hw₀⟩ := h.lastReads hx hedge
  rcases hedge.computes.reads_eq w₀ with hnil | ⟨q, hq⟩
  · exact hedge.computes.constant hnil (h.alive i) u v
  · obtain ⟨hqid, hqattr⟩ := hedge.computes.reads w₀ q (by simp [hq])
    have hread : q ∈ w.lastReads (r.binding i) := by
      rw [hw₀, Binding.look, hq]
      exact List.mem_cons_self
    obtain ⟨obs, hobs, hobsattr, -⟩ := h.network.exists_observer hx hedge.inService hread
      (by rw [isAlive, w.object?_congr hqid]; exact h.alive i)
    have hmem : obs ∈ w.observersOf o attr := by
      refine mem_observersOf.mpr ⟨?_, hobsattr.trans (hqattr.trans hattr.symm)⟩
      rwa [w.observers_congr (hid.trans hqid.symm)]
    rw [hnone] at hmem
    cases hmem

end Observers

end Closes

end World

end LiveUI
