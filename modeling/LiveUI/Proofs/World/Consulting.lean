import LiveUI.Proofs.World.Requests

/-! # Bindings that have been evaluated

Whatever binding takes part in propagation was evaluated when it was made, so what it listens to is what
its expression reads in some world. -/

namespace LiveUI

namespace World

variable {w w' : World} {b : Nat} {x : Binding}

/-- The last evaluation of a binding in service is one of its expression. -/
def Consulted (w : World) (b : Nat) : Prop :=
  ∀ x, w.binding? b = some x → x.inService = true → ∃ u, w.lastEvaluation? b = some (x.look u)

theorem Consulted.of_same (h : Consulted w b) (hplan : SamePlanAt w w' b)
    (hlast : w'.lastEvaluation? b = w.lastEvaluation? b) : Consulted w' b := by
  intro x' hx' hservice
  obtain ⟨x, hx, hplan, heq⟩ := hplan x' hx'
  obtain ⟨u, hu⟩ := h x hx (heq.symm.trans hservice)
  refine ⟨u, ?_⟩
  rw [hlast, hu, Binding.look, Binding.look, hplan.code, hplan.frame]

theorem Consulted.alike (h : Consulted w b) (halike : Alike w w') : Consulted w' b :=
  h.of_same (halike.plans b) (halike.lastEvaluation? b)

/-- A binding is consulted by its evaluation, and the others stay as they are. -/
theorem Consulted.evaluated {c : Nat} (h : c = b ∨ Consulted w c) (hx : w.binding? b = some x)
    {result : Except EvalError Value} {reads : List (Handle × String)}
    (heval : Evaluated w b result reads w') (hlook : x.look w = (result, reads)) : Consulted w' c := by
  have hplans := heval.keeps.samePlans
  by_cases hc : c = b
  · subst hc
    intro y' hy' _
    obtain ⟨y, hy, hplan, -⟩ := hplans c y' hy'
    obtain rfl := Option.some.inj (hx.symm.trans hy)
    refine ⟨w, ?_⟩
    rw [heval.lastEvaluation?, if_pos rfl, ← hlook, Binding.look, Binding.look, hplan.code, hplan.frame]
  · refine (h.resolve_left hc).of_same (hplans c) ?_
    rw [heval.lastEvaluation?, if_neg (Ne.symm hc)]

theorem Consulted.durable (b : Nat) : Durable (Consulted · b) where
  same h hplans hlast := h.of_same (hplans b) (hlast b)
  evaluated h heval hx hlook := .evaluated (.inr h) hx heval hlook

end World

open World Step

section Runs

variable {w w' : World} {b : Nat}

/-- A binding at work is consulted at once. -/
theorem Runs.consulted_refresh {result : Except EvalError Unit} (run : Runs (.refresh b result) w w')
    (hw : Network w) (hready : (Work.refresh b result).Ready w) : Consulted w' b := by
  obtain ⟨y, hy, hbusy⟩ := hready
  cases run with
  | failed hx hlook hsub hn =>
      have heval := (hw.evaluated hy (Binding.inService_of_busy hbusy) _ _).result hsub
      exact (Consulted.evaluated (.inl rfl) hx heval hlook).alike (.notices hn)
  | evaluated hx hlook hsub hn run =>
      have heval := (hw.evaluated hy (Binding.inService_of_busy hbusy) _ _).result hsub
      have hbusy' := (heval.keeps.trans hn.keeps).exists_busy hy hbusy
      exact (Consulted.durable b).runs run (hn.network heval.network) hbusy'
        ((Consulted.evaluated (.inl rfl) hx heval hlook).alike (.notices hn))

/-- Making a binding leaves all of them consulted. -/
theorem World.Network.consulted_made {site : Site} {kind : BindingKind} {code : Code} (h : Network w)
    (hconsulted : ∀ b, Consulted w b) (halive : w.isAlive site.target = true)
    (hfree : code.HostFree { frame := site.frame }) (hkind : kind ≠ .notify)
    {result : Except EvalError Unit} {w₁ : World} {owned : Bool}
    (run : Runs (.refresh w.nextBinding result) (w.begin site kind code) w₁)
    (hhome : Homes w₁ w.nextBinding owned w') (b : Nat) : Consulted w' b := by
  obtain ⟨hbegun, -⟩ := h.begin halive hfree hkind
  obtain ⟨-, -, x, hx, hcore⟩ := h.made halive hfree hkind run
  have hready : (Work.refresh w.nextBinding result).Ready (w.begin site kind code) :=
    ⟨_, by rw [h.binding?_begin, if_pos rfl], rfl⟩
  have hworked : Consulted w₁ b := by
    by_cases hb : b = w.nextBinding
    · exact hb ▸ run.consulted_refresh hbegun hready
    · exact (Consulted.durable b).runs run hbegun hready ((hconsulted b).of_same (h.samePlanAt_begin hb) rfl)
  intro y hy hservice
  have hlast : w'.lastEvaluation? b = w₁.lastEvaluation? b := by
    rw [lastEvaluation?, hhome.journal]
    rfl
  exact hworked.of_same (hhome.samePlanAt hx (congrArg (·.busy) hcore) hy hservice) hlast y hy hservice

end Runs

theorem Performs.consulted {r : Request} {w w' : World} (p : Performs r w w') (h : Network w)
    (hready : r.Ready w) (hconsulted : ∀ b, Consulted w b) (b : Nat) : Consulted w' b := by
  cases p with
  | set run => exact (Consulted.durable b).runs run h trivial (hconsulted b)
  | @emit o attr v w w' run =>
      exact (Consulted.durable b).runs run (h.write _ _ _) trivial
        ((hconsulted b).of_same ((Keeps.write _ _ _ _).samePlans b) (w.lastEvaluation?_write o attr v b))
  | bind run hhome => exact h.consulted_made hconsulted hready.1 hready.2 (by simp) run hhome b
  | delegate run hhome => exact h.consulted_made hconsulted hready.1 hready.2 (by simp) run hhome b
  | refused => exact hconsulted b

/-- The binding is what the request asks for. -/
def Request.Asks (x : Binding) : Request → Prop
  | .bind site code => x.SamePlan (site.record .bind code x.id)
  | .delegate site code => x.SamePlan (site.record .delegate code x.id)
  | .set _ _ _ | .emit _ _ _ => False

theorem Request.Asks.congr {x x' : Binding} {r : Request} (h : r.Asks x) (hplan : x'.SamePlan x) :
    r.Asks x' := by
  cases r with
  | set => exact h.elim
  | emit => exact h.elim
  | bind site code =>
      have hrecord := hplan.trans h
      exact ⟨hrecord.kind, hrecord.target, hrecord.attr, hrecord.code, hrecord.frame, hrecord.label⟩
  | delegate site code =>
      have hrecord := hplan.trans h
      exact ⟨hrecord.kind, hrecord.target, hrecord.attr, hrecord.code, hrecord.frame, hrecord.label⟩

theorem World.Network.plans_made {site : Site} {kind : BindingKind} {code : Code} {w w₁ w' : World}
    (h : Network w) (halive : w.isAlive site.target = true)
    (hfree : code.HostFree { frame := site.frame }) (hkind : kind ≠ .notify)
    {result : Except EvalError Unit} {owned : Bool}
    (run : Runs (.refresh w.nextBinding result) (w.begin site kind code) w₁)
    (hhome : Homes w₁ w.nextBinding owned w') {b : Nat} {x' : Binding} (hx' : w'.binding? b = some x') :
    (∃ x, w.binding? b = some x ∧ x'.SamePlan x) ∨ x'.SamePlan (site.record kind code x'.id) := by
  obtain ⟨-, hkeeps, y, hy, hcore⟩ := h.made halive hfree hkind run
  by_cases hb : b = w.nextBinding
  · obtain ⟨z, hz, hplan, -⟩ := hhome.self y hy
    rw [hb] at hx'
    obtain rfl := Option.some.inj (hx'.symm.trans hz)
    exact .inr (hplan.trans ⟨congrArg (·.kind) hcore, congrArg (·.target) hcore, congrArg (·.attr) hcore,
      congrArg (·.code) hcore, congrArg (·.frame) hcore, congrArg (·.label) hcore⟩)
  · rw [hhome.other b hb] at hx'
    obtain ⟨x, hx, hplan, -⟩ := hkeeps.samePlans b x' hx'
    rw [h.binding?_begin, if_neg hb] at hx
    exact .inl ⟨x, hx, hplan⟩

/-- Whatever binding is there asks for what it did before, or for what the request does. -/
theorem Performs.asked {r : Request} {w w' : World} (p : Performs r w w') (h : Network w)
    (hready : r.Ready w) {b : Nat} {x' : Binding} (hx' : w'.binding? b = some x') :
    (∃ x, w.binding? b = some x ∧ x'.SamePlan x) ∨ r.Asks x' := by
  cases p with
  | set run =>
      obtain ⟨-, hkeeps⟩ := run.keeps h trivial
      obtain ⟨x, hx, hplan, -⟩ := hkeeps.samePlans b x' hx'
      exact .inl ⟨x, hx, hplan⟩
  | emit run =>
      obtain ⟨-, hkeeps⟩ := run.keeps (h.write _ _ _) trivial
      obtain ⟨x, hx, hplan, -⟩ := hkeeps.samePlans b x' hx'
      exact .inl ⟨x, hx, hplan⟩
  | bind run hhome => exact h.plans_made hready.1 hready.2 (by simp) run hhome hx'
  | delegate run hhome => exact h.plans_made hready.1 hready.2 (by simp) run hhome hx'
  | refused => exact .inl ⟨x', hx', .refl x'⟩

/-- Requests leave a network at rest, in which all bindings are consulted and each asks for what it did
before or for what one of the requests does. -/
theorem Request.performAll_consulted {n : Nat} {rs : List Request} {w : World} (h : Network w)
    (hrest : Resting w) (hconsulted : ∀ b, Consulted w b) (hready : ∀ r ∈ rs, r.Ready w)
    (hn : w.bindings.length + rs.length < n) : Yields (performAll (announce n) rs) w fun _ w' =>
      Network w' ∧ Resting w' ∧ (∀ b, Consulted w' b) ∧ ∀ b x', w'.binding? b = some x' →
        (∃ x, w.binding? b = some x ∧ x'.SamePlan x) ∨ ∃ r ∈ rs, r.Asks x' := by
  induction rs generalizing w with
  | nil => exact Yields.of_pure ⟨h, hrest, hconsulted, fun b x' hx' => .inl ⟨x', hx', .refl x'⟩⟩
  | cons r rs ih =>
      have hr := hready r List.mem_cons_self
      have hidle : w.idle ≤ w.bindings.length := List.countP_le_length
      rw [List.length_cons] at hn
      refine Yields.bind ((perform_performs h hr (by omega : w.idle < n)).imp fun _ w₁ hperforms => ?_)
      obtain ⟨hnet, hrest₁, hext⟩ := hperforms.keeps h hr hrest
      have hlength := hperforms.length h hr
      refine (ih hnet hrest₁ (hperforms.consulted h hr hconsulted)
        (fun r hr => (hready r (List.mem_cons_of_mem _ hr)).extends hext) (by omega)).imp
        fun _ w' ⟨hnet', hrest', hconsulted', hasked⟩ => ⟨hnet', hrest', hconsulted', fun b x'' hx'' => ?_⟩
      rcases hasked b x'' hx'' with ⟨x', hx', hplan'⟩ | ⟨q, hq, hasks⟩
      · rcases hperforms.asked h hr hx' with ⟨x, hx, hplan⟩ | hasks
        · exact .inl ⟨x, hx, hplan'.trans hplan⟩
        · exact .inr ⟨r, List.mem_cons_self, hasks.congr hplan'⟩
      · exact .inr ⟨q, List.mem_cons_of_mem _ hq, hasks⟩

/-- Where no binding is in service there is nothing to consult. -/
theorem World.Quiet.consulted {w : World} (h : Quiet w) (b : Nat) : Consulted w b := by
  intro x hx hservice
  exact absurd ((h.released x (w.mem_of_binding? hx)).1.symm.trans hservice) (by simp)

end LiveUI
