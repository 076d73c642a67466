import LiveUI.Proofs.World.Freshness

/-! # Targets

Where no two binds have one target, the target of each holds the value of its last evaluation that
had one. -/

namespace LiveUI

open World

namespace World

variable {w w' : World}

/-- A value is there, identical to `v` or equal to it. -/
def HasValue (w : World) (o : Handle) (attr : String) (v : Value) : Prop :=
  ∃ s, w.attr? o attr = some s ∧ (s = v ∨ (s == v) = true)

/-- The target of a binding in service has the value of its last evaluation that had one. -/
def Holds (w : World) (b : Nat) : Prop :=
  ∀ x, w.binding? b = some x → x.inService = true → ∀ v, w.lastValue? b = some v →
    w.HasValue x.target x.attr v

/-- No two bindings in service have one target. -/
def DistinctTargets (w : World) : Prop :=
  ∀ b c x y, w.binding? b = some x → w.binding? c = some y → x.inService = true →
    y.inService = true → x.target.id = y.target.id → x.attr = y.attr → b = c

theorem DistinctTargets.samePlans (h : DistinctTargets w) (hplans : SamePlans w w') :
    DistinctTargets w' := by
  intro b c x' y' hx' hy' hxs hys hid hattr
  obtain ⟨x, hx, hplanx, hxs'⟩ := hplans b x' hx'
  obtain ⟨y, hy, hplany, hys'⟩ := hplans c y' hy'
  rw [hplanx.target, hplany.target] at hid
  rw [hplanx.attr, hplany.attr] at hattr
  exact h b c x y hx hy (hxs'.symm.trans hxs) (hys'.symm.trans hys) hid hattr

theorem Holds.of_same {b : Nat} (h : Holds w b) (hplan : SamePlanAt w w' b)
    (hvalue : w'.lastValue? b = w.lastValue? b)
    (hattr : ∀ x, w.binding? b = some x → x.inService = true →
      w'.attr? x.target x.attr = w.attr? x.target x.attr) : Holds w' b := by
  intro x' hx' hservice v hv
  obtain ⟨x, hx, hplan, hservice'⟩ := hplan x' hx'
  have hxservice := hservice'.symm.trans hservice
  rw [hvalue] at hv
  rw [HasValue, hplan.target, hplan.attr, hattr x hx hxservice]
  exact h x hx hxservice v hv

theorem Holds.alike {b : Nat} (h : Holds w b) (halike : Alike w w') : Holds w' b :=
  h.of_same (halike.plans b) (halike.lastValue? b) fun x _ _ => halike.attr? x.target x.attr

/-- A write elsewhere does not matter. -/
theorem Holds.write {b : Nat} (h : Holds w b) {o : Handle} {attr : String} (v : Value)
    (helsewhere : ∀ x, w.binding? b = some x → x.inService = true →
      ¬(x.target.id = o.id ∧ x.attr = attr)) : Holds (w.write o attr v) b := by
  refine h.of_same ((Keeps.write w o attr v).samePlans b) (w.lastValue?_write o attr v b)
    fun x hx hservice => ?_
  exact w.attr?_write_of_ne v fun heq => helsewhere x hx hservice ⟨heq.1.symm, heq.2.symm⟩

end World

/-- What it takes for a piece of propagation to leave a binding with its value in the target. -/
def Work.Upholds (w : World) (c : Nat) : Work → Prop
  | .announce _ | .deliver _ _ | .react _ _ _ | .refresh _ _ => Holds w c
  | .writeBack _ _ _ => False
  | .store b v _ => if c = b then w.lastValue? b = some v else Holds w c
  | .set o attr v => ∀ x, w.binding? c = some x → x.inService = true →
      if x.target.id = o.id ∧ x.attr = attr then w.lastValue? c = some v else Holds w c

namespace Work.Upholds

variable {w w' : World} {b c : Nat} {v : Value} {result : Except EvalError Unit}

/-- Without a value from its evaluation a binding has the one that it had. -/
theorem failed {e : EvalError} {reads : List (Handle × String)} (h : (refresh b result).Upholds w c)
    (heval : Evaluated w b (.error e) reads w') : Holds w' c := by
  refine Holds.of_same h (heval.keeps.samePlans c) ?_ fun y _ _ => heval.attr? _ _
  rw [heval.lastValue?]
  split
  next hbc => rw [← hbc]; rfl
  next => rfl

/-- With a value from its evaluation it is about to store that. -/
theorem evaluated {reads : List (Handle × String)} {w₁ : World} (h : (refresh b result).Upholds w c)
    (heval : Evaluated w b (.ok v) reads w₁) (hn : Notices w₁ w') :
    (store b v result).Upholds w' c := by
  have halike := Alike.notices hn
  simp only [Work.Upholds]
  split
  next hc =>
    rw [halike.lastValue?, heval.lastValue?, if_pos rfl]
    rfl
  next hc =>
    refine Holds.alike (h.of_same (heval.keeps.samePlans c) ?_ fun y _ _ => heval.attr? _ _) halike
    rw [heval.lastValue?, if_neg (Ne.symm hc)]

/-- No other binding has the target to which it stores. -/
theorem bound {x : Binding} (h : (store b v result).Upholds w c) (hdistinct : DistinctTargets w)
    (hx : w.binding? b = some x) (hservice : x.inService = true) :
    (set x.target x.attr v).Upholds w c := by
  intro z hz hzservice
  simp only [Work.Upholds] at h
  split
  next hsame =>
    have hcb := hdistinct c b z x hz hx hzservice hservice hsame.1 hsame.2
    rw [if_pos hcb] at h
    rwa [hcb]
  next hdiff =>
    have hcb : c ≠ b := by
      intro hcb
      rw [hcb, hx] at hz
      obtain rfl := Option.some.inj hz
      exact hdiff ⟨rfl, rfl⟩
    rwa [if_neg hcb] at h

variable {o : Handle} {attr : String}

/-- What is there already is as good as the value. -/
theorem unchanged {old : Value} (h : (set o attr v).Upholds w c) (hold : w.attr? o attr = some old)
    (heq : (old == v) = true) : Holds w c := by
  intro x hx hservice u hu
  have hupholds := h x hx hservice
  split at hupholds
  next hsame =>
    obtain rfl := Option.some.inj (hu.symm.trans hupholds)
    refine ⟨old, ?_, .inr heq⟩
    rw [w.attr?_congr hsame.1, hsame.2, hold]
  next => exact hupholds x hx hservice u hu

theorem changed (h : (set o attr v).Upholds w c) (hw : Network w) : Holds (w.write o attr v) c := by
  intro x hx hservice u hu
  have hupholds := h x hx hservice
  rw [lastValue?_write] at hu
  split at hupholds
  next hsame =>
    obtain rfl := Option.some.inj (hu.symm.trans hupholds)
    have halive := (hw.inUse x (w.mem_of_binding? hx) hservice).alive
    rw [isAlive, w.object?_congr hsame.1] at halive
    refine ⟨u, ?_, .inl rfl⟩
    rw [attr?_congr _ hsame.1, hsame.2]
    exact w.attr?_write_self attr u halive
  next hdiff =>
    rw [HasValue, w.attr?_write_of_ne v fun heq => hdiff ⟨heq.1.symm, heq.2.symm⟩]
    exact hupholds x hx hservice u hu

end Work.Upholds

/-- Nobody but a bind itself writes its target, and it writes what it was evaluated to. -/
theorem Runs.holds {k : Work} {w w' : World} (run : Runs k w w') (hw : Network w)
    (hready : k.Ready w) (hbinds : Binds w) (hdistinct : DistinctTargets w) {c : Nat}
    (h : k.Upholds w c) : Holds w' c := by
  -- Only binds are in service, so the work of delegates does not come up.
  induction run with
  | unheard => exact h
  | @heard d w w' hsome run ih =>
      have halike := Alike.beginFlight w d
      have hheld := ih (hw.beginFlight d) trivial (hbinds.samePlans halike.plans)
        (hdistinct.samePlans halike.plans) (h.alike halike)
      exact hheld.alike (Alike.endFlight w' d)
  | delivered => exact h
  | dropped _ _ ih => exact ih hw trivial hbinds hdistinct h
  | @called d obs rest w w₁ w' role b hobs hcall run runRest ih ihRest =>
      have halike : Alike w (w.log (.called d obs.id)) := .log w fun _ => rfl
      have hlogged : Network (w.log (.called d obs.id)) := hw.log fun _ => rfl
      have hready := hw.ready hobs hcall
      obtain ⟨hnet, hkeeps⟩ := run.keeps hlogged hready
      have hbinds' := hbinds.samePlans halike.plans
      have hdistinct' := hdistinct.samePlans halike.plans
      exact ihRest hnet trivial (hbinds'.samePlans hkeeps.samePlans)
        (hdistinct'.samePlans hkeeps.samePlans)
        (ih hlogged hready hbinds' hdistinct' (h.alike halike))
  | skipped hx hskips hn => exact h.alike (.notices hn)
  | @refreshed d b x result w w₁ w₂ w' hx hbusy hflight hn run hn' ih =>
      obtain ⟨hservice, -⟩ := of_binding? hx hready
      have hwork := hw.working hx hservice hbusy hn run hn' id
      have hheld := ih hwork.start ⟨_, hwork.binding?, rfl⟩ (hbinds.samePlans hwork.before.plans)
        (hdistinct.samePlans hwork.before.plans) (h.alike hwork.before)
      exact hheld.alike hwork.after
  | answered hx hbusy _ hn ih =>
      obtain ⟨x, hx, hservice, hkind⟩ := hready
      have hbind := hbinds _ x hx hservice
      simp [hkind rfl] at hbind
  | @failed b x e reads w w₁ w' hx hlook hsub hn =>
      have hbusy := of_binding? hx hready
      have heval := (hw.evaluated hx (Binding.inService_of_busy hbusy) _ _).result hsub
      exact (Work.Upholds.failed h heval).alike (.notices hn)
  | @evaluated b x v reads result w w₁ w₂ w' hx hlook hsub hn run ih =>
      have hbusy := of_binding? hx hready
      have heval := (hw.evaluated hx (Binding.inService_of_busy hbusy) _ _).result hsub
      have hkeeps := heval.keeps.trans hn.keeps
      exact ih (hn.network heval.network) (hkeeps.exists_busy hx hbusy)
        (hbinds.samePlans hkeeps.samePlans) (hdistinct.samePlans hkeeps.samePlans)
        (Work.Upholds.evaluated h heval hn)
  | @bound b x v w w' hx hkind run ih =>
      have hbusy := of_binding? hx hready
      exact ih hw trivial hbinds hdistinct (h.bound hdistinct hx (Binding.inService_of_busy hbusy))
  | agreed hx hkind => exact (hbinds.not_delegate hready hx hkind).elim
  | handedBack hx hkind => exact (hbinds.not_delegate hready hx hkind).elim
  | unreturned hx hkind => exact (hbinds.not_delegate hready hx hkind).elim
  | sourceless => exact h.elim
  | sourceInFlight => exact h.elim
  | returned => exact h.elim
  | normalised => exact h.elim
  | unchanged hold heq => exact h.unchanged hold heq
  | @changed o attr v w w' hne run ih =>
      have hkeeps := Keeps.write w o attr v
      exact ih (hw.write o attr v) trivial (hbinds.samePlans hkeeps.samePlans)
        (hdistinct.samePlans hkeeps.samePlans) (h.changed hw)

end LiveUI
