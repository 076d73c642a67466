import LiveUI.Proofs.World.Totality

/-! # Observers that are still to be called

While a change is being delivered, bindings further down the list may be out of date. What follows
is about any way of being up to date. A piece of propagation settles a world when every binding is
up to date afterwards, except for some that were allowed not to be and whose subscriptions it has
left alone: those are still registered when their turn comes. -/

namespace LiveUI.World

variable {w w' w'' : World}

/-- A binding asks for the same as before, and is in service if it was. -/
def SamePlanAt (w w' : World) (b : Nat) : Prop :=
  ∀ x', w'.binding? b = some x' →
    ∃ x, w.binding? b = some x ∧ x'.SamePlan x ∧ x'.inService = x.inService

/-- All bindings do. -/
def SamePlans (w w' : World) : Prop :=
  ∀ b, SamePlanAt w w' b

theorem SamePlans.trans (h : SamePlans w w') (h' : SamePlans w' w'') : SamePlans w w'' := by
  intro b x'' hx''
  obtain ⟨x', hx', hplan', hservice'⟩ := h' b x'' hx''
  obtain ⟨x, hx, hplan, hservice⟩ := h b x' hx'
  exact ⟨x, hx, hplan'.trans hplan, hservice'.trans hservice⟩

theorem Keeps.samePlans (h : Keeps w w') : SamePlans w w' := by
  intro b x' hx'
  obtain ⟨x, hx, hcore⟩ := h.exists_binding? hx'
  exact ⟨x, hx, .of_core hcore, Binding.inService_of_core hcore⟩

/-- The busy mark of an owned binding makes no difference. -/
theorem SamePlans.setBusy {b : Nat} {x : Binding} (hx : w.binding? b = some x)
    (howned : x.owned = true) (busy : Bool) : SamePlans w (w.setBusy b busy) := by
  intro c x' hx'
  by_cases hc : b = c
  · subst hc
    rw [binding?_setBusy hx] at hx'
    obtain rfl := Option.some.inj hx'
    exact ⟨x, hx, ⟨rfl, rfl, rfl, rfl, rfl, rfl⟩, by simp [Binding.inService, howned]⟩
  · rw [World.setBusy, binding?_modifyBinding w b c (f := fun x => { x with busy }) fun _ => rfl,
      if_neg hc] at hx'
    exact ⟨x', hx', ⟨rfl, rfl, rfl, rfl, rfl, rfl⟩, rfl⟩

/-- The worlds differ in nothing but announcements, busy marks and notices. -/
structure Alike (w w' : World) : Prop where
  isAlive : ∀ o, w'.isAlive o = w.isAlive o
  attr? : ∀ o attr, w'.attr? o attr = w.attr? o attr
  lastEvaluation? : ∀ b, w'.lastEvaluation? b = w.lastEvaluation? b
  lastValue? : ∀ b, w'.lastValue? b = w.lastValue? b
  ledger : w'.ledger = w.ledger
  plans : SamePlans w w'

namespace Alike

theorem trans (h : Alike w w') (h' : Alike w' w'') : Alike w w'' :=
  ⟨fun o => (h'.isAlive o).trans (h.isAlive o),
    fun o attr => (h'.attr? o attr).trans (h.attr? o attr),
    fun b => (h'.lastEvaluation? b).trans (h.lastEvaluation? b),
    fun b => (h'.lastValue? b).trans (h.lastValue? b), h'.ledger.trans h.ledger,
    h.plans.trans h'.plans⟩

theorem refl (w : World) : Alike w w :=
  ⟨fun _ => rfl, fun _ _ => rfl, fun _ => rfl, fun _ => rfl, rfl, (Keeps.refl w).samePlans⟩

theorem log (w : World) {e : Entry} (he : ∀ b, e.evaluationOf? b = none) : Alike w (w.log e) := by
  have hlast : ∀ b, (w.log e).lastEvaluation? b = w.lastEvaluation? b := by
    intro b
    rw [lastEvaluation?_log, he]
    rfl
  refine ⟨fun _ => rfl, fun _ _ => rfl, hlast, fun b => ?_, ?_, (Keeps.log w e).samePlans⟩
  · rw [lastValue?_log, Entry.valueOf?, he]
    rfl
  · exact ledger_congr (fun _ => rfl) fun b => by simp only [lastReads, hlast]

theorem notices (h : Notices w w') : Alike w w' := by
  induction h with
  | refl => exact refl _
  | notice n _ ih => exact ih.trans (log _ fun _ => rfl)

theorem beginFlight (w : World) (c : Change) : Alike w (w.beginFlight c) := by
  have hmarked : Alike w (w.modifyObject c.object fun x =>
      { x with inFlight := c.attr :: x.inFlight }) :=
    ⟨fun o => w.isAlive_modifyObject c.object o fun _ => rfl,
      w.attr?_beginFlight c,
      fun _ => rfl, fun _ => rfl, rfl, fun b x hx => ⟨x, hx, .refl x, rfl⟩⟩
  exact hmarked.trans (log _ fun _ => rfl)

theorem endFlight (w : World) (c : Change) : Alike w (w.endFlight c) := by
  have hmarked : Alike w (w.modifyObject c.object fun x =>
      { x with inFlight := x.inFlight.erase c.attr }) :=
    ⟨fun o => w.isAlive_modifyObject c.object o fun _ => rfl,
      w.attr?_endFlight c,
      fun _ => rfl, fun _ => rfl, rfl, fun b x hx => ⟨x, hx, .refl x, rfl⟩⟩
  exact hmarked.trans (log _ fun _ => rfl)

theorem setBusy {b : Nat} {x : Binding} (hx : w.binding? b = some x) (howned : x.owned = true)
    (busy : Bool) : Alike w (w.setBusy b busy) := by
  exact ⟨fun _ => rfl, fun _ _ => rfl, fun _ => rfl, fun _ => rfl,
    ledger_modifyBinding fun _ => rfl, .setBusy hx howned busy⟩

end Alike

/-- A binding that is owned and idle goes to work and comes home again. -/
structure Working (b : Nat) (x : Binding) (w w₁ w₂ w' : World) : Prop where
  start : Network w₁
  binding? : w₁.binding? b = some { x with busy := true }
  stop : Network w₂
  keeps : Keeps w₁ w₂
  before : Alike w w₁
  after : Alike w₂ w'

theorem Network.working (hw : Network w) {b : Nat} {x : Binding} (hx : w.binding? b = some x)
    (hservice : x.inService = true) (hbusy : x.busy = false) {w₁ w₂ : World} (hn : Notices w w₁)
    {k : Work} (run : Runs k (w₁.setBusy b true) w₂) (hn' : Notices (w₂.setBusy b false) w')
    (hk : (∃ y, (w₁.setBusy b true).binding? b = some y ∧ y.busy = true) →
      k.Ready (w₁.setBusy b true)) : Working b x w (w₁.setBusy b true) w₂ w' := by
  have howned := Binding.owned_of_idle hservice hbusy
  have hw₁ := hn.network hw
  have hx₁ : w₁.binding? b = some x := (hn.binding? b).trans hx
  have hset := binding?_setBusy hx₁ true
  have hstart := hw₁.setBusy hx₁ (hw₁.inUse x (w₁.mem_of_binding? hx₁) hservice)
  obtain ⟨hstop, hkeeps⟩ := run.keeps hstart (hk ⟨_, hset, rfl⟩)
  obtain ⟨x₂, hx₂, hcore⟩ := hkeeps.exists_core hset
  have howned₂ : x₂.owned = true := (congrArg (·.owned) hcore).trans howned
  exact ⟨hstart, hset, hstop, hkeeps, (Alike.notices hn).trans (.setBusy hx₁ howned true),
    (Alike.setBusy hx₂ howned₂ false).trans (.notices hn')⟩

/-- The property is about what bindings ask for and what they were evaluated to, and evaluations keep
it. -/
structure Durable (P : World → Prop) : Prop where
  same : ∀ {w w'}, P w → SamePlans w w' → (∀ b, w'.lastEvaluation? b = w.lastEvaluation? b) → P w'
  evaluated : ∀ {w w' b x result reads}, P w → Evaluated w b result reads w' →
    w.binding? b = some x → x.look w = (result, reads) → P w'

namespace Durable

variable {P : World → Prop}

theorem alike (hP : Durable P) (h : P w) (halike : Alike w w') : P w' :=
  hP.same h halike.plans halike.lastEvaluation?

/-- Nothing in propagation breaks it. -/
theorem runs (hP : Durable P) {k : Work} (run : Runs k w w') (hw : Network w) (hready : k.Ready w)
    (h : P w) : P w' := by
  induction run with
  | unheard => exact h
  | heard _ _ ih =>
      exact hP.alike (ih (hw.beginFlight _) trivial (hP.alike h (.beginFlight _ _))) (.endFlight _ _)
  | delivered => exact h
  | dropped _ _ ih => exact ih hw trivial h
  | @called c obs _ w _ _ _ _ hobs hcall run _ ih ihRest =>
      have hlogged : Network (w.log (.called c obs.id)) := hw.log fun _ => rfl
      have hready := hw.ready hobs hcall
      obtain ⟨hnet, -⟩ := run.keeps hlogged hready
      exact ihRest hnet trivial (ih hlogged hready (hP.alike h (.log w fun _ => rfl)))
  | skipped _ _ hn => exact hP.alike h (.notices hn)
  | refreshed hx hbusy _ hn run hn' ih =>
      obtain ⟨hservice, -⟩ := of_binding? hx hready
      have hwork := hw.working hx hservice hbusy hn run hn' id
      exact hP.alike (ih hwork.start ⟨_, hwork.binding?, rfl⟩ (hP.alike h hwork.before)) hwork.after
  | answered hx hbusy run hn ih =>
      obtain ⟨hservice, -⟩ := of_binding? hx hready
      have hwork := hw.working hx hservice hbusy (.refl _) run hn id
      exact hP.alike (ih hwork.start ⟨_, hwork.binding?, rfl⟩ (hP.alike h hwork.before)) hwork.after
  | failed hx hlook hsub hn =>
      obtain ⟨y, hy, hbusy⟩ := hready
      have heval := (hw.evaluated hy (Binding.inService_of_busy hbusy) _ _).result hsub
      exact hP.alike (hP.evaluated h heval hx hlook) (.notices hn)
  | evaluated hx hlook hsub hn _ ih =>
      obtain ⟨y, hy, hbusy⟩ := hready
      have heval := (hw.evaluated hy (Binding.inService_of_busy hbusy) _ _).result hsub
      have hbusy' := (heval.keeps.trans hn.keeps).exists_busy hy hbusy
      exact ih (hn.network heval.network) hbusy'
        (hP.alike (hP.evaluated h heval hx hlook) (.notices hn))
  | bound _ _ _ ih => exact ih hw trivial h
  | agreed _ _ _ _ ih => exact ih hw trivial h
  | handedBack _ _ run _ _ _ ih ihSource =>
      obtain ⟨hnet, -⟩ := run.keeps hw trivial
      exact ihSource hnet trivial (ih hw trivial h)
  | unreturned _ _ _ _ _ ih => exact ih hw trivial h
  | sourceless => exact h
  | sourceInFlight _ _ _ hn => exact hP.alike h (.notices hn)
  | returned _ _ _ hn _ _ ih => exact ih (hn.network hw) trivial (hP.alike h (.notices hn))
  | normalised _ _ _ hn run _ _ ih ihTarget =>
      obtain ⟨hnet, -⟩ := run.keeps (hn.network hw) trivial
      exact ihTarget hnet trivial (ih (hn.network hw) trivial (hP.alike h (.notices hn)))
  | unchanged => exact h
  | @changed o attr v w _ _ _ ih =>
      exact ih (hw.write _ _ _) trivial
        (hP.same h (Keeps.write _ _ _ _).samePlans (w.lastEvaluation?_write o attr v))

end Durable

/-! ## Bindings that are called in turn -/

/-- The subscriptions of a binding are the same. -/
def SameEntries (w w' : World) (b : Nat) : Prop :=
  ∀ role, w'.ledger role b = w.ledger role b

/-- A binding has a registered observer in the list. -/
def Awaits (w : World) (o : Handle) (observers : List Observer) (b : Nat) : Prop :=
  ∃ obs ∈ observers, obs ∈ w.observers o ∧ ∃ role : Role, obs.callback = role.callback b

/-- Every binding is up to date, or allowed not to be and left alone. -/
def Settles (good : World → Nat → Prop) (stale : Nat → Prop) (w w' : World) : Prop :=
  ∀ b, good w' b ∨ (stale b ∧ SameEntries w w' b)

/-- An observer stays registered as long as the subscriptions of its binding stay. -/
theorem Awaits.of_entries {o : Handle} {observers : List Observer} {b : Nat}
    (h : Awaits w o observers b) (hw : Network w) (hw' : Network w')
    (halive : ∀ o, w'.isAlive o = w.isAlive o) (hentries : SameEntries w w' b) :
    Awaits w' o observers b := by
  obtain ⟨obs, hmem, hobs, role, hcall⟩ := h
  obtain ⟨e, he, hobject, hid, hattr⟩ := hw.wired.heard o obs hobs role b hcall
  have hlive : w'.isAlive e.1.object = true := by
    rw [halive, isAlive, w.object?_congr hobject]
    exact w.isAlive_of_mem_observers hobs
  obtain ⟨obs', hobs', hid', hattr', hcall'⟩ := hw'.wired.kept role b e (hentries role ▸ he) hlive
  have hsame : obs' = obs := by
    cases obs
    cases obs'
    simp_all
  rw [w'.observers_congr hobject, hsame] at hobs'
  exact ⟨obs, hmem, hobs', role, hcall⟩

namespace Awaits

variable {o : Handle} {obs : Observer} {rest : List Observer} {b : Nat}

/-- The binding of an observer that is no longer registered waits for another one. -/
theorem of_dropped (h : Awaits w o (obs :: rest) b) (hgone : obs ∉ w.observers o) :
    Awaits w o rest b := by
  obtain ⟨obs', hmem, hobs, hcall⟩ := h
  rcases List.mem_cons.mp hmem with rfl | hmem
  · exact (hgone hobs).elim
  · exact ⟨obs', hmem, hobs, hcall⟩

/-- So does every binding but the one whose turn it is. -/
theorem tail (h : Awaits w o (obs :: rest) b) {role : Role} {c : Nat}
    (hcall : obs.callback = role.callback c) (hb : b ≠ c) : Awaits w o rest b := by
  obtain ⟨obs', hmem, hobs, r, hcall'⟩ := h
  rcases List.mem_cons.mp hmem with rfl | hmem
  · exact (hb (Role.callback_inj (hcall'.symm.trans hcall)).2).elim
  · exact ⟨obs', hmem, hobs, r, hcall'⟩

theorem beginFlight {c : Change} {observers : List Observer} (h : Awaits w o observers b) :
    Awaits (w.beginFlight c) o observers b := by
  obtain ⟨obs, hmem, hobs, hcall⟩ := h
  exact ⟨obs, hmem, by rwa [observers_beginFlight], hcall⟩

theorem not_nil (h : Awaits w o [] b) : False := by
  obtain ⟨obs, hmem, -⟩ := h
  exact List.not_mem_nil hmem

end Awaits

namespace Settles

variable {good : World → Nat → Prop} {stale : Nat → Prop}

theorem refl (h : ∀ b, good w b ∨ stale b) : Settles good stale w w :=
  fun b => (h b).imp_right fun hstale => ⟨hstale, fun _ => rfl⟩

theorem of_ledger (h : Settles good stale w' w'') (hledger : w'.ledger = w.ledger) :
    Settles good stale w w'' := by
  intro b
  refine (h b).imp_right fun hstale => ⟨hstale.1, fun role => ?_⟩
  rw [hstale.2 role, hledger]

theorem imp (h : Settles good stale w w') (hgood : ∀ b, good w' b → good w'' b)
    (hledger : w''.ledger = w'.ledger) : Settles good stale w w'' := by
  intro b
  refine (h b).imp (hgood b) fun hstale => ⟨hstale.1, fun role => ?_⟩
  rw [hledger]
  exact hstale.2 role

/-- When one observer has been called, a binding is up to date, was left alone, or is in the rest of
the list. -/
theorem start (hw : Network w) (hw' : Network w') (halive : ∀ o, w'.isAlive o = w.isAlive o)
    {o : Handle} {rest : List Observer}
    (first : Settles good (fun b => stale b ∨ Awaits w o rest b) w w') (b : Nat) :
    good w' b ∨ (stale b ∧ SameEntries w w' b) ∨ Awaits w' o rest b := by
  rcases first b with hgood | ⟨hstale | hawaits, hentries⟩
  · exact .inl hgood
  · exact .inr (.inl ⟨hstale, hentries⟩)
  · exact .inr (.inr (hawaits.of_entries hw hw' halive hentries))

/-- So what the rest of the list is allowed to leave alone was left alone all along. -/
theorem called (next : Settles good (fun b => stale b ∧ SameEntries w w' b) w' w'') :
    Settles good stale w w'' := by
  intro b
  refine (next b).imp_right fun hstale => ⟨hstale.1.1, fun role => ?_⟩
  rw [hstale.2 role, hstale.1.2 role]

/-- After its evaluation a binding need not be allowed to be out of date. -/
theorem evaluated {b : Nat} {result : Except EvalError Value} {reads : List (Handle × String)}
    (heval : Evaluated w b result reads w')
    (next : Settles good (fun c => stale c ∧ c ≠ b) w' w'') : Settles good stale w w'' := by
  intro c
  refine (next c).imp_right fun ⟨⟨hstale, hc⟩, hentries⟩ => ⟨hstale, fun role => ?_⟩
  rw [hentries role, heval.ledger role c fun heq => hc heq.2]

end Settles

end LiveUI.World
