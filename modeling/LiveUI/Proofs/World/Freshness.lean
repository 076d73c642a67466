import Mathlib.Order.Basic
import LiveUI.Proofs.World.Settling

/-! # Fresh binds

Where some rank of attributes makes everything that a bind reads lower than its target, no bind is
reached again while it is at work or its target is being announced. So each one that has read a
changed attribute is evaluated after the change. -/

namespace LiveUI

namespace World

variable {α : Type} [Preorder α] {rank : Nat → String → α} {w w' : World}

/-- Whatever a binding in service has read in an evaluation ranks below its target. -/
def Ranked (rank : Nat → String → α) (w : World) : Prop :=
  ∀ b x, w.binding? b = some x → x.inService = true →
    ∀ result reads, .evaluated b result reads ∈ w.journal →
      ∀ p ∈ reads, rank p.1.id p.2 < rank x.target.id x.attr

/-- Whatever is at work or being announced ranks at most as high as `top`. -/
structure Below (rank : Nat → String → α) (w : World) (top : α) : Prop where
  busy : ∀ b x, w.binding? b = some x → x.busy = true → rank x.target.id x.attr ≤ top
  flight : ∀ o attr, w.isInFlight o attr = true → rank o.id attr ≤ top

theorem Ranked.of_journal (h : Ranked rank w') (hjournal : w.journal <:+ w'.journal)
    (hbinding : ∀ b x, w.binding? b = some x → x.inService = true →
      ∃ x', w'.binding? b = some x' ∧ x'.SamePlan x ∧ x'.inService = true) : Ranked rank w := by
  intro b x hx hservice result reads hentry p hp
  obtain ⟨x', hx', hplan, hservice'⟩ := hbinding b x hx hservice
  have hlt := h b x' hx' hservice' result reads (hjournal.subset hentry) p hp
  rwa [hplan.target, hplan.attr] at hlt

theorem Ranked.of_keeps (h : Ranked rank w') (hkeeps : Keeps w w') : Ranked rank w := by
  refine h.of_journal hkeeps.journal fun b x hx hservice => ?_
  obtain ⟨x', hx', hcore⟩ := hkeeps.exists_core hx
  exact ⟨x', hx', .of_core hcore, (Binding.inService_of_core hcore).trans hservice⟩

theorem Ranked.of_setBusy {b : Nat} {x : Binding} {busy : Bool}
    (h : Ranked rank (w.setBusy b busy)) (hx : w.binding? b = some x) (howned : x.owned = true) :
    Ranked rank w := by
  refine h.of_journal (List.suffix_refl _) fun c y hy hservice => ?_
  by_cases hc : b = c
  · subst hc
    obtain rfl := Option.some.inj (hx.symm.trans hy)
    exact ⟨_, binding?_setBusy hx busy, ⟨rfl, rfl, rfl, rfl, rfl, rfl⟩, by
      simp [Binding.inService, howned]⟩
  · refine ⟨y, ?_, .refl y, hservice⟩
    rw [setBusy, binding?_modifyBinding w b c (f := fun x => { x with busy }) fun _ => rfl,
      if_neg hc, hy]

theorem Ranked.lt_of_lastReads (h : Ranked rank w) {b : Nat} {x : Binding}
    (hx : w.binding? b = some x) (hservice : x.inService = true) {p : Handle × String}
    (hp : p ∈ w.lastReads b) : rank p.1.id p.2 < rank x.target.id x.attr := by
  cases hlast : w.lastEvaluation? b with
  | none => simp [lastReads, hlast] at hp
  | some evaluation =>
      obtain ⟨result, reads⟩ := evaluation
      simp only [lastReads, hlast, Option.elim] at hp
      exact h b x hx hservice result reads (evaluated_mem hlast) p hp

namespace Below

variable {top : α}

theorem mono {top' : α} (h : Below rank w top) (hle : top ≤ top') : Below rank w top' :=
  ⟨fun b x hx hbusy => (h.busy b x hx hbusy).trans hle,
    fun o attr hflight => (h.flight o attr hflight).trans hle⟩

theorem keeps (h : Below rank w top) (hkeeps : Keeps w w') : Below rank w' top := by
  refine ⟨fun b x' hx' hbusy => ?_, fun o attr hflight => ?_⟩
  · obtain ⟨x, hx, hcore⟩ := hkeeps.exists_binding? hx'
    have hplan := Binding.SamePlan.of_core hcore
    rw [hplan.target, hplan.attr]
    exact h.busy b x hx ((congrArg (·.busy) hcore).symm.trans hbusy)
  · rw [hkeeps.isInFlight] at hflight
    exact h.flight o attr hflight

theorem beginFlight (h : Below rank w top) {c : Change} (hc : rank c.object.id c.attr ≤ top) :
    Below rank (w.beginFlight c) top := by
  refine ⟨h.busy, fun o attr hflight => ?_⟩
  rcases isInFlight_beginFlight w hflight with ⟨hid, rfl⟩ | hflight
  · rwa [hid]
  · exact h.flight o attr hflight

theorem setBusy (h : Below rank w top) {b : Nat} {x : Binding} (hx : w.binding? b = some x)
    (hle : rank x.target.id x.attr ≤ top) : Below rank (w.setBusy b true) top := by
  refine ⟨fun c y hy hbusy => ?_, h.flight⟩
  by_cases hc : b = c
  · subst hc
    rw [binding?_setBusy hx] at hy
    obtain rfl := Option.some.inj hy
    exact hle
  · rw [World.setBusy, binding?_modifyBinding w b c (f := fun x => { x with busy := true })
      fun _ => rfl, if_neg hc] at hy
    exact h.busy c y hy hbusy

end Below

/-! ## Fresh bindings -/

/-- All bindings in service are binds. -/
def Binds (w : World) : Prop :=
  ∀ b x, w.binding? b = some x → x.inService = true → x.kind = .bind

theorem Binds.samePlans (h : Binds w) (hplans : SamePlans w w') : Binds w' := by
  intro b x' hx' hservice
  obtain ⟨x, hx, hplan, heq⟩ := hplans b x' hx'
  exact hplan.kind.trans (h b x hx (heq.symm.trans hservice))

theorem Binds.not_delegate (h : Binds w) {b : Nat} {x : Binding}
    (hbusy : ∃ x, w.binding? b = some x ∧ x.busy = true) (hx : w.binding? b = some x)
    (hkind : x.kind = .delegate) : False := by
  obtain ⟨y, hy, hbusy⟩ := hbusy
  obtain rfl := Option.some.inj (hx.symm.trans hy)
  have hbind := h b x hx (Binding.inService_of_busy hbusy)
  simp [hkind] at hbind

/-- The last evaluation of a binding in service is what an evaluation would come to now. -/
def Fresh (w : World) (b : Nat) : Prop :=
  ∀ x, w.binding? b = some x → x.inService = true → w.lastEvaluation? b = some (x.look w)

/-- A binding is as fresh as before when its last evaluation is the same and the attributes that it
read then are. -/
theorem Fresh.of_reads {b : Nat} (h : Fresh w b) (hw : Network w) (hplan : SamePlanAt w w' b)
    (hlast : w'.lastEvaluation? b = w.lastEvaluation? b)
    (hreads : ∀ p ∈ w.lastReads b, w'.attr? p.1 p.2 = w.attr? p.1 p.2) : Fresh w' b := by
  intro x' hx' hservice'
  obtain ⟨x, hx, hplan, hservice⟩ := hplan x' hx'
  rw [hservice'] at hservice
  have hfresh := h x hx hservice.symm
  have hfree := (hw.inUse x (w.mem_of_binding? hx) hservice.symm).hostFree
  have hlook : x.look w' = x.look w := by
    refine hfree.look_congr fun p hp => hreads p ?_
    rw [lastReads, hfresh]
    exact hp
  rw [hlast, hfresh, hplan.look, hlook]

theorem Fresh.alike {b : Nat} (h : Fresh w b) (hw : Network w) (halike : Alike w w') : Fresh w' b :=
  h.of_reads hw (halike.plans b) (halike.lastEvaluation? b) fun p _ => halike.attr? p.1 p.2

/-- A write leaves everyone fresh who does not hear of it. -/
theorem Fresh.write {b : Nat} (h : Fresh w b) (hw : Network w) (o : Handle) (attr : String)
    (v : Value) : Fresh (w.write o attr v) b ∨
      Awaits (w.write o attr v) o ((w.write o attr v).observersOf o attr) b := by
  by_cases hhears : ∃ x, w.binding? b = some x ∧ x.inService = true ∧
      ∃ p ∈ w.lastReads b, (o.id = p.1.id ∧ attr = p.2) ∧ w.isAlive o = true
  · obtain ⟨x, hx, hservice, p, hp, ⟨hid, rfl⟩, halive⟩ := hhears
    rw [isAlive, w.object?_congr hid] at halive
    obtain ⟨obs, hobs, hattr, hcall⟩ := hw.exists_observer hx hservice hp halive
    have hwritten : obs ∈ (w.write o p.2 v).observers o := by
      rwa [observers_write, w.observers_congr hid]
    exact .inr ⟨obs, mem_observersOf.mpr ⟨hwritten, hattr⟩, hwritten, .source, hcall⟩
  · left
    intro x hx hservice
    have hsame : ∀ p ∈ w.lastReads b, (w.write o attr v).attr? p.1 p.2 = w.attr? p.1 p.2 := by
      intro p hp
      by_cases hp' : o.id = p.1.id ∧ attr = p.2
      · refine w.attr?_write_of_dead attr v ?_ p.1 p.2
        by_contra halive
        exact hhears ⟨x, hx, hservice, p, hp, hp', by simpa using halive⟩
      · exact w.attr?_write_of_ne v hp'
    exact h.of_reads hw ((Keeps.write w o attr v).samePlans b) (w.lastEvaluation?_write o attr v b)
      hsame x hx hservice

namespace Evaluated

variable {b : Nat} {x : Binding} {result : Except EvalError Value} {reads : List (Handle × String)}

/-- A binding is fresh right after its evaluation. -/
theorem fresh (h : Evaluated w b result reads w') (hw : Network w) (hx : w.binding? b = some x)
    (hlook : x.look w = (result, reads)) : Fresh w' b := by
  intro x' hx' hservice
  obtain ⟨y, hy, hplan, hservice'⟩ := h.keeps.samePlans b x' hx'
  obtain rfl := Option.some.inj (hx.symm.trans hy)
  have hfree := (hw.inUse x (w.mem_of_binding? hx) (hservice'.symm.trans hservice)).hostFree
  have hsame : x.look w' = x.look w := hfree.look_congr fun p _ => h.attr? p.1 p.2
  rw [h.lastEvaluation?, if_pos rfl, hplan.look, hsame, hlook]

/-- The others are not affected. -/
theorem fresh_other (h : Evaluated w b result reads w') (hw : Network w) {c : Nat} (hc : c ≠ b)
    (hfresh : Fresh w c) : Fresh w' c := by
  refine hfresh.of_reads hw (h.keeps.samePlans c) ?_ fun p _ => h.attr? p.1 p.2
  rw [h.lastEvaluation?, if_neg (Ne.symm hc)]

/-- Nobody has become stale by it. -/
theorem fresh_or_stale {stale : Nat → Prop} (h : Evaluated w b result reads w') (hw : Network w)
    (hx : w.binding? b = some x) (hlook : x.look w = (result, reads))
    (hothers : ∀ c, c ≠ b → Fresh w c ∨ stale c) (c : Nat) : Fresh w' c ∨ (stale c ∧ c ≠ b) := by
  by_cases hc : c = b
  · subst hc
    exact .inl (h.fresh hw hx hlook)
  · exact (hothers c hc).imp (h.fresh_other hw hc) fun hstale => ⟨hstale, hc⟩

end Evaluated

end World

open World

/-- Where a piece of propagation may begin: what is under way ranks no higher than the attribute
that is written, and whoever is neither fresh nor allowed to be stale will be called. -/
def Work.Entered {α : Type} [Preorder α] (rank : Nat → String → α) (stale : Nat → Prop)
    (w : World) : Work → Prop
  | .announce c => Below rank w (rank c.object.id c.attr) ∧
      ∀ b, Fresh w b ∨ stale b ∨ Awaits w c.object (w.observersOf c.object c.attr) b
  | .deliver c observers => Below rank w (rank c.object.id c.attr) ∧
      (∀ obs ∈ observers, obs.attr = c.attr) ∧
      ∀ b, Fresh w b ∨ stale b ∨ Awaits w c.object observers b
  | .react c _ b => Below rank w (rank c.object.id c.attr) ∧
      (∃ p ∈ w.lastReads b, p.1.id = c.object.id ∧ p.2 = c.attr) ∧
      ∀ b', b' ≠ b → Fresh w b' ∨ stale b'
  | .refresh b _ => (∀ x, w.binding? b = some x → Below rank w (rank x.target.id x.attr)) ∧
      ∀ b', b' ≠ b → Fresh w b' ∨ stale b'
  | .store b _ _ => (∀ x, w.binding? b = some x → Below rank w (rank x.target.id x.attr)) ∧
      ∀ b', Fresh w b' ∨ stale b'
  | .writeBack _ _ _ => False
  | .set o attr _ => Below rank w (rank o.id attr) ∧ ∀ b, Fresh w b ∨ stale b

/-- The evaluation of a bind that fails reaches nobody. -/
theorem Runs.settles_failed {b : Nat} {e : EvalError} {w w' : World}
    (run : Runs (.refresh b (.error e)) w w') (hw : Network w)
    (hready : (Work.refresh b (.error e)).Ready w) (hbinds : Binds w) {stale : Nat → Prop}
    (h : ∀ c, c ≠ b → Fresh w c ∨ stale c) : Settles Fresh stale w w' := by
  obtain ⟨y, hy, hbusy⟩ := hready
  have hservice := Binding.inService_of_busy hbusy
  cases run with
  | failed hx hlook hsub hn =>
      obtain rfl := Option.some.inj (hx.symm.trans hy)
      have heval := (hw.evaluated hx hservice _ _).result hsub
      have halike := Alike.notices hn
      refine Settles.evaluated heval ?_
      exact (Settles.refl (heval.fresh_or_stale hw hx hlook h)).imp
        (fun c hfresh => hfresh.alike heval.network halike) halike.ledger
  | evaluated hx hlook hsub hn run =>
      obtain rfl := Option.some.inj (hx.symm.trans hy)
      have heval := (hw.evaluated hx hservice _ _).result hsub
      have hkeeps := heval.keeps.trans hn.keeps
      have hbinds' := hbinds.samePlans hkeeps.samePlans
      cases run with
      | unreturned hx' hkind =>
          exact (hbinds'.not_delegate (hkeeps.exists_busy hx hbusy) hx' hkind).elim

section Pieces

variable {α : Type} [Preorder α] {rank : Nat → String → α} {stale : Nat → Prop} {b : Nat}
  {x : Binding} {o : Handle} {attr : String} {v : Value} {c : Change} {obs : Observer}
  {rest : List Observer} {role : Role} {result : Except EvalError Unit} {w w₁ : World}

/-- Who has read the attribute hears of it as soon as it is written. -/
theorem Work.Entered.announce (h : (Work.set o attr v).Entered rank stale w) (hw : Network w) :
    (Work.announce ⟨o, attr, w.stored o attr, v⟩).Entered rank stale (w.write o attr v) := by
  obtain ⟨hbelow, hall⟩ := h
  refine ⟨hbelow.keeps (Keeps.write w o attr v), fun b => ?_⟩
  rcases hall b with hfresh | hstale
  · exact (hfresh.write hw o attr v).imp_right .inr
  · exact .inr (.inl hstale)

theorem Work.Entered.deliver (h : (Work.announce c).Entered rank stale w) (hw : Network w) :
    (Work.deliver c (w.observersOf c.object c.attr)).Entered rank stale (w.beginFlight c) := by
  obtain ⟨hbelow, hawaits⟩ := h
  exact ⟨hbelow.beginFlight (le_refl _), fun obs hobs => (mem_observersOf.mp hobs).2, fun b =>
    (hawaits b).imp (fun hfresh => hfresh.alike hw (.beginFlight w c))
      (Or.imp_right Awaits.beginFlight)⟩

theorem Work.Entered.dropped (h : (Work.deliver c (obs :: rest)).Entered rank stale w)
    (hgone : obs ∉ w.observers c.object) : (Work.deliver c rest).Entered rank stale w := by
  obtain ⟨hbelow, hattr, hawaits⟩ := h
  exact ⟨hbelow, fun obs hobs => hattr obs (List.mem_cons_of_mem _ hobs), fun b =>
    (hawaits b).imp_right (Or.imp_right fun hawaits => hawaits.of_dropped hgone)⟩

/-- The bind that is called has read the attribute, and those behind it wait until it is done. -/
theorem Work.Entered.react (h : (Work.deliver c (obs :: rest)).Entered rank stale w) (hw : Network w)
    (hbinds : Binds w) (hobs : obs ∈ w.observers c.object) (hcall : obs.callback = role.callback b) :
    (Work.react c role b).Entered rank
      (fun d => stale d ∨ Awaits (w.log (.called c obs.id)) c.object rest d)
      (w.log (.called c obs.id)) := by
  obtain ⟨hbelow, hattr, hawaits⟩ := h
  have halike : Alike w (w.log (.called c obs.id)) := .log w fun _ => rfl
  refine ⟨hbelow.keeps (Keeps.log w _), ?_, fun d hd => ?_⟩
  · cases role with
    | target =>
        obtain ⟨x, hx, hkind, howned, -⟩ := hw.exists_target hobs hcall
        have hbind := hbinds b x hx (by simp [Binding.inService, howned])
        simp [hkind] at hbind
    | source =>
        obtain ⟨-, -, -, p, hp, hid, hpattr⟩ := hw.exists_read hobs hcall
        refine ⟨p, ?_, hid, hpattr.trans (hattr obs List.mem_cons_self)⟩
        rwa [lastReads_congr halike.lastEvaluation?]
  · refine (hawaits d).imp (fun hfresh => hfresh.alike hw halike) (Or.imp_right ?_)
    exact fun hawaits => hawaits.tail hcall hd

/-- The others are told when the first one is done. -/
theorem Work.Entered.others (h : (Work.deliver c (obs :: rest)).Entered rank stale w)
    (hlogged : Network (w.log (.called c obs.id))) (hw₁ : Network w₁)
    (hkeeps : Keeps (w.log (.called c obs.id)) w₁)
    (first : Settles Fresh (fun d => stale d ∨ Awaits (w.log (.called c obs.id)) c.object rest d)
      (w.log (.called c obs.id)) w₁) :
    (Work.deliver c rest).Entered rank
      (fun d => stale d ∧ SameEntries (w.log (.called c obs.id)) w₁ d) w₁ := by
  obtain ⟨hbelow, hattr, -⟩ := h
  exact ⟨(hbelow.keeps (Keeps.log w _)).keeps hkeeps,
    fun obs' hobs' => hattr obs' (List.mem_cons_of_mem _ hobs'),
    first.start hlogged hw₁ hkeeps.isAlive⟩

/-- The target of a bind ranks above what it has read. -/
theorem Work.Entered.lt_target (h : (Work.react c role b).Entered rank stale w)
    (hranked : Ranked rank w) (hx : w.binding? b = some x) (hservice : x.inService = true) :
    rank c.object.id c.attr < rank x.target.id x.attr := by
  obtain ⟨-, ⟨p, hp, hid, hattr⟩, -⟩ := h
  have hlt := hranked.lt_of_lastReads hx hservice hp
  rwa [hid, hattr] at hlt

theorem Work.Entered.refresh (h : (Work.react c .source b).Entered rank stale w) (hw : Network w)
    (hx : w.binding? b = some x) (hn : Notices w w₁)
    (hlt : rank c.object.id c.attr < rank x.target.id x.attr)
    (halike : Alike w (w₁.setBusy b true)) :
    (Work.refresh b result).Entered rank stale (w₁.setBusy b true) := by
  obtain ⟨hbelow, -, hothers⟩ := h
  have hx₁ : w₁.binding? b = some x := (hn.binding? b).trans hx
  refine ⟨fun z hz => ?_, fun d hd => (hothers d hd).imp_left fun hfresh => hfresh.alike hw halike⟩
  obtain rfl := Option.some.inj ((binding?_setBusy hx₁ true).symm.trans hz)
  exact ((hbelow.keeps hn.keeps).mono (le_of_lt hlt)).setBusy hx₁ (le_refl _)

end Pieces

/-- Propagation reaches whoever has read what was written. -/
theorem Runs.settles {α : Type} [Preorder α] {rank : Nat → String → α} {k : Work} {w w' : World}
    (run : Runs k w w') (hw : Network w) (hready : k.Ready w) (hbinds : Binds w)
    (hranked : Ranked rank w') {stale : Nat → Prop} (h : k.Entered rank stale w) :
    Settles Fresh stale w w' := by
  induction run generalizing stale with
  | unheard hnone =>
      refine Settles.refl fun b => (h.2 b).imp_right fun hlate => hlate.resolve_right fun hawaits => ?_
      rw [hnone] at hawaits
      exact hawaits.not_nil
  | @heard c w w' hsome run ih =>
      have halike := Alike.beginFlight w c
      have hbegun := hw.beginFlight c
      obtain ⟨hnet, -⟩ := run.keeps hbegun trivial
      have hranked' : Ranked rank w' := hranked.of_journal (List.suffix_cons _ _)
        fun b x hx hservice => ⟨x, hx, .refl x, hservice⟩
      have hsettles := ih hbegun trivial (hbinds.samePlans halike.plans) hranked' (h.deliver hw)
      have halike' := Alike.endFlight w' c
      exact (hsettles.of_ledger halike.ledger).imp (fun b hfresh => hfresh.alike hnet halike')
        halike'.ledger
  | delivered =>
      exact Settles.refl fun b => (h.2.2 b).imp_right fun hlate =>
        hlate.resolve_right Awaits.not_nil
  | dropped hgone _ ih => exact ih hw trivial hbinds hranked (h.dropped hgone)
  | @called c obs rest w w₁ w' role b hobs hcall run runRest ih ihRest =>
      have halike : Alike w (w.log (.called c obs.id)) := .log w fun _ => rfl
      have hlogged : Network (w.log (.called c obs.id)) := hw.log fun _ => rfl
      have hready := hw.ready hobs hcall
      obtain ⟨hnet, hkeeps⟩ := run.keeps hlogged hready
      obtain ⟨-, hkeepsRest⟩ := runRest.keeps hnet trivial
      have hbinds' := hbinds.samePlans halike.plans
      have first := ih hlogged hready hbinds' (hranked.of_keeps hkeepsRest)
        (h.react hw hbinds hobs hcall)
      have hrest := ihRest hnet trivial (hbinds'.samePlans hkeeps.samePlans) hranked
        (h.others hlogged hnet hkeeps first)
      exact Settles.of_ledger (Settles.called hrest) halike.ledger
  | @skipped c role b x w w' hx hskips hn =>
      -- What has read the attribute ranks above it, so it is neither at work nor being announced.
      obtain ⟨hservice, -⟩ := of_binding? hx hready
      have hlt := h.lt_target (hranked.of_keeps hn.keeps) hx hservice
      cases hskips with
      | atWork hbusy => exact (not_le_of_gt hlt (h.1.busy b x hx hbusy)).elim
      | targetInFlight hflight => exact (not_le_of_gt hlt (h.1.flight _ _ hflight)).elim
  | @refreshed c b x result w w₁ w₂ w' hx hbusy hflight hn run hn' ih =>
      obtain ⟨hservice, -⟩ := of_binding? hx hready
      have hwork := hw.working hx hservice hbusy hn run hn' id
      have hx₁ : w₁.binding? b = some x := (hn.binding? b).trans hx
      have howned := Binding.owned_of_idle hservice hbusy
      obtain ⟨x₂, hx₂, hcore⟩ := hwork.keeps.exists_core hwork.binding?
      have hranked₂ : Ranked rank w₂ :=
        (hranked.of_keeps hn'.keeps).of_setBusy hx₂ ((congrArg (·.owned) hcore).trans howned)
      have hranked₁ : Ranked rank w₁ := (hranked₂.of_keeps hwork.keeps).of_setBusy hx₁ howned
      have hlt := h.lt_target (hranked₁.of_keeps hn.keeps) hx hservice
      have hsettles := ih hwork.start ⟨_, hwork.binding?, rfl⟩ (hbinds.samePlans hwork.before.plans)
        hranked₂ (h.refresh hw hx hn hlt hwork.before)
      exact (hsettles.of_ledger hwork.before.ledger).imp
        (fun d hfresh => hfresh.alike hwork.stop hwork.after) hwork.after.ledger
  | answered hx hbusy _ hn ih =>
      obtain ⟨x, hx, hservice, hkind⟩ := hready
      have hbind := hbinds _ x hx hservice
      simp [hkind rfl] at hbind
  | failed hx hlook hsub hn =>
      exact (Runs.failed hx hlook hsub hn).settles_failed hw hready hbinds h.2
  | @evaluated b x v reads result w w₁ w₂ w' hx hlook hsub hn run ih =>
      have hbusy := of_binding? hx hready
      have heval := (hw.evaluated hx (Binding.inService_of_busy hbusy) _ _).result hsub
      have halike := Alike.notices hn
      have hkeeps := heval.keeps.trans hn.keeps
      refine Settles.evaluated heval (Settles.of_ledger ?_ halike.ledger)
      refine ih (hn.network heval.network) (hkeeps.exists_busy hx hbusy)
        (hbinds.samePlans hkeeps.samePlans) hranked ⟨fun y hy => ?_, fun c => ?_⟩
      · obtain ⟨z, hz, hcore⟩ := hkeeps.exists_binding? hy
        obtain rfl := Option.some.inj (hx.symm.trans hz)
        have hplan := Binding.SamePlan.of_core hcore
        rw [hplan.target, hplan.attr]
        exact (h.1 x hx).keeps hkeeps
      · exact (heval.fresh_or_stale hw hx hlook h.2 c).imp_left fun hfresh =>
          hfresh.alike heval.network halike
  | bound hx _ _ ih => exact ih hw trivial hbinds hranked ⟨h.1 _ hx, h.2⟩
  | agreed hx hkind => exact (hbinds.not_delegate hready hx hkind).elim
  | handedBack hx hkind => exact (hbinds.not_delegate hready hx hkind).elim
  | unreturned hx hkind => exact (hbinds.not_delegate hready hx hkind).elim
  | sourceless => exact h.elim
  | sourceInFlight => exact h.elim
  | returned => exact h.elim
  | normalised => exact h.elim
  | unchanged => exact .refl h.2
  | @changed o attr v w w' hne run ih =>
      have hentered : (Work.set o attr v).Entered rank stale w := h
      exact Settles.of_ledger (ih (hw.write o attr v) trivial
        (hbinds.samePlans (Keeps.write w o attr v).samePlans) hranked (hentered.announce hw))
        (w.ledger_write o attr v)

end LiveUI
