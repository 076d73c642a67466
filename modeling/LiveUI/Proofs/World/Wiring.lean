import LiveUI.Proofs.World.Keeping
import LiveUI.Proofs.World.Step

/-! # Observers and the bindings behind them

A binding hears of changes through observers: of the attributes that its last evaluation read, and
of its own target. A ledger says which subscriptions each binding holds, and of which attribute.
A world is wired by a ledger when its observers and the entries of the ledger are the same. -/

namespace LiveUI

/-- What a binding hears of through an observer. -/
inductive Role where
  | source | target
deriving DecidableEq

def Role.callback : Role → Nat → Callback
  | source, b => .source b
  | target, b => .target b

theorem Role.callback_inj {r r' : Role} {b b' : Nat} (h : r.callback b = r'.callback b') :
    r = r' ∧ b = b' := by
  cases r <;> cases r' <;> simp_all [callback]

/-- The subscriptions of each binding in each role, each with the attribute that it is for. -/
abbrev Ledger := Role → Nat → List (Subscription × String)

namespace Ledger

/-- The ledger with other entries for one binding in one role. -/
def put (L : Ledger) (role : Role) (b : Nat) (entries : List (Subscription × String)) : Ledger :=
  fun r c => if r = role ∧ c = b then entries else L r c

@[simp] theorem put_self (L : Ledger) (role : Role) (b : Nat)
    (entries : List (Subscription × String)) : L.put role b entries role b = entries := by
  simp [put]

theorem put_of_ne (L : Ledger) {role r : Role} {b c : Nat} (h : ¬(r = role ∧ c = b))
    (entries : List (Subscription × String)) : L.put role b entries r c = L r c := by
  simp [put, h]

theorem put_eq_self {L : Ledger} {role : Role} {b : Nat} {entries : List (Subscription × String)}
    (h : L role b = entries) : L.put role b entries = L := by
  funext r c
  by_cases hrc : r = role ∧ c = b
  · obtain ⟨rfl, rfl⟩ := hrc
    rw [put_self, h]
  · rw [put_of_ne L hrc]

theorem put_put (L : Ledger) (role : Role) (b : Nat)
    (entries entries' : List (Subscription × String)) :
    (L.put role b entries).put role b entries' = L.put role b entries' := by
  funext r c
  by_cases h : r = role ∧ c = b
  · simp [put, h]
  · simp [put, h]

end Ledger

/-- Two subscriptions are to the same observer. -/
def Subscription.Same (s t : Subscription) : Prop :=
  s.object.id = t.object.id ∧ s.id = t.id

instance (s t : Subscription) : Decidable (s.Same t) :=
  inferInstanceAs (Decidable (_ ∧ _))

namespace World

variable {w w' : World} {L L' : Ledger}

structure WiredBy (w : World) (L : Ledger) : Prop where
  lt : ∀ o, ∀ obs ∈ w.observers o, obs.id < w.nextObserver o
  nodup : ∀ o, ((w.observers o).map (·.id)).Nodup
  /-- An observer that serves a binding is entered. -/
  heard : ∀ o, ∀ obs ∈ w.observers o, ∀ role b, obs.callback = role.callback b →
    ∃ e ∈ L role b, e.1.object.id = o.id ∧ e.1.id = obs.id ∧ e.2 = obs.attr
  /-- An entry has its observer, as long as the object is alive. -/
  kept : ∀ role b, ∀ e ∈ L role b, w.isAlive e.1.object →
    ∃ obs ∈ w.observers e.1.object,
      obs.id = e.1.id ∧ obs.attr = e.2 ∧ obs.callback = role.callback b

namespace WiredBy

theorem eq_of_id (h : WiredBy w L) {o : Handle} {obs obs' : Observer} (hobs : obs ∈ w.observers o)
    (hobs' : obs' ∈ w.observers o) (hid : obs.id = obs'.id) : obs = obs' :=
  List.inj_on_of_nodup_map (h.nodup o) hobs hobs' hid

theorem nodup_observersOf (h : WiredBy w L) (o : Handle) (attr : String) :
    (w.observersOf o attr).Nodup :=
  (List.Nodup.of_map _ (h.nodup o)).sublist (w.observersOf_sublist o attr)

/-- Two entries for one observer are entries of one binding. -/
theorem owner (h : WiredBy w L) {r r' : Role} {b b' : Nat} {e e' : Subscription × String}
    (he : e ∈ L r b) (he' : e' ∈ L r' b') (halive : w.isAlive e.1.object = true)
    (hsame : e.1.Same e'.1) : r = r' ∧ b = b' := by
  have halive' : w.isAlive e'.1.object := by
    rwa [isAlive, ← w.object?_congr hsame.1]
  obtain ⟨obs, hobs, hid, -, hcall⟩ := h.kept r b e he halive
  obtain ⟨obs', hobs', hid', -, hcall'⟩ := h.kept r' b' e' he' halive'
  rw [← w.observers_congr hsame.1] at hobs'
  obtain rfl := h.eq_of_id hobs hobs' (hid.trans (hsame.2.trans hid'.symm))
  exact Role.callback_inj (hcall.symm.trans hcall')

/-- Only the observers matter, and which objects are alive. -/
theorem of_observers_eq (h : WiredBy w L) (hobs : ∀ o, w'.observers o = w.observers o)
    (hnext : ∀ o, w'.nextObserver o = w.nextObserver o)
    (halive : ∀ o, w'.isAlive o = w.isAlive o) : WiredBy w' L := by
  refine ⟨?_, ?_, ?_, ?_⟩
  · intro o obs
    rw [hobs, hnext]
    exact h.lt o obs
  · intro o
    rw [hobs]
    exact h.nodup o
  · intro o obs
    rw [hobs]
    exact h.heard o obs
  · intro role b e he
    rw [halive, hobs]
    exact h.kept role b e he

/-- Entries for objects that are gone do not matter. -/
theorem of_ledger_iff (h : WiredBy w L)
    (hiff : ∀ role b e, w.isAlive e.1.object → (e ∈ L' role b ↔ e ∈ L role b)) :
    WiredBy w L' := by
  refine ⟨h.lt, h.nodup, ?_, ?_⟩
  · intro o obs hobs role b hcall
    obtain ⟨e, he, hid, hrest⟩ := h.heard o obs hobs role b hcall
    have halive : w.isAlive e.1.object := by
      have ho := w.isAlive_of_mem_observers hobs
      rwa [isAlive, ← w.object?_congr hid] at ho
    exact ⟨e, (hiff role b e halive).mpr he, hid, hrest⟩
  · intro role b e he halive
    exact h.kept role b e ((hiff role b e halive).mp he) halive

theorem observe (h : WiredBy w L) (o : Handle) (attr : String) (role : Role) (b : Nat) :
    WiredBy (w.observe o attr (role.callback b)).2
      (L.put role b (L role b ++ [(⟨o, w.nextObserver o⟩, attr)])) := by
  have hkeeps := Keeps.observe w o attr (role.callback b)
  refine ⟨?_, ?_, ?_, ?_⟩
  · intro p obs hobs
    exact lt_nextObserver_observe (h.lt p) hobs
  · intro p
    rw [observers_observe]
    split
    next hp =>
      rw [List.map_append, List.nodup_append]
      refine ⟨h.nodup p, by simp, ?_⟩
      intro i hi j hj
      obtain ⟨obs, hobs, rfl⟩ := List.mem_map.mp hi
      simp only [List.map_cons, List.map_nil, List.mem_singleton] at hj
      subst hj
      -- The new number is beyond all that the object has given out.
      have := h.lt p obs hobs
      rw [← w.nextObserver_congr hp.1] at this
      exact Nat.ne_of_lt this
    next => exact h.nodup p
  · intro p obs hobs r c hcall
    obtain hobs | ⟨hid, -, rfl⟩ := mem_observers_observe.mp hobs
    · obtain ⟨e, he, hrest⟩ := h.heard p obs hobs r c hcall
      refine ⟨e, ?_, hrest⟩
      by_cases hrc : r = role ∧ c = b
      · obtain ⟨rfl, rfl⟩ := hrc
        rw [Ledger.put_self]
        exact List.mem_append_left _ he
      · rwa [Ledger.put_of_ne L hrc]
    · obtain ⟨rfl, rfl⟩ := Role.callback_inj hcall
      refine ⟨(⟨o, w.nextObserver o⟩, attr), ?_, hid, rfl, rfl⟩
      rw [Ledger.put_self]
      exact List.mem_append_right _ List.mem_cons_self
  · intro r c e he halive
    rw [hkeeps.isAlive] at halive
    have hold : e ∈ L r c → ∃ obs ∈ (w.observe o attr (role.callback b)).2.observers e.1.object,
        obs.id = e.1.id ∧ obs.attr = e.2 ∧ obs.callback = r.callback c := by
      intro he
      obtain ⟨obs, hobs, hrest⟩ := h.kept r c e he halive
      exact ⟨obs, mem_observers_observe.mpr (.inl hobs), hrest⟩
    by_cases hrc : r = role ∧ c = b
    · obtain ⟨rfl, rfl⟩ := hrc
      rw [Ledger.put_self] at he
      rcases List.mem_append.mp he with he | he
      · exact hold he
      · obtain rfl := List.mem_singleton.mp he
        exact ⟨_, mem_observers_observe.mpr (.inr ⟨rfl, halive, rfl⟩), rfl, rfl, rfl⟩
    · rw [Ledger.put_of_ne L hrc] at he
      exact hold he

theorem unobserve (h : WiredBy w L) (s : Subscription) :
    WiredBy (w.unobserve s) fun r c => (L r c).filter fun e => ¬e.1.Same s := by
  have hkeeps := Keeps.unobserve w s
  refine ⟨?_, ?_, ?_, ?_⟩
  · intro o obs hobs
    rw [nextObserver_unobserve]
    exact h.lt o obs (mem_observers_unobserve.mp hobs).1
  · intro o
    rw [observers_unobserve]
    split
    · exact (h.nodup o).sublist (List.filter_sublist.map _)
    · exact h.nodup o
  · intro o obs hobs r c hcall
    obtain ⟨hobs, hne⟩ := mem_observers_unobserve.mp hobs
    obtain ⟨e, he, hid, hnum, hattr⟩ := h.heard o obs hobs r c hcall
    refine ⟨e, List.mem_filter.mpr ⟨he, ?_⟩, hid, hnum, hattr⟩
    simp only [decide_eq_true_eq]
    intro hsame
    exact hne ⟨hsame.1.symm.trans hid, hsame.2.symm.trans hnum⟩
  · intro r c e he halive
    obtain ⟨he, hne⟩ := List.mem_filter.mp he
    rw [hkeeps.isAlive] at halive
    obtain ⟨obs, hobs, hnum, hrest⟩ := h.kept r c e he halive
    refine ⟨obs, mem_observers_unobserve.mpr ⟨hobs, ?_⟩, hnum, hrest⟩
    intro hsame
    simp only [decide_eq_true_eq] at hne
    exact hne ⟨hsame.1.symm, (hsame.2.trans hnum).symm⟩

theorem unobserveAll (h : WiredBy w L) (stale : List Subscription) :
    WiredBy (stale.foldl World.unobserve w) fun r c =>
      (L r c).filter fun e => ∀ s ∈ stale, ¬e.1.Same s := by
  induction stale generalizing w L with
  | nil => simpa using h
  | cons s stale ih =>
      have hrest := ih (h.unobserve s)
      refine hrest.of_ledger_iff fun r c e _ => ?_
      simp only [List.mem_filter, List.mem_cons, forall_eq_or_imp, decide_eq_true_eq]
      tauto

end WiredBy

/-! ## Taking new sources -/

/-- Nothing but observers has changed. -/
structure Rewires (w w' : World) : Prop where
  keeps : Keeps w w'
  attr? : ∀ o attr, w'.attr? o attr = w.attr? o attr
  bindings : w'.bindings = w.bindings
  journal : w'.journal = w.journal
  /-- New observers serve bindings as sources. -/
  served : ∀ o, ∀ obs ∈ w'.observers o, obs ∈ w.observers o ∨ ∃ b, obs.callback = .source b

namespace Rewires

variable {w'' : World}

theorem refl (w : World) : Rewires w w :=
  ⟨Keeps.refl w, fun _ _ => rfl, rfl, rfl, fun _ _ => .inl⟩

theorem trans (h : Rewires w w') (h' : Rewires w' w'') : Rewires w w'' :=
  ⟨h.keeps.trans h'.keeps, fun o attr => (h'.attr? o attr).trans (h.attr? o attr),
    h'.bindings.trans h.bindings, h'.journal.trans h.journal,
    fun o obs hobs => (h'.served o obs hobs).elim (h.served o obs) .inr⟩

theorem observe (w : World) (o : Handle) (attr : String) (b : Nat) :
    Rewires w (w.observe o attr (.source b)).2 := by
  refine ⟨Keeps.observe w o attr _, w.attr?_observe o attr _, rfl, rfl, ?_⟩
  intro p obs hobs
  exact (mem_observers_observe.mp hobs).imp_right fun ⟨_, _, hnew⟩ => ⟨b, by rw [hnew]⟩

theorem unobserve (w : World) (s : Subscription) : Rewires w (w.unobserve s) := by
  refine ⟨Keeps.unobserve w s, w.attr?_unobserve s, rfl, rfl, ?_⟩
  intro p obs hobs
  exact .inl (mem_observers_unobserve.mp hobs).1

theorem unobserveAll (w : World) (stale : List Subscription) :
    Rewires w (stale.foldl World.unobserve w) := by
  induction stale generalizing w with
  | nil => exact refl w
  | cons s stale ih => exact (unobserve w s).trans (ih _)

end Rewires

theorem journal_disconnect (w : World) (b : Nat) : (w.disconnect b).journal = w.journal := by
  unfold disconnect
  split
  · rfl
  · change (List.foldl unobserve _ _).journal = _
    rw [(Rewires.unobserveAll _ _).journal, (Rewires.unobserveAll _ _).journal]

theorem journal_release (w : World) (b : Nat) : (w.release b).journal = w.journal := by
  obtain heq | heq := w.release_cases b
  · rw [heq]
  · rw [heq]
    exact journal_disconnect w b

theorem observeAll_journal (b : Nat) (reads : List (Handle × String)) (w : World) :
    Step.Yields (reads.mapM fun (o, attr) =>
      (modifyGet (·.observe o attr (.source b)) : Step Subscription)) w fun _ w' =>
      w'.journal = w.journal := by
  induction reads generalizing w with
  | nil => exact Step.Yields.of_pure rfl
  | cons read reads ih =>
      rw [List.mapM_cons]
      refine Step.Yields.bind ⟨_, _, rfl, Step.Yields.bind ((ih _).imp fun fresh w' hjournal => ?_)⟩
      exact Step.Yields.of_pure hjournal

theorem resubscribe_journal {b : Nat} {reads : List (Handle × String)}
    (h : resubscribe b reads w = some ((), w')) : w'.journal = w.journal := by
  have hyields : Step.Yields (resubscribe b reads) w fun _ w' => w'.journal = w.journal := by
    refine Step.Yields.bind ((observeAll_journal b reads w).imp fun fresh w₁ hjournal => ?_)
    refine Step.Yields.get_bind (Step.Yields.modify_bind (Step.Yields.of_modify ?_))
    rw [(Rewires.unobserveAll _ _).journal]
    exact hjournal
  exact hyields.result h

/-- Observing everything that was read, with the number of each new observer beyond all that its
object had. -/
theorem observeAll_yields (h : WiredBy w L) (b : Nat) (reads : List (Handle × String)) :
    Step.Yields (reads.mapM fun (o, attr) =>
      (modifyGet (·.observe o attr (.source b)) : Step Subscription)) w fun fresh w' =>
      fresh.map (·.object) = reads.map (·.1) ∧
      WiredBy w' (L.put .source b (L .source b ++ fresh.zip (reads.map (·.2)))) ∧
      (∀ s ∈ fresh, w.isAlive s.object → w.nextObserver s.object ≤ s.id) ∧
      Rewires w w' ∧ ∀ o, w.nextObserver o ≤ w'.nextObserver o := by
  induction reads generalizing w L with
  | nil =>
      refine ⟨[], w, rfl, rfl, ?_, by simp, Rewires.refl w, fun _ => Nat.le_refl _⟩
      refine h.of_ledger_iff fun r c e _ => ?_
      by_cases hrc : r = .source ∧ c = b
      · obtain ⟨rfl, rfl⟩ := hrc
        simp
      · rw [Ledger.put_of_ne L hrc]
  | cons read reads ih =>
      obtain ⟨o, attr⟩ := read
      rw [List.mapM_cons]
      have hnext : ∀ p, w.nextObserver p ≤ (w.observe o attr (.source b)).2.nextObserver p := by
        intro p
        rw [nextObserver_observe]
        split
        next hp =>
          rw [w.nextObserver_congr hp.1]
          exact Nat.le_succ _
        next => exact Nat.le_refl _
      have halive := (Keeps.observe w o attr (.source b)).isAlive
      refine Step.Yields.bind ⟨⟨o, w.nextObserver o⟩, (w.observe o attr (.source b)).2, rfl, ?_⟩
      refine Step.Yields.bind ((ih (h.observe o attr .source b)).imp ?_)
      rintro fresh w' ⟨hobjects, hwired, hnew, hrewires, hmono⟩
      refine Step.Yields.of_pure ⟨?_, ?_, ?_, ?_, ?_⟩
      · simp [hobjects]
      · rw [Ledger.put_self, Ledger.put_put, List.append_assoc] at hwired
        exact hwired
      · intro s hs hlive
        rcases List.mem_cons.mp hs with rfl | hs
        · exact Nat.le_refl _
        · exact Nat.le_trans (hnext s.object) (hnew s hs ((halive s.object).trans hlive))
      · exact (Rewires.observe w o attr b).trans hrewires
      · exact fun p => Nat.le_trans (hnext p) (hmono p)

/-- After new sources have been taken a binding hears of what it read and of nothing else. -/
theorem resubscribe_yields (h : WiredBy w L) {b : Nat} {x : Binding} (hx : w.binding? b = some x)
    (hL : ∀ e ∈ L .source b, e.1 ∈ x.sources)
    (hsources : ∀ s ∈ x.sources, ∃ e ∈ L .source b, e.1 = s)
    (reads : List (Handle × String)) :
    Step.Yields (resubscribe b reads) w fun _ w' =>
      ∃ fresh : List Subscription, fresh.map (·.object) = reads.map (·.1) ∧
        WiredBy w' (L.put .source b (fresh.zip (reads.map (·.2)))) ∧
        Rewires (w.modifyBinding b fun x => { x with sources := fresh }) w' := by
  unfold resubscribe
  refine Step.Yields.bind ((observeAll_yields h b reads).imp ?_)
  rintro fresh w₁ ⟨hobjects, hwired, hnew, hrewires, -⟩
  refine Step.Yields.get_bind (Step.Yields.modify_bind (Step.Yields.of_modify ?_))
  have hx₁ : w₁.binding? b = some x := by
    rw [binding?, hrewires.bindings]
    exact hx
  simp only [hx₁, Option.elim]
  refine ⟨fresh, hobjects, ?_, ?_⟩
  · have hmodified : WiredBy (w₁.modifyBinding b fun x => { x with sources := fresh }) _ :=
      hwired.of_observers_eq (fun _ => rfl) (fun _ => rfl) (fun _ => rfl)
    have hkeeps := (Rewires.unobserveAll
      (w₁.modifyBinding b fun x => { x with sources := fresh }) x.sources).keeps
    refine (hmodified.unobserveAll x.sources).of_ledger_iff fun r c e halive => ?_
    have halive' : w.isAlive e.1.object := by
      rw [hkeeps.isAlive] at halive
      rwa [← hrewires.keeps.isAlive]
    simp only [List.mem_filter, decide_eq_true_eq]
    by_cases hrc : r = .source ∧ c = b
    · obtain ⟨rfl, rfl⟩ := hrc
      simp only [Ledger.put_self, List.mem_append]
      constructor
      · intro he
        refine ⟨.inr he, ?_⟩
        intro s hs hsame
        -- An old subscription has a number below the one that the first new observer got.
        obtain ⟨old, hold, rfl⟩ := hsources s hs
        have holdlive : w.isAlive old.1.object := by
          rwa [isAlive, ← w.object?_congr hsame.1]
        obtain ⟨obs, hobs, hid, -⟩ := h.kept _ _ old hold holdlive
        have hlt := h.lt _ obs hobs
        have hge := hnew e.1 (List.of_mem_zip he).1 halive'
        rw [w.nextObserver_congr hsame.1] at hge
        have := hsame.2
        omega
      · rintro ⟨he | he, hne⟩
        · exact False.elim (hne e.1 (hL e he) ⟨rfl, rfl⟩)
        · exact he
    · rw [Ledger.put_of_ne L hrc, Ledger.put_of_ne L hrc]
      constructor
      · intro he
        refine ⟨he, ?_⟩
        intro s hs hsame
        obtain ⟨old, hold, rfl⟩ := hsources s hs
        exact hrc (h.owner he hold halive' hsame)
      · exact fun he => he.1
  · refine Rewires.trans ?_ (Rewires.unobserveAll _ x.sources)
    have hbindings : (w₁.modifyBinding b fun x => { x with sources := fresh }).bindings =
        (w.modifyBinding b fun x => { x with sources := fresh }).bindings := by
      simp only [modifyBinding, hrewires.bindings]
    have hkeeps := hrewires.keeps
    exact ⟨⟨hkeeps.objects, by rw [hbindings], hkeeps.nextBinding, hkeeps.journal,
      hkeeps.attrs, hkeeps.nextObserver, hkeeps.observers⟩, hrewires.attr?, hbindings, hrewires.journal,
      hrewires.served⟩

end World

end LiveUI
