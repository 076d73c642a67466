import Mathlib.Algebra.BigOperators.Group.List.Basic
import LiveUI.Proofs.World.Steadiness
import LiveUI.Proofs.World.Tending

/-! # Who listens

Bindings of all three kinds are made, attributes are set and emitted, and bindings are disconnected,
in any order. Whatever succeeds or fails of this, each attribute is observed by just those bindings
that should hear of it, by each of them once for each role. -/

namespace LiveUI

open World Step

/-! ## Counting the observers of a binding -/

/-- The observer serves the binding in this role. -/
def Callback.serves (role : Role) (b : Nat) : Callback → Bool
  | .source c => role = .source && c == b
  | .target c => role = .target && c == b
  | .host _ => false

theorem Callback.serves_iff {callback : Callback} {role : Role} {b : Nat} :
    callback.serves role b = true ↔ callback = role.callback b := by
  cases callback <;> cases role <;> simp [serves, Role.callback]

theorem countP_of_unique {α : Type} {p : α → Bool} {l : List α} (hnodup : l.Nodup)
    (hunique : ∀ a ∈ l, ∀ c ∈ l, p a = true → p c = true → a = c) :
    l.countP p = if ∃ a ∈ l, p a = true then 1 else 0 := by
  induction l with
  | nil => simp
  | cons a l ih =>
      obtain ⟨hnew, hnodup⟩ := List.nodup_cons.mp hnodup
      have hrest := ih hnodup fun c hc d hd =>
        hunique c (List.mem_cons_of_mem a hc) d (List.mem_cons_of_mem a hd)
      rw [List.countP_cons, hrest]
      by_cases ha : p a = true
      · have hothers : ¬∃ c ∈ l, p c = true := fun ⟨c, hc, hpc⟩ =>
          hnew (hunique a List.mem_cons_self c (List.mem_cons_of_mem a hc) ha hpc ▸ hc)
        simp [ha, hothers]
      · simp [ha]

theorem countP_eq_sum_map {β : Type} [DecidableEq β] (keys : List β) (b : β) :
    keys.countP (· == b) = (keys.map fun k => if b = k then 1 else 0).sum := by
  induction keys with
  | nil => rfl
  | cons k keys ih =>
      rw [List.countP_cons, ih, List.map_cons, List.sum_cons, Nat.add_comm]
      simp only [beq_iff_eq, eq_comm (a := k)]

/-- Where each element belongs to one of the keys, counting key by key counts everything. -/
theorem length_eq_sum_countP {α β : Type} [DecidableEq β] {key : α → β} {keys : List β}
    (hnodup : keys.Nodup) {l : List α} (hkeys : ∀ a ∈ l, key a ∈ keys) :
    l.length = (keys.map fun k => l.countP fun a => key a = k).sum := by
  induction l with
  | nil => simp
  | cons a l ih =>
      obtain ⟨ha, hl⟩ := List.forall_mem_cons.mp hkeys
      have hone : (keys.map fun k => if key a = k then 1 else 0).sum = 1 := by
        rw [← countP_eq_sum_map keys (key a), ← List.count_eq_countP]
        exact List.count_eq_one_of_mem hnodup ha
      rw [List.length_cons, ih hl]
      simp only [List.countP_cons, decide_eq_true_eq]
      rw [List.sum_map_add, hone]

namespace World

/-- The number of observers of an attribute that serve a binding in a role. -/
def listeners (w : World) (role : Role) (b : Nat) (o : Handle) (attr : String) : Nat :=
  (w.observersOf o attr).countP fun obs => obs.callback.serves role b

/-- A binding that was made and has not been disconnected. -/
def Attached (off : List Nat) (x : Binding) : Prop :=
  x.owned = true ∧ x.id ∉ off

/-- A binding should hear of an attribute: a bind or a delegate if it read it last, a delegate or a
notification if it is the target. -/
def Heeds (w : World) (off : List Nat) (x : Binding) (o : Handle) (attr : String) : Role → Prop
  | .source => Attached off x ∧ x.kind ≠ .notify ∧ ∃ p ∈ w.lastReads x.id, p.1.id = o.id ∧ p.2 = attr
  | .target => Attached off x ∧ x.kind ≠ .bind ∧ x.target.id = o.id ∧ x.attr = attr

instance (off : List Nat) (x : Binding) : Decidable (Attached off x) :=
  inferInstanceAs (Decidable (_ ∧ _))

instance (w : World) (off : List Nat) (x : Binding) (o : Handle) (attr : String) (role : Role) :
    Decidable (w.Heeds off x o attr role) :=
  match role with
  | .source => inferInstanceAs (Decidable (_ ∧ _ ∧ _))
  | .target => inferInstanceAs (Decidable (_ ∧ _ ∧ _))

/-- No binding is at work. -/
def AtRest (w : World) : Prop :=
  ∀ x ∈ w.bindings, x.busy = false

variable {w w' : World} {off : List Nat} {o : Handle} {attr : String} {role : Role} {x : Binding}

namespace Attuned

/-- In one role a binding observes an attribute once. -/
theorem eq_of_serves (h : Attuned off w) {b : Nat} {obs obs' : Observer}
    (hobs : obs ∈ w.observers o) (hobs' : obs' ∈ w.observers o) (hattr : obs.attr = obs'.attr)
    (hcall : obs.callback = role.callback b) (hcall' : obs'.callback = role.callback b) :
    obs = obs' := by
  obtain ⟨e, he, hobject, hnum, heattr⟩ := h.wired.heard o obs hobs role b hcall
  obtain ⟨e', he', hobject', hnum', heattr'⟩ := h.wired.heard o obs' hobs' role b hcall'
  obtain ⟨-, y, hy, hservice, hon, htune, hrole⟩ := h.exists_entered he
  suffices hsame : e = e' from
    h.wired.eq_of_id hobs hobs' (hnum.symm.trans ((congrArg (·.1.id) hsame).trans hnum'))
  cases role with
  | source =>
      -- Both entries are for one and the same of the attributes read last.
      by_contra hne
      have hid := w.id_of_binding? hy
      have hplaces := htune.distinct
      rw [hid, ← ledger_places hy (h.aligned hy hservice hon)] at hplaces
      have hpairs := List.pairwise_map.mp hplaces
      have : Std.Symm fun a c : Subscription × String =>
          ¬((a.1.object, a.2).1.id = (c.1.object, c.2).1.id ∧
            (a.1.object, a.2).2 = (c.1.object, c.2).2) :=
        ⟨fun a c hac hca => hac ⟨hca.1.symm, hca.2.symm⟩⟩
      exact hpairs.forall he he' hne
        ⟨hobject.trans hobject'.symm, heattr.trans (hattr.trans heattr'.symm)⟩
  | target =>
      rw [ledger_target hy] at he he'
      obtain ⟨s, hs, rfl⟩ := List.mem_map.mp he
      obtain ⟨s', hs', rfl⟩ := List.mem_map.mp he'
      obtain rfl := Option.some.inj ((Option.mem_toList.mp hs).symm.trans (Option.mem_toList.mp hs'))
      rfl

/-- There is an observer for a binding if the binding should hear of the attribute. -/
theorem exists_listener_iff (h : Attuned off w) (hrest : AtRest w) (hx : x ∈ w.bindings) :
    (∃ obs ∈ w.observersOf o attr, obs.callback.serves role x.id = true) ↔
      w.Heeds off x o attr role := by
  have hfind := binding?_of_nodup h.nodup hx
  constructor
  · rintro ⟨obs, hobs, hserves⟩
    obtain ⟨hobs, hattr⟩ := mem_observersOf.mp hobs
    obtain ⟨e, he, hobject, -, heattr⟩ :=
      h.wired.heard o obs hobs role x.id (Callback.serves_iff.mp hserves)
    obtain ⟨-, y, hy, hservice, hon, -, hrole⟩ := h.exists_entered he
    obtain rfl := Option.some.inj (hfind.symm.trans hy)
    have hattached : Attached off x := ⟨Binding.owned_of_idle hservice (hrest x hx), hon⟩
    cases role with
    | source => exact ⟨hattached, hrole.1, _, hrole.2, hobject, heattr.trans hattr⟩
    | target =>
        obtain ⟨hkind, -, -, htarget, hxattr⟩ := hrole
        exact ⟨hattached, hkind, htarget ▸ hobject, hxattr.trans (heattr.trans hattr)⟩
  · intro hheeds
    have hentry : ∃ e ∈ w.ledger role x.id, e.1.object.id = o.id ∧ e.2 = attr := by
      cases role with
      | source =>
          obtain ⟨⟨howned, hon⟩, -, p, hp, hid, hattr⟩ := hheeds
          have hservice : x.inService = true := by simp [Binding.inService, howned]
          rw [← ledger_places hfind (h.aligned hfind hservice hon)] at hp
          obtain ⟨e, he, rfl⟩ := List.mem_map.mp hp
          exact ⟨e, he, hid, hattr⟩
      | target =>
          obtain ⟨⟨howned, hon⟩, hkind, hid, hattr⟩ := hheeds
          have htune := h.inTune x hx (by simp [Binding.inService, howned]) hon
          have hlistener := htune.listener
          rw [if_pos ⟨hkind, howned⟩] at hlistener
          obtain ⟨s, hs, hobject⟩ := Option.map_eq_some_iff.mp hlistener
          refine ⟨(s, x.attr), ?_, hobject ▸ hid, hattr⟩
          rw [ledger_target hfind, hs]
          exact List.mem_singleton_self _
    obtain ⟨e, he, hid, hattr⟩ := hentry
    obtain ⟨halive, -⟩ := h.exists_entered he
    obtain ⟨obs, hobs, -, hobsattr, hcall⟩ := h.wired.kept role x.id e he halive
    rw [w.observers_congr hid] at hobs
    exact ⟨obs, mem_observersOf.mpr ⟨hobs, hobsattr.trans hattr⟩, Callback.serves_iff.mpr hcall⟩

/-- Each binding has one observer in each role in which it should hear of the attribute. -/
theorem listeners_eq (h : Attuned off w) (hrest : AtRest w) (hx : x ∈ w.bindings) (role : Role)
    (o : Handle) (attr : String) :
    w.listeners role x.id o attr = if w.Heeds off x o attr role then 1 else 0 := by
  rw [listeners, countP_of_unique (h.wired.nodup_observersOf o attr)]
  · exact if_congr (h.exists_listener_iff hrest hx) rfl rfl
  · intro obs hobs obs' hobs' hserves hserves'
    obtain ⟨hobs, hattr⟩ := mem_observersOf.mp hobs
    obtain ⟨hobs', hattr'⟩ := mem_observersOf.mp hobs'
    exact h.eq_of_serves hobs hobs' (hattr.trans hattr'.symm) (Callback.serves_iff.mp hserves)
      (Callback.serves_iff.mp hserves')

/-- All observers of an attribute are those of bindings. -/
theorem length_observersOf (h : Attuned off w) (o : Handle) (attr : String) :
    (w.observersOf o attr).length = (w.bindings.map fun x =>
      w.listeners .source x.id o attr + w.listeners .target x.id o attr).sum := by
  have hkeys : ∀ obs ∈ w.observersOf o attr,
      obs.callback.binding? ∈ w.bindings.map (fun x => some x.id) := by
    intro obs hobs
    obtain ⟨hobs, -⟩ := mem_observersOf.mp hobs
    obtain ⟨role, b, hcall⟩ := h.served o obs hobs
    obtain ⟨x, hx, -⟩ := h.calls hobs hcall
    have hb : obs.callback.binding? = some b := by
      cases role <;> simp [hcall, Role.callback, Callback.binding?]
    exact List.mem_map.mpr ⟨x, w.mem_of_binding? hx, by rw [hb, w.id_of_binding? hx]⟩
  have hnodup : (w.bindings.map fun x => some x.id).Nodup := by
    have hids := h.nodup.map (Option.some_injective Nat)
    rwa [List.map_map] at hids
  rw [length_eq_sum_countP hnodup hkeys, List.map_map]
  congr 1
  refine List.map_congr_left fun x _ => ?_
  simp only [Function.comp, listeners]
  generalize w.observersOf o attr = observers
  induction observers with
  | nil => rfl
  | cons obs rest ih =>
      simp only [List.countP_cons, ih]
      cases obs.callback <;> simp [Callback.binding?, Callback.serves] <;> omega

end Attuned

/-! ## Bindings come to rest -/

theorem AtRest.of_cores (h : AtRest w)
    (hcores : w'.bindings.map Binding.core = w.bindings.map Binding.core) : AtRest w' := by
  intro x hx
  have hcore := List.mem_map_of_mem (f := Binding.core) hx
  rw [hcores] at hcore
  obtain ⟨y, hy, hsame⟩ := List.mem_map.mp hcore
  exact (congrArg (·.busy) hsame).symm.trans (h y hy)

theorem AtRest.modifyBinding (h : AtRest w) (b : Nat) {f : Binding → Binding}
    (hf : ∀ x, (f x).busy = x.busy) : AtRest (w.modifyBinding b f) := by
  intro x hx
  obtain ⟨y, hy, ⟨-, rfl⟩ | ⟨-, rfl⟩⟩ := w.mem_bindings_modifyBinding hx
  · exact (hf y).trans (h y hy)
  · exact h x hy

theorem AtRest.addRecord (h : AtRest w) (site : Site) (kind : BindingKind) (code : Code) :
    AtRest (w.addBinding (site.record kind code w.nextBinding)) := by
  intro x hx
  rcases List.mem_append.mp hx with hx | hx
  · exact h x hx
  · rw [List.mem_singleton.mp hx]
    rfl

theorem AtRest.own (h : AtRest w) (o : Handle) (b : Nat) : AtRest (w.own o b) :=
  h.modifyBinding b (f := fun x => { x with owned := true }) fun _ => rfl

theorem AtRest.listen (h : AtRest w) (o : Handle) (attr : String) (b : Nat) :
    AtRest (w.listen o attr b) :=
  AtRest.modifyBinding (w := (w.observe o attr (.target b)).2) h b fun _ => rfl

theorem AtRest.disconnect (h : AtRest w) (b : Nat) : AtRest (w.disconnect b) := by
  unfold World.disconnect
  split
  next => exact h
  next x _ =>
    have hrest : AtRest ((x.sources ++ x.targetListener.toList).foldl World.unobserve w) := by
      intro y hy
      rw [(Rewires.unobserveAll w _).bindings] at hy
      exact h y hy
    rw [List.foldl_append] at hrest
    exact hrest.modifyBinding b fun _ => rfl

end World

/-! ## What is done to bindings from outside -/

/-- Requests make binds and delegates; notifications are made and bindings disconnected as well. -/
inductive Act where
  | request (r : Request)
  | notify (site : Site) (code : Code)
  | disconnect (b : Nat)

namespace Act

def perform (announce : Announce) : Act → Step Unit
  | request r => r.perform announce
  | notify site code => do let _ ← site.notify code
  | disconnect b => modify (·.disconnect b)

/-- What is written to is alive, expressions call builtins only, whatever change they are told of,
and there is nothing to be reached that is not alive. -/
def Ready (w : World) : Act → Prop
  | request r => r.Ready w ∧ r.Grounded w
  | notify site code => w.isAlive site.target = true ∧ (∀ change, code.HostFree ⟨site.frame, change⟩) ∧
      ∀ v ∈ code.origins { frame := site.frame }, w.Knows v
  | disconnect b => (w.binding? b).isSome = true

/-- The bindings that have been disconnected. -/
def after (off : List Nat) : Act → List Nat
  | request _ | notify _ _ => off
  | disconnect b => b :: off

/-- From a world one gets to another one by acts that are ready, each carried out to its end. -/
inductive Reaches (w₀ : World) : List Nat → World → Prop where
  | start : Reaches w₀ [] w₀
  | act {off : List Nat} {w w' : World} {n : Nat} {a : Act} (before : Reaches w₀ off w)
      (hready : a.Ready w) (hn : w.bindings.length < n)
      (hacts : a.perform (announce n) w = some ((), w')) : Reaches w₀ (a.after off) w'

end Act

section Tend

variable {w : World} {off : List Nat} {n : Nat}

/-- The first evaluation of a binding, at the end of which the binding is as it was recorded. -/
theorem make_tends (h : Attuned off w) (hrest : AtRest w) (hn : w.idle < n) {site : Site}
    {kind : BindingKind} {code : Code} (halive : w.isAlive site.target = true)
    (hfree : code.HostFree { frame := site.frame }) (hkind : kind ≠ .notify)
    (horigins : ∀ v ∈ code.origins { frame := site.frame }, w.Knows v) :
    Yields (refresh (announce n) w.nextBinding) (w.addBinding (site.record kind code w.nextBinding))
      fun _ w' => ∃ w₁ x, Attuned off w₁ ∧ w₁.binding? w.nextBinding = some x ∧ w₁.InTune x ∧
        x.core = { site.record kind code w.nextBinding with busy := true } ∧ AtRest w' ∧
        w' = w₁.setBusy w.nextBinding false := by
  have hadded : Attuned off (w.addBinding (site.record kind code w.nextBinding)) :=
    h.addRecord horigins
  have hx : (w.addBinding (site.record kind code w.nextBinding)).binding? w.nextBinding = some _ :=
    binding?_addRecord h
  have hidle : (w.addBinding (site.record kind code w.nextBinding)).idle ≤ n := by
    rw [idle_addBinding rfl]
    omega
  have htune := h.inTune_record halive hfree fun hnotify => absurd hnotify hkind
  refine (refresh_tends (announce_tends off n) hadded hidle hx rfl h.next_not_mem htune hkind).imp ?_
  rintro - _ ⟨w₁, htended, rfl⟩
  obtain ⟨x, hx₁, hcore⟩ := htended.follows.exists_core (binding?_setBusy hx true)
  have hbusy : x.busy = true := congrArg (·.busy) hcore
  have htune₁ := htended.attuned.inTune x (w₁.mem_of_binding? hx₁) (Binding.inService_of_busy hbusy)
    (w₁.id_of_binding? hx₁ ▸ h.next_not_mem)
  exact ⟨w₁, x, htended.attuned, hx₁, htune₁, hcore,
    (hrest.addRecord site kind code).of_cores (htended.follows.work hadded.nodup hx rfl).bindings, rfl⟩

/-- Whatever becomes of a bind or a delegate that is asked for, and of what is written. -/
theorem Request.perform_tends (h : Attuned off w) (hrest : AtRest w) (hn : w.idle < n) {r : Request}
    (hready : r.Ready w) (hgrounded : r.Grounded w) :
    Yields (r.perform (announce n)) w fun _ w' => Attuned off w' ∧ AtRest w' := by
  have hann := announce_tends off n
  -- A new binding is tuned in before it is owned, so until then it is told apart from the others.
  -- It is owned in the end, or disconnected.
  cases r with
  | set o attr v =>
      refine Yields.bind ((setAttr_tends hann h hn hgrounded.1 hgrounded.2).imp fun _ w' hset => ?_)
      exact Yields.of_pure ⟨hset.attuned, hrest.of_cores hset.follows.bindings⟩
  | emit o attr v =>
      exact (emitAttr_tends hann h hn hgrounded.1 hgrounded.2).imp fun _ w' hemit =>
        ⟨hemit.attuned, hrest.of_cores hemit.follows.bindings⟩
  | bind site code =>
      refine Yields.bind (Yields.bind ⟨w.nextBinding, _, rfl, Yields.bind ?_⟩)
      refine (make_tends h hrest hn hready.1 hready.2 (by simp : BindingKind.bind ≠ .notify)
        hgrounded).imp ?_
      rintro result _ ⟨w₁, x, hw₁, hx, htune, hcore, hrest₁, rfl⟩
      have howned : x.owned = false := congrArg (·.owned) hcore
      have hkind : x.kind = .bind := congrArg (·.kind) hcore
      cases result with
      | error e =>
          refine Yields.modify_bind (Yields.of_pure (Yields.of_pure ?_))
          exact ⟨hw₁.disconnect hx (fun _ _ => Iff.rfl) false (.inr ⟨howned, rfl⟩),
            hrest₁.disconnect _⟩
      | ok _ =>
          refine Yields.bind (Yields.modify_bind (Yields.of_modify ?_))
          exact Yields.of_pure (Yields.of_pure
            ⟨hw₁.own hx h.next_not_mem htune hkind site.target, hrest₁.own _ _⟩)
  | delegate site code =>
      refine Yields.bind ?_
      cases hpath : code.attrPath? with
      | none =>
          simp only [Site.delegate, hpath, Option.isNone_none, if_true]
          exact Yields.of_pure (Yields.of_pure ⟨h, hrest⟩)
      | some path =>
          simp only [Site.delegate, hpath, Option.isNone_some, Bool.false_eq_true, if_false]
          refine Yields.bind ⟨w.nextBinding, _, rfl, Yields.bind ?_⟩
          refine (make_tends h hrest hn hready.1 hready.2 (by simp : BindingKind.delegate ≠ .notify)
            hgrounded).imp ?_
          rintro result _ ⟨w₁, x, hw₁, hx, htune, hcore, hrest₁, rfl⟩
          have howned : x.owned = false := congrArg (·.owned) hcore
          have hkind : x.kind = .delegate := congrArg (·.kind) hcore
          have htarget : x.target = site.target := congrArg (·.target) hcore
          have hattr : x.attr = site.attr := congrArg (·.attr) hcore
          cases result with
          | error e =>
              refine Yields.modify_bind (Yields.of_pure (Yields.of_pure ?_))
              exact ⟨hw₁.disconnect hx (fun _ _ => Iff.rfl) false (.inr ⟨howned, rfl⟩),
                hrest₁.disconnect _⟩
          | ok _ =>
              have hlistens := hw₁.listen hx h.next_not_mem htune howned (by simp [hkind])
              rw [htarget, hattr] at hlistens
              refine Yields.bind (Yields.bind ⟨_, _, rfl, Yields.of_modify ?_⟩)
              refine Yields.bind (Yields.modify_bind (Yields.of_modify ?_))
              exact Yields.of_pure (Yields.of_pure ⟨hlistens, (hrest₁.listen _ _ _).own _ _⟩)

/-- An act leaves the bindings in tune, but for those that have been disconnected. -/
theorem Act.perform_tends (h : Attuned off w) (hrest : AtRest w) (hn : w.bindings.length < n)
    {a : Act} (hready : a.Ready w) :
    Yields (a.perform (announce n)) w fun _ w' => Attuned (a.after off) w' ∧ AtRest w' := by
  cases a with
  | request r =>
      have hidle : w.idle < n := Nat.lt_of_le_of_lt List.countP_le_length hn
      exact r.perform_tends h hrest hidle hready.1 hready.2
  | notify site code =>
      obtain ⟨halive, hfree, horigins⟩ := hready
      have hadded : Attuned off (w.addBinding (site.record .notify code w.nextBinding)) :=
        h.addRecord horigins
      have hlistens := hadded.listen (binding?_addRecord h) h.next_not_mem
        (h.inTune_record halive (hfree .nil) fun _ => hfree) rfl (by simp [Site.record])
      have hidle : (w.addBinding (site.record .notify code w.nextBinding)).setBusy w.nextBinding
          false = w.addBinding (site.record .notify code w.nextBinding) :=
        setBusy_of_same fun x hx _ => hrest.addRecord site .notify code x hx
      rw [hidle] at hlistens
      refine Yields.bind (Yields.bind ⟨w.nextBinding, _, rfl, Yields.bind ?_⟩)
      refine Yields.bind ⟨_, _, rfl, Yields.of_modify ?_⟩
      refine Yields.bind (Yields.modify_bind (Yields.of_modify ?_))
      exact Yields.of_pure (Yields.of_pure
        ⟨hlistens, ((hrest.addRecord site .notify code).listen _ _ _).own _ _⟩)
  | disconnect b =>
      obtain ⟨x, hx⟩ := Option.isSome_iff_exists.mp hready
      refine Yields.of_modify ⟨?_, hrest.disconnect b⟩
      have hoff : ∀ c, c ≠ b → (c ∈ b :: off ↔ c ∈ off) := fun c hc => by simp [hc]
      have hgone := h.disconnect hx hoff x.busy (.inl List.mem_cons_self)
      rwa [setBusy_of_same fun y hy hid => by rw [eq_of_nodup h.nodup hx hy hid]] at hgone

end Tend

/-- Before anything has been done no binding is in service. -/
theorem World.Quiet.attuned {w : World} (h : Quiet w) (hintact : Intact w) : Attuned [] w := by
  refine ⟨h.network.wired, fun o obs hobs => ?_, h.nodup, h.lt, nofun, h.unevaluated, hintact,
    fun x hx hservice _ => ?_, fun x hx _ => (h.released x hx).2⟩
  · rw [h.silent] at hobs
    exact absurd hobs List.not_mem_nil
  · exact absurd ((h.released x hx).1.symm.trans hservice) (by simp)

namespace Act

variable {w₀ w : World} {off : List Nat}

theorem Reaches.tends (h : Reaches w₀ off w) (hw : Quiet w₀) (hintact : Intact w₀) :
    Attuned off w ∧ AtRest w := by
  induction h with
  | start =>
      refine ⟨hw.attuned hintact, fun x hx => ?_⟩
      exact hw.resting.idle x.id x (binding?_of_nodup hw.nodup hx)
  | act _ hready hn hacts ih => exact (perform_tends ih.1 ih.2 hn hready).result hacts

/-- However bindings have been made and disconnected and attributes written, a connected bind or
delegate has one observer on each attribute that it read last, a connected delegate or notification
one more on its target, and there are no other observers. And one can go on from there. -/
theorem listeners_match (hw : Quiet w₀) (hintact : Intact w₀) (h : Reaches w₀ off w) :
    (∀ o attr, (∀ x ∈ w.bindings, ∀ role,
        w.listeners role x.id o attr = if w.Heeds off x o attr role then 1 else 0) ∧
      (w.observersOf o attr).length = (w.bindings.map fun x =>
        (if w.Heeds off x o attr .source then 1 else 0) +
          if w.Heeds off x o attr .target then 1 else 0).sum) ∧
    ∀ a : Act, ∀ n, a.Ready w → w.bindings.length < n →
      ∃ w', a.perform (announce n) w = some ((), w') ∧ Reaches w₀ (a.after off) w' := by
  obtain ⟨htuned, hrest⟩ := h.tends hw hintact
  refine ⟨fun o attr => ⟨fun x hx role => htuned.listeners_eq hrest hx role o attr, ?_⟩,
    fun a n hready hn => ?_⟩
  · rw [htuned.length_observersOf]
    congr 1
    refine List.map_congr_left fun x hx => ?_
    rw [htuned.listeners_eq hrest hx, htuned.listeners_eq hrest hx]
  · obtain ⟨⟨⟩, w', hacts, -⟩ := perform_tends htuned hrest hn hready
    exact ⟨w', hacts, h.act hready hn hacts⟩

/-- A notification on `a`, `b` in step with `a`, and `a` following `b` until it is disconnected. -/
theorem listeners_match_pair :
    pairWorld.Quiet ∧ pairWorld.Intact ∧ ∃ w, Reaches pairWorld [2] w ∧ w.bindings.length = 3 ∧
      (w.observersOf ⟨1, "Pair"⟩ "a").length = 2 ∧
      ∀ o attr, (∀ x ∈ w.bindings, ∀ role,
          w.listeners role x.id o attr = if w.Heeds [2] x o attr role then 1 else 0) ∧
        (w.observersOf o attr).length = (w.bindings.map fun x =>
          (if w.Heeds [2] x o attr .source then 1 else 0) +
            if w.Heeds [2] x o attr .target then 1 else 0).sum := by
  let o : Handle := ⟨1, "Pair"⟩
  let read (attr : String) : Code := .attr (.const (.object o)) attr
  let tell : Act := .notify { target := o, attr := "a", frame := {}, label := "a >> b" } (read "b")
  let link : Act := .request (.delegate { target := o, attr := "b", frame := {}, label := "b := a" }
    (read "a"))
  let follow : Act := .request (.bind { target := o, attr := "a", frame := {}, label := "a << b + 1" }
    (.binary .add (read "b") (.const (.int 1))))
  let write : Act := .request (.set o "b" (.int 7))
  have hruns : (tell.perform (announce 5) pairWorld).any (fun p => p.2.isAlive o &&
      decide (p.2.bindings.length < 5) && (link.perform (announce 5) p.2).any fun p => p.2.isAlive o &&
      decide (p.2.bindings.length < 5) && (follow.perform (announce 5) p.2).any fun p => p.2.isAlive o &&
      decide (p.2.bindings.length < 5) && (write.perform (announce 5) p.2).any fun p =>
      (p.2.binding? 2).isSome && decide (p.2.bindings.length < 5) &&
      ((Act.disconnect 2).perform (announce 5) p.2).any fun p =>
        decide (p.2.bindings.length = 3) && decide ((p.2.observersOf o "a").length = 2)) = true := by
    decide +kernel
  obtain ⟨⟨⟨⟩, w₁⟩, h₁, hruns⟩ := (Option.any_eq_true _ _).mp hruns
  simp only [Bool.and_eq_true, decide_eq_true_eq] at hruns
  obtain ⟨⟨halive₁, hn₁⟩, hruns⟩ := hruns
  obtain ⟨⟨⟨⟩, w₂⟩, h₂, hruns⟩ := (Option.any_eq_true _ _).mp hruns
  simp only [Bool.and_eq_true, decide_eq_true_eq] at hruns
  obtain ⟨⟨halive₂, hn₂⟩, hruns⟩ := hruns
  obtain ⟨⟨⟨⟩, w₃⟩, h₃, hruns⟩ := (Option.any_eq_true _ _).mp hruns
  simp only [Bool.and_eq_true, decide_eq_true_eq] at hruns
  obtain ⟨⟨halive₃, hn₃⟩, hruns⟩ := hruns
  obtain ⟨⟨⟨⟩, w₄⟩, h₄, hruns⟩ := (Option.any_eq_true _ _).mp hruns
  simp only [Bool.and_eq_true, decide_eq_true_eq] at hruns
  obtain ⟨⟨hsome, hn₄⟩, hruns⟩ := hruns
  obtain ⟨⟨⟨⟩, w₅⟩, h₅, hruns⟩ := (Option.any_eq_true _ _).mp hruns
  simp only [Bool.and_eq_true, decide_eq_true_eq] at hruns
  have hread (attr : String) {w : World} (halive : w.isAlive o = true) :
      ∀ v ∈ (read attr).origins { frame := {} }, w.Knows v := by
    intro v hv
    obtain rfl : v = .object o := List.mem_singleton.mp hv
    exact knows_object.mpr halive
  have hfollow : ∀ v ∈ (Code.binary .add (read "b") (.const (.int 1))).origins { frame := {} },
      w₂.Knows v := by
    intro v hv
    rcases List.mem_append.mp hv with hv | hv
    · exact hread "b" halive₂ v hv
    · obtain rfl : v = .int 1 := List.mem_singleton.mp hv
      exact (partwise_knows _).scalar _ rfl
  have hreaches : Reaches pairWorld [2] w₅ := by
    refine .act (.act (.act (.act (.act .start ?_ (by decide) h₁) ?_ hn₁ h₂) ?_ hn₂ h₃) ?_ hn₃ h₄)
      (a := .disconnect 2) hsome hn₄ h₅
    · exact ⟨rfl, fun _ => .of_callsBuiltins rfl _, hread "b" rfl⟩
    · exact ⟨⟨halive₁, .of_callsBuiltins rfl _⟩, hread "a" halive₁⟩
    · exact ⟨⟨halive₂, .of_callsBuiltins rfl _⟩, hfollow⟩
    · exact ⟨trivial, halive₃, (partwise_knows _).scalar _ rfl⟩
  exact ⟨pairWorld_quiet, pairWorld_intact, w₅, hreaches, hruns.1, hruns.2,
    (listeners_match pairWorld_quiet pairWorld_intact hreaches).1⟩

end Act

end LiveUI
