import LiveUI.Proofs.World.Attunement

/-! # Connecting and disconnecting bindings

A binding that is made is in tune from its first evaluation on, and so it stays when its target takes
it. One that could not be made, and one that is disconnected, hears of nothing any more; the others
hear of what they heard before. -/

namespace LiveUI

namespace World

variable {w w' : World} {off off' : List Nat} {b : Nat} {x : Binding}

/-! ## Making -/

theorem Attuned.addBinding (h : Attuned off w) (hid : x.id = w.nextBinding)
    (hservice : x.inService = false) (hsources : x.sources = []) (hlistener : x.targetListener = none)
    (horigins : ∀ v ∈ x.code.origins { frame := x.frame }, w.Knows v) :
    Attuned off (w.addBinding x) := by
  have hmem : ∀ y ∈ (w.addBinding x).bindings, y ∈ w.bindings ∨ y = x := by
    intro y hy
    simpa [World.addBinding] using hy
  refine ⟨?_, h.served, nodup_addBinding h.lt h.nodup hid, lt_addBinding h.lt hid,
    fun c hc => Nat.lt_succ_of_lt (h.lt_off c hc), fun c hc => h.unevaluated c (Nat.le_of_succ_le hc),
    ⟨h.intact.attrs, fun {c y} hy => ?_⟩, ?_, ?_⟩
  · rw [ledger_addBinding h.lt hid hsources hlistener]
    exact h.wired.of_observers_eq (fun _ => rfl) (fun _ => rfl) fun _ => rfl
  · rw [binding?_addBinding_of_lt h.lt hid] at hy
    split at hy
    · exact Option.some.inj hy ▸ horigins
    · exact h.intact.bindings hy
  · intro y hy hyservice hon
    rcases hmem y hy with hy | rfl
    · exact (h.inTune y hy hyservice hon).congr (fun _ => id) rfl
    · exact absurd (hservice.symm.trans hyservice) (by simp)
  · intro y hy hysilent
    rcases hmem y hy with hy | rfl
    · exact h.silent y hy hysilent
    · exact ⟨hsources, hlistener⟩

theorem Attuned.next_not_mem (h : Attuned off w) : w.nextBinding ∉ off :=
  fun hin => Nat.lt_irrefl _ (h.lt_off _ hin)

section Begin

variable {site : Site} {kind : BindingKind} {code : Code}

/-- A binding that is being made has read nothing yet. -/
theorem Attuned.inTune_record (h : Attuned off w) (halive : w.isAlive site.target = true)
    (hfree : code.HostFree { frame := site.frame })
    (heffect : kind = .notify → ∀ change, code.HostFree ⟨site.frame, change⟩) :
    (w.addBinding (site.record kind code w.nextBinding)).InTune
      (site.record kind code w.nextBinding) := by
  have hreads : (w.addBinding (site.record kind code w.nextBinding)).lastReads w.nextBinding
      = [] := by
    change (w.lastEvaluation? w.nextBinding).elim [] (·.2) = []
    rw [h.unevaluated w.nextBinding (Nat.le_refl _)]
    rfl
  have hrecord : (site.record kind code w.nextBinding).id = w.nextBinding := rfl
  refine ⟨halive, hfree, heffect, ?_, ?_, ?_, fun _ => hreads, by simp [Site.record]⟩
  · rw [hrecord, hreads]
    rfl
  · rw [hrecord, hreads]
    exact .nil
  · rw [hrecord, hreads]
    exact fun _ hp => absurd hp List.not_mem_nil

theorem Attuned.addRecord (h : Attuned off w)
    (horigins : ∀ v ∈ code.origins { frame := site.frame }, w.Knows v) :
    Attuned off (w.addBinding (site.record kind code w.nextBinding)) :=
  h.addBinding (x := site.record kind code w.nextBinding) rfl rfl rfl rfl horigins

theorem binding?_addRecord (h : Attuned off w) :
    (w.addBinding (site.record kind code w.nextBinding)).binding? w.nextBinding =
      some (site.record kind code w.nextBinding) := by
  rw [binding?_addBinding_of_lt h.lt rfl, if_pos rfl]

end Begin

/-- The mark is as it was. -/
theorem setBusy_of_same {busy : Bool} (h : ∀ x ∈ w.bindings, x.id = b → x.busy = busy) :
    w.setBusy b busy = w := by
  have hsame : w.bindings.map (fun x => if x.id == b then { x with busy } else x) = w.bindings := by
    conv_rhs => rw [← List.map_id w.bindings]
    refine List.map_congr_left fun x hx => ?_
    split
    next hid => rw [← h x hx (by simpa using hid), id]
    next => rfl
  simp only [setBusy, World.modifyBinding, hsame]

/-- An object takes a binding. -/
theorem Attuned.takeBinding (h : Attuned off w) (o : Handle) (b : Nat) :
    Tended off w (w.modifyObject o fun x => { x with bindings := x.bindings ++ [b] }) := by
  refine h.modifyObject o (fun _ => rfl) (fun _ => rfl) (fun _ => rfl) fun p attr v hv => ?_
  rw [attr?_modifyObject w o p (f := fun x => { x with bindings := x.bindings ++ [b] }) attr
    (fun _ => rfl) fun _ => rfl] at hv
  exact h.intact.attrs hv

/-- A bind that has been made. -/
theorem Attuned.own (h : Attuned off w) (hx : w.binding? b = some x) (hon : b ∉ off)
    (htune : w.InTune x) (hkind : x.kind = .bind) (o : Handle) :
    Attuned off ((w.setBusy b false).own o b) := by
  let f : Binding → Binding := fun y => { y with busy := false, owned := true }
  have hmerged : (w.setBusy b false).modifyBinding b (fun y => { y with owned := true }) =
      w.modifyBinding b f :=
    modifyBinding_modifyBinding w b (f := fun y => { y with busy := false }) fun _ => rfl
  have howned : Attuned off (w.modifyBinding b f) := by
    refine h.modifyBinding (fun _ => rfl) (fun _ => ⟨rfl, rfl⟩) hx (fun _ _ => ?_) ?_
    · refine ⟨htune.alive, htune.hostFree, htune.effect, htune.aligned, htune.distinct, htune.known,
        htune.unread, ?_⟩
      simpa [f, hkind] using htune.listener
    · rintro (hspent | hin)
      · simp [f, Binding.inService] at hspent
      · exact absurd hin hon
  rw [← hmerged] at howned
  exact (howned.takeBinding o b).attuned

/-- A delegate or a notification that has been made listens to its target. -/
theorem Attuned.listen (h : Attuned off w) (hx : w.binding? b = some x) (hon : b ∉ off)
    (htune : w.InTune x) (howned : x.owned = false) (hkind : x.kind ≠ .bind) :
    Attuned off (((w.setBusy b false).listen x.target x.attr b).own x.target b) := by
  have hlistener : x.targetListener = none := by simpa [howned] using htune.listener
  have hreplaces := Replaces.of_take w x.target x.attr b
  have htaken : Attuned off (w.take x.target x.attr b) := by
    refine hreplaces.attuned h (fun _ => rfl) (fun _ => ⟨rfl, rfl⟩) hx (fun _ _ => Iff.rfl)
      (w.attr?_observe x.target x.attr _) (h.wired.take hx hlistener x.target)
      (fun o obs hobs => ?_) (fun _ _ => ?_) ?_
    · obtain hold | hnew := mem_observers_take hobs
      · exact h.served o obs hold
      · exact ⟨.target, b, hnew⟩
    · have halive := fun o (ho : w.isAlive o = true) => (hreplaces.isAlive o).trans ho
      refine ⟨halive _ htune.alive, htune.hostFree, htune.effect, htune.aligned, htune.distinct,
        fun p hp => halive p.1 (htune.known p hp), htune.unread, ?_⟩
      simp [Binding.taken, hkind]
    · rintro (hspent | hin)
      · simp [Binding.taken, Binding.inService] at hspent
      · exact absurd hin hon
  rw [own_listen_eq_take]
  exact (htaken.takeBinding x.target b).attuned

/-! ## Disconnecting -/

/-- Whatever a binding is subscribed to is entered. -/
theorem Attuned.exists_entry (h : Attuned off w) (hx : w.binding? b = some x) {s : Subscription}
    (hs : s ∈ x.sources ++ x.targetListener.toList) : ∃ role, ∃ e ∈ w.ledger role b, e.1 = s := by
  by_cases hsilent : x.inService = false ∨ x.id ∈ off
  · obtain ⟨hsources, hlistener⟩ := h.silent x (w.mem_of_binding? hx) hsilent
    simp [hsources, hlistener] at hs
  · obtain ⟨hservice, hon⟩ := not_or.mp hsilent
    rw [w.id_of_binding? hx] at hon
    exact exists_entry_of_aligned hx (h.aligned hx (by simpa using hservice) hon) hs

/-- A binding that is disconnected, or that could not be made, has no observers any more. -/
theorem Attuned.disconnect (h : Attuned off w) (hx : w.binding? b = some x)
    (hoff : ∀ c, c ≠ b → (c ∈ off' ↔ c ∈ off)) (busy : Bool)
    (hgone : b ∈ off' ∨ x.owned = false ∧ busy = false) :
    Attuned off' ((w.setBusy b busy).disconnect b) := by
  have hwired := h.wired.disconnect hx (fun _ => h.exists_entry hx) busy
  have hreplaces := Replaces.of_disconnect hx busy
  have hrewires := Rewires.unobserveAll w (x.sources ++ x.targetListener.toList)
  rw [disconnect_setBusy hx] at hwired hreplaces ⊢
  refine hreplaces.attuned h (fun _ => rfl) (fun _ => ⟨rfl, rfl⟩) hx hoff hrewires.attr? hwired
    (fun o obs hobs => ?_) (fun hservice hon => ?_) fun _ => ⟨rfl, rfl⟩
  · obtain hold | ⟨c, hc⟩ := hrewires.served o obs hobs
    · exact h.served o obs hold
    · exact ⟨.source, c, hc⟩
  · obtain ⟨howned, hidle⟩ := hgone.resolve_left hon
    simp [Binding.silenced, Binding.inService, howned, hidle] at hservice

end World

end LiveUI
