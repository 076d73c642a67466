import LiveUI.Proofs.World.Announcing
import LiveUI.Proofs.World.Circuits

/-! # Once around

A write to an attribute of a circuit goes on from one attribute to the next one, as long as they
change. All of these are still being announced when the next one is reached, so the binding that would
write the first one again is passed over, and what was written first stays. -/

namespace LiveUI

open World

/-! ## What the journal tells of an attribute -/

/-- An announcement of the attribute begins. -/
def Entry.beginsAt (p : Handle × String) : Entry → Bool
  | .began c => decide (c.At p.1 p.2)
  | _ => false

/-- An observer of the attribute is called. -/
def Entry.callsAt (p : Handle × String) : Entry → Bool
  | .called c _ => decide (c.At p.1 p.2)
  | _ => false

/-- The kinds of entries that an announcement is told by. -/
def Entry.tells (p : Handle × String) (calling : Bool) : Entry → Bool :=
  if calling then Entry.callsAt p else Entry.beginsAt p

namespace World

/-- How often an attribute has been announced, or how often its observers have been called. -/
def told (w : World) (p : Handle × String) (calling : Bool) : ℕ :=
  w.journal.countP (Entry.tells p calling)

variable {w w' w'' : World} {p : Handle × String} {calling : Bool}

theorem told_congr (h : w'.journal = w.journal) : w'.told p calling = w.told p calling := by
  rw [told, h, ← told]

theorem told_log {e : Entry} (h : e.tells p calling = false) :
    (w.log e).told p calling = w.told p calling := by
  simp [told, log, h]

theorem Notices.told (h : Notices w w') : w'.told p calling = w.told p calling := by
  induction h with
  | refl => rfl
  | notice n _ ih => exact (told_log (by cases calling <;> rfl)).trans ih

theorem told_write (w : World) (o : Handle) (attr : String) (v : Value) :
    (w.write o attr v).told p calling = w.told p calling :=
  (told_log (by cases calling <;> rfl)).trans (told_congr rfl)

/-- An announcement that begins and calls an observer is one more of each. -/
theorem told_called (w : World) (c : Change) (obs : ℕ) :
    ((w.beginFlight c).log (.called c obs)).told p calling =
      w.told p calling + if c.At p.1 p.2 then 1 else 0 := by
  have hjournal : ((w.beginFlight c).log (.called c obs)).journal =
      .called c obs :: .began c :: w.journal := rfl
  rw [told, hjournal, told]
  cases calling <;> by_cases hat : c.At p.1 p.2 <;>
    simp [Entry.tells, Entry.beginsAt, Entry.callsAt, hat]

end World

/-! ## From one attribute to the next one -/

/-- A binding has been called with a change of its source, and is about to write its target. -/
structure World.Responds (w : World) (c : Change) (b : ℕ) (x : Binding) (e : World) : Prop where
  network : Network e
  plans : SamePlans w e
  found : ∀ d, (w.binding? d).isSome = true → (e.binding? d).isSome = true
  attr? : ∀ o attr, e.attr? o attr = w.attr? o attr
  isAlive : ∀ o, e.isAlive o = w.isAlive o
  isInFlight : ∀ o attr, e.isInFlight o attr = true ↔ c.At o attr ∨ w.isInFlight o attr = true
  idle : ∀ d, d ≠ b → ∀ y, e.binding? d = some y → ∃ z, w.binding? d = some z ∧ y.busy = z.busy
  owned : ∀ y, e.binding? b = some y → y.owned = true
  consulted : ∀ d, Consulted w d → Consulted e d
  told : ∀ p calling, e.told p calling = w.told p calling + if c.At p.1 p.2 then 1 else 0

/-- The change has been dealt with, and nothing more has come of it. -/
structure World.Settled (e w : World) : Prop where
  attr? : ∀ o attr, w.attr? o attr = e.attr? o attr
  told : ∀ p calling, w.told p calling = e.told p calling

namespace World

variable {w w' : World} {c : Change} {b : ℕ} {x : Binding}

/-- The binding that has been called has been evaluated, and nothing has been written yet. -/
theorem Responds.of_evaluated (h : Network w) (halive : w.isAlive c.object = true) {obs : ℕ}
    (hx : w.binding? b = some x) (hservice : x.inService = true) (hidle : x.busy = false) {v : Value}
    {reads : List (Handle × String)} {w₁ w₂ e : World}
    (hn : Notices ((w.beginFlight c).log (.called c obs)) w₁)
    (hlook : Binding.look { x with busy := true } (w₁.setBusy b true) = (.ok v, reads))
    (hsub : resubscribe b reads ((w₁.setBusy b true).log (.evaluated b (.ok v) reads)) = some ((), w₂))
    (hn' : Notices w₂ e) : w.Responds c b x e := by
  have hcalled : Network ((w.beginFlight c).log (.called c obs)) := (h.beginFlight c).log fun _ => rfl
  have hx₁ : w₁.binding? b = some x := (hn.binding? b).trans hx
  have hset := binding?_setBusy hx₁ true
  have hnet₁ := hn.network hcalled
  have hbegan := hnet₁.setBusy hx₁ (hnet₁.inUse x (w₁.mem_of_binding? hx₁) hservice)
  have heval := (hbegan.evaluated hset (Binding.inService_of_busy rfl) (.ok v) reads).result hsub
  have halike : Alike w (w₁.setBusy b true) :=
    (((Alike.beginFlight w c).trans (.log _ fun _ => rfl)).trans (.notices hn)).trans
      (.setBusy hx₁ (Binding.owned_of_idle hservice hidle) true)
  have hkeeps : Keeps (w₁.setBusy b true) e := heval.keeps.trans hn'.keeps
  refine ⟨hn'.network heval.network, halike.plans.trans hkeeps.samePlans, fun d hd => ?_,
    fun o attr => ?_, fun o => (hkeeps.isAlive o).trans (halike.isAlive o), fun o attr => ?_,
    fun d hd y hy => ?_, fun y hy => ?_, fun d hd => ?_, fun p calling => ?_⟩
  · obtain ⟨y, hy⟩ := Option.isSome_iff_exists.mp hd
    have hfound : ((w₁.setBusy b true).binding? d).isSome = true := by
      rw [setBusy, binding?_modifyBinding w₁ b d (f := fun x => { x with busy := true }) fun _ => rfl,
        hn.binding? d]
      change (if b = d then (w.binding? d).map _ else w.binding? d).isSome = true
      rw [hy]
      split <;> rfl
    obtain ⟨z, hz⟩ := Option.isSome_iff_exists.mp hfound
    obtain ⟨z', hz', -⟩ := hkeeps.exists_core hz
    rw [hz']
    rfl
  · rw [(Alike.notices hn').attr?, heval.attr?, halike.attr?]
  · rw [hkeeps.isInFlight]
    change w₁.isInFlight o attr = true ↔ _
    rw [hn.keeps.isInFlight]
    exact w.isInFlight_beginFlight_iff halive o attr
  · obtain ⟨z, hz, hcore⟩ := hkeeps.exists_binding? hy
    rw [setBusy, binding?_modifyBinding w₁ b d (f := fun x => { x with busy := true }) fun _ => rfl,
      if_neg (Ne.symm hd), hn.binding? d] at hz
    exact ⟨z, hz, congrArg (·.busy) hcore⟩
  · obtain ⟨z, hz, hcore⟩ := hkeeps.exists_binding? hy
    obtain rfl := Option.some.inj (hset.symm.trans hz)
    exact (congrArg (·.owned) hcore).trans (Binding.owned_of_idle hservice hidle)
  · exact (Consulted.evaluated (.inr (hd.alike halike)) hset heval hlook).alike (.notices hn')
  · rw [hn'.told, told_congr (resubscribe_journal hsub), told_log (by cases calling <;> rfl)]
    exact (told_congr rfl).trans (hn.told.trans (w.told_called c obs))

/-- When its work is done, the binding goes home, and the announcement ends. -/
theorem Settled.of_home {e w₁ : World} (hx : e.binding? b = some x) (howned : x.owned = true)
    (hn : Notices (e.setBusy b false) w₁) (c : Change) : Settled e (w₁.endFlight c) := by
  have halike : Alike e (w₁.endFlight c) :=
    ((Alike.setBusy hx howned false).trans (.notices hn)).trans (.endFlight w₁ c)
  refine ⟨halike.attr?, fun p calling => ?_⟩
  have hended : (w₁.endFlight c).told p calling = w₁.told p calling :=
    told_log (by cases calling <;> rfl)
  exact hended.trans hn.told

end World

section Bind

variable {w w' : World} {c : Change} {b : ℕ} {x : Binding} {v : Value}

/-- A bind that is called finds its target under announcement, and nothing happens, or it is evaluated
and writes. -/
theorem Runs.react_bind (h : Network w) (halive : w.isAlive c.object = true) {obs : ℕ}
    (hx : w.binding? b = some x) (hkind : x.kind = .bind) (hservice : x.inService = true)
    (hidle : x.busy = false)
    (hvalue : ∀ u, (∀ o attr, u.attr? o attr = w.attr? o attr) → (x.look u).1 = .ok v)
    (run : Runs (.react c .source b) ((w.beginFlight c).log (.called c obs)) w') :
    ((w.beginFlight c).isInFlight x.target x.attr = true ∧
      Settled ((w.beginFlight c).log (.called c obs)) (w'.endFlight c)) ∨
    (w.beginFlight c).isInFlight x.target x.attr = false ∧ ∃ e e', w.Responds c b x e ∧
      Runs (.set x.target x.attr v) e e' ∧ Settled e' (w'.endFlight c) := by
  cases run with
  | skipped hx' hskip hn =>
      obtain rfl := Option.some.inj (hx.symm.trans hx')
      cases hskip with
      | atWork hbusy => exact absurd (hidle.symm.trans hbusy) (by simp)
      | targetInFlight hflight =>
          have halike := (Alike.notices hn).trans (.endFlight _ c)
          refine .inl ⟨hflight, halike.attr?, fun p calling => ?_⟩
          exact (told_log (by cases calling <;> rfl)).trans hn.told
  | @refreshed _ _ _ _ _ _ e' _ hx' _ hflight hn run hn' =>
      obtain rfl := Option.some.inj (hx.symm.trans hx')
      have hset := binding?_setBusy ((hn.binding? b).trans hx) true
      have hlooked := hvalue (World.setBusy _ b true) fun o attr =>
        ((Alike.notices hn).attr? o attr).trans (w.attr?_beginFlight c o attr)
      cases run with
      | failed hx₁ hlook =>
          obtain rfl := Option.some.inj (hset.symm.trans hx₁)
          exact absurd ((congrArg Prod.fst hlook).symm.trans hlooked) (by simp)
      | evaluated hx₁ hlook hsub hn₁ runStore =>
          obtain rfl := Option.some.inj (hset.symm.trans hx₁)
          obtain rfl := Except.ok.inj ((congrArg Prod.fst hlook).symm.trans hlooked)
          have hreads := Responds.of_evaluated h halive hx hservice hidle hn hlook hsub hn₁
          refine .inr ⟨hflight, _, e', hreads, ?_⟩
          cases runStore with
          | bound hx₂ _ run =>
              obtain ⟨y, hy, hplan, -⟩ := hreads.plans b _ hx₂
              obtain rfl := Option.some.inj (hx.symm.trans hy)
              obtain ⟨-, hkeeps⟩ := run.keeps hreads.network trivial
              obtain ⟨z, hz, hcore⟩ := hkeeps.exists_core hx₂
              rw [hplan.target, hplan.attr] at run
              exact ⟨run, .of_home hz ((congrArg (·.owned) hcore).trans (hreads.owned _ hx₂)) hn' c⟩
          | agreed hx₂ hkind₂ | handedBack hx₂ hkind₂ | unreturned hx₂ hkind₂ =>
              obtain ⟨y, hy, hplan, -⟩ := hreads.plans b _ hx₂
              obtain rfl := Option.some.inj (hx.symm.trans hy)
              exact absurd ((hplan.kind.trans hkind).symm.trans hkind₂) (by simp)

/-- The same is what comes of an attribute that no one but a bind observes. -/
theorem Runs.sole_source (h : Network w) (halive : w.isAlive c.object = true) {obs : Observer}
    (hobs : w.observersOf c.object c.attr = [obs]) (hcall : obs.callback = .source b)
    (hx : w.binding? b = some x) (hkind : x.kind = .bind) (hservice : x.inService = true)
    (hidle : x.busy = false)
    (hvalue : ∀ u, (∀ o attr, u.attr? o attr = w.attr? o attr) → (x.look u).1 = .ok v)
    (run : Runs (.announce c) w w') :
    ((w.beginFlight c).isInFlight x.target x.attr = true ∧
      Settled ((w.beginFlight c).log (.called c obs.id)) w') ∨
    (w.beginFlight c).isInFlight x.target x.attr = false ∧ ∃ e e', w.Responds c b x e ∧
      Runs (.set x.target x.attr v) e e' ∧ Settled e' w' := by
  cases run with
  | unheard hnone => exact absurd (hnone.symm.trans hobs) (List.cons_ne_nil _ _).symm
  | heard _ run =>
      rw [hobs] at run
      cases run with
      | dropped hgone =>
          have hin : obs ∈ w.observersOf c.object c.attr := hobs ▸ List.mem_cons_self
          rw [observers_beginFlight] at hgone
          exact absurd (mem_observersOf.mp hin).1 hgone
      | called _ hcall' run runRest =>
          cases runRest
          obtain ⟨rfl, rfl⟩ := Role.callback_inj (r := .source) (hcall.symm.trans hcall')
          exact run.react_bind h halive hx hkind hservice hidle hvalue

end Bind

/-! ## Along the circuit -/

namespace Circuit

variable {n : ℕ} {r : Circuit n} {k : ZMod n} {i j : ℕ}

theorem add_inj (hi : i < n) (hj : j < n) (h : k + (i : ZMod n) = k + j) : i = j := by
  have hmod := (ZMod.natCast_eq_natCast_iff' i j n).mp (add_left_cancel h)
  rwa [Nat.mod_eq_of_lt hi, Nat.mod_eq_of_lt hj] at hmod

theorem add_succ (k : ZMod n) (i : ℕ) : k + ((i + 1 : ℕ) : ZMod n) = k + i + 1 := by
  push_cast
  ring

/-- The last place leads back to the first one. -/
theorem add_last (h : j + 1 = n) : k + (j : ZMod n) + 1 = k := by
  rw [← add_succ, h, ZMod.natCast_self, add_zero]

variable {o : Handle} {attr : String} {a b : ZMod n}

theorem at_iff (hid : o.id = (r.place a).1.id) (hattr : attr = (r.place a).2) :
    (o.id = (r.place b).1.id ∧ attr = (r.place b).2) ↔ a = b := by
  rw [hid, hattr]
  exact ⟨fun h => r.distinct a b h.1 h.2, fun h => h ▸ ⟨rfl, rfl⟩⟩

theorem attr?_write_place {w : World} (halive : w.isAlive o = true) (hid : o.id = (r.place a).1.id)
    (hattr : attr = (r.place a).2) (v : Value) (b : ZMod n) :
    (w.write o attr v).attr? (r.place b).1 (r.place b).2 =
      if a = b then some v else w.attr? (r.place b).1 (r.place b).2 := by
  rw [w.attr?_write halive]
  refine if_congr ?_ rfl rfl
  rw [← at_iff hid hattr]
  exact and_congr eq_comm eq_comm

end Circuit

namespace World

variable {n : ℕ} {r : Circuit n} {k : ZMod n} {j : ℕ} {w w' : World}

/-- A change is about to be announced `j` places after the first one. -/
structure Wave (r : Circuit n) (k : ZMod n) (j : ℕ) (w : World) : Prop where
  closes : w.Closes r
  flight : ∀ i < n, w.isInFlight (r.place (k + i)).1 (r.place (k + i)).2 = true ↔ i < j
  idle : ∀ i, j ≤ i → i < n → ∀ x, w.binding? (r.binding (k + i)) = some x → x.busy = false
  /-- The equations further on hold. -/
  ahead : ∀ i, j < i → i + 1 < n → w.Satisfies r (k + i)
  /-- The next one held before the change. -/
  held : j + 1 < n → ∃ u, w.HasValue (r.place (k + j + 1)).1 (r.place (k + j + 1)).2 (r.function (k + j) u)

/-- The change has been announced, and so has what came of it. -/
structure Swept (r : Circuit n) (k : ZMod n) (j : ℕ) (w w' : World) : Prop where
  satisfied : ∀ i, j ≤ i → i + 1 < n → w'.Satisfies r (k + i)
  kept : ∀ i ≤ j, w'.attr? (r.place (k + i)).1 (r.place (k + i)).2 =
    w.attr? (r.place (k + i)).1 (r.place (k + i)).2
  told : ∀ i < n, ∀ calling, w'.told (r.place (k + i)) calling ≤
    w.told (r.place (k + i)) calling + if j ≤ i then 1 else 0

namespace Wave

variable {c : Change} {u : Value} (h : Wave r k j w) (hj : j < n)
  (hid : c.object.id = (r.place (k + j)).1.id) (hattr : c.attr = (r.place (k + j)).2)

include hj hid hattr in
theorem at_iff {i : ℕ} (hi : i < n) : c.At (r.place (k + i)).1 (r.place (k + i)).2 ↔ i = j := by
  rw [Change.At, Circuit.at_iff hid hattr]
  exact ⟨fun heq => (Circuit.add_inj hj hi heq).symm, fun heq => heq ▸ rfl⟩

include h hj hid hattr in
theorem flight_iff {i : ℕ} (hi : i < n) : (c.At (r.place (k + i)).1 (r.place (k + i)).2 ∨
    w.isInFlight (r.place (k + i)).1 (r.place (k + i)).2 = true) ↔ i < j + 1 := by
  rw [at_iff hj hid hattr hi, h.flight i hi]
  omega

include h in
/-- Where no attribute has changed but the first one, the equation after it has to be looked at, and
the others hold as before. -/
theorem still (hu : w.attr? (r.place (k + j)).1 (r.place (k + j)).2 = some u)
    (hattrs : ∀ o attr, w'.attr? o attr = w.attr? o attr)
    (htold : ∀ i < n, ∀ calling, w'.told (r.place (k + i)) calling ≤
      w.told (r.place (k + i)) calling + if i = j then 1 else 0)
    (hnext : j + 1 < n → w.HasValue (r.place (k + j + 1)).1 (r.place (k + j + 1)).2 (r.function (k + j) u)) :
    Swept r k j w w' := by
  refine ⟨fun i hi hn => ?_, fun i _ => hattrs _ _, fun i hi calling => ?_⟩
  · refine Satisfies.congr (hattrs _ _) (hattrs _ _) ?_
    rcases Nat.eq_or_lt_of_le hi with rfl | hi
    · exact ⟨u, hu, hnext hn⟩
    · exact h.ahead i hi hn
  · have hle := htold i hi calling
    split at hle <;> split <;> omega

section Next

variable {x : Binding} {e : World} (hx : w.binding? (r.binding (k + j)) = some x)
  (hedge : r.Edge (k + j) x) (hreads : w.Responds c (r.binding (k + j)) x e)

include h hx hedge hreads

/-- The next attribute is written, and nothing else. -/
theorem attr?_write_next (v : Value) (b : ZMod n) :
    (e.write x.target x.attr v).attr? (r.place b).1 (r.place b).2 =
      if k + j + 1 = b then some v else w.attr? (r.place b).1 (r.place b).2 := by
  have halive := (h.closes.network.inUse x (w.mem_of_binding? hx) hedge.inService).alive
  rw [Circuit.attr?_write_place ((hreads.isAlive _).trans halive) hedge.target hedge.attr, hreads.attr?]

/-- No attribute of the circuit but the next one is written. -/
theorem attr?_write_of_ne (v : Value) (hn : j + 1 < n) {i : ℕ} (hi : i < n) (hne : i ≠ j + 1) :
    (e.write x.target x.attr v).attr? (r.place (k + i)).1 (r.place (k + i)).2 =
      w.attr? (r.place (k + i)).1 (r.place (k + i)).2 := by
  rw [h.attr?_write_next hx hedge hreads, if_neg]
  rw [← Circuit.add_succ]
  exact fun heq => hne (Circuit.add_inj hn hi heq).symm

include hid hattr in
/-- The binding that leads on writes the next attribute, and then that is about to be announced. -/
theorem next (v : Value) (hn : j + 1 < n) : Wave r k (j + 1) (e.write x.target x.attr v) := by
  have hj : j < n := Nat.lt_of_succ_lt hn
  have hkeeps := Keeps.write e x.target x.attr v
  have hsucc {i : ℕ} : k + (i : ZMod n) + 1 = k + ((i + 1 : ℕ) : ZMod n) := (Circuit.add_succ k i).symm
  have hcloses : e.Closes r := h.closes.of_plans hreads.network
    (fun b => hreads.consulted b (h.closes.consulted b)) hreads.plans hreads.found
  refine ⟨hcloses.write _ _ _, fun i hi => ?_, fun i hi hin y hy => ?_, fun i hi hin => ?_, fun hin => ?_⟩
  · rw [hkeeps.isInFlight, hreads.isInFlight]
    exact h.flight_iff hj hid hattr hi
  · have hne : r.binding (k + i) ≠ r.binding (k + j) := fun heq =>
      absurd (Circuit.add_inj hin hj (h.closes.binding_inj heq)) (Nat.ne_of_gt hi)
    obtain ⟨z, hz, hbusy⟩ := hreads.idle _ hne y hy
    exact hbusy.trans (h.idle i (Nat.le_of_succ_le hi) hin z hz)
  · refine (h.ahead i (Nat.lt_of_succ_lt hi) hin).congr ?_ ?_
    · exact h.attr?_write_of_ne hx hedge hreads v hn (Nat.lt_of_succ_lt hin) (Nat.ne_of_gt hi)
    · rw [hsucc]
      exact h.attr?_write_of_ne hx hedge hreads v hn hin (by omega)
  · obtain ⟨u, -, hvalue⟩ := h.ahead (j + 1) (Nat.lt_succ_self j) hin
    refine ⟨u, hvalue.congr ?_⟩
    rw [hsucc]
    exact h.attr?_write_of_ne hx hedge hreads v hn hin (by omega)

include hid hattr in
/-- What comes of the next attribute is what comes of this one. -/
theorem swept_of_next {e' : World} {f : Value} (hn : j + 1 < n) (hf : f = r.function (k + j) u)
    (hu : w.attr? (r.place (k + j)).1 (r.place (k + j)).2 = some u)
    (hswept : Swept r k (j + 1) (e.write x.target x.attr f) e') (hsettled : Settled e' w') :
    Swept r k j w w' := by
  have hj : j < n := Nat.lt_of_succ_lt hn
  have hkept {i : ℕ} (hi : i ≤ j) : w'.attr? (r.place (k + i)).1 (r.place (k + i)).2 =
      w.attr? (r.place (k + i)).1 (r.place (k + i)).2 := by
    rw [hsettled.attr?, hswept.kept i (Nat.le_succ_of_le hi)]
    exact h.attr?_write_of_ne hx hedge hreads f hn (Nat.lt_of_le_of_lt hi hj) (by omega)
  refine ⟨fun i hi hin => ?_, fun i => hkept, fun i hi calling => ?_⟩
  · rcases Nat.eq_or_lt_of_le hi with rfl | hi
    · refine ⟨u, (hkept (Nat.le_refl _)).trans hu, f, ?_, .inl hf⟩
      have hthere := hswept.kept (j + 1) (Nat.le_refl _)
      rw [Circuit.add_succ, h.attr?_write_next hx hedge hreads, if_pos rfl] at hthere
      exact (hsettled.attr? _ _).trans hthere
    · exact (hswept.satisfied i hi hin).congr (hsettled.attr? _ _) (hsettled.attr? _ _)
  · have htold := hswept.told i hi calling
    have hcalled := hreads.told (r.place (k + i)) calling
    rw [told_write] at htold
    rw [hsettled.told]
    simp only [at_iff hj hid hattr hi] at hcalled
    split at htold <;> split at hcalled <;> split <;> omega

end Next

include h hj hid hattr in
/-- The last place is the only one that leads to a place that is being announced. -/
theorem isInFlight_next (halive : w.isAlive c.object = true) {x : Binding} (hedge : r.Edge (k + j) x) :
    (w.beginFlight c).isInFlight x.target x.attr = true ↔ j + 1 = n := by
  have hsame : (w.beginFlight c).isInFlight x.target x.attr =
      (w.beginFlight c).isInFlight (r.place (k + j + 1)).1 (r.place (k + j + 1)).2 := by
    rw [isInFlight, object?_congr _ hedge.target, hedge.attr, ← isInFlight]
  rw [hsame, w.isInFlight_beginFlight_iff halive]
  rcases Nat.lt_or_eq_of_le (Nat.succ_le_of_lt hj) with hn | hn
  · rw [← Circuit.add_succ, h.flight_iff hj hid hattr hn]
    omega
  · have hfirst := h.flight_iff hj hid hattr (i := 0) (Nat.zero_lt_of_lt hj)
    rw [Nat.cast_zero, add_zero] at hfirst
    rw [Circuit.add_last hn, hfirst]
    omega

/-- A change sweeps around the circuit as far as the attributes change, and is cut where it would come
back to the first one. -/
theorem sweep {j : ℕ} {w w' : World} {c : Change} {u : Value} (h : Wave r k j w) (hj : j < n)
    (hid : c.object.id = (r.place (k + j)).1.id) (hattr : c.attr = (r.place (k + j)).2)
    (hu : w.attr? (r.place (k + j)).1 (r.place (k + j)).2 = some u)
    (run : Runs (.announce c) w w') : Swept r k j w w' := by
  obtain ⟨x, hx, hedge⟩ := h.closes.edge (k + j)
  have halive : w.isAlive c.object = true := by
    rw [isAlive, w.object?_congr hid]
    exact h.closes.alive (k + j)
  rcases h.closes.observersOf_eq hid hattr with hnone | ⟨obs, hobs⟩
  · -- Nobody observes the attribute, so the next one does not depend on it.
    cases run with
    | heard hsome => exact absurd hnone hsome
    | unheard =>
        refine h.still hu (fun _ _ => rfl) (fun _ _ _ => Nat.le_add_right _ _) fun hn => ?_
        obtain ⟨u', hvalue⟩ := h.held hn
        rwa [h.closes.constant hid hattr hnone u u']
  · have hcall := h.closes.callback hid hattr (hobs ▸ List.mem_cons_self)
    have hvalue : ∀ e, (∀ o attr, e.attr? o attr = w.attr? o attr) →
        (x.look e).1 = .ok (r.function (k + j) u) :=
      fun e hattrs => hedge.computes.value e u ((hattrs _ _).trans hu)
    have hbusy := h.idle j (Nat.le_refl j) hj x hx
    rcases run.sole_source h.closes.network halive hobs hcall hx hedge.kind hedge.inService hbusy hvalue with
      ⟨hflight, hsettled⟩ | ⟨hflight, e, e', hreads, runSet, hsettled⟩
    · -- The binding is the one that would write the first attribute.
      have hlast := (h.isInFlight_next hj hid hattr halive hedge).mp hflight
      have hcalled := (Alike.beginFlight w c).trans (.log _ (e := .called c obs.id) fun _ => rfl)
      refine h.still hu (fun o attr => (hsettled.attr? o attr).trans (hcalled.attr? o attr))
        (fun i hi calling => ?_) fun hn => absurd hlast (Nat.ne_of_lt hn)
      rw [hsettled.told, told_called]
      simp only [at_iff hj hid hattr hi]
      exact Nat.le_refl _
    · have hn : j + 1 < n := Nat.lt_of_le_of_ne hj fun heq =>
        absurd ((h.isInFlight_next hj hid hattr halive hedge).mpr heq) (by simp [hflight])
      cases runSet with
      | @unchanged _ _ _ old _ hold hequal =>
          refine h.still hu (fun o attr => (hsettled.attr? o attr).trans (hreads.attr? o attr))
            (fun i hi calling => ?_) fun _ => ⟨old, ?_, .inr hequal⟩
          · rw [hsettled.told, hreads.told]
            simp only [at_iff hj hid hattr hi]
            exact Nat.le_refl _
          · rw [← w.attr?_congr hedge.target, ← hedge.attr, ← hreads.attr?]
            exact hold
      | changed _ run =>
          have hnext := h.next hid hattr hx hedge hreads (r.function (k + j) u) hn
          have hthere := h.attr?_write_next hx hedge hreads (r.function (k + j) u) (k + j + 1)
          rw [if_pos rfl, ← Circuit.add_succ] at hthere
          have hswept := hnext.sweep hn (hedge.target.trans (by rw [Circuit.add_succ]))
            (hedge.attr.trans (by rw [Circuit.add_succ])) hthere run
          exact h.swept_of_next hid hattr hx hedge hreads hn rfl hu hswept hsettled
termination_by n - j

end Wave

/-- A write from outside is about to be announced. -/
theorem Wave.first (hn : 1 < n) (h : w.Closes r) (hrest : w.Resting)
    (hsat : ∀ i, i + 1 ≠ k → w.Satisfies r i) (v : Value) :
    Wave r k 0 (w.write (r.place k).1 (r.place k).2 v) := by
  have hsucc {i : ℕ} : k + (i : ZMod n) + 1 = k + ((i + 1 : ℕ) : ZMod n) := (Circuit.add_succ k i).symm
  have hfirst : k + ((0 : ℕ) : ZMod n) = k := by rw [Nat.cast_zero, add_zero]
  have hne {i : ℕ} (hpos : 0 < i) (hi : i < n) : k ≠ k + (i : ZMod n) := fun heq =>
    absurd (Circuit.add_inj (Nat.zero_lt_of_lt hn) hi (hfirst.trans heq)) (Nat.ne_of_lt hpos)
  have hattr {i : ℕ} (hpos : 0 < i) (hi : i < n) :
      (w.write (r.place k).1 (r.place k).2 v).attr? (r.place (k + i)).1 (r.place (k + i)).2 =
        w.attr? (r.place (k + i)).1 (r.place (k + i)).2 := by
    rw [Circuit.attr?_write_place (h.alive k) rfl rfl, if_neg (hne hpos hi)]
  have hheld {i : ℕ} (hi : i + 1 < n) : w.Satisfies r (k + i) := by
    refine hsat _ fun heq => hne (Nat.succ_pos i) hi ?_
    rw [← hsucc, heq]
  refine ⟨h.write _ _ _, fun i _ => ?_, fun i _ _ x hx => hrest.idle _ x hx, fun i hpos hi => ?_, fun hi => ?_⟩
  · rw [(Keeps.write _ _ _ _).isInFlight, hrest.quiet]
    simp
  · refine (hheld hi).congr (hattr hpos (Nat.lt_of_succ_lt hi)) ?_
    rw [hsucc]
    exact hattr (Nat.succ_pos i) hi
  · obtain ⟨u, -, hvalue⟩ := hheld hi
    refine ⟨u, hvalue.congr ?_⟩
    rw [hsucc]
    exact hattr (Nat.succ_pos 0) hi

end World

/-! ## Once around -/

namespace Circuit

variable {n : ℕ} {r : Circuit n} {k : ZMod n} {v : Value} {w w' : World}

/-- A value has been written at a place, and what came of it. -/
structure Round (r : Circuit n) (k : ZMod n) (v : Value) (w w' : World) : Prop where
  closes : w'.Closes r
  resting : w'.Resting
  /-- A value that equals the one that is there is not written. -/
  written : w'.attr? (r.place k).1 (r.place k).2 = some v ∨
    w' = w ∧ ∃ old, w.attr? (r.place k).1 (r.place k).2 = some old ∧ (old == v) = true
  satisfied : ∀ i, i + 1 ≠ k → w'.Satisfies r i
  once : ∃ entries, w'.journal = entries ++ w.journal ∧ ∀ i,
    entries.countP (Entry.beginsAt (r.place i)) ≤ 1 ∧ entries.countP (Entry.callsAt (r.place i)) ≤ 1

/-- Every place but the one before the first one is some steps after it, with one to come. -/
theorem exists_steps (hn : 0 < n) (k i : ZMod n) : ∃ m < n, i = k + m ∧ (i + 1 ≠ k → m + 1 < n) := by
  have : NeZero n := ⟨Nat.ne_of_gt hn⟩
  have hi : i = k + ((i - k).val : ZMod n) := by rw [ZMod.natCast_zmod_val, add_sub_cancel]
  have hlt : (i - k).val < n := ZMod.val_lt _
  refine ⟨(i - k).val, hlt, hi, fun hne => Nat.lt_of_le_of_ne hlt fun hlast => hne ?_⟩
  rw [hi]
  exact add_last hlast

theorem Round.of_run (hn : 1 < n) (h : w.Closes r) (hrest : w.Resting)
    (hsat : ∀ i, i + 1 ≠ k → w.Satisfies r i)
    (run : Runs (.set (r.place k).1 (r.place k).2 v) w w') : r.Round k v w w' := by
  obtain ⟨hnet, hkeeps⟩ := run.keeps h.network trivial
  have hcloses := h.run run trivial
  have hresting := hrest.keeps hkeeps
  cases run with
  | unchanged hold hequal => exact ⟨hcloses, hresting, .inr ⟨rfl, _, hold, hequal⟩, hsat, [], rfl, by simp⟩
  | changed _ run =>
      have hfirst : k + ((0 : ℕ) : ZMod n) = k := by rw [Nat.cast_zero, add_zero]
      have hself := w.attr?_write_self (r.place k).2 v (h.alive k)
      have hswept := (Wave.first hn h hrest hsat v).sweep (Nat.zero_lt_of_lt hn) (by rw [hfirst])
        (by rw [hfirst]) (by rwa [hfirst]) run
      have hkept := hswept.kept 0 (Nat.le_refl 0)
      rw [hfirst] at hkept
      refine ⟨hcloses, hresting, .inl (hkept.trans hself), fun i hi => ?_, ?_⟩
      · obtain ⟨m, -, rfl, hlast⟩ := exists_steps (Nat.zero_lt_of_lt hn) k i
        exact hswept.satisfied m (Nat.zero_le m) (hlast hi)
      · obtain ⟨entries, hjournal⟩ := hkeeps.journal
        have honce (calling : Bool) (i : ZMod n) : entries.countP (Entry.tells (r.place i) calling) ≤ 1 := by
          obtain ⟨m, hm, rfl, -⟩ := exists_steps (Nat.zero_lt_of_lt hn) k i
          have htold := hswept.told m hm calling
          rw [told_write, told, ← hjournal, List.countP_append, told] at htold
          simp only [Nat.zero_le, if_true] at htold
          omega
        exact ⟨entries, hjournal.symm, fun i => ⟨honce false i, honce true i⟩⟩

end Circuit

open World Step

/-- A write to an attribute of a circuit is cut after one turn. -/
theorem circuit_cut {n : ℕ} (hn : 1 < n) {r : Circuit n} {w : World} (h : w.Closes r)
    (hrest : w.Resting) {k : ZMod n} (hsat : ∀ i, i + 1 ≠ k → w.Satisfies r i) (v : Value) {depth : ℕ}
    (hdepth : w.bindings.length < depth) :
    ∃ changed w', setAttr (announce depth) (r.place k).1 (r.place k).2 v w = some (changed, w') ∧
      r.Round k v w w' := by
  have hidle : w.idle < depth := Nat.lt_of_le_of_lt List.countP_le_length hdepth
  obtain ⟨changed, w', heq, run⟩ :=
    setAttr_runs (announce_runs depth) h.network hidle (r.place k).1 (r.place k).2 v
  exact ⟨changed, w', heq, .of_run hn h hrest hsat run⟩

/-- An object with two attributes. -/
def boardWorld : World :=
  { objects := [{ handle := ⟨1, "Pair"⟩, attrs := [("a", .bool true), ("b", .bool true)] }], nextObject := 2 }

/-- Each of them is made of the other one, and they never agree. -/
def seesawRequests : List Request :=
  [.bind { target := ⟨1, "Pair"⟩, attr := "b", frame := {}, label := "b << a" }
    (.attr (.const (.object ⟨1, "Pair"⟩)) "a"),
   .bind { target := ⟨1, "Pair"⟩, attr := "a", frame := {}, label := "a << not b" }
    (.unary .not (.attr (.const (.object ⟨1, "Pair"⟩)) "b"))]

def seesaw : Circuit 2 where
  place i := (⟨1, "Pair"⟩, if i = 0 then "a" else "b")
  function i := if i = 0 then id else fun v => .bool !v.isTruthy
  binding i := i.val
  distinct := by decide

/-- Both bindings have been made, and the world is as `p` says. -/
def seesawWorld (p : World → Bool) : Bool :=
  (Request.performAll (announce 5) seesawRequests boardWorld).any fun q =>
    q.2.bindings.map (fun x => (x.id, x.attr, x.inService)) == [(0, "b", true), (1, "a", true)] && p q.2

theorem exists_of_seesawWorld {p : World → Bool} (h : seesawWorld p = true) :
    ∃ w : World, w.Closes seesaw ∧ w.Resting ∧ w.bindings.length = 2 ∧ p w = true := by
  obtain ⟨⟨⟨⟩, w⟩, hw, h⟩ := (Option.any_eq_true _ _).mp h
  obtain ⟨hbindings, hp⟩ := Bool.and_eq_true_iff.mp h
  have hquiet : boardWorld.Quiet := .of_objects (by decide) rfl rfl
  have hready : ∀ r ∈ seesawRequests, r.Ready boardWorld := by
    intro r hr
    simp only [seesawRequests, List.mem_cons, List.not_mem_nil, or_false] at hr
    rcases hr with rfl | rfl
    · exact ⟨rfl, .of_callsBuiltins rfl _⟩
    · exact ⟨rfl, .of_callsBuiltins rfl _⟩
  obtain ⟨hnet, hrest, hconsulted, hasked⟩ := (Request.performAll_consulted hquiet.network
    hquiet.resting hquiet.consulted hready (n := 5) (by decide)).result hw
  obtain ⟨x, rest, hlist, hx, hrest'⟩ := List.map_eq_cons_iff.mp (beq_iff_eq.mp hbindings)
  obtain ⟨y, rfl, hy⟩ := List.map_eq_singleton_iff.mp hrest'
  simp only [Prod.mk.injEq] at hlist hx hy
  have hfound : w.binding? 0 = some x ∧ w.binding? 1 = some y := by
    simp [World.binding?, hlist, hx.1, hy.1]
  -- What a binding writes tells which request it was made for.
  have hplan {b : ℕ} {z : Binding} (hz : w.binding? b = some z) : ∃ r ∈ seesawRequests, r.Asks z := by
    refine (hasked b z hz).resolve_left ?_
    rintro ⟨_, hnone, -⟩
    simp [World.binding?, boardWorld] at hnone
  simp only [seesawRequests, List.exists_mem_cons_iff, List.not_mem_nil, false_and, exists_false,
    or_false, Request.Asks] at hplan
  have hdenotes (attr : String) :
      Code.Denotes {} (.attr (.const (.object ⟨1, "Pair"⟩)) attr) ⟨1, "Pair"⟩ attr := ⟨_, rfl, .inl rfl⟩
  have hforth : seesaw.Edge 0 x := by
    rcases hplan hfound.1 with hplan | hplan
    · refine ⟨hplan.kind, hx.2.2, congrArg (·.id) hplan.target, hplan.attr, ?_⟩
      rw [hplan.code, hplan.frame]
      exact .of_denotes (hdenotes "a")
    · have hattr : "b" = "a" := hx.2.1.symm.trans hplan.attr
      exact absurd hattr (by decide)
  have hback : seesaw.Edge 1 y := by
    rcases hplan hfound.2 with hplan | hplan
    · have hattr : "a" = "b" := hy.2.1.symm.trans hplan.attr
      exact absurd hattr (by decide)
    · refine ⟨hplan.kind, hy.2.2, congrArg (·.id) hplan.target, hplan.attr, ?_⟩
      rw [hplan.code, hplan.frame]
      exact .unary (.of_denotes (hdenotes "b")) fun _ => rfl
  refine ⟨w, ⟨hnet, hconsulted, fun i => ?_, fun b z hz _ => ?_⟩, hrest, by simp [hlist], hp⟩
  · fin_cases i
    · exact ⟨x, hfound.1, hforth⟩
    · exact ⟨y, hfound.2, hback⟩
  · have hmem := w.mem_of_binding? hz
    have hid := w.id_of_binding? hz
    rw [hlist] at hmem
    rcases List.mem_pair.mp hmem with rfl | rfl
    · exact ⟨0, hid.symm.trans hx.1⟩
    · exact ⟨1, hid.symm.trans hy.1⟩

/-- A write to one of them leaves the other one as its binding has it. -/
theorem circuit_cut_seesaw : ∃ w : World, w.Closes seesaw ∧ w.Resting ∧
    (∀ i, i + 1 ≠ 0 → w.Satisfies seesaw i) ∧ ∃ changed w',
      setAttr (announce 3) (seesaw.place 0).1 (seesaw.place 0).2 (.bool true) w = some (changed, w') ∧
      seesaw.Round 0 (.bool true) w w' := by
  have hmade : seesawWorld (fun w => (w.attr? ⟨1, "Pair"⟩ "a").any fun u =>
      (w.attr? ⟨1, "Pair"⟩ "b").any (· == u)) = true := by decide +kernel
  obtain ⟨w, hcloses, hrest, hlength, hvalues⟩ := exists_of_seesawWorld hmade
  have hsat : ∀ i, i + 1 ≠ 0 → w.Satisfies seesaw i := by
    intro i hi
    obtain ⟨u, hu, hvalues⟩ := (Option.any_eq_true _ _).mp hvalues
    obtain ⟨s, hs, hequal⟩ := (Option.any_eq_true _ _).mp hvalues
    fin_cases i
    · exact ⟨u, hu, s, hs, .inr hequal⟩
    · exact absurd rfl hi
  exact ⟨w, hcloses, hrest, hsat, circuit_cut (by decide) hcloses hrest hsat (.bool true) (by omega)⟩

/-- The attribute after this one equals what the function makes of the value here. -/
def World.Equates {n : ℕ} (w : World) (r : Circuit n) (i : ZMod n) : Prop :=
  ∃ u s, w.attr? (r.place i).1 (r.place i).2 = some u ∧
    w.attr? (r.place (i + 1)).1 (r.place (i + 1)).2 = some s ∧ (s == r.function i u) = true

/-- A value that is not a number goes on to the next attribute and does not equal itself there. -/
theorem circuit_cut_not_equal : ∃ w : World, w.Closes seesaw ∧ w.Resting ∧
    (∀ i, i + 1 ≠ 0 → w.Equates seesaw i) ∧ ∃ w',
      setAttr (announce 3) (seesaw.place 0).1 (seesaw.place 0).2 (.float (0 / 0)) w = some (true, w') ∧
      ¬ w'.Equates seesaw 0 := by
  have hmade : seesawWorld (fun w => ((w.attr? ⟨1, "Pair"⟩ "a").any fun u =>
        (w.attr? ⟨1, "Pair"⟩ "b").any (· == u)) &&
      (setAttr (announce 3) ⟨1, "Pair"⟩ "a" (.float (0 / 0)) w).any fun q => q.1 &&
        (q.2.attr? ⟨1, "Pair"⟩ "a").any fun u => (q.2.attr? ⟨1, "Pair"⟩ "b").any fun s => !(s == u)) = true := by
    decide +kernel
  obtain ⟨w, hcloses, hrest, -, hruns⟩ := exists_of_seesawWorld hmade
  obtain ⟨hvalues, hruns⟩ := Bool.and_eq_true_iff.mp hruns
  obtain ⟨⟨changed, w'⟩, hset, hruns⟩ := (Option.any_eq_true _ _).mp hruns
  obtain ⟨rfl, hruns⟩ := Bool.and_eq_true_iff.mp hruns
  refine ⟨w, hcloses, hrest, fun i hi => ?_, w', hset, ?_⟩
  · obtain ⟨u, hu, hvalues⟩ := (Option.any_eq_true _ _).mp hvalues
    obtain ⟨s, hs, hequal⟩ := (Option.any_eq_true _ _).mp hvalues
    fin_cases i
    · exact ⟨u, s, hu, hs, hequal⟩
    · exact absurd rfl hi
  · obtain ⟨u, hu, hruns⟩ := (Option.any_eq_true _ _).mp hruns
    obtain ⟨s, hs, hdiffer⟩ := (Option.any_eq_true _ _).mp hruns
    rintro ⟨u', s', hu', hs', hequal⟩
    obtain rfl := Option.some.inj (hu.symm.trans hu')
    obtain rfl := Option.some.inj (hs.symm.trans hs')
    have hdiffer : (s == u) = false := by simpa using hdiffer
    exact absurd (hdiffer.symm.trans hequal) (by decide)

end LiveUI
