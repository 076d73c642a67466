import Mathlib.Logic.Relation
import LiveUI.Proofs.World.Flooding
import LiveUI.Proofs.World.Requests

/-! # Delegates agree

After every request the ends of each delegate hold equal values, and so do all attributes that
delegates connect. -/

namespace LiveUI

namespace World

variable {w w' : World}

/-- The delegates of a network at rest are in step. -/
structure Synced (w : World) : Prop where
  mesh : Mesh w
  resting : Resting w
  plain : PlainAttrs w
  inSync : ∀ b, InSync w b

theorem Quiet.synced (h : Quiet w) (hplain : PlainAttrs w) : Synced w := by
  have hnone : ∀ b x, w.binding? b = some x → x.inService ≠ true := by
    intro b x hx hservice
    exact absurd ((h.released x (w.mem_of_binding? hx)).1.symm.trans hservice) (by simp)
  refine ⟨⟨h.network, fun b x hx hs => (hnone b x hx hs).elim,
    fun b x hx hs => (hnone b x hx hs).elim, fun b x hx howned => ?_⟩, h.resting, hplain,
    fun b x hx hs => (hnone b x hx hs).elim⟩
  exact (hnone b x hx (by simp [Binding.inService, howned])).elim

theorem Resting.flooded {k : Value} (h : Resting w) (o : Handle) (attr : String) :
    Flooded k w o attr := by
  refine ⟨fun b x hx hbusy => ?_, fun p other hflight => ?_⟩
  · exact absurd ((h.idle b x hx).symm.trans hbusy) (by simp)
  · exact absurd ((h.quiet p other).symm.trans hflight) (by simp)

/-- What a flood leaves behind is in step, for there is nothing under way. -/
theorem Mesh.synced (h : Mesh w) (hrest : Resting w) {k : Value} {work : Work} (run : Runs work w w')
    (hready : work.Ready w) (hdone : work.Flooded k (fun _ => False) w w') : Synced w' := by
  obtain ⟨-, hkeeps⟩ := run.keeps h.network hready
  exact ⟨h.run run hready, hrest.keeps hkeeps, hdone.plain,
    fun b => (hdone.settles b).elim id fun hstale => hstale.1.elim⟩

/-! ## Writing -/

section Writing

variable {o : Handle} {attr : String} {u : Value}

/-- Nothing can be written in an object that is gone. -/
theorem Synced.write_dead (h : Synced w) (hdead : w.isAlive o = false) :
    Synced (w.write o attr u) := by
  have hkeeps := Keeps.write w o attr u
  have hattr : ∀ p other, (w.write o attr u).attr? p other = w.attr? p other :=
    w.attr?_write_of_dead attr u hdead
  exact ⟨h.mesh.write o attr u, h.resting.keeps hkeeps, h.plain.same hattr,
    fun b => (h.inSync b).keeps hkeeps hattr⟩

theorem Synced.announced (h : Synced w) (hu : u.plain = true)
    (run : Runs (.announce ⟨o, attr, w.stored o attr, u⟩) (w.write o attr u) w') :
    Synced w' ∧ (w.isAlive o = true → Carries w' o attr u.bare) := by
  cases halive : w.isAlive o with
  | true =>
      have hfloods : (Work.set o attr u).Floods u.bare (fun _ => False) w :=
        ⟨hu, rfl, h.resting.flooded o attr, halive, fun b => .inl (h.inSync b)⟩
      have hdone := run.floods (h.mesh.write o attr u) trivial (h.plain.write halive hu)
        (hfloods.announce h.mesh)
      have hrest := h.resting.keeps (Keeps.write w o attr u)
      exact ⟨(h.mesh.write o attr u).synced hrest run trivial hdone,
        fun _ => hdone.spreads _ _ (.write halive rfl)⟩
  | false =>
      have hsilent : (w.write o attr u).observersOf o attr = [] := by
        have hnone : w.observers o = [] := by
          cases hx : w.object? o with
          | none => simp [observers, hx]
          | some x => simp [isAlive, hx] at halive
        rw [observersOf_eq_filter, observers_write, hnone]
        rfl
      cases run with
      | unheard => exact ⟨h.write_dead halive, by simp⟩
      | heard hsome => exact (hsome hsilent).elim

theorem Synced.set (h : Synced w) (hu : u.plain = true) (run : Runs (.set o attr u) w w') :
    Synced w' ∧ (w.isAlive o = true → Carries w' o attr u.bare) := by
  cases run with
  | unchanged hold heq =>
      exact ⟨h, fun _ => ⟨_, hold, (Value.eq_iff_bare (h.plain o attr _ hold) hu).mp heq⟩⟩
  | changed _ run => exact h.announced hu run

end Writing

/-! ## Making a delegate -/

section Making

variable {site : Site} {code : Code} {o : Handle} {attr : String} {b : Nat} {x : Binding}

theorem Mesh.begin (h : Mesh w) (halive : w.isAlive site.target = true)
    (hdenotes : code.Denotes site.frame o attr) (hlive : w.isAlive o = true) :
    Mesh (w.begin site .delegate code) := by
  have hbinding := @Network.binding?_begin _ site .delegate code h.network
  obtain ⟨hnet, -⟩ :=
    h.network.begin halive hdenotes.hostFree (by simp : BindingKind.delegate ≠ .notify)
  refine ⟨hnet, fun c x hx hservice => ?_, fun c x hx hservice p other hjoins result reads hlast => ?_,
    fun c x hx howned => ?_⟩
  · rw [hbinding] at hx
    split at hx
    · obtain rfl := Option.some.inj hx
      exact ⟨rfl, o, attr, hdenotes, hlive⟩
    · exact h.delegates c x hx hservice
  · rw [hbinding] at hx
    split at hx
    next hc =>
      have hnone := h.network.unevaluated c (Nat.le_of_eq hc.symm)
      exact absurd (hnone.symm.trans hlast) (by simp)
    next => exact h.listening c x hx hservice p other hjoins result reads hlast
  · rw [hbinding] at hx
    split at hx
    · obtain rfl := Option.some.inj hx
      simp [Site.record] at howned
    · exact h.started c x hx howned

theorem Homes.mesh {owned : Bool} (h : Homes w b owned w') (hw : Mesh w)
    (hx : w.binding? b = some x) (hbusy : x.busy = true)
    (hevaluated : ∃ evaluation, w.lastEvaluation? b = some evaluation) : Mesh w' := by
  have hlast : ∀ c, w'.lastEvaluation? c = w.lastEvaluation? c := by
    intro c
    rw [lastEvaluation?, h.journal]
    rfl
  refine ⟨h.network, fun c y hy hservice => ?_, fun c y hy hservice p other hjoins result reads hlast' => ?_,
    fun c y hy howned => ?_⟩
  · obtain ⟨z, hz, hplan, heq⟩ := h.samePlanAt hx hbusy hy hservice y hy
    obtain ⟨hkind, p, other, hjoins, hlive⟩ := hw.delegates c z hz (heq.symm.trans hservice)
    exact ⟨hplan.kind.trans hkind, p, other, hplan.joins.mpr hjoins, (h.isAlive p).trans hlive⟩
  · obtain ⟨z, hz, hplan, heq⟩ := h.samePlanAt hx hbusy hy hservice y hy
    rw [hlast] at hlast'
    exact hw.listening c z hz (heq.symm.trans hservice) p other (hplan.joins.mp hjoins) result
      reads hlast'
  · rw [hlast]
    by_cases hc : c = b
    · exact hc ▸ hevaluated
    · exact hw.started c y ((h.other c hc).symm.trans hy) howned

end Making

end World

open World

/-- A refresh puts an evaluation on record. -/
theorem Runs.exists_lastEvaluation? {b : Nat} {result : Except EvalError Unit} {w w' : World}
    (run : Runs (.refresh b result) w w') (hw : Network w)
    (hready : (Work.refresh b result).Ready w) :
    ∃ evaluation, w'.lastEvaluation? b = some evaluation := by
  obtain ⟨y, hy, hbusy⟩ := hready
  cases run with
  | failed hx hlook hsub hn =>
      have heval := (hw.evaluated hy (Binding.inService_of_busy hbusy) _ _).result hsub
      exact ⟨_, ((Alike.notices hn).lastEvaluation? b).trans
        ((heval.lastEvaluation? b).trans (if_pos rfl))⟩
  | evaluated hx hlook hsub hn run =>
      have heval := (hw.evaluated hy (Binding.inService_of_busy hbusy) _ _).result hsub
      have hkeeps := heval.keeps.trans hn.keeps
      obtain ⟨-, hkeeps'⟩ := run.keeps (hn.network heval.network) (hkeeps.exists_busy hy hbusy)
      have hlast := (heval.lastEvaluation? b).trans (if_pos rfl)
      exact exists_findSome?_of_suffix (hn.keeps.journal.trans hkeeps'.journal) hlast

/-- The first evaluation of a delegate leaves the others in step. It succeeds when there is something
at the other end, and brings both ends to one value then. -/
theorem World.Synced.refreshed {w w₁ : World} (h : Synced w) {site : Site} {code : Code} {o : Handle}
    {attr : String} (hbegun : Mesh (w.begin site .delegate code))
    (hdenotes : code.Denotes site.frame o attr) {result : Except EvalError Unit}
    (run : Runs (.refresh w.nextBinding result) (w.begin site .delegate code) w₁) :
    PlainAttrs w₁ ∧ (∀ c, c ≠ w.nextBinding → InSync w₁ c) ∧
      result.isOk = (w.attr? o attr).isSome ∧
      (result.isOk = true → ∃ k, Carries w₁ site.target site.attr k ∧ Carries w₁ o attr k) := by
  have hbinding := @Network.binding?_begin _ site .delegate code h.mesh.network
  have hset := (hbinding w.nextBinding).trans (if_pos rfl)
  have hready : (Work.refresh w.nextBinding result).Ready (w.begin site .delegate code) :=
    ⟨_, hset, rfl⟩
  have hothers : ∀ c, c ≠ w.nextBinding → InSync (w.begin site .delegate code) c := by
    intro c hc
    refine (h.inSync c).of_same (fun x hx hservice hbusy => ?_) fun _ _ => rfl
    rw [hbinding, if_neg hc] at hx
    exact ⟨x, hx, .refl x, hservice, hbusy⟩
  -- What there is at the other end floods the network. Where there is nothing, the evaluation fails
  -- and everything stays as it is.
  cases hvalue : w.attr? o attr with
  | some s =>
      have hcarries : Carries (w.begin site .delegate code) o attr s.bare := ⟨s, hvalue, rfl⟩
      have hflooded : Flooded s.bare (w.begin site .delegate code) site.target site.attr := by
        refine ⟨fun c x hx hbusy p other hjoins => ?_, fun p other hflight => ?_⟩
        · rw [hbinding] at hx
          split at hx
          · obtain rfl := Option.some.inj hx
            obtain ⟨rfl, rfl⟩ := Binding.Joins.unique (x := site.record .delegate code w.nextBinding)
              hdenotes hjoins
            exact ⟨.inl ⟨rfl, rfl⟩, .inr hcarries⟩
          · exact absurd ((h.resting.idle c x hx).symm.trans hbusy) (by simp)
        · exact absurd ((h.resting.quiet p other).symm.trans hflight) (by simp)
      have hfloods : (Work.refresh w.nextBinding result).Floods s.bare (fun _ => False)
          (w.begin site .delegate code) := by
        refine ⟨fun x p other hx hjoins => ?_, fun c => .inl ?_⟩
        · obtain rfl := Option.some.inj (hset.symm.trans hx)
          obtain ⟨rfl, rfl⟩ := Binding.Joins.unique (x := site.record .delegate code w.nextBinding)
            hdenotes hjoins
          exact ⟨hcarries, hflooded⟩
        · by_cases hc : c = w.nextBinding
          · subst hc
            exact .of_busy hset rfl
          · exact hothers c hc
      have hdone := run.floods hbegun hready h.plain hfloods
      obtain ⟨-, hkeeps⟩ := run.keeps hbegun.network hready
      obtain ⟨x, hx, hcore⟩ := hkeeps.exists_core hset
      have hplan := Binding.SamePlan.of_core hcore
      obtain ⟨rfl, hreached⟩ := hdone.reached
      obtain ⟨htarget, hsource⟩ := hreached x o attr hx (hplan.joins.mpr hdenotes)
      rw [hplan.target, hplan.attr] at htarget
      exact ⟨hdone.plain, fun c _ => (hdone.settles c).elim id fun hstale => hstale.1.elim, rfl,
        fun _ => ⟨s.bare, htarget, hsource⟩⟩
  | none =>
      have hlook : ∀ x, (w.begin site .delegate code).binding? w.nextBinding = some x →
          ∃ e, (x.look (w.begin site .delegate code)).1 = .error e := by
        intro x hx
        obtain rfl := Option.some.inj (hset.symm.trans hx)
        refine ⟨.missingAttribute o.typeName attr, ?_⟩
        have hjoins : ({ site.record .delegate code w.nextBinding with busy := true } :
            Binding).Joins o attr := hdenotes
        have hmissing : (w.begin site .delegate code).attr? o attr = none := hvalue
        rw [hjoins.look_eq, hmissing]
        rfl
      cases run with
      | failed hx hlooked hsub hn =>
          have heval := (hbegun.network.evaluated hset rfl _ _).result hsub
          have halike := Alike.notices hn
          have hattr : ∀ p other, w₁.attr? p other = (w.begin site .delegate code).attr? p other :=
            fun p other => (halike.attr? p other).trans (heval.attr? p other)
          exact ⟨h.plain.same hattr,
            fun c hc => (hothers c hc).keeps (heval.keeps.trans hn.keeps) hattr, rfl, nofun⟩
      | evaluated hx hlooked hsub hn run =>
          obtain ⟨e, he⟩ := hlook _ hx
          rw [hlooked] at he
          cases he

theorem World.Synced.delegate {w w₁ w' : World} (h : Synced w) {site : Site} {code : Code}
    {o : Handle} {attr : String} (halive : w.isAlive site.target = true)
    (hdenotes : code.Denotes site.frame o attr) (hlive : w.isAlive o = true)
    {result : Except EvalError Unit}
    (run : Runs (.refresh w.nextBinding result) (w.begin site .delegate code) w₁)
    (hhome : Homes w₁ w.nextBinding result.isOk w') : Synced w' := by
  have hbegun := h.mesh.begin halive hdenotes hlive
  have hset : (w.begin site .delegate code).binding? w.nextBinding =
      some { site.record .delegate code w.nextBinding with busy := true } := by
    rw [h.mesh.network.binding?_begin, if_pos rfl]
  have hready : (Work.refresh w.nextBinding result).Ready (w.begin site .delegate code) :=
    ⟨_, hset, rfl⟩
  obtain ⟨-, hkeeps, x, hx, hcore⟩ :=
    h.mesh.network.made halive hdenotes.hostFree (by simp) run
  have hplan : x.SamePlan { site.record .delegate code w.nextBinding with busy := true } :=
    .of_core hcore
  have hmesh := hhome.mesh (hbegun.run run hready) hx (congrArg (·.busy) hcore)
    (run.exists_lastEvaluation? hbegun.network hready)
  obtain ⟨hplain, hothers, -, hends⟩ := h.refreshed hbegun hdenotes run
  refine ⟨hmesh, h.resting.home h.mesh.network hkeeps hhome, hplain.same hhome.attr?, fun c => ?_⟩
  by_cases hc : c = w.nextBinding
  · -- A delegate that is in service afterwards was made, so its ends have one value.
    subst hc
    intro y hy hservice hbusy
    obtain ⟨z, hz, hplan', -, howned⟩ := hhome.self x hx
    obtain rfl := Option.some.inj (hy.symm.trans hz)
    obtain ⟨k, htarget, hsource⟩ :=
      hends (howned.symm.trans (Binding.owned_of_idle hservice hbusy))
    refine ⟨k, o, attr, hplan'.joins.mpr (hplan.joins.mpr hdenotes), ?_,
      hsource.attr? (hhome.attr? o attr)⟩
    rw [hplan'.target, hplan'.attr, hplan.target, hplan.attr]
    exact htarget.attr? (hhome.attr? _ _)
  · refine (hothers c hc).of_same (fun y hy hservice hbusy => ?_) hhome.attr?
    rw [hhome.other c hc] at hy
    exact ⟨y, hy, .refl y, hservice, hbusy⟩

/-! ## Programs -/

/-- A request that writes a plain value, or makes a delegate between attributes of two objects. -/
def Request.Joining (w : World) : Request → Prop
  | .set _ _ v | .emit _ _ v => v.plain = true
  | .bind _ _ => False
  | .delegate site code => ∃ o attr, code.Denotes site.frame o attr ∧ w.isAlive o = true

/-- What a request has written is there, or a value equal to it. -/
def Request.Written (w : World) : Request → Prop
  | .set o attr v | .emit o attr v =>
      w.isAlive o = true → ∃ s, w.attr? o attr = some s ∧ (s == v) = true
  | .bind _ _ | .delegate _ _ => True

theorem Request.Joining.extends {r : Request} {w w' : World} (h : r.Joining w)
    (hext : Extends w w') : r.Joining w' := by
  cases r with
  | set => exact h
  | emit => exact h
  | bind => exact h
  | delegate site code =>
      obtain ⟨o, attr, hdenotes, hlive⟩ := h
      exact ⟨o, attr, hdenotes, (hext.isAlive o).trans hlive⟩

theorem World.Carries.written {w : World} {o : Handle} {attr : String} {v : Value}
    (h : Carries w o attr v.bare) (hplain : PlainAttrs w) (hv : v.plain = true) :
    ∃ s, w.attr? o attr = some s ∧ (s == v) = true := by
  obtain ⟨s, hs, hbare⟩ := h
  exact ⟨s, hs, (Value.eq_iff_bare (hplain o attr s hs) hv).mpr hbare⟩

theorem Performs.synced {r : Request} {w w' : World} (p : Performs r w w') (h : Synced w)
    (hready : r.Ready w) (hjoining : r.Joining w) : Synced w' ∧ r.Written w' := by
  obtain ⟨-, -, hext⟩ := p.keeps h.mesh.network hready h.resting
  cases p with
  | @set o attr v w w' run =>
      obtain ⟨hsynced, hcarries⟩ := h.set hjoining run
      exact ⟨hsynced, fun halive =>
        (hcarries ((hext.isAlive o).symm.trans halive)).written hsynced.plain hjoining⟩
  | @emit o attr v w w' run =>
      obtain ⟨hsynced, hcarries⟩ := h.announced hjoining run
      exact ⟨hsynced, fun halive =>
        (hcarries ((hext.isAlive o).symm.trans halive)).written hsynced.plain hjoining⟩
  | bind => exact hjoining.elim
  | delegate run hhome =>
      obtain ⟨o, attr, hdenotes, hlive⟩ := hjoining
      exact ⟨h.delegate hready.1 hdenotes hlive run hhome, trivial⟩
  | refused => exact ⟨h, trivial⟩

/-- Attributes that a delegate has at its ends. They are given by the numbers of their objects. -/
def World.Joined (w : World) (p q : Nat × String) : Prop :=
  ∃ b x o attr, w.binding? b = some x ∧ x.owned = true ∧ x.Joins o attr ∧
    p = (x.target.id, x.attr) ∧ q = (o.id, attr)

theorem World.Joined.extends {w w' : World} {p q : Nat × String} (h : w.Joined p q) (hw : Network w)
    (hext : Extends w w') : w'.Joined p q := by
  obtain ⟨b, x, o, attr, hx, howned, hjoins, rfl, rfl⟩ := h
  obtain ⟨x', hx', hcore⟩ := hext.exists_binding? hw hx
  have hplan := Binding.SamePlan.of_core hcore
  refine ⟨b, x', o, attr, hx', (congrArg (·.owned) hcore).trans howned, hplan.joins.mpr hjoins, ?_,
    rfl⟩
  rw [hplan.target, hplan.attr]

/-- A delegate is made when there is something at its other end. -/
theorem Performs.joined {site : Site} {code : Code} {w w' : World}
    (p : Performs (.delegate site code) w w') (h : Synced w)
    (hready : (Request.delegate site code).Ready w) {o : Handle} {attr : String}
    (hdenotes : code.Denotes site.frame o attr) (hlive : w.isAlive o = true)
    (hsome : (w.attr? o attr).isSome = true) :
    w'.Joined (site.target.id, site.attr) (o.id, attr) := by
  cases p with
  | delegate run hhome =>
      have hbegun := h.mesh.begin hready.1 hdenotes hlive
      obtain ⟨-, -, hok, -⟩ := h.refreshed hbegun hdenotes run
      obtain ⟨-, -, x, hx, hcore⟩ := h.mesh.network.made hready.1 hready.2 (by simp) run
      have hplan : x.SamePlan { site.record .delegate code w.nextBinding with busy := true } :=
        .of_core hcore
      obtain ⟨y, hy, hplan', -, howned⟩ := hhome.self x hx
      refine ⟨_, y, o, attr, hy, howned.trans (hok.trans hsome),
        hplan'.joins.mpr (hplan.joins.mpr hdenotes), ?_, rfl⟩
      rw [hplan'.target, hplan'.attr, hplan.target, hplan.attr]
      rfl
  | refused hpath =>
      obtain ⟨base, rfl, -⟩ := hdenotes
      simp [Code.attrPath?] at hpath

/-- What is so after requests from `w` to `w'`. -/
structure Request.Done (rs : List Request) (w w' : World) : Prop where
  synced : Synced w'
  isExtension : Extends w w'
  joined : ∀ site code, .delegate site code ∈ rs → ∀ o attr, code.Denotes site.frame o attr →
    (w.attr? o attr).isSome = true → w'.Joined (site.target.id, site.attr) (o.id, attr)
  written : ∀ r, rs.getLast? = some r → r.Written w'
  unchanged : rs = [] → w' = w

theorem Request.performAll_done {n : Nat} {rs : List Request} {w : World} (h : Synced w)
    (hready : ∀ r ∈ rs, r.Ready w) (hjoining : ∀ r ∈ rs, r.Joining w)
    (hn : w.bindings.length + rs.length < n) :
    Step.Yields (performAll (announce n) rs) w fun _ w' => Done rs w w' := by
  induction rs generalizing w with
  | nil => exact Step.Yields.of_pure ⟨h, .refl w, nofun, nofun, fun _ => rfl⟩
  | cons r rs ih =>
      have hr := hready r List.mem_cons_self
      have hidle : w.idle ≤ w.bindings.length := List.countP_le_length
      rw [List.length_cons] at hn
      obtain ⟨⟨⟩, w₁, heq, hperforms⟩ := perform_performs h.mesh.network hr (by omega : w.idle < n)
      obtain ⟨-, -, hext⟩ := hperforms.keeps h.mesh.network hr h.resting
      obtain ⟨hsynced, hwritten⟩ := hperforms.synced h hr (hjoining r List.mem_cons_self)
      have hlength := hperforms.length h.mesh.network hr
      have hrest := ih hsynced
        (fun r hr => (hready r (List.mem_cons_of_mem _ hr)).extends hext)
        (fun r hr => (hjoining r (List.mem_cons_of_mem _ hr)).extends hext) (by omega)
      refine Step.Yields.bind ⟨_, w₁, heq, hrest.imp fun _ w' hdone => ?_⟩
      refine ⟨hdone.synced, hext.trans hdone.isExtension, fun site code hmem o attr hdenotes hsome => ?_,
        fun last hlast => ?_, nofun⟩
      · rcases List.mem_cons.mp hmem with rfl | hmem
        · obtain ⟨p, other, hdenotes', hlive⟩ := hjoining _ List.mem_cons_self
          obtain ⟨rfl, rfl⟩ := Binding.Joins.unique (x := site.record .delegate code 0) hdenotes
            hdenotes'
          exact (hperforms.joined h hr hdenotes hlive hsome).extends hsynced.mesh.network
            hdone.isExtension
        · exact hdone.joined site code hmem o attr hdenotes (hext.attrs o attr hsome)
      · cases rs with
        | nil =>
            obtain rfl : r = last := by simpa using hlast
            rwa [hdone.unchanged rfl]
        | cons r' rs =>
            rw [List.getLast?_cons_cons] at hlast
            exact hdone.written last hlast

/-- A path of delegates leads from one attribute to the other. -/
def World.Connected (w : World) : Nat × String → Nat × String → Prop :=
  Relation.TransGen (Relation.SymmGen w.Joined)

namespace World.Synced

variable {w : World}

theorem joined (h : Synced w) {p q : Nat × String} (hpq : w.Joined p q) :
    ∃ k, ∀ o, (o.id = p.1 → Carries w o p.2 k) ∧ (o.id = q.1 → Carries w o q.2 k) := by
  obtain ⟨b, x, o, attr, hx, howned, hjoins, rfl, rfl⟩ := hpq
  have hservice : x.inService = true := by simp [Binding.inService, howned]
  obtain ⟨k, o', attr', hjoins', htarget, hsource⟩ :=
    h.inSync b x hx hservice (h.resting.idle b x hx)
  obtain ⟨rfl, rfl⟩ := hjoins'.unique hjoins
  exact ⟨k, fun o => ⟨fun hid => htarget.congr hid.symm, fun hid => hsource.congr hid.symm⟩⟩

theorem symmGen (h : Synced w) {p q : Nat × String} (hpq : Relation.SymmGen w.Joined p q) :
    ∃ k, ∀ o, (o.id = p.1 → Carries w o p.2 k) ∧ (o.id = q.1 → Carries w o q.2 k) := by
  rcases hpq with hpq | hqp
  · exact h.joined hpq
  · obtain ⟨k, hk⟩ := h.joined hqp
    exact ⟨k, fun o => (hk o).symm⟩

/-- Along a path there is one value only. -/
theorem connected (h : Synced w) {p q : Nat × String} (hpq : w.Connected p q) :
    ∃ k, ∀ o, (o.id = p.1 → Carries w o p.2 k) ∧ (o.id = q.1 → Carries w o q.2 k) := by
  induction hpq with
  | single hpq => exact h.symmGen hpq
  | @tail q r _ hqr ih =>
      obtain ⟨k, hk⟩ := ih
      obtain ⟨l, hl⟩ := h.symmGen hqr
      obtain rfl : k = l := ((hk ⟨q.1, ""⟩).2 rfl).unique ((hl ⟨q.1, ""⟩).1 rfl)
      exact ⟨k, fun o => ⟨(hk o).1, (hl o).2⟩⟩

end World.Synced

/-- Delegates between attributes and writes of plain values have all run to the end. Each delegate
that has something at its other end is there, attributes that delegates connect hold equal values,
and so does the attribute that was written last. -/
theorem Request.delegates_agree {w : World} (hw : Quiet w) (hplain : PlainAttrs w) {n : Nat}
    {rs : List Request} (hready : ∀ r ∈ rs, r.Ready w) (hjoining : ∀ r ∈ rs, r.Joining w)
    (hn : w.bindings.length + rs.length < n) :
    ∃ w', performAll (announce n) rs w = some ((), w') ∧
      (∀ site code, .delegate site code ∈ rs → ∀ o attr, code.Denotes site.frame o attr →
        (w.attr? o attr).isSome = true → w'.Joined (site.target.id, site.attr) (o.id, attr)) ∧
      (∀ o attr p other, w'.Connected (o.id, attr) (p.id, other) →
        ∃ u v, w'.attr? o attr = some u ∧ w'.attr? p other = some v ∧ (u == v) = true) ∧
      ∀ o attr v, rs.getLast? = some (.set o attr v) ∨ rs.getLast? = some (.emit o attr v) →
        w.isAlive o = true → ∃ s, w'.attr? o attr = some s ∧ (s == v) = true := by
  obtain ⟨⟨⟩, w', heq, hdone⟩ := performAll_done (hw.synced hplain) hready hjoining hn
  have hsynced := hdone.synced
  refine ⟨w', heq, hdone.joined, fun o attr p other hconnected => ?_,
    fun o attr v hlast halive => ?_⟩
  · obtain ⟨k, hk⟩ := hsynced.connected hconnected
    obtain ⟨u, hu, hubare⟩ := (hk o).1 rfl
    obtain ⟨v, hv, hvbare⟩ := (hk p).2 rfl
    refine ⟨u, v, hu, hv, ?_⟩
    exact (Value.eq_iff_bare (hsynced.plain o attr u hu) (hsynced.plain p other v hv)).mpr
      (hubare.trans hvbare.symm)
  · have halive' := (hdone.isExtension.isAlive o).trans halive
    rcases hlast with hlast | hlast
    · exact hdone.written _ hlast halive'
    · exact hdone.written _ hlast halive'

/-- One object with three attributes. -/
def ringWorld : World :=
  { objects := [{ handle := ⟨1, "Ring"⟩, attrs := [("a", .int 1), ("b", .int 2), ("c", .int 3)] }]
    nextObject := 2 }

/-- A delegate between attributes of the ring. -/
def ringDelegate (attr source : String) : Request :=
  .delegate { target := ⟨1, "Ring"⟩, attr, frame := {}, label := attr ++ " := " ++ source }
    (.attr (.const (.object ⟨1, "Ring"⟩)) source)

/-- Three delegates in a circle, and a write of one of the attributes. -/
def ringRequests : List Request :=
  [ringDelegate "b" "a", ringDelegate "c" "b", ringDelegate "a" "c", .set ⟨1, "Ring"⟩ "b" (.int 7)]

theorem Request.delegates_agree_ring :
    ringWorld.Quiet ∧ ringWorld.PlainAttrs ∧ (∀ r ∈ ringRequests, r.Ready ringWorld) ∧
      (∀ r ∈ ringRequests, r.Joining ringWorld) ∧
      ∃ w', performAll (announce 8) ringRequests ringWorld = some ((), w') ∧
        w'.Connected (1, "a") (1, "b") ∧
        (∃ u v, w'.attr? ⟨1, "Ring"⟩ "a" = some u ∧ w'.attr? ⟨1, "Ring"⟩ "b" = some v ∧
          (u == v) = true) ∧
        ∃ s, w'.attr? ⟨1, "Ring"⟩ "b" = some s ∧ (s == .int 7) = true := by
  have hquiet : ringWorld.Quiet := .of_objects (by decide) rfl rfl
  have hplain : ringWorld.PlainAttrs := .of_objects (by decide)
  have hdenotes : ∀ attr, Code.Denotes {} (.attr (.const (.object ⟨1, "Ring"⟩)) attr)
      ⟨1, "Ring"⟩ attr := fun attr => ⟨_, rfl, .inl rfl⟩
  have hready : ∀ r ∈ ringRequests, r.Ready ringWorld := by
    intro r hr
    simp only [ringRequests, List.mem_cons, List.not_mem_nil, or_false] at hr
    rcases hr with rfl | rfl | rfl | rfl
    · exact ⟨rfl, (hdenotes "a").hostFree⟩
    · exact ⟨rfl, (hdenotes "b").hostFree⟩
    · exact ⟨rfl, (hdenotes "c").hostFree⟩
    · trivial
  have hjoining : ∀ r ∈ ringRequests, r.Joining ringWorld := by
    intro r hr
    simp only [ringRequests, List.mem_cons, List.not_mem_nil, or_false] at hr
    rcases hr with rfl | rfl | rfl | rfl
    · exact ⟨_, _, hdenotes "a", rfl⟩
    · exact ⟨_, _, hdenotes "b", rfl⟩
    · exact ⟨_, _, hdenotes "c", rfl⟩
    · rfl
  obtain ⟨w', hw', hjoined, hagree, hwritten⟩ :=
    delegates_agree hquiet hplain hready hjoining (n := 8) (by decide)
  have hconnected : w'.Connected (1, "a") (1, "b") :=
    .single (.of_rel_symm (hjoined _ _ List.mem_cons_self ⟨1, "Ring"⟩ "a" (hdenotes "a") rfl))
  exact ⟨hquiet, hplain, hready, hjoining, w', hw', hconnected, hagree _ _ _ _ hconnected,
    hwritten _ _ _ (.inl rfl) rfl⟩

end LiveUI
