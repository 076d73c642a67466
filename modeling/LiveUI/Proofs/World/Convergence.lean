import Mathlib.Data.Nat.Basic
import LiveUI.Proofs.World.Requests
import LiveUI.Proofs.World.Targets

/-! # Acyclic binds converge

After every request the last evaluation of each bind is what an evaluation would come to now, and
its value is in the target. -/

namespace LiveUI

namespace World

variable {w w' : World}

/-- The binds of a network at rest are up to date. -/
structure Converged (w : World) : Prop where
  network : Network w
  resting : Resting w
  binds : Binds w
  distinct : DistinctTargets w
  fresh : ∀ b, Fresh w b
  holds : ∀ b, Holds w b
  valued : ∀ b x, w.binding? b = some x → x.inService = true → ∃ v, w.lastValue? b = some v

theorem Quiet.converged (h : Quiet w) : Converged w := by
  have hnone : ∀ b x, w.binding? b = some x → x.inService ≠ true := by
    intro b x hx hservice
    exact absurd ((h.released x (w.mem_of_binding? hx)).1.symm.trans hservice) (by simp)
  exact ⟨h.network, h.resting, fun b x hx hs => (hnone b x hx hs).elim,
    fun b c x y hx hy hs => (hnone b x hx hs).elim, fun b x hx hs => (hnone b x hx hs).elim,
    fun b x hx hs => (hnone b x hx hs).elim, fun b x hx hs => (hnone b x hx hs).elim⟩

/-- Once a binding has had a value it always has. -/
theorem exists_lastValue?_of_journal {b : Nat} {v : Value} (h : w.lastValue? b = some v)
    (hjournal : w.journal <:+ w'.journal) : ∃ v', w'.lastValue? b = some v' :=
  exists_findSome?_of_suffix hjournal h

theorem Resting.below {α : Type} [Preorder α] {rank : Nat → String → α} (h : Resting w) (top : α) :
    Below rank w top := by
  refine ⟨fun b x hx hbusy => ?_, fun o attr hflight => ?_⟩
  · exact absurd ((h.idle b x hx).symm.trans hbusy) (by simp)
  · exact absurd ((h.quiet o attr).symm.trans hflight) (by simp)

/-- An attribute that is the target of no binding in service. -/
def NoTarget (w : World) (o : Handle) (attr : String) : Prop :=
  ∀ b x, w.binding? b = some x → x.inService = true → ¬(x.target.id = o.id ∧ x.attr = attr)

/-! ## Making a bind -/

section Making

variable {site : Site} {kind : BindingKind} {code : Code}

theorem Ranked.of_home {α : Type} [Preorder α] {rank : Nat → String → α} {b : Nat}
    (h : Ranked rank w') (hhome : Homes w b true w') : Ranked rank w := by
  refine h.of_journal (hhome.journal ▸ List.suffix_refl _) fun c y hy hservice => ?_
  by_cases hc : c = b
  · subst hc
    obtain ⟨z, hz, hplan, -, howned⟩ := hhome.self y hy
    exact ⟨z, hz, hplan, by simp [Binding.inService, howned]⟩
  · exact ⟨y, (hhome.other c hc).trans hy, .refl y, hservice⟩

theorem Converged.binds_begin (h : Converged w) : Binds (w.begin site .bind code) := by
  intro c x hx hservice
  rw [h.network.binding?_begin] at hx
  split at hx
  · obtain rfl := Option.some.inj hx
    rfl
  · exact h.binds c x hx hservice

theorem Converged.distinct_begin (h : Converged w) (hclear : w.NoTarget site.target site.attr) :
    DistinctTargets (w.begin site kind code) := by
  intro c d x y hx hy hxservice hyservice hid hattr
  rw [h.network.binding?_begin] at hx hy
  split at hx
  next hc =>
    split at hy
    next hd => exact hc.trans hd.symm
    next =>
      obtain rfl := Option.some.inj hx
      exact (hclear d y hy hyservice ⟨hid.symm, hattr.symm⟩).elim
  next hc =>
    split at hy
    next hd =>
      obtain rfl := Option.some.inj hy
      exact (hclear c x hx hxservice ⟨hid, hattr⟩).elim
    next => exact h.distinct c d x y hx hy hxservice hyservice hid hattr

theorem Converged.holds_begin (h : Converged w) (c : Nat) : Holds (w.begin site kind code) c := by
  by_cases hc : c = w.nextBinding
  · intro x hx hservice v hv
    have hnone := lastValue?_eq_none (h.network.unevaluated c (Nat.le_of_eq hc.symm))
    exact absurd (hnone.symm.trans hv) (by simp)
  · exact (h.holds c).of_same (h.network.samePlanAt_begin hc) rfl fun _ _ _ => rfl

/-- Where a bind is made, its own target is all that is under way. -/
theorem Converged.below_begin {α : Type} [Preorder α] {rank : Nat → String → α} (h : Converged w) :
    Below rank (w.begin site kind code) (rank site.target.id site.attr) := by
  refine ⟨fun c x hx hbusy => ?_, fun o attr hflight => ?_⟩
  · rw [h.network.binding?_begin] at hx
    split at hx
    · obtain rfl := Option.some.inj hx
      exact le_refl _
    · exact absurd ((h.resting.idle c x hx).symm.trans hbusy) (by simp)
  · exact absurd ((h.resting.quiet o attr).symm.trans hflight) (by simp)

/-- When a binding goes home, everyone in service is as up to date as before. -/
theorem Homes.converged {b : Nat} {x : Binding} {owned : Bool} (h : Homes w b owned w')
    (hx : w.binding? b = some x) (hbusy : x.busy = true) (hw : Network w) (hrest : Resting w')
    (hbinds : Binds w) (hdistinct : DistinctTargets w) (hfresh : ∀ c, Fresh w c)
    (hholds : ∀ c, Holds w c) (hvalued : ∀ c y, w'.binding? c = some y → y.inService = true →
      ∃ v, w.lastValue? c = some v) : Converged w' := by
  have hlast : ∀ c, w'.lastEvaluation? c = w.lastEvaluation? c := by
    intro c
    rw [lastEvaluation?, h.journal]
    rfl
  have hvalue : ∀ c, w'.lastValue? c = w.lastValue? c := by
    intro c
    rw [lastValue?, h.journal]
    rfl
  refine ⟨h.network, hrest, ?_, ?_, ?_, ?_, ?_⟩
  · intro c y hy hservice
    obtain ⟨z, hz, hplan, heq⟩ := h.samePlanAt hx hbusy hy hservice y hy
    exact hplan.kind.trans (hbinds c z hz (heq.symm.trans hservice))
  · intro c d y z hy hz hyservice hzservice hid hattr
    obtain ⟨y₁, hy₁, hplany, heqy⟩ := h.samePlanAt hx hbusy hy hyservice y hy
    obtain ⟨z₁, hz₁, hplanz, heqz⟩ := h.samePlanAt hx hbusy hz hzservice z hz
    rw [hplany.target, hplanz.target] at hid
    rw [hplany.attr, hplanz.attr] at hattr
    exact hdistinct c d y₁ z₁ hy₁ hz₁ (heqy.symm.trans hyservice) (heqz.symm.trans hzservice)
      hid hattr
  · intro c y hy hservice
    exact (hfresh c).of_reads hw (h.samePlanAt hx hbusy hy hservice) (hlast c)
      (fun p _ => h.attr? p.1 p.2) y hy hservice
  · intro c y hy hservice
    exact (hholds c).of_same (h.samePlanAt hx hbusy hy hservice) (hvalue c)
      (fun z _ _ => h.attr? z.target z.attr) y hy hservice
  · intro c y hy hservice
    rw [hvalue]
    exact hvalued c y hy hservice

end Making

end World

open World

/-- A first evaluation that succeeds has a value. -/
theorem Runs.exists_lastValue? {b : Nat} {w w' : World}
    (run : Runs (.refresh b (.ok ())) w w') (hw : Network w)
    (hready : (Work.refresh b (.ok ())).Ready w) : ∃ v, w'.lastValue? b = some v := by
  obtain ⟨y, hy, hbusy⟩ := hready
  cases run with
  | @evaluated _ x v reads _ _ w₁ w₂ _ hx hlook hsub hn run =>
      obtain rfl := Option.some.inj (hx.symm.trans hy)
      have heval := (hw.evaluated hx (Binding.inService_of_busy hbusy) _ _).result hsub
      have hkeeps := heval.keeps.trans hn.keeps
      obtain ⟨-, hkeeps'⟩ := run.keeps (hn.network heval.network) (hkeeps.exists_busy hx hbusy)
      have hvalue : w₂.lastValue? b = some v := by
        rw [(Alike.notices hn).lastValue?, heval.lastValue?, if_pos rfl]
        rfl
      exact exists_lastValue?_of_journal hvalue hkeeps'.journal

/-- A request that leaves targets alone, and makes no delegate. -/
def Request.Clear (w : World) : Request → Prop
  | .set o attr _ | .emit o attr _ => w.NoTarget o attr
  | .bind site _ => w.NoTarget site.target site.attr
  | .delegate _ _ => False

/-- What propagation from outside preserves. -/
theorem World.Converged.settled {w w' : World} (h : Converged w) (hkeeps : Keeps w w')
    (hnet : Network w') (hsettles : Settles Fresh (fun _ => False) w w') (hholds : ∀ b, Holds w' b) :
    Converged w' := by
  have hplans := hkeeps.samePlans
  refine ⟨hnet, h.resting.keeps hkeeps, h.binds.samePlans hplans, h.distinct.samePlans hplans,
    fun b => ?_, hholds, fun b x' hx' hservice => ?_⟩
  · exact (hsettles b).elim id fun hstale => hstale.1.elim
  · obtain ⟨x, hx, -, hservice'⟩ := hplans b x' hx'
    obtain ⟨v, hv⟩ := h.valued b x hx (hservice'.symm.trans hservice)
    exact exists_lastValue?_of_journal hv hkeeps.journal

theorem Performs.converged {α : Type} [Preorder α] {rank : Nat → String → α} {r : Request}
    {w w' : World} (p : Performs r w w') (h : Converged w) (hready : r.Ready w)
    (hclear : r.Clear w) (hranked : Ranked rank w') : Converged w' := by
  cases p with
  | @set o attr v w w' run =>
      obtain ⟨hnet, hkeeps⟩ := run.keeps h.network trivial
      have hentered : (Work.set o attr v).Entered rank (fun _ => False) w :=
        ⟨h.resting.below _, fun b => .inl (h.fresh b)⟩
      refine h.settled hkeeps hnet (run.settles h.network trivial h.binds hranked hentered)
        fun b => run.holds h.network trivial h.binds h.distinct fun x hx hservice => ?_
      rw [if_neg (hclear b x hx hservice)]
      exact h.holds b
  | @emit o attr v w w' run =>
      have hwrite := Keeps.write w o attr v
      have hwritten := h.network.write o attr v
      have hbinds := h.binds.samePlans hwrite.samePlans
      obtain ⟨hnet, hkeeps⟩ := run.keeps hwritten trivial
      -- The value is written whatever was there before; from then on it is as after a set.
      have hentered : (Work.set o attr v).Entered rank (fun _ => False) w :=
        ⟨h.resting.below _, fun b => .inl (h.fresh b)⟩
      have hsettles := run.settles hwritten trivial hbinds hranked (hentered.announce h.network)
      refine h.settled (hwrite.trans hkeeps) hnet
        (fun b => (hsettles b).imp_right fun hstale => hstale.1.elim) fun b => ?_
      exact run.holds hwritten trivial hbinds (h.distinct.samePlans hwrite.samePlans)
        ((h.holds b).write v fun x hx hservice => hclear b x hx hservice)
  | @bind site code result w w₁ w' run hhome =>
      obtain ⟨hbegun, hext⟩ :=
        h.network.begin hready.1 hready.2 (by simp : BindingKind.bind ≠ .notify)
      obtain ⟨hnet, hkeeps, x, hx, hcore⟩ := h.network.made hready.1 hready.2 (by simp) run
      have hstart : (Work.refresh w.nextBinding result).Ready (w.begin site .bind code) :=
        ⟨_, by rw [h.network.binding?_begin, if_pos rfl], rfl⟩
      have hbusy : x.busy = true := congrArg (·.busy) hcore
      have hbinds : Binds (w.begin site .bind code) := h.binds_begin
      have hdistinct : DistinctTargets (w.begin site .bind code) := h.distinct_begin hclear
      have hothers : ∀ c, c ≠ w.nextBinding → Fresh (w.begin site .bind code) c := fun c hc =>
        (h.fresh c).of_reads h.network (h.network.samePlanAt_begin hc) rfl fun _ _ => rfl
      -- A bind whose first evaluation fails is not in service in `w'`, so it need not be ranked.
      have hsettles : Settles Fresh (fun _ => False) (w.begin site .bind code) w₁ := by
        cases result with
        | error e =>
            exact run.settles_failed hbegun hstart hbinds fun c hc => .inl (hothers c hc)
        | ok _ =>
            have hranked₁ := hranked.of_home hhome
            refine run.settles hbegun hstart hbinds hranked₁
              ⟨fun y hy => ?_, fun c hc => .inl (hothers c hc)⟩
            rw [h.network.binding?_begin, if_pos rfl] at hy
            obtain rfl := Option.some.inj hy
            exact h.below_begin
      have hfresh : ∀ c, Fresh w₁ c := fun c => (hsettles c).elim id fun hstale => hstale.1.elim
      have hholds : ∀ c, Holds w₁ c :=
        fun c => run.holds hbegun hstart hbinds hdistinct (h.holds_begin c)
      refine hhome.converged hx hbusy hnet (h.resting.home h.network hkeeps hhome)
        (hbinds.samePlans hkeeps.samePlans) (hdistinct.samePlans hkeeps.samePlans) hfresh hholds
        fun c y hy hservice => ?_
      by_cases hc : c = w.nextBinding
      · -- A bind that is in service afterwards was made, so its first evaluation had a value.
        subst hc
        obtain ⟨z, hz, -, hzbusy, hzowned⟩ := hhome.self x hx
        obtain rfl := Option.some.inj (hy.symm.trans hz)
        have hok : result.isOk = true := hzowned.symm.trans (Binding.owned_of_idle hservice hzbusy)
        cases result with
        | error e => simp [Except.isOk, Except.toBool] at hok
        | ok _ => exact run.exists_lastValue? hbegun hstart
      · rw [hhome.other c hc] at hy
        obtain ⟨z, hz, -, heq⟩ := hkeeps.samePlans c y hy
        rw [h.network.binding?_begin, if_neg hc] at hz
        obtain ⟨v, hv⟩ := h.valued c z hz (heq.symm.trans hservice)
        exact exists_lastValue?_of_journal hv (hext.journal.trans hkeeps.journal)
  | delegate => exact hclear.elim
  | refused => exact hclear.elim

/-! ## Programs -/

/-- Each request is clear when its turn comes. -/
def Request.AllClear (announce : Announce) : List Request → World → Prop
  | [], _ => True
  | r :: rs, w => r.Clear w ∧ ∀ w', r.perform announce w = some ((), w') → AllClear announce rs w'

/-- Some rank puts all that a binding in service ever read below its target. -/
def World.Acyclic (w : World) : Prop :=
  ∃ (α : Type) (_ : Preorder α) (rank : Nat → String → α), Ranked rank w

/-- The target of a binding holds what its expression comes to now or, where that is an error, the
value of its last successful evaluation. -/
def World.UpToDate (w : World) (announce : Announce) (b : Nat) (x : Binding) : Prop :=
  ∃ result, x.code.value (applyFunc announce) { frame := x.frame } w = some (result, w) ∧
    match result with
    | .ok v => w.HasValue x.target x.attr v
    | .error _ => ∃ v, w.lastValue? b = some v ∧ w.HasValue x.target x.attr v

theorem World.Converged.upToDate {w : World} (h : Converged w) (announce : Announce) {b : Nat}
    {x : Binding} (hx : w.binding? b = some x) (howned : x.owned = true) :
    w.UpToDate announce b x := by
  have hservice : x.inService = true := by simp [Binding.inService, howned]
  have hfree := (h.network.inUse x (w.mem_of_binding? hx) hservice).hostFree
  refine ⟨(x.look w).1, ?_, ?_⟩
  · have hsilent := hfree.evaluate_silent (applyFunc_callsBuiltins announce) w
    change (x.code.evaluate _ _ false w).bind _ = _
    rw [hsilent]
    rfl
  · have hfresh := h.fresh b x hx hservice
    obtain ⟨v, hv⟩ := h.valued b x hx hservice
    cases hlook : x.look w with
    | mk result reads =>
        rw [hlook] at hfresh
        cases result with
        | error e => exact ⟨v, hv, h.holds b x hx hservice v hv⟩
        | ok u => exact h.holds b x hx hservice u (lastValue?_of_ok hfresh)

theorem World.Ranked.of_extends {α : Type} [Preorder α] {rank : Nat → String → α} {w w' : World}
    (h : Ranked rank w') (hw : Network w) (hext : Extends w w') : Ranked rank w := by
  refine h.of_journal hext.journal fun b x hx hservice => ?_
  obtain ⟨x', hx', hcore⟩ := hext.exists_binding? hw hx
  exact ⟨x', hx', .of_core hcore, (Binding.inService_of_core hcore).trans hservice⟩

theorem Request.performAll_converges {n : Nat} {rs : List Request} {w : World} (h : Network w)
    (hrest : Resting w) (hready : ∀ r ∈ rs, r.Ready w) (hclear : AllClear (announce n) rs w)
    (hn : w.bindings.length + rs.length < n) :
    Step.Yields (performAll (announce n) rs) w fun _ w' =>
      Extends w w' ∧ (w'.Acyclic → Converged w → Converged w') := by
  induction rs generalizing w with
  | nil => exact Step.Yields.of_pure ⟨.refl w, fun _ => id⟩
  | cons r rs ih =>
      have hr := hready r List.mem_cons_self
      have hidle : w.idle ≤ w.bindings.length := List.countP_le_length
      rw [List.length_cons] at hn
      obtain ⟨⟨⟩, w₁, heq, hperforms⟩ := perform_performs h hr (by omega : w.idle < n)
      obtain ⟨hnet, hrest₁, hext⟩ := hperforms.keeps h hr hrest
      have hlength := hperforms.length h hr
      have hrest := ih hnet hrest₁ (fun r hr => (hready r (List.mem_cons_of_mem _ hr)).extends hext)
        (hclear.2 w₁ heq) (by omega)
      refine Step.Yields.bind ⟨_, w₁, heq, hrest.imp fun _ w' ⟨hext', hconverges⟩ => ?_⟩
      refine ⟨hext.trans hext', fun hacyclic hconverged => hconverges hacyclic ?_⟩
      obtain ⟨α, _, rank, hranked⟩ := hacyclic
      exact hperforms.converged hconverged hr hclear.1 (hranked.of_extends hnet hext')

/-- Binds with targets of their own, made and followed by writes to other attributes, have all run
to the end, and if they never read in a circle every one of them is up to date. -/
theorem Request.binds_converge {w : World} (hw : Quiet w) {n : Nat} {rs : List Request}
    (hready : ∀ r ∈ rs, r.Ready w) (hclear : AllClear (announce n) rs w)
    (hn : w.bindings.length + rs.length < n) :
    ∃ w', performAll (announce n) rs w = some ((), w') ∧
      (w'.Acyclic → ∀ b x, w'.binding? b = some x → x.owned = true →
        w'.UpToDate (announce n) b x) := by
  obtain ⟨⟨⟩, w', heq, -, hconverges⟩ :=
    performAll_converges hw.network hw.resting hready hclear hn
  refine ⟨w', heq, fun hacyclic b x hx howned => ?_⟩
  exact (hconverges hacyclic hw.converged).upToDate (announce n) hx howned

/-- One object with one attribute. -/
def boxWorld : World :=
  { objects := [{ handle := ⟨1, "Box"⟩, attrs := [("a", .int 1)] }], nextObject := 2 }

/-- A bind from one attribute to another, and a write of the first. -/
def boxRequests : List Request :=
  [.bind { target := ⟨1, "Box"⟩, attr := "b", frame := {}, label := "b << a" }
    (.attr (.const (.object ⟨1, "Box"⟩)) "a"),
   .set ⟨1, "Box"⟩ "a" (.int 2)]

theorem Request.binds_converge_box :
    boxWorld.Quiet ∧ (∀ r ∈ boxRequests, r.Ready boxWorld) ∧
      AllClear (announce 4) boxRequests boxWorld ∧
      ∃ w', performAll (announce 4) boxRequests boxWorld = some ((), w') ∧ w'.Acyclic ∧
        ∀ b x, w'.binding? b = some x → x.owned = true → w'.UpToDate (announce 4) b x := by
  have hquiet : boxWorld.Quiet := .of_objects (by decide) rfl rfl
  have hready : ∀ r ∈ boxRequests, r.Ready boxWorld := by
    intro r hr
    simp only [boxRequests, List.mem_cons, List.not_mem_nil, or_false] at hr
    rcases hr with rfl | rfl
    · exact ⟨rfl, .of_callsBuiltins rfl _⟩
    · trivial
  have hclear : AllClear (announce 4) boxRequests boxWorld := by
    refine ⟨fun b x hx => ?_, fun w₁ hw₁ => ⟨fun b x hx _ => ?_, fun _ _ => trivial⟩⟩
    · exact absurd hx (by simp [World.binding?, boxWorld])
    · have hplaces : w₁.bindings.map (·.attr) = ["b"] := by
        obtain rfl := congrArg Prod.snd (Option.some.inj hw₁)
        rfl
      have hmem := List.mem_map_of_mem (f := (·.attr)) (w₁.mem_of_binding? hx)
      rw [hplaces] at hmem
      rintro ⟨-, hattr⟩
      simp [hattr] at hmem
  obtain ⟨w', hw', hconverged⟩ := binds_converge hquiet hready hclear (n := 4) (by decide)
  have hacyclic : w'.Acyclic := by
    refine ⟨Nat, inferInstance, fun _ attr => if attr = "a" then 0 else 1, ?_⟩
    let evaluations := w'.journal.filterMap (Entry.evaluationOf? 0)
    have hplaces : w'.bindings.map (fun x => (x.id, x.attr)) = [(0, "b")] := by
      obtain rfl := congrArg Prod.snd (Option.some.inj hw')
      rfl
    have hjournal : evaluations.flatMap (·.2.map (·.2)) = ["a", "a"] := by
      obtain rfl := congrArg Prod.snd (Option.some.inj hw')
      rfl
    intro b x hx _ result reads hentry p hp
    have hplace : x.id = 0 ∧ x.attr = "b" := by
      have hmem := List.mem_map_of_mem (f := fun x => (x.id, x.attr)) (w'.mem_of_binding? hx)
      simpa [hplaces] using hmem
    obtain ⟨hid, hattr⟩ := hplace
    obtain rfl : 0 = b := hid.symm.trans (w'.id_of_binding? hx)
    have hread : p.2 = "a" := by
      have hmem : p.2 ∈ evaluations.flatMap (·.2.map (·.2)) :=
        List.mem_flatMap.mpr ⟨(result, reads), List.mem_filterMap.mpr ⟨_, hentry, by simp [Entry.evaluationOf?]⟩,
          List.mem_map_of_mem hp⟩
      simpa [hjournal] using hmem
    simp [hattr, hread]
  exact ⟨hquiet, hready, hclear, w', hw', hacyclic, hconverged hacyclic⟩

end LiveUI
