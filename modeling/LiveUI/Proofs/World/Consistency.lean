import LiveUI.Proofs.World.Handing
import LiveUI.Proofs.World.Requests

/-! # When a delegate is consistent with a normaliser

Whichever end is normalised, whether the normaliser was registered before the delegate was made or
after, and whichever end is set: the two ends hold equal values afterwards, with one exception.
Where the target is normalised and the normaliser comes first, it has written the normal form, and
the delegate handed that on, before the delegate hears of the value that was set; it hands this one
on then, too, and the source keeps it. -/

namespace LiveUI

open World Step

namespace Tandem

variable {T : Tandem} {w : World}

/-- Nothing else observes the two attributes, and nobody is at work on them. -/
structure Alone (T : Tandem) (w : World) : Prop where
  alive : ∀ r, w.isAlive (T.place r).1 = true
  unobserved : ∀ r, w.observersOf (T.place r).1 (T.place r).2 = []
  quiet : ∀ r, w.isInFlight (T.place r).1 (T.place r).2 = false
  fresh : ∀ x ∈ w.bindings, x.id < w.nextBinding

/-- The host registers the normaliser. -/
def normalise (T : Tandem) : Step Unit := do
  let _ ← modifyGet (·.observe (T.place T.side).1 (T.place T.side).2 (.host T.routine))

/-- The normaliser is registered `early`, before the delegate is made, or else after. -/
def setUp (T : Tandem) (early : Bool) (announce : Announce) : Step (Except EvalError Nat) := do
  if early then T.normalise
  let made ← T.site.delegate announce T.code
  if !early then T.normalise
  return made

/-- What the world shows of a delegate that nobody has evaluated yet. -/
def State.initial (w : World) (T : Tandem) : State where
  number := w.nextBinding
  values r := w.attr? (T.place r).1 (T.place r).2
  parts _ := []
  ids _ := 0
  flights _ := 0
  busy := false
  owned := false

theorem Alone.seen (h : T.Alone w) : T.Seen w (.initial w T) where
  alive := h.alive
  values _ := rfl
  observers := h.unobserved
  distinct _ _ _ hp := absurd hp List.not_mem_nil
  lt _ _ hp := absurd hp List.not_mem_nil
  gone _ hk := absurd hk List.not_mem_nil
  flights r := by
    have hquiet := h.quiet r
    unfold World.isInFlight at hquiet
    unfold World.flights
    cases hx : w.object? (T.place r).1 with
    | none => rfl
    | some x =>
        rw [hx] at hquiet
        have hnot : (T.place r).2 ∉ x.inFlight := by simpa using hquiet
        change x.inFlight.count (T.place r).2 = 0
        exact List.count_eq_zero.mpr hnot
  source := List.not_mem_nil
  normaliser _ hp := absurd hp List.not_mem_nil

/-- A world in which the delegate has been entered. -/
theorem Seen.enter {s : State} (h : T.Seen w s) (hfresh : ∀ x ∈ w.bindings, x.id < w.nextBinding)
    (hnumber : s.number = w.nextBinding) (hidle : s.busy = false) (howned : s.owned = false)
    (hunheard : .source ∉ s.parts .source) :
    T.Shows (w.addBinding (T.site.record .delegate T.code w.nextBinding)) s := by
  refine ⟨{ h with }, none, ?_⟩
  have hnone : w.bindings.find? (·.id == w.nextBinding) = none := by
    refine List.find?_eq_none.mpr fun x hx => ?_
    have hlt := hfresh x hx
    simp only [beq_iff_eq]
    omega
  have hrecord : T.record s none = T.site.record .delegate T.code w.nextBinding := by
    simp [record, sources, hunheard, hnumber, hidle, howned, Site.record]
  rw [hrecord, hnumber]
  simp [binding?, addBinding, hnone, Site.record]

/-- The delegate hears of its target, too. -/
theorem Shows.listenToTarget {s : State} (h : T.Shows w s) (hnew : ∀ r, .target ∉ s.parts r) :
    Yields (T.site.listenToTarget s.number) w fun _ w' =>
      T.Shows w' (s.listen .target .target (w.nextObserver T.site.target)) := by
  have hlistening := h.listen .target hnew (by decide) nofun
  refine Yields.bind ⟨_, _, rfl, Yields.of_modify ?_⟩
  exact hlistening.modifyBinding s.busy s.owned (fun _ => rfl)
    fun listener => ⟨_, rfl⟩

/-- The target takes the delegate into its possession. -/
theorem Shows.own {s : State} (h : T.Shows w s) :
    Yields (T.site.own s.number) w fun _ w' => T.Shows w' { s with owned := true } := by
  have howned : T.Shows (w.modifyBinding s.number fun x => { x with owned := true })
      { s with owned := true } :=
    h.modifyBinding s.busy true (fun _ => rfl) fun listener => ⟨listener, rfl⟩
  refine Yields.modify_bind (Yields.of_modify ?_)
  let take : Object → Object := fun x => { x with bindings := x.bindings ++ [s.number] }
  have hviews (v : World) (o : Handle) : (v.modifyObject T.site.target take).isAlive o = v.isAlive o ∧
      (v.modifyObject T.site.target take).observers o = v.observers o ∧
      (v.modifyObject T.site.target take).nextObserver o = v.nextObserver o :=
    ⟨v.isAlive_modifyObject _ o fun _ => rfl, v.observers_modifyObject _ o (fun _ => rfl) fun _ => rfl,
      v.nextObserver_modifyObject _ o (fun _ => rfl) fun _ => rfl⟩
  refine howned.moved (fun o => (hviews _ o).1) (fun r => ?_) (fun o => (hviews _ o).2.1)
    (fun o => (hviews _ o).2.2) (fun r => ?_) rfl
  · exact (World.attr?_modifyObject _ T.site.target _ _ (f := take) (fun _ => rfl) fun _ => rfl).trans
      (howned.values r)
  · exact (World.flights_modifyObject _ T.site.target _ _ (f := take) (fun _ => rfl)
      fun _ => rfl).trans (howned.flights r)

/-- The host registers the normaliser when it is not there yet. -/
theorem Shows.normalise {s : State} (h : T.Shows w s) (hnew : ∀ r, .normaliser ∉ s.parts r) :
    Yields T.normalise w fun _ w' => ∃ id, T.Shows w' (s.listen T.side .normaliser id) :=
  Yields.bind ⟨_, _, rfl, Yields.of_pure ⟨_, h.listen T.side hnew (by decide) fun _ => rfl⟩⟩

/-- The delegate is made, on its own or behind the normaliser. -/
theorem Seen.delegate {s : State} (h : T.Seen w s)
    (hfresh : ∀ x ∈ w.bindings, x.id < w.nextBinding) (hnumber : s.number = w.nextBinding)
    (hidle : s.busy = false) (howned : s.owned = false) (hnew : ∀ r p, p ∈ s.parts r → p = .normaliser)
    {u : Value} (hvalue : s.values .source = some u) (hfair : T.Fair u) {n : Nat} (hn : 1 < n) :
    Yields (T.site.delegate (announce n) T.code) w fun made w' =>
      made = .ok w.nextBinding ∧ ∃ t, T.Shows w' t ∧ t.InStep ∧ t.busy = false ∧ t.owned = true ∧
        t.flights = s.flights ∧ ∀ r, t.parts r = s.parts r ++ [Tandem.own r] := by
  have hunheard : .source ∉ s.parts .source := fun hmem => by
    have hcontra := hnew .source _ hmem
    contradiction
  have hshows := h.enter hfresh hnumber hidle howned hunheard
  unfold Site.delegate
  have hpath : T.code.attrPath?.isNone = false := by
    obtain ⟨base, hcode, -⟩ := T.denotes
    rw [hcode]
    rfl
  simp only [hpath, Bool.false_eq_true, if_false]
  have hmade : T.site.newBinding .delegate T.code w =
      some (s.number, w.addBinding (T.site.record .delegate T.code w.nextBinding)) := by
    rw [hnumber]
    rfl
  refine Yields.bind ⟨_, _, hmade, ?_⟩
  refine Yields.bind ((hshows.refresh hidle hvalue hfair (by omega) fun _ => hn).imp ?_)
  rintro result w₁ ⟨rfl, id, h₁⟩
  have hsided : ∀ r, .normaliser ∈ (s.relisten id).parts r → r = T.side := fun r hmem =>
    h₁.normaliser r (by rwa [State.parts_pass])
  have hstep : ((s.relisten id).pass T .target u).InStep := State.inStep_pass hfair hvalue hsided
  -- So far there was a normaliser at most. Now the delegate comes behind it, first on the source.
  have hparts : ((s.relisten id).pass T .target u).parts =
      Function.update s.parts .source (s.parts .source ++ [.source]) := by
    have hfilter : (s.parts .source).filter (· ≠ .source) = s.parts .source :=
      List.filter_eq_self.mpr fun p hp => by simp [hnew .source p hp]
    rw [State.parts_pass]
    simp only [State.relisten, State.listen, State.drop, Function.update_self, hfilter,
      Function.update_idem]
  have htarget : ∀ r, .target ∉ ((s.relisten id).pass T .target u).parts r := by
    intro r hmem
    rw [hparts] at hmem
    cases r with
    | source =>
        rw [Function.update_self] at hmem
        rcases List.mem_append.mp hmem with hold | hown
        · exact absurd (hnew .source _ hold) (by decide)
        · exact absurd (List.mem_singleton.mp hown) (by decide)
    | target =>
        rw [Function.update_of_ne (by decide)] at hmem
        exact absurd (hnew .target _ hmem) (by decide)
  have hpassed : ((s.relisten id).pass T .target u).number = s.number := State.number_pass
  have hlisten := h₁.listenToTarget htarget
  rw [hpassed] at hlisten
  refine Yields.bind (hlisten.imp ?_)
  intro _ w₂ h₂
  have hown := h₂.own
  have hlistened : (((s.relisten id).pass T .target u).listen .target .target
      (w₁.nextObserver T.site.target)).number = s.number := hpassed
  rw [hlistened] at hown
  refine Yields.bind (hown.imp fun _ w₃ h₃ => Yields.of_pure ⟨by rw [hnumber], _, h₃, ?_⟩)
  refine ⟨hstep, State.busy_pass.trans hidle, rfl, State.flights_pass, fun r => ?_⟩
  cases r <;> simp [State.listen, hparts, Tandem.own]

/-- What has been set up, whatever was set since: the delegate is at rest, and both ends hold equal
values. -/
def Settled (T : Tandem) (early : Bool) (w : World) : Prop :=
  ∃ s first, T.Shows w s ∧ s.Rested T first ∧ (T.side = .target → first = early) ∧ s.InStep

/-- Setting up a delegate and a normaliser. -/
theorem setUp_yields (h : T.Alone w) (early : Bool) {u : Value}
    (hvalue : w.attr? T.source.1 T.source.2 = some u) (hfair : T.Fair u) {n : Nat} (hn : 1 < n) :
    Yields (T.setUp early (announce n)) w fun made w' =>
      made = .ok w.nextBinding ∧ T.Settled early w' := by
  unfold setUp
  cases early with
  | true =>
      simp only [if_true, Bool.not_true, Bool.false_eq_true, if_false]
      have hseen := h.seen.listen T.side (p := .normaliser) (fun _ => List.not_mem_nil) nofun
        fun _ => rfl
      have hregistered : T.normalise w = some (⟨⟩, (w.observe (T.place T.side).1 (T.place T.side).2
          (.host T.routine)).2) := rfl
      refine Yields.bind ⟨_, _, hregistered, ?_⟩
      have hnew : ∀ r p, p ∈ ((State.initial w T).listen T.side .normaliser
          (w.nextObserver (T.place T.side).1)).parts r → p = .normaliser := by
        intro r p hp
        by_cases hr : r = T.side
        · subst hr
          simpa [State.listen, State.initial] using hp
        · simp [State.listen, State.initial, hr] at hp
      refine Yields.bind ((hseen.delegate h.fresh rfl rfl rfl hnew hvalue hfair hn).imp ?_)
      rintro made w' ⟨rfl, t, h', hstep, hidle, howned, hflights, hparts⟩
      refine Yields.of_pure ⟨rfl, t, true, h', ⟨hidle, howned, fun r => ?_, ⟨?_, ?_⟩⟩,
        fun _ => rfl, hstep⟩
      · rw [hflights]
        rfl
      · rw [hparts]
        simp [State.listen, State.initial, T.side.other_ne]
      · rw [hparts]
        simp [State.listen, State.initial]
  | false =>
      simp only [Bool.false_eq_true, if_false, Bool.not_false, if_true]
      have hnone : ∀ r p, p ∈ (State.initial w T).parts r → p = .normaliser :=
        fun r p hp => absurd hp List.not_mem_nil
      refine Yields.bind ((h.seen.delegate h.fresh rfl rfl rfl hnone hvalue hfair hn).imp ?_)
      rintro made w₁ ⟨rfl, t, h₁, hstep, hidle, howned, hflights, hparts⟩
      have hnew : ∀ r, .normaliser ∉ t.parts r := by
        intro r hmem
        rw [hparts] at hmem
        cases r <;> simp [State.initial, own] at hmem
      refine Yields.bind ((h₁.normalise hnew).imp ?_)
      rintro ⟨⟩ w' ⟨id, h'⟩
      refine Yields.of_pure ⟨rfl, _, false, h', ⟨hidle, howned, fun r => ?_, ⟨?_, ?_⟩⟩,
        fun _ => rfl, hstep⟩
      · change t.flights r = 0
        rw [hflights]
        rfl
      · simp [State.listen, T.side.other_ne, hparts, State.initial]
      · simp [State.listen, hparts, State.initial]

/-- Setting one of the ends. -/
def request (T : Tandem) (r : Role) (v : Value) : Request :=
  .set (T.place r).1 (T.place r).2 v

theorem Settled.set {early : Bool} (h : T.Settled early w) {r : Role} {v : Value}
    (hfair : T.Fair v) (hseeing : ¬T.Blind early r v) {n : Nat} (hn : 2 < n) :
    Yields ((T.request r v).perform (announce n)) w fun _ w' => T.Settled early w' := by
  obtain ⟨s, first, hshows, hrested, hfirst, hstep⟩ := h
  refine Yields.bind ((hshows.set_rested hrested r hfair hn).imp ?_)
  rintro changed w' ⟨t, hafter, h'⟩
  obtain ⟨first', hrested', hfirst'⟩ := hafter.rested
  have hseeing' : ¬T.Blind first r v := by
    rintro ⟨hside, rfl, hr, hnot⟩
    exact hseeing ⟨hside, (hfirst hside).symm, hr, hnot⟩
  exact Yields.of_pure ⟨t, first', h', hrested', fun hside => (hfirst' hside).trans (hfirst hside),
    hafter.inStep hstep hseeing'⟩

theorem Settled.setAll {early : Bool} (h : T.Settled early w) {changes : List (Role × Value)}
    (hchanges : ∀ c ∈ changes, T.Fair c.2 ∧ ¬T.Blind early c.1 c.2) {n : Nat} (hn : 2 < n) :
    Yields (Request.performAll (announce n) (changes.map fun c => T.request c.1 c.2)) w fun _ w' =>
      T.Settled early w' := by
  induction changes generalizing w with
  | nil => exact Yields.of_pure h
  | cons c changes ih =>
      obtain ⟨hfair, hseeing⟩ := hchanges c List.mem_cons_self
      refine Yields.bind ((h.set hfair hseeing hn).imp fun _ w₁ h₁ => ?_)
      exact ih h₁ fun c' hc' => hchanges c' (List.mem_cons_of_mem c hc')

/-- A delegate beside a normaliser that is registered before it or after it. After any number of
writes to either end both ends hold equal values, as long as no value that needs to be normalised is
set at a target that is normalised before the delegate hears of it. Such a write leaves the normal
form at the target and the value itself at the source. -/
theorem consistent (T : Tandem) (early : Bool) (h : T.Alone w) {u : Value}
    (hvalue : w.attr? T.source.1 T.source.2 = some u) (hfair : T.Fair u) {n : Nat} (hn : 2 < n)
    {changes : List (Role × Value)}
    (hchanges : ∀ c ∈ changes, T.Fair c.2 ∧ ¬T.Blind early c.1 c.2) :
    ∃ w₁ w₂, T.setUp early (announce n) w = some (.ok w.nextBinding, w₁) ∧
      Request.performAll (announce n) (changes.map fun c => T.request c.1 c.2) w₁ = some ((), w₂) ∧
      (∃ a x, w₂.attr? T.site.target T.site.attr = some a ∧
        w₂.attr? T.source.1 T.source.2 = some x ∧ a.Same x) ∧
      ∀ v, T.Fair v → T.Blind early .target v →
        (∀ a, w₂.attr? T.site.target T.site.attr = some a → (a == v) = false) →
        ∃ w₃ x, (T.request .target v).perform (announce n) w₂ = some ((), w₃) ∧
          w₃.attr? T.site.target T.site.attr = some (T.normal v) ∧
          w₃.attr? T.source.1 T.source.2 = some x ∧ (x == v) = true := by
  obtain ⟨made, w₁, hsetUp, rfl, hsettled⟩ := setUp_yields h early hvalue hfair (by omega : 1 < n)
  obtain ⟨⟨⟩, w₂, hperformed, hsettled₂⟩ := hsettled.setAll hchanges hn
  obtain ⟨s, first, hshows, hrested, hfirst, a, x, ha, hx, hsame⟩ := hsettled₂
  refine ⟨w₁, w₂, hsetUp, hperformed, ⟨a, x, (hshows.values .target).trans ha,
    (hshows.values .source).trans hx, hsame⟩, fun v hv hblind hdiffers => ?_⟩
  have hblind' : T.Blind first .target v :=
    ⟨hblind.1, (hfirst hblind.1).trans hblind.2.1, rfl, hblind.2.2.2⟩
  have hperform : Yields ((T.request .target v).perform (announce n)) w₂ fun _ w' =>
      ∃ t, s.After T first .target v t ∧ T.Shows w' t :=
    Yields.bind ((hshows.set_rested hrested .target hv hn).imp fun _ w' h' => Yields.of_pure h')
  obtain ⟨⟨⟩, w₃, hrun, t, hafter, h₃⟩ := hperform
  obtain ⟨htarget, x', hx', heq⟩ := hafter.blind hblind' fun a' ha' =>
    hdiffers a' ((hshows.values .target).trans ha')
  exact ⟨w₃, x', hrun, (h₃.values .target).trans htarget, (h₃.values .source).trans hx', heq⟩

/-- A slider that goes up to ten, with `slider.value := model.x`. -/
def slider : Tandem where
  site := { target := ⟨2, "Slider"⟩, attr := "value", frame := {}, label := "value := m.x" }
  code := .attr (.const (.object ⟨1, "Model"⟩)) "x"
  source := (⟨1, "Model"⟩, "x")
  denotes := ⟨_, rfl, .inl rfl⟩
  apart := by decide
  normal v := match v.asInt? with
    | some k => if 10 < k then .int 10 else v
    | none => v
  idempotent v := by
    cases hint : v.asInt? with
    | none => simp only [hint]
    | some k =>
        by_cases hk : 10 < k
        · simp only [if_pos hk]
          rfl
        · simp only [if_neg hk, hint]
  side := .target

def sliderWorld : World :=
  { objects := [{ handle := ⟨1, "Model"⟩, attrs := [("x", .int 5)] }, { handle := ⟨2, "Slider"⟩ }]
    nextObject := 3 }

theorem consistent_slider :
    slider.Alone sliderWorld ∧ slider.Fair (.int 5) ∧
      (∀ c ∈ [(Role.source, Value.int 50), (.target, .int 7)],
        slider.Fair c.2 ∧ ¬slider.Blind true c.1 c.2) ∧
      ∃ w₁ w₂, slider.setUp true (announce 3) sliderWorld = some (.ok 0, w₁) ∧
        Request.performAll (announce 3) [slider.request .source (.int 50),
          slider.request .target (.int 7)] w₁ = some ((), w₂) ∧
        ∃ a x, w₂.attr? ⟨2, "Slider"⟩ "value" = some a ∧ w₂.attr? ⟨1, "Model"⟩ "x" = some x ∧
          a.Same x := by
  have halone : slider.Alone sliderWorld :=
    ⟨fun r => by cases r <;> rfl, fun r => by cases r <;> rfl, fun r => by cases r <;> rfl,
      fun x hx => absurd hx List.not_mem_nil⟩
  have hfair : slider.Fair (.int 5) := ⟨rfl, rfl⟩
  have hchanges : ∀ c ∈ [(Role.source, Value.int 50), (.target, .int 7)],
      slider.Fair c.2 ∧ ¬slider.Blind true c.1 c.2 := by
    intro c hc
    simp only [List.mem_cons, List.not_mem_nil, or_false] at hc
    rcases hc with rfl | rfl
    · exact ⟨⟨rfl, rfl⟩, fun hblind => absurd hblind.2.2.1 (by decide)⟩
    · exact ⟨⟨rfl, rfl⟩, fun hblind => absurd hblind.2.2.2 (by decide)⟩
  obtain ⟨w₁, w₂, hsetUp, hperformed, hsame, -⟩ :=
    slider.consistent true halone rfl hfair (by decide : 2 < 3) hchanges
  exact ⟨halone, hfair, hchanges, w₁, w₂, hsetUp, hperformed, hsame⟩

/-- The slider shows ten and the model has fifty, when the slider is set to fifty. -/
theorem slider_inconsistent :
    ∃ w₁ w₂, slider.setUp true (announce 3) sliderWorld = some (.ok 0, w₁) ∧
      (slider.request .target (.int 50)).perform (announce 3) w₁ = some ((), w₂) ∧
      w₂.attr? ⟨2, "Slider"⟩ "value" = some (.int 10) ∧
      w₂.attr? ⟨1, "Model"⟩ "x" = some (.int 50) :=
  ⟨_, _, rfl, rfl, rfl, rfl⟩

end Tandem

end LiveUI
