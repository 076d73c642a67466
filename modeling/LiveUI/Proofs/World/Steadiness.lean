import LiveUI.Proofs.World.Announcing

/-! # Steady networks

Whatever is set, emitted and bound in a network from outside, each attribute is announced once at a
time and holds what its announcement says. So a write from outside that is said to have changed an
attribute has changed it to the value that was written. -/

namespace LiveUI

open World Step

namespace Request

/-- What is written is alive, and all that a request brings along leads to live objects. -/
def Grounded (w : World) : Request → Prop
  | set o _ v | emit o _ v => w.isAlive o = true ∧ w.Knows v
  | bind site code | delegate site code =>
      ∀ v ∈ code.origins { frame := site.frame }, w.Knows v

theorem Grounded.extends {r : Request} {w w' : World} (h : r.Grounded w) (hext : Extends w w') :
    r.Grounded w' := by
  have hknows := fun v => (knows_congr hext.isAlive v).mpr
  cases r with
  | set o attr v | emit o attr v => exact ⟨(hext.isAlive o).trans h.1, hknows v h.2⟩
  | bind site code | delegate site code => exact fun v hv => hknows v (h v hv)

end Request

namespace World

variable {w w' : World}

theorem Resting.announcing (h : Resting w) (hnet : Network w) (hintact : Intact w) :
    Announcing [] w :=
  ⟨hnet, hintact, by simp [h.quiet], .nil, nofun⟩

theorem Announcing.unannounced (h : Announcing [] w) (o : Handle) (attr : String) :
    w.isInFlight o attr = false :=
  h.free_iff.mpr nofun

section Begin

variable {site : Site} {kind : BindingKind} {code : Code}

/-- A binding that is being made brings nothing that is dead along. -/
theorem Announcing.begin (h : Announcing [] w) (halive : w.isAlive site.target = true)
    (hfree : code.HostFree { frame := site.frame }) (hkind : kind ≠ .notify)
    (horigins : ∀ v ∈ code.origins { frame := site.frame }, w.Knows v) :
    Announcing [] (w.begin site kind code) := by
  refine ⟨(h.network.begin halive hfree hkind).1, ⟨h.intact.attrs, fun {c x} hx => ?_⟩, h.inFlight,
    h.steady⟩
  rw [h.network.binding?_begin] at hx
  split at hx
  · obtain rfl := Option.some.inj hx
    exact horigins
  · exact h.intact.bindings hx

end Begin

theorem Intact.home (h : Intact w) {b : Nat} {x : Binding} {owned : Bool}
    (hx : w.binding? b = some x) (hhome : Homes w b owned w') : Intact w' := by
  have hknows := fun v => (knows_congr hhome.isAlive v).mpr
  refine ⟨fun {o attr v} hv => hknows v ?_, fun {c y} hy v hv => hknows v ?_⟩
  · rw [hhome.attr?] at hv
    exact h.attrs hv
  · by_cases hc : c = b
    · subst hc
      obtain ⟨z, hz, hplan, -, -⟩ := hhome.self x hx
      obtain rfl := Option.some.inj (hz.symm.trans hy)
      rw [hplan.code, hplan.frame] at hv
      exact h.bindings hx v hv
    · rw [hhome.other c hc] at hy
      exact h.bindings hy v hv

/-- From the first evaluation of a binding to its going home. -/
theorem Announcing.made (h : Announcing [] w) {site : Site} {kind : BindingKind} {code : Code}
    (halive : w.isAlive site.target = true) (hfree : code.HostFree { frame := site.frame })
    (hkind : kind ≠ .notify) (horigins : ∀ v ∈ code.origins { frame := site.frame }, w.Knows v)
    {result : Except EvalError Unit} {w₁ : World}
    (run : Runs (.refresh w.nextBinding result) (w.begin site kind code) w₁) {owned : Bool}
    (hhome : Homes w₁ w.nextBinding owned w') (hnan : w'.NaNFree) : Intact w' ∧ Calm [] w w' := by
  have hbegun : Announcing [] (w.begin site kind code) := h.begin halive hfree hkind horigins
  obtain ⟨-, -, x, hx, -⟩ := h.network.made halive hfree hkind run
  have hready : (Work.refresh w.nextBinding result).Ready (w.begin site kind code) :=
    ⟨_, by rw [h.network.binding?_begin, if_pos rfl], rfl⟩
  have hnan₁ : w₁.NaNFree := hnan.of_suffix (hhome.journal ▸ List.suffix_refl _)
  obtain ⟨⟨hann, -, hcalm⟩, -⟩ :=
    run.proceeds hbegun hready (fun x _ => hbegun.unannounced x.target x.attr) hnan₁
  have hend : Calm [] w₁ w' :=
    .of_entries hann.steady [] hhome.journal (by simp) hhome.attr?
  exact ⟨hann.intact.home hx hhome, Calm.trans hcalm hend⟩

end World

/-- A request leads through steady moments. -/
theorem Performs.calm {r : Request} {w w' : World} (p : Performs r w w') (h : Announcing [] w)
    (hready : r.Ready w) (hgrounded : r.Grounded w) (hnan : w'.NaNFree) :
    Intact w' ∧ Calm [] w w' := by
  cases p with
  | set run =>
      obtain ⟨⟨hann, -, hcalm⟩, -⟩ :=
        run.proceeds h trivial ⟨hgrounded.1, h.unannounced _ _, hgrounded.2⟩ hnan
      exact ⟨hann.intact, hcalm⟩
  | @emit o attr v _ _ run =>
      have hwrite := h.proceeds_write attr hgrounded.1 (h.unannounced o attr) hgrounded.2
      obtain ⟨⟨hann, -, hcalm⟩, -⟩ := run.proceeds hwrite.announcing trivial
        ⟨w.attr?_write_self attr v hgrounded.1, hwrite.announcing.unannounced o attr,
          (knows_congr hwrite.keeps.isAlive v).mpr hgrounded.2⟩ hnan
      exact ⟨hann.intact, hwrite.calm.trans hcalm⟩
  | bind run hhome => exact h.made hready.1 hready.2 (by simp) hgrounded run hhome hnan
  | delegate run hhome => exact h.made hready.1 hready.2 (by simp) hgrounded run hhome hnan
  | refused => exact ⟨h.intact, h.proceeds_refl.calm⟩

namespace Request

theorem performAll_calm {n : Nat} {rs : List Request} {w : World} (h : Network w)
    (hrest : Resting w) (hready : ∀ r ∈ rs, r.Ready w) (hgrounded : ∀ r ∈ rs, r.Grounded w)
    (hn : w.bindings.length + rs.length < n) :
    Yields (performAll (announce n) rs) w fun _ w' =>
      Network w' ∧ Resting w' ∧ Extends w w' ∧ w'.idle < n ∧
        (Intact w → w'.NaNFree → Intact w' ∧ Calm [] w w') := by
  induction rs generalizing w with
  | nil =>
      have hidle : w.idle ≤ w.bindings.length := List.countP_le_length
      refine Yields.of_pure ⟨h, hrest, .refl w, ?_, fun hintact _ => ⟨hintact, ?_⟩⟩
      · rw [List.length_nil] at hn
        omega
      · exact (hrest.announcing h hintact).proceeds_refl.calm
  | cons r rs ih =>
      have hr := hready r List.mem_cons_self
      have hgr := hgrounded r List.mem_cons_self
      have hidle : w.idle ≤ w.bindings.length := List.countP_le_length
      rw [List.length_cons] at hn
      obtain ⟨⟨⟩, w₁, heq, hperforms⟩ := perform_performs h hr (by omega : w.idle < n)
      obtain ⟨hnet, hrest₁, hext⟩ := hperforms.keeps h hr hrest
      have hlength := hperforms.length h hr
      have hothers := ih hnet hrest₁
        (fun r hr => (hready r (List.mem_cons_of_mem _ hr)).extends hext)
        (fun r hr => (hgrounded r (List.mem_cons_of_mem _ hr)).extends hext) (by omega)
      refine Yields.bind ⟨_, w₁, heq, hothers.imp ?_⟩
      rintro - w' ⟨hnet', hrest', hext', hidle', hcalm'⟩
      refine ⟨hnet', hrest', hext.trans hext', hidle', fun hintact hnan => ?_⟩
      obtain ⟨hintact₁, hcalm⟩ := hperforms.calm (hrest.announcing h hintact) hr hgr
        (hnan.of_suffix hext'.journal)
      obtain ⟨hintact', hcalm'⟩ := hcalm' hintact₁ hnan
      exact ⟨hintact', hcalm.trans hcalm'⟩

end Request

/-- A write that changed an attribute was announced. -/
theorem setAttr_announces {announce : Announce} {o : Handle} {attr : String} {v : Value}
    {w w' : World} (h : setAttr announce o attr v w = some (true, w')) :
    announce ⟨o, attr, w.stored o attr, v⟩ (w.write o attr v) = some ((), w') := by
  have hne (old : Value) (hold : w.attr? o attr = some old) : (old == v) = false := by
    by_contra heq
    rw [setAttr_of_eq hold (by simpa using heq)] at h
    cases h
  rw [setAttr_of_ne hne] at h
  obtain ⟨q, hannounce, heq⟩ := Option.map_eq_some_iff.mp h
  obtain rfl : q.2 = w' := congrArg Prod.snd heq
  exact hannounce

/-- In a network that stores no NaN, from its first request on, no attribute is announced twice at a
time and each that is announced holds what its announcement says; and where a further write says that
it has changed an attribute, the attribute holds the value that was written. -/
theorem Request.announcements_steady {w : World} (hw : Quiet w) (hintact : Intact w) {n : Nat}
    {rs : List Request} (hready : ∀ r ∈ rs, r.Ready w) (hgrounded : ∀ r ∈ rs, r.Grounded w)
    (hn : w.bindings.length + rs.length < n) :
    ∃ w', performAll (announce n) rs w = some ((), w') ∧
      (w'.NaNFree → ∀ later earlier, w'.journal = later ++ (earlier ++ w.journal) →
        ((w.moment []).afterAll earlier).Steady) ∧
      ∀ o attr v, w.isAlive o = true → w.Knows v →
        ∃ changed w'', setAttr (announce n) o attr v w' = some (changed, w'') ∧
          (w''.NaNFree → changed = true → w''.attr? o attr = some v) := by
  obtain ⟨⟨⟩, w', heq, hnet, hrest, hext, hidle, hcalm⟩ :=
    performAll_calm hw.network hw.resting hready hgrounded hn
  refine ⟨w', heq, fun hnan later earlier hjournal => ?_, fun o attr v halive hknows => ?_⟩
  · obtain ⟨-, entries, hentries, hleads⟩ := hcalm hintact hnan
    rw [hentries, ← List.append_assoc] at hjournal
    exact hleads.steady earlier ⟨later, (List.append_cancel_right hjournal).symm⟩
  · obtain ⟨changed, w'', hset, hrun⟩ := setAttr_runs (announce_runs n) hnet hidle o attr v
    refine ⟨changed, w'', hset, fun hnan hchanged => ?_⟩
    subst hchanged
    obtain ⟨-, hkeeps⟩ := hrun.keeps hnet trivial
    obtain ⟨hintact', -⟩ := hcalm hintact (hnan.of_suffix hkeeps.journal)
    have hann := hrest.announcing hnet hintact'
    have halive' : w'.isAlive o = true := (hext.isAlive o).trans halive
    have hwrite := hann.proceeds_write attr halive' (hann.unannounced o attr)
      ((knows_congr hext.isAlive v).mpr hknows)
    have hannounced := (announce_runs n ⟨o, attr, w'.stored o attr, v⟩ _ hwrite.announcing.network
      (hwrite.keeps.idle ▸ hidle)).result (setAttr_announces hset)
    exact (hannounced.proceeds hwrite.announcing trivial
      ⟨w'.attr?_write_self attr v halive', hwrite.announcing.unannounced o attr,
        (knows_congr hwrite.keeps.isAlive v).mpr
          ((knows_congr hext.isAlive v).mpr hknows)⟩ hnan).2

/-- One object with two attributes. -/
def pairWorld : World :=
  { objects := [{ handle := ⟨1, "Pair"⟩, attrs := [("a", .int 1), ("b", .int 2)] }], nextObject := 2 }

theorem pairWorld_quiet : pairWorld.Quiet :=
  .of_objects (by decide) rfl rfl

theorem pairWorld_knows {v : Value} (hv : ∀ id ∈ v.objects, id = 1) : pairWorld.Knows v := by
  intro o ho
  simp [World.isAlive, World.object?, pairWorld, hv o.id ho]

theorem pairWorld_intact : pairWorld.Intact := by
  refine ⟨fun {o attr v} hv => pairWorld_knows ?_,
    fun hx => absurd hx (by simp [World.binding?, pairWorld])⟩
  obtain ⟨x, hx, hattr⟩ := Option.bind_eq_some_iff.mp hv
  have hmem := List.mem_of_find?_eq_some hx
  obtain rfl := List.mem_singleton.mp hmem
  obtain ⟨p, hp, rfl⟩ := Option.map_eq_some_iff.mp hattr
  have hvalues : ∀ p ∈ [("a", Value.int 1), ("b", Value.int 2)], ∀ id ∈ p.2.objects, id = 1 := by
    decide
  exact hvalues p (List.mem_of_find?_eq_some hp)

/-- Each attribute follows the other one, and two bindings have the same target. -/
def pairRequests : List Request :=
  [.bind { target := ⟨1, "Pair"⟩, attr := "b", frame := {}, label := "b << a" }
    (.attr (.const (.object ⟨1, "Pair"⟩)) "a"),
   .bind { target := ⟨1, "Pair"⟩, attr := "a", frame := {}, label := "a << b + 1" }
    (.binary .add (.attr (.const (.object ⟨1, "Pair"⟩)) "b") (.const (.int 1))),
   .delegate { target := ⟨1, "Pair"⟩, attr := "b", frame := {}, label := "b := a" }
    (.attr (.const (.object ⟨1, "Pair"⟩)) "a"),
   .emit ⟨1, "Pair"⟩ "b" (.int 7)]

theorem Request.announcements_steady_pair :
    pairWorld.Quiet ∧ pairWorld.Intact ∧ (∀ r ∈ pairRequests, r.Ready pairWorld) ∧
      (∀ r ∈ pairRequests, r.Grounded pairWorld) ∧
      ∃ w', performAll (announce 5) pairRequests pairWorld = some ((), w') ∧ w'.NaNFree ∧
        (∀ later earlier, w'.journal = later ++ (earlier ++ pairWorld.journal) →
          ((pairWorld.moment []).afterAll earlier).Steady) ∧
        ∃ w'', setAttr (announce 5) ⟨1, "Pair"⟩ "a" (.int 5) w' = some (true, w'') ∧
          w''.NaNFree ∧ w''.attr? ⟨1, "Pair"⟩ "a" = some (.int 5) := by
  have hready : ∀ r ∈ pairRequests, r.Ready pairWorld := by
    intro r hr
    simp only [pairRequests, List.mem_cons, List.not_mem_nil, or_false] at hr
    rcases hr with rfl | rfl | rfl | rfl
    · exact ⟨rfl, .of_callsBuiltins rfl _⟩
    · exact ⟨rfl, .of_callsBuiltins rfl _⟩
    · exact ⟨rfl, .of_callsBuiltins rfl _⟩
    · trivial
  have hgrounded : ∀ r ∈ pairRequests, r.Grounded pairWorld := by
    intro r hr
    simp only [pairRequests, List.mem_cons, List.not_mem_nil, or_false] at hr
    rcases hr with rfl | rfl | rfl | rfl
    · exact fun v hv => pairWorld_knows (by simp_all [Code.origins, Value.objects])
    · intro v hv
      refine pairWorld_knows ?_
      simp only [Code.origins, List.cons_append, List.nil_append, List.mem_cons, List.not_mem_nil,
        or_false] at hv
      rcases hv with rfl | rfl <;> simp [Value.objects]
    · exact fun v hv => pairWorld_knows (by simp_all [Code.origins, Value.objects])
    · exact ⟨rfl, pairWorld_knows (by simp [Value.objects])⟩
  -- Both runs are computed at once, with all that is asked of them.
  have hruns : (performAll (announce 5) pairRequests pairWorld).any (fun p => p.2.nanFree &&
      (setAttr (announce 5) ⟨1, "Pair"⟩ "a" (.int 5) p.2).any fun q => q.1 && q.2.nanFree) = true := by
    decide +kernel
  obtain ⟨⟨⟨⟩, w'⟩, heq, hruns⟩ := (Option.any_eq_true _ _).mp hruns
  simp only [Bool.and_eq_true] at hruns
  obtain ⟨hnan, hruns⟩ := hruns
  obtain ⟨⟨changed, w''⟩, hset, hruns⟩ := (Option.any_eq_true _ _).mp hruns
  simp only [Bool.and_eq_true] at hruns
  obtain ⟨rfl, hnan'⟩ := hruns
  obtain ⟨v, hv, hsteady, hholds⟩ :=
    announcements_steady pairWorld_quiet pairWorld_intact hready hgrounded (n := 5) (by decide)
  obtain ⟨-, rfl⟩ := Prod.mk.inj (Option.some.inj (hv.symm.trans heq))
  obtain ⟨changed, u, hu, hholds⟩ :=
    hholds ⟨1, "Pair"⟩ "a" (.int 5) rfl (pairWorld_knows (by simp [Value.objects]))
  obtain ⟨rfl, rfl⟩ := Prod.mk.inj (Option.some.inj (hu.symm.trans hset))
  have hfree := World.nanFree_iff.mp hnan
  have hfree' := World.nanFree_iff.mp hnan'
  exact ⟨pairWorld_quiet, pairWorld_intact, hready, hgrounded, _, heq, hfree, hsteady hfree, _, hset, hfree',
    hholds hfree' rfl⟩

end LiveUI
