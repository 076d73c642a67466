import LiveUI.Proofs.World.Making

/-! # Requests from outside

Between announcements the program sets or emits attributes and makes binds and delegates, one
request after another. In a network each of them is carried out and leaves a network at rest. -/

namespace LiveUI

inductive Request where
  | set (o : Handle) (attr : String) (v : Value)
  | emit (o : Handle) (attr : String) (v : Value)
  | bind (site : Site) (code : Code)
  | delegate (site : Site) (code : Code)

namespace Request

/-- A bind or a delegate that cannot be made is not; the program goes on. -/
def perform (announce : Announce) : Request → Step Unit
  | set o attr v => do let _ ← setAttr announce o attr v
  | emit o attr v => emitAttr announce o attr v
  | bind site code => do let _ ← site.bind announce code
  | delegate site code => do let _ ← site.delegate announce code

def performAll (announce : Announce) : List Request → Step Unit
  | [] => return ()
  | r :: rs => do
      r.perform announce
      performAll announce rs

/-- A site is on an object that is alive, and its code calls builtins only. -/
def Ready (w : World) : Request → Prop
  | set _ _ _ | emit _ _ _ => True
  | bind site code | delegate site code =>
      w.isAlive site.target = true ∧ code.HostFree { frame := site.frame }

end Request

/-! ## What a request leaves as it was -/

namespace World

variable {w w' w'' : World} {b : Nat} {x : Binding}

/-- Nothing is at work and nothing is being announced. -/
structure Resting (w : World) : Prop where
  idle : ∀ b x, w.binding? b = some x → x.busy = false
  quiet : ∀ o attr, w.isInFlight o attr = false

/-- There may be further bindings and a longer journal, and propagation may have taken place. -/
structure Extends (w w' : World) : Prop where
  isAlive : ∀ o, w'.isAlive o = w.isAlive o
  isInFlight : ∀ o attr, w'.isInFlight o attr = w.isInFlight o attr
  attrs : ∀ o attr, (w.attr? o attr).isSome = true → (w'.attr? o attr).isSome = true
  binding? : ∀ c, c < w.nextBinding →
    (w'.binding? c).map Binding.core = (w.binding? c).map Binding.core
  nextBinding : w.nextBinding ≤ w'.nextBinding
  journal : w.journal <:+ w'.journal

namespace Extends

theorem refl (w : World) : Extends w w :=
  ⟨fun _ => rfl, fun _ _ => rfl, fun _ _ => id, fun _ _ => rfl, Nat.le_refl _, List.suffix_refl _⟩

theorem trans (h : Extends w w') (h' : Extends w' w'') : Extends w w'' :=
  ⟨fun o => (h'.isAlive o).trans (h.isAlive o),
    fun o attr => (h'.isInFlight o attr).trans (h.isInFlight o attr),
    fun o attr hsome => h'.attrs o attr (h.attrs o attr hsome),
    fun c hc => (h'.binding? c (Nat.lt_of_lt_of_le hc h.nextBinding)).trans (h.binding? c hc),
    Nat.le_trans h.nextBinding h'.nextBinding, h.journal.trans h'.journal⟩

theorem of_keeps (h : Keeps w w') : Extends w w' :=
  ⟨h.isAlive, h.isInFlight, h.attrs, fun c _ => h.binding? c, Nat.le_of_eq h.nextBinding.symm, h.journal⟩

theorem home (h : Extends w w') {owned : Bool} (hhome : Homes w' w.nextBinding owned w'') :
    Extends w w'' := by
  refine ⟨fun o => (hhome.isAlive o).trans (h.isAlive o),
    fun o attr => (hhome.isInFlight o attr).trans (h.isInFlight o attr),
    fun o attr hsome => (hhome.attr? o attr).symm ▸ h.attrs o attr hsome, fun c hc => ?_, ?_, ?_⟩
  · rw [hhome.other c (Nat.ne_of_lt hc)]
    exact h.binding? c hc
  · rw [hhome.nextBinding]
    exact h.nextBinding
  · rw [hhome.journal]
    exact h.journal

theorem exists_binding? (h : Extends w w') (hw : Network w) (hx : w.binding? b = some x) :
    ∃ x', w'.binding? b = some x' ∧ x'.core = x.core := by
  have heq := h.binding? b (hw.lt_of_binding? hx)
  rw [hx] at heq
  exact Option.map_eq_some_iff.mp heq

end Extends

section Begin

variable {site : Site} {kind : BindingKind} {code : Code}

theorem Network.begin (h : Network w) (halive : w.isAlive site.target = true)
    (hfree : code.HostFree { frame := site.frame }) (hkind : kind ≠ .notify) :
    Network (w.begin site kind code) ∧ Extends w (w.begin site kind code) := by
  have hadded : Network (w.addBinding (site.record kind code w.nextBinding)) :=
    h.addBinding rfl rfl rfl rfl
  have hx : (w.addBinding (site.record kind code w.nextBinding)).binding? w.nextBinding =
      some (site.record kind code w.nextBinding) := by
    rw [binding?_addBinding h rfl, if_pos rfl]
  refine ⟨hadded.setBusy hx (h.inUse_record halive hfree hkind), fun _ => rfl, fun _ _ => rfl,
    fun _ _ => id, fun c hc => ?_, Nat.le_succ _, List.suffix_refl _⟩
  rw [h.binding?_begin, if_neg (Nat.ne_of_lt hc)]

/-- A binding that has been made, or let go of, is at rest like all the others. -/
theorem Resting.home (h : Resting w) (hw : Network w) (hkeeps : Keeps (w.begin site kind code) w')
    {owned : Bool} (hhome : Homes w' w.nextBinding owned w'') : Resting w'' := by
  refine ⟨fun b x hx => ?_, fun o attr => ?_⟩
  · by_cases hb : b = w.nextBinding
    · subst hb
      have hbegin := hkeeps.binding? w.nextBinding
      rw [hw.binding?_begin, if_pos rfl] at hbegin
      obtain ⟨y, hy, -⟩ := Option.map_eq_some_iff.mp hbegin
      obtain ⟨z, hz, -, hbusy, -⟩ := hhome.self y hy
      obtain rfl := Option.some.inj (hx.symm.trans hz)
      exact hbusy
    · rw [hhome.other b hb] at hx
      obtain ⟨y, hy, hcore⟩ := hkeeps.exists_binding? hx
      rw [hw.binding?_begin, if_neg hb] at hy
      exact (congrArg (·.busy) hcore).trans (h.idle b y hy)
  · rw [hhome.isInFlight, hkeeps.isInFlight]
    exact h.quiet o attr

end Begin

theorem Resting.keeps (h : Resting w) (hkeeps : Keeps w w') : Resting w' := by
  refine ⟨fun b x hx => ?_, fun o attr => ?_⟩
  · obtain ⟨y, hy, hcore⟩ := hkeeps.exists_binding? hx
    exact (congrArg (·.busy) hcore).trans (h.idle b y hy)
  · rw [hkeeps.isInFlight]
    exact h.quiet o attr

end World

open World Step

/-! ## How requests are carried out -/

/-- A binding is at work while it is made. -/
inductive Performs : Request → World → World → Prop where
  | set {o : Handle} {attr : String} {v : Value} {w w' : World}
      (run : Runs (.set o attr v) w w') : Performs (.set o attr v) w w'
  | emit {o : Handle} {attr : String} {v : Value} {w w' : World}
      (run : Runs (.announce ⟨o, attr, w.stored o attr, v⟩) (w.write o attr v) w') :
      Performs (.emit o attr v) w w'
  | bind {site : Site} {code : Code} {result : Except EvalError Unit} {w w₁ w' : World}
      (run : Runs (.refresh w.nextBinding result) (w.begin site .bind code) w₁)
      (hhome : Homes w₁ w.nextBinding result.isOk w') : Performs (.bind site code) w w'
  | delegate {site : Site} {code : Code} {result : Except EvalError Unit} {w w₁ w' : World}
      (run : Runs (.refresh w.nextBinding result) (w.begin site .delegate code) w₁)
      (hhome : Homes w₁ w.nextBinding result.isOk w') : Performs (.delegate site code) w w'
  | refused {site : Site} {code : Code} {w : World} (h : code.attrPath? = none) :
      Performs (.delegate site code) w w

/-- What is known of a binding that has just been evaluated for the first time. -/
theorem World.Network.made {w w₁ : World} (h : Network w) {site : Site} {kind : BindingKind}
    {code : Code} (halive : w.isAlive site.target = true)
    (hfree : code.HostFree { frame := site.frame }) (hkind : kind ≠ .notify)
    {result : Except EvalError Unit}
    (run : Runs (.refresh w.nextBinding result) (w.begin site kind code) w₁) :
    Network w₁ ∧ Keeps (w.begin site kind code) w₁ ∧ ∃ x, w₁.binding? w.nextBinding = some x ∧
      x.core = { site.record kind code w.nextBinding with busy := true } := by
  obtain ⟨hnet, -⟩ := h.begin halive hfree hkind
  have hx : (w.begin site kind code).binding? w.nextBinding =
      some { site.record kind code w.nextBinding with busy := true } := by
    rw [h.binding?_begin, if_pos rfl]
  obtain ⟨hnet₁, hkeeps⟩ := run.keeps hnet ⟨_, hx, rfl⟩
  exact ⟨hnet₁, hkeeps, hkeeps.exists_core hx⟩

/-- A request keeps a network at rest and leaves what was there. -/
theorem Performs.keeps {r : Request} {w w' : World} (p : Performs r w w') (h : Network w)
    (hready : r.Ready w) (hrest : Resting w) : Network w' ∧ Resting w' ∧ Extends w w' := by
  cases p with
  | set run =>
      obtain ⟨hnet, hkeeps⟩ := run.keeps h trivial
      exact ⟨hnet, hrest.keeps hkeeps, .of_keeps hkeeps⟩
  | emit run =>
      obtain ⟨hnet, hkeeps⟩ := run.keeps (h.write _ _ _) trivial
      have hkeeps' := (Keeps.write _ _ _ _).trans hkeeps
      exact ⟨hnet, hrest.keeps hkeeps', .of_keeps hkeeps'⟩
  | bind run hhome =>
      obtain ⟨-, hext⟩ := h.begin hready.1 hready.2 (by simp : BindingKind.bind ≠ .notify)
      obtain ⟨-, hkeeps, -⟩ := h.made hready.1 hready.2 (by simp) run
      exact ⟨hhome.network, hrest.home h hkeeps hhome, (hext.trans (.of_keeps hkeeps)).home hhome⟩
  | delegate run hhome =>
      obtain ⟨-, hext⟩ := h.begin hready.1 hready.2 (by simp : BindingKind.delegate ≠ .notify)
      obtain ⟨-, hkeeps, -⟩ := h.made hready.1 hready.2 (by simp) run
      exact ⟨hhome.network, hrest.home h hkeeps hhome, (hext.trans (.of_keeps hkeeps)).home hhome⟩
  | refused => exact ⟨h, hrest, .refl _⟩

/-- The first evaluation of a binding, up to the moment where it goes home. -/
theorem make_runs {n : Nat} {w : World} (h : Network w) (hn : w.idle < n) {site : Site}
    {kind : BindingKind} {code : Code} (halive : w.isAlive site.target = true)
    (hfree : code.HostFree { frame := site.frame }) (hkind : kind ≠ .notify) :
    Yields (refresh (announce n) w.nextBinding) (w.addBinding (site.record kind code w.nextBinding))
      fun r w' => ∃ w₁, Runs (.refresh w.nextBinding r) (w.begin site kind code) w₁ ∧
        w' = w₁.setBusy w.nextBinding false := by
  have hx : (w.addBinding (site.record kind code w.nextBinding)).binding? w.nextBinding =
      some (site.record kind code w.nextBinding) := by
    rw [binding?_addBinding h rfl, if_pos rfl]
  have hidle : (w.addBinding (site.record kind code w.nextBinding)).idle ≤ n := by
    rw [idle_addBinding rfl]
    omega
  exact refresh_runs (announce_runs n) (h.addBinding rfl rfl rfl rfl) hidle hx rfl
    (h.inUse_record halive hfree hkind)

theorem Request.perform_performs {n : Nat} {r : Request} {w : World} (h : Network w)
    (hready : r.Ready w) (hn : w.idle < n) :
    Yields (r.perform (announce n)) w fun _ w' => Performs r w w' := by
  cases r with
  | set o attr v =>
      refine Yields.bind ((setAttr_runs (announce_runs n) h hn o attr v).imp fun _ w' hrun => ?_)
      exact Yields.of_pure (.set hrun)
  | emit o attr v =>
      refine Yields.get_bind (Yields.modify_bind ?_)
      have hidle : (w.write o attr v).idle < n := (Keeps.write w o attr v).idle ▸ hn
      exact (announce_runs n _ _ (h.write o attr v) hidle).imp fun _ w' hrun => .emit hrun
  | bind site code =>
      refine Yields.bind (Yields.bind ⟨w.nextBinding, _, rfl, Yields.bind ?_⟩)
      refine (make_runs h hn hready.1 hready.2 (by simp : BindingKind.bind ≠ .notify)).imp ?_
      rintro result w' ⟨w₁, hrun, rfl⟩
      obtain ⟨hnet, -, x, hx, hcore⟩ := h.made hready.1 hready.2 (by simp) hrun
      have hbusy : x.busy = true := congrArg (·.busy) hcore
      have howned : x.owned = false := congrArg (·.owned) hcore
      have hkind : x.kind = .bind := congrArg (·.kind) hcore
      cases result with
      | error e =>
          refine Yields.modify_bind (Yields.of_pure (Yields.of_pure ?_))
          exact .bind hrun (hnet.disconnect hx hbusy howned)
      | ok _ =>
          refine Yields.bind (Yields.modify_bind (Yields.of_modify ?_))
          exact Yields.of_pure (Yields.of_pure (.bind hrun (hnet.own hx hbusy hkind site.target)))
  | delegate site code =>
      cases hpath : code.attrPath? with
      | none =>
          refine Yields.bind ?_
          simp only [Site.delegate, hpath, Option.isNone_none, if_true]
          exact Yields.of_pure (Yields.of_pure (.refused hpath))
      | some path =>
          refine Yields.bind ?_
          simp only [Site.delegate, hpath, Option.isNone_some, Bool.false_eq_true, if_false]
          refine Yields.bind ⟨w.nextBinding, _, rfl, Yields.bind ?_⟩
          refine (make_runs h hn hready.1 hready.2 (by simp : BindingKind.delegate ≠ .notify)).imp ?_
          rintro result w' ⟨w₁, hrun, rfl⟩
          obtain ⟨hnet, -, x, hx, hcore⟩ := h.made hready.1 hready.2 (by simp) hrun
          have hbusy : x.busy = true := congrArg (·.busy) hcore
          have howned : x.owned = false := congrArg (·.owned) hcore
          have hkind : x.kind = .delegate := congrArg (·.kind) hcore
          have htarget : x.target = site.target := congrArg (·.target) hcore
          have hattr : x.attr = site.attr := congrArg (·.attr) hcore
          cases result with
          | error e =>
              refine Yields.modify_bind (Yields.of_pure (Yields.of_pure ?_))
              exact .delegate hrun (hnet.disconnect hx hbusy howned)
          | ok _ =>
              have hhome := hnet.listen hx hbusy howned hkind
              rw [htarget, hattr] at hhome
              refine Yields.bind (Yields.bind ⟨_, _, rfl, Yields.of_modify ?_⟩)
              refine Yields.bind (Yields.modify_bind (Yields.of_modify ?_))
              exact Yields.of_pure (Yields.of_pure (.delegate hrun hhome))

theorem Performs.length {r : Request} {w w' : World} (p : Performs r w w') (h : Network w)
    (hready : r.Ready w) : w'.bindings.length ≤ w.bindings.length + 1 := by
  cases p with
  | set run =>
      obtain ⟨-, hkeeps⟩ := run.keeps h trivial
      exact Nat.le_succ_of_le (Nat.le_of_eq hkeeps.length)
  | emit run =>
      obtain ⟨-, hkeeps⟩ := run.keeps (h.write _ _ _) trivial
      exact Nat.le_succ_of_le (Nat.le_of_eq hkeeps.length)
  | bind run hhome =>
      obtain ⟨-, hkeeps, -⟩ := h.made hready.1 hready.2 (by simp) run
      rw [hhome.length, hkeeps.length]
      simp [World.begin, World.setBusy, length_modifyBinding, World.addBinding]
  | delegate run hhome =>
      obtain ⟨-, hkeeps, -⟩ := h.made hready.1 hready.2 (by simp) run
      rw [hhome.length, hkeeps.length]
      simp [World.begin, World.setBusy, length_modifyBinding, World.addBinding]
  | refused => exact Nat.le_succ _

/-! ## Before the first request -/

theorem Request.Ready.extends {r : Request} {w w' : World} (h : r.Ready w) (hext : Extends w w') :
    r.Ready w' := by
  cases r with
  | set => trivial
  | emit => trivial
  | bind site code => exact ⟨(hext.isAlive site.target).trans h.1, h.2⟩
  | delegate site code => exact ⟨(hext.isAlive site.target).trans h.1, h.2⟩

namespace World

/-- No observer is registered, no change is being announced, and whatever bindings there were have
been let go of. -/
structure Quiet (w : World) : Prop where
  silent : ∀ o, w.observers o = []
  quiet : ∀ o attr, w.isInFlight o attr = false
  nodup : (w.bindings.map (·.id)).Nodup
  lt : ∀ x ∈ w.bindings, x.id < w.nextBinding
  unevaluated : ∀ b, w.nextBinding ≤ b → w.lastEvaluation? b = none
  released : ∀ x ∈ w.bindings, x.inService = false ∧ x.sources = [] ∧ x.targetListener = none

namespace Quiet

variable {w : World}

theorem network (h : Quiet w) : Network w := by
  have hledger : ∀ role b, w.ledger role b = [] := by
    intro role b
    cases hx : w.binding? b with
    | none => cases role <;> simp [ledger, hx]
    | some x =>
        obtain ⟨-, hsources, hlistener⟩ := h.released x (w.mem_of_binding? hx)
        cases role <;> simp [ledger, hx, hsources, hlistener]
  refine ⟨⟨?_, ?_, ?_, ?_⟩, ?_, h.nodup, h.lt, h.unevaluated, ?_, ?_⟩
  · intro o obs hobs
    simp [h.silent] at hobs
  · simp [h.silent]
  · intro o obs hobs
    simp [h.silent] at hobs
  · intro role b e he
    simp [hledger] at he
  · intro o obs hobs
    simp [h.silent] at hobs
  · intro x hx hservice
    exact absurd ((h.released x hx).1.symm.trans hservice) (by simp)
  · exact fun x hx _ => (h.released x hx).2

/-- A world without bindings, in which nothing has happened yet. -/
theorem of_objects (hobjects : ∀ x ∈ w.objects, x.observers = [] ∧ x.inFlight = [])
    (hbindings : w.bindings = []) (hjournal : w.journal = []) : Quiet w := by
  refine ⟨fun o => ?_, fun o attr => ?_, by simp [hbindings], by simp [hbindings], fun b _ => ?_,
    by simp [hbindings]⟩
  · cases hx : w.object? o with
    | none => simp [observers, hx]
    | some x => simp [observers, hx, (hobjects x (List.mem_of_find?_eq_some hx)).1]
  · cases hx : w.object? o with
    | none => simp [isInFlight, hx]
    | some x => simp [isInFlight, hx, (hobjects x (List.mem_of_find?_eq_some hx)).2]
  · simp [lastEvaluation?, hjournal]

theorem resting (h : Quiet w) : Resting w := by
  refine ⟨fun b x hx => ?_, h.quiet⟩
  have hservice := (h.released x (w.mem_of_binding? hx)).1
  simp only [Binding.inService, Bool.or_eq_false_iff] at hservice
  exact hservice.2

end Quiet

end World

end LiveUI
