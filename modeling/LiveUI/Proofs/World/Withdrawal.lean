import LiveUI.Proofs.World.Playing
import LiveUI.Proofs.World.Reached

/-! # Bindings that cannot start

A binding observes what its first evaluation has read before it is known whether the evaluation has
failed. Where it has, the binding is disconnected. Its observers are the latest of each object, with
numbers that no other observer has, so what is left is what was there before. -/

namespace LiveUI

/-! ## Subscriptions that are given up -/

/-- The subscription is to this observer of the object. -/
def Subscription.names (s : Subscription) (o : Handle) (obs : Observer) : Bool :=
  s.object.id == o.id && s.id == obs.id

/-- The object without the observers that the subscriptions are to. -/
def Object.without (x : Object) (ss : List Subscription) : Object :=
  { x with observers := x.observers.filter fun obs => !ss.any (·.names x.handle obs) }

namespace Object

theorem without_nil (x : Object) : x.without [] = x := by
  simp [without]

theorem without_append (x : Object) (ss ts : List Subscription) :
    x.without (ss ++ ts) = (x.without ss).without ts := by
  simp [without, List.filter_filter, Bool.and_comm]

end Object

namespace World

variable {w w' : World}

theorem object?_unobserve (w : World) (s : Subscription) (o : Handle) :
    (w.unobserve s).object? o = (w.object? o).map (·.without [s]) := by
  rw [unobserve, object?_modifyObject w s.object o (f := fun x =>
    { x with observers := x.observers.filter (·.id != s.id) }) fun _ => rfl]
  cases hx : w.object? o with
  | none => simp
  | some x =>
      have hid := handle_of_object? hx
      by_cases hs : s.object.id = o.id
      · simp [Object.without, Subscription.names, hs, hid, bne, Bool.beq_comm]
      · simp [Object.without, Subscription.names, hs, hid, beq_false_of_ne hs]

theorem object?_unobserveAll (ss : List Subscription) (w : World) (o : Handle) :
    (ss.foldl unobserve w).object? o = (w.object? o).map (·.without ss) := by
  induction ss generalizing w with
  | nil => simp [Object.without_nil]
  | cons s ss ih =>
      rw [List.foldl_cons, ih, object?_unobserve, Option.map_map]
      exact congrArg (fun f => (w.object? o).map f)
        (funext fun x => (x.without_append [s] ss).symm)

/-- An object that loses the observers of a binding changes in nothing else. -/
theorem object?_disconnect (w : World) (b : Nat) (o : Handle) :
    (w.disconnect b).object? o = (w.object? o).map (·.without (w.entered b)) := by
  unfold disconnect
  split
  next hnone => simp [entered, hnone, Object.without_nil]
  next x hx =>
    rw [entered_of_binding? hx, Binding.subscriptions, ← object?_unobserveAll, List.foldl_append]
    rfl

theorem binding?_disconnect (w : World) (b c : Nat) :
    (w.disconnect b).binding? c =
      if b = c then (w.binding? c).map fun x => { x with sources := [], targetListener := none }
      else w.binding? c := by
  have hobserved (ss ts : List Subscription) :
      (ts.foldl unobserve (ss.foldl unobserve w)).binding? c = w.binding? c := by
    rw [binding?, bindings_unobserveAll, bindings_unobserveAll, ← binding?]
  unfold disconnect
  split
  next hnone =>
    split
    next hc => simp [← hc, hnone]
    next => rfl
  next x hx =>
    rw [binding?_modifyBinding _ b c (f := fun x => { x with sources := [], targetListener := none })
      fun _ => rfl, hobserved]

/-! ## Observers that have come -/

/-- Observers have come behind those that were there. They have new numbers, and the subscriptions are
to them. -/
structure Trailed (w w' : World) (ss : List Subscription) : Prop where
  objects : ∀ o, ∃ late : List Observer, (∀ obs ∈ late, ss.any (·.names o obs) = true) ∧
    w'.object? o = (w.object? o).map fun x =>
      { x with observers := x.observers ++ late, nextObserver := w'.nextObserver o }
  next : ∀ o, w.nextObserver o ≤ w'.nextObserver o
  new : ∀ s ∈ ss, w.nextObserver s.object ≤ s.id

namespace Trailed

variable {ss : List Subscription}

theorem of_objects (h : w'.objects = w.objects) : Trailed w w' [] := by
  have hobject (o : Handle) : w'.object? o = w.object? o := by rw [object?, h, object?]
  have hnext (o : Handle) : w'.nextObserver o = w.nextObserver o := by
    rw [nextObserver, hobject, ← nextObserver]
  refine ⟨fun o => ⟨[], fun _ h => absurd h List.not_mem_nil, ?_⟩, fun o => Nat.le_of_eq (hnext o).symm,
    fun _ h => absurd h List.not_mem_nil⟩
  rw [hobject, nextObserver, hobject]
  cases w.object? o <;> simp

theorem observe (h : Trailed w w' ss) (o : Handle) (attr : String) (callback : Callback) :
    Trailed w (w'.observe o attr callback).2 (ss ++ [(w'.observe o attr callback).1]) := by
  have hnext (p : Handle) : w'.nextObserver p ≤ (w'.observe o attr callback).2.nextObserver p := by
    rw [nextObserver_observe]
    split
    next hp =>
      rw [w'.nextObserver_congr hp.1]
      exact Nat.le_succ _
    next => exact Nat.le_refl _
  refine ⟨fun p => ?_, fun p => Nat.le_trans (h.next p) (hnext p), fun s hs => ?_⟩
  · obtain ⟨late, hlate, hp⟩ := h.objects p
    have hlate' : ∀ obs ∈ late,
        (ss ++ [(w'.observe o attr callback).1]).any (·.names p obs) = true := fun obs hobs => by
      simp [hlate obs hobs]
    have hobserved := object?_modifyObject w' o p (f := fun x => { x with
      observers := x.observers ++ [⟨w'.nextObserver o, attr, callback⟩]
      nextObserver := w'.nextObserver o + 1 }) fun _ => rfl
    change (w'.observe o attr callback).2.object? p = _ at hobserved
    rw [hobserved]
    split
    next hid =>
      refine ⟨late ++ [⟨w'.nextObserver o, attr, callback⟩], fun obs hobs => ?_, ?_⟩
      · rcases List.mem_append.mp hobs with hobs | hobs
        · exact hlate' obs hobs
        · rw [List.mem_singleton.mp hobs]
          simp [Subscription.names, observe_fst, hid]
      · rw [nextObserver_observe, hp]
        cases hx : w.object? p with
        | none => rfl
        | some x => simp [hid, isAlive, hp, hx]
    next hid =>
      refine ⟨late, hlate', ?_⟩
      rw [nextObserver_observe, if_neg fun h => hid h.1]
      exact hp
  · rcases List.mem_append.mp hs with hs | hs
    · exact h.new s hs
    · rw [List.mem_singleton.mp hs]
      exact h.next o

theorem observeAll (h : Trailed w w' ss) (b : Nat) (reads : List (Handle × String)) :
    Trailed w (w'.observeAll b reads).2 (ss ++ (w'.observeAll b reads).1) := by
  induction reads generalizing w' ss with
  | nil => exact (List.append_nil ss).symm ▸ h
  | cons p reads ih =>
      have hrest := ih (h.observe p.1 p.2 (.source b))
      rwa [List.append_assoc] at hrest

/-- Those that were there stay where the others go: their numbers are older. -/
theorem without (h : Trailed w w' ss) (hw : w.Tidy) (o : Handle) :
    (w'.object? o).map (·.without ss) =
      (w.object? o).map fun x => { x with nextObserver := w'.nextObserver o } := by
  obtain ⟨late, hlate, ho⟩ := h.objects o
  rw [ho, Option.map_map]
  cases hx : w.object? o with
  | none => rfl
  | some x =>
      have hid := handle_of_object? hx
      have hold : x.observers.filter (fun obs => !ss.any (·.names x.handle obs)) = x.observers := by
        refine List.filter_eq_self.mpr fun obs hobs => ?_
        rw [Bool.not_eq_true', List.any_eq_false]
        intro s hs hnames
        simp only [Subscription.names, Bool.and_eq_true, beq_iff_eq, hid] at hnames
        have hlt : obs.id < w.nextObserver o :=
          hw.lt o obs (by rwa [observers, hx])
        have hge := h.new s hs
        rw [w.nextObserver_congr hnames.1, hnames.2] at hge
        exact absurd hlt (Nat.not_lt.mpr hge)
      have hgone : late.filter (fun obs => !ss.any (·.names x.handle obs)) = [] := by
        refine List.filter_eq_nil_iff.mpr fun obs hobs => ?_
        have hnamed := hlate obs hobs
        simpa [Subscription.names, hid] using hnamed
      simp [Object.without, List.filter_append, hold, hgone]

end Trailed

/-- Nothing is left of an attempt but that the numbers of observers have gone on. -/
structure Untraced (w w' : World) : Prop where
  objects : ∀ o, w'.object? o = (w.object? o).map fun x => { x with nextObserver := w'.nextObserver o }
  bindings : ∀ b < w.nextBinding, w'.binding? b = w.binding? b

theorem Untraced.refl (w : World) : Untraced w w := by
  refine ⟨fun o => ?_, fun _ _ => rfl⟩
  rw [nextObserver]
  cases w.object? o <;> rfl

section Attempt

variable (w) (site : Site) (kind : BindingKind) (code : Code) (result : Except EvalError Value)
  (reads : List (Handle × String))

/-- A binding has been made and evaluated for the first time, and observes what was read. -/
def watch : List Subscription × World :=
  ((w.begin site kind code).log (.evaluated w.nextBinding result reads)).observeAll w.nextBinding reads

/-- The binding has the subscriptions. -/
def attempt : World :=
  ((w.watch site kind code result reads).2.modifyBinding w.nextBinding fun x =>
    { x with sources := (w.watch site kind code result reads).1 }).notice
      (.dependsOn site.label reads.length)

variable {w site kind code result reads} (hlt : ∀ x ∈ w.bindings, x.id < w.nextBinding)

include hlt

theorem binding?_begin_of_lt (b : Nat) :
    (w.begin site kind code).binding? b =
      if b = w.nextBinding then some { site.record kind code w.nextBinding with busy := true }
      else w.binding? b := by
  rw [begin, setBusy, binding?_modifyBinding _ w.nextBinding b (f := fun x => { x with busy := true })
    fun _ => rfl, binding?_addBinding_of_lt hlt rfl]
  by_cases hb : b = w.nextBinding
  · simp [hb]
  · simp [hb, Ne.symm hb]

theorem binding?_watch (b : Nat) :
    (w.watch site kind code result reads).2.binding? b =
      if b = w.nextBinding then some { site.record kind code w.nextBinding with busy := true }
      else w.binding? b := by
  rw [watch, binding?, Heard.bindings_observeAll]
  exact binding?_begin_of_lt hlt b

theorem binding?_attempt (b : Nat) :
    (w.attempt site kind code result reads).binding? b =
      if b = w.nextBinding then
        some { site.record kind code w.nextBinding with
          busy := true, sources := (w.watch site kind code result reads).1 }
      else w.binding? b := by
  refine (binding?_modifyBinding _ w.nextBinding b (f := fun x =>
    { x with sources := (w.watch site kind code result reads).1 }) fun _ => rfl).trans ?_
  rw [binding?_watch hlt]
  by_cases hb : b = w.nextBinding
  · simp [hb]
  · simp [hb, Ne.symm hb]

/-- The binding had no sources before, so that nothing is dropped. -/
theorem follow_begin :
    (((w.begin site kind code).log (.evaluated w.nextBinding result reads)).follow
      w.nextBinding reads).notice (.dependsOn site.label reads.length) =
        w.attempt site kind code result reads := by
  have hstale : (w.watch site kind code result reads).2.binding? w.nextBinding =
      some { site.record kind code w.nextBinding with busy := true } :=
    (binding?_watch hlt w.nextBinding).trans (if_pos rfl)
  rw [watch] at hstale
  simp only [follow, hstale, Option.elim_some]
  rfl

end Attempt

/-- The binding that is given up takes its observers with it. -/
theorem Orderly.untraced (hw : w.Orderly) (site : Site) (kind : BindingKind) (code : Code)
    (result : Except EvalError Value) (reads : List (Handle × String)) :
    w.Untraced (((w.attempt site kind code result reads).setBusy w.nextBinding false).disconnect
      w.nextBinding) := by
  have hbegun : Trailed w ((w.begin site kind code).log (.evaluated w.nextBinding result reads)) [] :=
    .of_objects rfl
  have htrailed : Trailed w (w.watch site kind code result reads).2
      (w.watch site kind code result reads).1 := hbegun.observeAll w.nextBinding reads
  generalize hv : (w.attempt site kind code result reads).setBusy w.nextBinding false = v
  have hobject (o : Handle) : v.object? o = (w.watch site kind code result reads).2.object? o := by
    rw [← hv]
    rfl
  have hentered : v.entered w.nextBinding = (w.watch site kind code result reads).1 := by
    rw [← hv, setBusy, entered_modifyBinding _ w.nextBinding w.nextBinding
      (f := fun x => { x with busy := false }) fun _ => rfl, binding?_attempt hw.bindings,
      if_pos rfl, if_pos rfl]
    exact List.append_nil _
  refine ⟨fun o => ?_, fun b hb => ?_⟩
  · have hnext : (v.disconnect w.nextBinding).nextObserver o =
        (w.watch site kind code result reads).2.nextObserver o := by
      rw [nextObserver, object?_disconnect, Option.map_map, hobject, nextObserver]
      rfl
    rw [object?_disconnect, hentered, hobject, hnext]
    exact htrailed.without hw.tidy o
  · rw [binding?_disconnect, if_neg (Nat.ne_of_gt hb), ← hv, setBusy,
      binding?_modifyBinding _ w.nextBinding b (f := fun x => { x with busy := false }) fun _ => rfl,
      if_neg (Nat.ne_of_gt hb), binding?_attempt hw.bindings, if_neg (Nat.ne_of_lt hb)]

end World

/-! ## First evaluations -/

/-- An evaluation that calls builtins only goes the same way wherever the objects are the same. -/
theorem Code.evaluate_of_objects (announce : Announce) {code : Code} {scope : Scope} {w v : World}
    (hcode : (code.evaluate builtinsOnly scope true w).isSome = true) (hobjects : v.objects = w.objects) :
    code.evaluate (applyFunc announce) scope true v = some (code.look scope w, v) := by
  obtain ⟨out, hout⟩ := Option.isSome_iff_exists.mp hcode
  have hlook : code.look scope w = out.1 := by simp only [look, hout]
  rw [evaluate_eq_outcome] at hout
  obtain ⟨⟨⟨r, s⟩, u⟩, hrun, rfl⟩ := Option.map_eq_some_iff.mp hout
  have hattr (o : Handle) (attr : String) : v.attr? o attr = w.attr? o attr := by
    rw [World.attr?, World.object?, hobjects, ← World.object?, ← World.attr?]
  have hcongr := (eval_observes Evaluation.builtinsOnly_callsBuiltins scope code).congr hrun rfl
    fun p _ => hattr p.1 p.2
  have hsame := (eval_observes (applyFunc_callsBuiltins announce) scope code).same hcongr
  rw [evaluate_eq_outcome, hsame.2, hlook]
  rfl

namespace Site

variable {announce : Announce} {w : World} {site : Site} {code : Code}

/-- The first evaluation of a binding whose target is alive. -/
theorem refresh_record (announce : Announce) (hw : w.Orderly) (kind : BindingKind)
    (halive : w.isAlive site.target = true)
    (hcode : (code.evaluate builtinsOnly { frame := site.frame } true w).isSome = true) :
    refresh announce w.nextBinding (w.addBinding (site.record kind code w.nextBinding)) =
      ((match (code.look { frame := site.frame } w).1 with
        | .error e => return .error e
        | .ok v => storeValue announce (site.record kind code w.nextBinding) v :
          Step (Except EvalError Unit))
        (w.attempt site kind code (code.look { frame := site.frame } w).1
          (code.look { frame := site.frame } w).2)).map
        fun p => (p.1, p.2.setBusy w.nextBinding false) := by
  have hbinding := (World.binding?_addBinding_of_lt hw.bindings
    (x := site.record kind code w.nextBinding) rfl w.nextBinding).trans (if_pos rfl)
  have hevaluate := Code.evaluate_of_objects announce hcode (v := w.begin site kind code) rfl
  rw [refresh, guarded_of_idle hbinding rfl]
  refine congrArg (Option.map _) ?_
  rw [Step.get_bind_apply]
  change (if !w.isAlive site.target then _ else _ : Step (Except EvalError Unit))
    (w.begin site kind code) = _
  simp only [halive, Bool.not_true, Bool.false_eq_true, if_false]
  change (code.evaluate (applyFunc announce) { frame := site.frame } true
    (w.begin site kind code)).bind _ = _
  rw [hevaluate, Option.bind_some]
  change (resubscribe w.nextBinding _ ((w.begin site kind code).log _)).bind _ = _
  rw [Script.resubscribe_run, ← World.follow_begin hw.bindings]
  rfl

theorem refresh_record_of_dead (announce : Announce) (hw : w.Orderly) (kind : BindingKind) (code : Code)
    (hdead : w.isAlive site.target = false) :
    ∃ w', refresh announce w.nextBinding (w.addBinding (site.record kind code w.nextBinding)) =
      some (.ok (), w') := by
  have hbinding := (World.binding?_addBinding_of_lt hw.bindings
    (x := site.record kind code w.nextBinding) rfl w.nextBinding).trans (if_pos rfl)
  rw [refresh, guarded_of_idle hbinding rfl, Step.get_bind_apply]
  change ∃ w', ((if !w.isAlive site.target then _ else _ : Step (Except EvalError Unit))
    (w.begin site kind code)).map _ = _
  simp only [hdead, Bool.not_false, if_true]
  exact ⟨_, rfl⟩

theorem storeValue_of_bind {x : Binding} (hkind : x.kind = .bind) {v : Value} {e : EvalError}
    {w' : World} : storeValue announce x v w ≠ some (.error e, w') := by
  intro hstore
  change (setAttr announce x.target x.attr v w).bind _ = _ at hstore
  obtain ⟨⟨changed, w₁⟩, -, hrest⟩ := Option.bind_eq_some_iff.mp hstore
  simp only [hkind, ne_eq, reduceCtorEq, not_false_eq_true, if_true] at hrest
  cases hrest

/-- Where the first evaluation fails, that is the result of the making. -/
theorem refresh_record_of_error (announce : Announce) (hw : w.Orderly) (kind : BindingKind)
    (halive : w.isAlive site.target = true)
    (hcode : (code.evaluate builtinsOnly { frame := site.frame } true w).isSome = true) {e : EvalError}
    (hfails : (code.look { frame := site.frame } w).1 = .error e) :
    refresh announce w.nextBinding (w.addBinding (site.record kind code w.nextBinding)) =
      some (.error e, (w.attempt site kind code (.error e)
        (code.look { frame := site.frame } w).2).setBusy w.nextBinding false) := by
  rw [refresh_record announce hw kind halive hcode, hfails]
  rfl

theorem bind_eq (w : World) : site.bind announce code w =
    (refresh announce w.nextBinding (w.addBinding (site.record .bind code w.nextBinding))).map fun p =>
      match p.1 with
      | .error e => (.error e, p.2.disconnect w.nextBinding)
      | .ok () => (.ok w.nextBinding, p.2.own site.target w.nextBinding) := by
  change (refresh announce w.nextBinding
    (w.addBinding (site.record .bind code w.nextBinding))).bind _ = _
  cases refresh announce w.nextBinding
      (w.addBinding (site.record .bind code w.nextBinding)) with
  | none => rfl
  | some p => obtain ⟨r, u⟩ := p; cases r <;> rfl

theorem delegate_eq (hsource : code.attrPath?.isSome = true) (w : World) :
    site.delegate announce code w =
      (refresh announce w.nextBinding (w.addBinding (site.record .delegate code w.nextBinding))).map
        fun p => match p.1 with
        | .error e => (.error e, p.2.disconnect w.nextBinding)
        | .ok () => (.ok w.nextBinding,
            (p.2.listen site.target site.attr w.nextBinding).own site.target w.nextBinding) := by
  have hsource' : ¬code.attrPath?.isNone = true := by simpa [Option.isSome_iff_ne_none] using hsource
  rw [delegate, if_neg hsource']
  change (refresh announce w.nextBinding
    (w.addBinding (site.record .delegate code w.nextBinding))).bind _ = _
  cases refresh announce w.nextBinding
      (w.addBinding (site.record .delegate code w.nextBinding)) with
  | none => rfl
  | some p => obtain ⟨r, u⟩ := p; cases r <;> rfl

/-- A bind has no other errors than those of its first evaluation. -/
theorem untraced_of_bind (hw : w.Orderly)
    (hcode : (code.evaluate builtinsOnly { frame := site.frame } true w).isSome = true) {e : EvalError}
    {w' : World} (hbind : site.bind announce code w = some (.error e, w')) : w.Untraced w' := by
  rw [bind_eq] at hbind
  obtain ⟨⟨r, u⟩, hrefresh, heq⟩ := Option.map_eq_some_iff.mp hbind
  cases halive : w.isAlive site.target with
  | false =>
      obtain ⟨u', hdead⟩ := refresh_record_of_dead announce hw .bind code halive
      obtain ⟨rfl, rfl⟩ := Prod.mk.inj (Option.some.inj (hrefresh.symm.trans hdead))
      cases heq
  | true =>
      cases hlook : (code.look { frame := site.frame } w).1 with
      | error e' =>
          have hfails := refresh_record_of_error announce hw .bind halive hcode hlook
          obtain ⟨rfl, rfl⟩ := Prod.mk.inj (Option.some.inj (hrefresh.symm.trans hfails))
          obtain ⟨-, rfl⟩ := Prod.mk.inj heq
          exact hw.untraced site .bind code _ _
      | ok v =>
          rw [refresh_record announce hw .bind halive hcode, hlook] at hrefresh
          obtain ⟨⟨r', u'⟩, hstore, hrefreshed⟩ := Option.map_eq_some_iff.mp hrefresh
          obtain ⟨rfl, -⟩ := Prod.mk.inj hrefreshed
          cases r' with
          | error e' => exact absurd hstore (storeValue_of_bind rfl)
          | ok _ => cases heq

theorem untraced_of_delegate (hw : w.Orderly)
    (hcode : (code.evaluate builtinsOnly { frame := site.frame } true w).isSome = true)
    (hcause : code.attrPath? = none ∨ ∃ e, (code.look { frame := site.frame } w).1 = .error e)
    {e : EvalError} {w' : World} (hdelegate : site.delegate announce code w = some (.error e, w')) :
    w.Untraced w' := by
  cases hsource : code.attrPath? with
  | none =>
      rw [delegate, if_pos (by rw [hsource]; rfl)] at hdelegate
      cases hdelegate
      exact .refl w
  | some path =>
      obtain ⟨e', hlook⟩ := hcause.resolve_left (by rw [hsource]; exact Option.some_ne_none path)
      rw [delegate_eq (by rw [hsource]; rfl)] at hdelegate
      obtain ⟨⟨r, u⟩, hrefresh, heq⟩ := Option.map_eq_some_iff.mp hdelegate
      cases halive : w.isAlive site.target with
      | false =>
          obtain ⟨u', hdead⟩ :=
            refresh_record_of_dead announce hw .delegate code halive
          obtain ⟨rfl, rfl⟩ := Prod.mk.inj (Option.some.inj (hrefresh.symm.trans hdead))
          cases heq
      | true =>
          have hfails := refresh_record_of_error announce hw .delegate halive hcode hlook
          obtain ⟨rfl, rfl⟩ := Prod.mk.inj (Option.some.inj (hrefresh.symm.trans hfails))
          obtain ⟨-, rfl⟩ := Prod.mk.inj heq
          exact hw.untraced site .delegate code _ _

end Site

/-- A binding that cannot start leaves no trace in an orderly world, which every world that occurs is:
neither a bind nor a delegate whose first evaluation fails, which then is the result, nor a delegate of
something that is not the path of an attribute. -/
theorem failed_start_untraced {w : World} (hw : w.Orderly) (announce : Announce) (site : Site)
    {code : Code} (hcode : (code.evaluate builtinsOnly { frame := site.frame } true w).isSome = true) :
    (∀ e w', site.bind announce code w = some (.error e, w') → w.Untraced w') ∧
    (∀ e w', site.delegate announce code w = some (.error e, w') →
      (code.attrPath? = none ∨ ∃ e', (code.look { frame := site.frame } w).1 = .error e') →
        w.Untraced w') ∧
    ∀ e, (code.look { frame := site.frame } w).1 = .error e → w.isAlive site.target = true →
      (∃ w', site.bind announce code w = some (.error e, w')) ∧
      (code.attrPath?.isSome = true → ∃ w', site.delegate announce code w = some (.error e, w')) := by
  refine ⟨fun _ _ => Site.untraced_of_bind hw hcode, fun _ _ hrun hcause =>
    Site.untraced_of_delegate hw hcode hcause hrun, fun e hlook halive => ⟨?_, fun hsource => ?_⟩⟩
  · rw [Site.bind_eq, Site.refresh_record_of_error announce hw .bind halive hcode hlook]
    exact ⟨_, rfl⟩
  · rw [Site.delegate_eq hsource, Site.refresh_record_of_error announce hw .delegate halive hcode hlook]
    exact ⟨_, rfl⟩

/-- A box with one attribute, which a routine of the host observes. -/
def watchedBox : World :=
  let box : Handle := ⟨1, "Box"⟩
  ((({} : World).create "Box" [("a", .int 0)]).2.observe box "a" (.host fun _ => .skip)).2

/-- One attribute of the box is read and found, and then one that it does not have. -/
theorem failed_start_untraced_box :
    let box : Code := .const (.object ⟨1, "Box"⟩)
    let code : Code := .attr (.index (.list [.attr box "a", box]) (.const (.int 1))) "b"
    let site : Site := { target := ⟨1, "Box"⟩, attr := "a", frame := ⟨[]⟩, label := "" }
    ∃ w₁ w₂,
      site.bind (announce 0) code watchedBox = some (.error (.missingAttribute "Box" "b"), w₁) ∧
      watchedBox.Untraced w₁ ∧
      site.delegate (announce 0) code watchedBox = some (.error (.missingAttribute "Box" "b"), w₂) ∧
      watchedBox.Untraced w₂ := by
  have hreached : watchedBox.Reached :=
    .operation (n := 0) (.routine (.create "Box" [("a", .int 0)] fun box =>
      .observe box "a" (fun _ => .skip) fun _ => .skip)) .start rfl
  intro box code site
  have hcode : (code.evaluate builtinsOnly { frame := site.frame } true watchedBox).isSome = true := rfl
  obtain ⟨hbind, hdelegate, -⟩ := failed_start_untraced hreached.calm.1 (announce 0) site hcode
  exact ⟨_, _, rfl, hbind _ _ rfl, rfl, hdelegate _ _ rfl (.inr ⟨_, rfl⟩)⟩

end LiveUI
