import LiveUI.Proofs.Template.Building

/-! # Slots and names

What compilation knows of a template at some point, its scope, mirrors what the interpreter knows
there: every name that is visible has a slot, and the frame of a run holds the value of the name in
it. -/

namespace LiveUI

namespace Code

variable {frame : Frame} {resolve resolve' : String → Lowering Code}

mutual

/-- Names that stand for the values of slots make the code with these values put in. -/
theorem lower_close (h : ∀ name, resolve' name = close frame <$> resolve name) : ∀ e : Expr,
    lower resolve' e = close frame <$> lower resolve e
  | .int _ | .float _ | .str _ | .bool _ | .nil => by simp only [lower, map_pure, close]
  | .name n => by simp only [lower, h n]
  | .list items => by
      simp only [lower, lowerAll_closeAll h items, map_bind, bind_map_left, map_pure, close]
  | .attr value a => by
      simp only [lower, lower_close h value, map_bind, bind_map_left, map_pure, close]
  | .index value i => by
      simp only [lower, lower_close h value, lower_close h i, map_bind, bind_map_left, map_pure,
        close]
  | .call func args => by
      simp only [lower, lower_close h func, lowerAll_closeAll h args, map_bind, bind_map_left,
        map_pure, close]
  | .unary op operand => by
      simp only [lower, lower_close h operand, map_bind, bind_map_left, map_pure, close]
  | .binary op left right => by
      simp only [lower, lower_close h left, lower_close h right, map_bind, bind_map_left, map_pure,
        close]
  | .boolOp op left right => by
      simp only [lower, lower_close h left, lower_close h right, map_bind, bind_map_left, map_pure,
        close]
  | .ifElse body condition otherwise => by
      simp only [lower, lower_close h body, lower_close h condition, lower_close h otherwise,
        map_bind, bind_map_left, map_pure, close]

theorem lowerAll_closeAll (h : ∀ name, resolve' name = close frame <$> resolve name) :
    ∀ es : List Expr, lowerAll resolve' es = closeAll frame <$> lowerAll resolve es
  | [] => by simp only [lowerAll, map_pure, closeAll]
  | e :: es => by
      simp only [lowerAll, lower_close h e, lowerAll_closeAll h es, map_bind, bind_map_left,
        map_pure, closeAll]

end

end Code

namespace Frame

theorem get_set_of_ne (f : Frame) {slot other : Nat} (v : Value) (h : slot ≠ other) :
    (f.set slot v).get other = f.get other := by
  simp only [get, set, List.getD_eq_getElem?_getD, List.getElem?_set_ne h, List.getElem?_append,
    List.getElem?_replicate]
  split
  · rfl
  next hlt =>
    rw [List.getElem?_eq_none (by omega)]
    split <;> rfl

/-- Slots written one after another. -/
def setAll (f : Frame) (slots : List (Nat × Value)) : Frame :=
  slots.foldl (fun f (slot, v) => f.set slot v) f

end Frame

namespace Template

open Markup

/-- Each visible name has a slot that has been given out, with the value of the name in it. -/
structure Mirrors (s : Scope) (frame : Frame) (env : Environment) : Prop where
  names : env.names = s.locals.map fun p => (p.1, frame.get p.2)
  exports : env.exports = s.exports.map fun p => (p.1, frame.get p.2)
  functions : env.functions = s.functions
  locals_lt : ∀ p ∈ s.locals, p.2 < s.slots
  exports_lt : ∀ p ∈ s.exports, p.2 < s.slots

/-- The enclosing construct has a slot with its object. -/
inductive Encloses (s : Scope) (frame : Frame) : Option Nat → Option Handle → Prop where
  | none : Encloses s frame none none
  | some {slot : Nat} {o : Handle} (hlt : slot < s.slots) (hget : frame.get slot = .object o) :
      Encloses s frame (some slot) (some o)

variable {s s' : Scope} {frame : Frame} {env : Environment} {globals : Globals}
  {self : Option Nat} {object : Option Handle}

theorem constantNamed_close (globals : Globals) (frame : Frame) (name : String) :
    Code.close frame <$> constantNamed globals name = constantNamed globals name := by
  simp only [constantNamed]
  split
  · simp only [map_pure, Code.close]
  · simp only [Code.builtinNamed]
    split
    · rfl
    · rfl

/-- So a name means the same to both, but for the value in place of the slot. -/
theorem Mirrors.resolve (h : Mirrors s frame env) (hself : Encloses s frame self object)
    (notify : Bool) (name : String) : env.resolve globals object notify name =
      Code.close frame <$> resolve globals s.locals self notify name := by
  have hconst := constantNamed_close globals frame name
  have hfind : env.names.find? (·.1 == name) =
      (s.locals.find? (·.1 == name)).map fun p => (p.1, frame.get p.2) := by
    rw [h.names, List.find?_map]
    rfl
  simp only [Environment.resolve, Template.resolve, hfind]
  cases s.locals.find? (·.1 == name) with
  | some p => simp only [Option.map_some, map_pure, Code.close]
  | none =>
      simp only [Option.map_none]
      by_cases hargs : name = "args"
      · subst hargs
        have hchange : (if notify = true then Pure.pure Code.change else constantNamed globals "args" :
            Lowering Code) = Code.close frame <$> if notify = true then Pure.pure Code.change else
              constantNamed globals "args" := by
          split
          · simp only [map_pure, Code.close]
          · exact hconst.symm
        cases hself <;> exact hchange
      · cases hself with
        | none =>
            split <;> first | contradiction | skip
            split <;> first | contradiction | exact hconst.symm
        | some hlt hget =>
            by_cases hname : name = "self"
            · subst hname
              simp only [map_pure, Code.close, hget]
            · split <;> first | contradiction | skip
              split <;> first | contradiction | exact hconst.symm

/-! ## Inverting emission -/

theorem emit_run_bind {α β : Type} (m : Emit α) (f : α → Emit β) (s : Scope) :
    (m >>= f) s = (m s).bind fun r => f r.1 r.2 :=
  rfl

theorem emit_bind {α β : Type} {m : Emit α} {f : α → Emit β} {b : β} {s s'' : Scope}
    (h : (m >>= f) s = .ok (b, s'')) :
    ∃ a s', m s = .ok (a, s') ∧ f a s' = .ok (b, s'') := by
  rw [emit_run_bind] at h
  cases hm : m s with
  | error e => simp [hm, Except.bind] at h
  | ok r =>
      rw [hm] at h
      exact ⟨r.1, r.2, rfl, h⟩

/-! ## Lowering -/

theorem Mirrors.withFunctions (h : Mirrors s frame env) (n : Nat) :
    Mirrors { s with functions := n } frame { env with functions := n } :=
  ⟨h.names, h.exports, rfl, h.locals_lt, h.exports_lt⟩

/-- From a scope and a frame that mirror an environment, they go on to ones that mirror `env'`. What
the slots held that had been given out they still hold. -/
structure Goes (s s' : Scope) (frame frame' : Frame) (env' : Environment) : Prop where
  mirrors : Mirrors s' frame' env'
  slots : s.slots ≤ s'.slots
  kept : ∀ slot < s.slots, frame'.get slot = frame.get slot

theorem Goes.trans {s'' : Scope} {frame' frame'' : Frame} {env' env'' : Environment}
    (h : Goes s s' frame frame' env') (h' : Goes s' s'' frame' frame'' env'') :
    Goes s s'' frame frame'' env'' :=
  ⟨h'.mirrors, Nat.le_trans h.slots h'.slots,
    fun slot hlt => (h'.kept slot (Nat.lt_of_lt_of_le hlt h.slots)).trans (h.kept slot hlt)⟩

theorem Mirrors.goes (h : Mirrors s frame env) : Goes s s frame frame env :=
  ⟨h, Nat.le_refl _, fun _ _ => rfl⟩

theorem Goes.encloses {frame' : Frame} {env' : Environment} (h : Goes s s' frame frame' env')
    (hself : Encloses s frame self object) : Encloses s' frame' self object := by
  cases hself with
  | none => exact .none
  | some hlt hget => exact .some (Nat.lt_of_lt_of_le hlt h.slots) ((h.kept _ hlt).trans hget)

/-- What is lowered without an error has a meaning to the interpreter. -/
theorem Mirrors.meaning {α β : Type} (h : Mirrors s frame env) {f : α → β}
    {lowering : Lowering α} {lowering' : Lowering β} (hmap : lowering' = f <$> lowering)
    {place : Location} {x : α} (hlower : Emit.resolved place lowering s = .ok (x, s')) :
    ∃ env', (Interpreting.meaning lowering').run env = Pure.pure (f x, env') ∧
      Goes s s' frame frame env' := by
  obtain ⟨_, _, hget, hlower⟩ := emit_bind hlower
  cases hget
  cases hlowering : lowering.run s.functions with
  | error name =>
      rw [hlowering] at hlower
      cases hlower
  | ok r =>
      obtain ⟨y, n⟩ := r
      rw [hlowering] at hlower
      cases hlower
      refine ⟨{ env with functions := n }, ?_, h.withFunctions n, Nat.le_refl _, fun _ _ => rfl⟩
      have hmapped : lowering'.run env.functions = .ok (f x, n) := by
        rw [hmap, h.functions, StateT.run_map, hlowering]
        rfl
      simp only [Interpreting.meaning, StateT.run_bind, StateT.run_get, pure_bind, hmapped]
      rfl

theorem Mirrors.lowerValue (h : Mirrors s frame env) (hself : Encloses s frame self object)
    {notify : Bool} {place : Location} {e : Expression} {code : Code}
    (hlower : lowerValue globals self notify place e s = .ok (code, s')) :
    ∃ env', (Environment.expression globals object notify e).run env =
      Pure.pure (code.close frame, env') ∧ Goes s s' frame frame env' :=
  h.meaning (Code.lower_close (fun name => h.resolve hself notify name) e.expr) hlower

theorem Mirrors.lowerTarget (h : Mirrors s frame env) (hself : Encloses s frame self object)
    {place : Location} {t : Target} {target : TargetCode}
    (hlower : lowerTarget globals self place t s = .ok (target, s')) :
    ∃ env', (Environment.target globals object t).run env =
      Pure.pure (target.closed frame, env') ∧ Goes s s' frame frame env' := by
  -- A name in a target is resolved like one in an expression that handles no change.
  have hbase : ∀ {name : String} {base : Code} {s' : Scope},
      Emit.resolved place (Template.resolve globals s.locals self false name) s = .ok (base, s') →
        ∃ env', (Interpreting.meaning (env.resolve globals object false name)).run env =
          Pure.pure (base.close frame, env') ∧ Goes s s' frame frame env' :=
    fun hname => h.meaning (h.resolve hself false _) hname
  cases t with
  | own attr =>
      cases hself with
      | none => cases hlower
      | some hlt hget =>
          cases hlower
          refine ⟨env, ?_, h.goes⟩
          simp only [TargetCode.closed, Code.close, hget]
          rfl
  | member name attr =>
      have hbind : (Emit.resolved place (Template.resolve globals s.locals self false name) >>=
          fun base => Pure.pure ({ base, attr } : TargetCode)) s = .ok (target, s') := hlower
      obtain ⟨base, s₁, hname, hrest⟩ := emit_bind hbind
      cases hrest
      obtain ⟨env', hrun, hgoes⟩ := hbase hname
      refine ⟨env', ?_, hgoes⟩
      have htarget : (Environment.target globals object (.member name attr)).run env =
          (Interpreting.meaning (env.resolve globals object false name)).run env >>= fun p =>
            Pure.pure ({ base := p.1, attr }, p.2) := rfl
      rw [htarget, hrun, pure_bind]
      rfl
  | element name index attr =>
      have hbind : (Emit.resolved place (Template.resolve globals s.locals self false name) >>=
          fun base => Pure.pure ({ base, index := some index, attr } : TargetCode)) s =
            .ok (target, s') := hlower
      obtain ⟨base, s₁, hname, hrest⟩ := emit_bind hbind
      cases hrest
      obtain ⟨env', hrun, hgoes⟩ := hbase hname
      refine ⟨env', ?_, hgoes⟩
      have htarget : (Environment.target globals object (.element name index attr)).run env =
          (Interpreting.meaning (env.resolve globals object false name)).run env >>= fun p =>
            Pure.pure ({ base := p.1, index := some index, attr }, p.2) := rfl
      rw [htarget, hrun, pure_bind]
      rfl

/-! ## Introducing names -/

/-- A slot that is given out and written holds the value, and the others what they held. -/
theorem Mirrors.alloc (h : Mirrors s frame env) (v : Value) :
    Goes s s.alloc.2 frame (frame.set s.slots v) env := by
  have hkept : ∀ slot < s.slots, (frame.set s.slots v).get slot = frame.get slot :=
    fun slot hlt => frame.get_set_of_ne v (Nat.ne_of_gt hlt)
  have hsame : ∀ names : List (String × Nat), (∀ p ∈ names, p.2 < s.slots) →
      (names.map fun p => (p.1, frame.get p.2)) =
        names.map fun p => (p.1, (frame.set s.slots v).get p.2) :=
    fun names hlt => List.map_congr_left fun p hp => by rw [hkept p.2 (hlt p hp)]
  refine ⟨⟨?_, ?_, h.functions, ?_, ?_⟩, Nat.le_succ _, hkept⟩
  · exact h.names.trans (hsame _ h.locals_lt)
  · exact h.exports.trans (hsame _ h.exports_lt)
  · exact fun p hp => Nat.lt_succ_of_lt (h.locals_lt p hp)
  · exact fun p hp => Nat.lt_succ_of_lt (h.exports_lt p hp)

/-- A name that becomes visible takes the slot that is given out next. -/
theorem Mirrors.bindLocal (h : Mirrors s frame env) (name : String) (v : Value) :
    Goes s (s.bindLocal name).2 frame (frame.set s.slots v)
      { env with names := (name, v) :: env.names } := by
  obtain ⟨hmirrors, hslots, hkept⟩ := h.alloc v
  refine ⟨⟨?_, hmirrors.exports, h.functions, ?_, hmirrors.exports_lt⟩, hslots, hkept⟩
  · simp only [Scope.bindLocal, List.map_cons, Frame.get_set_self]
    exact congrArg _ hmirrors.names
  · intro p hp
    rcases List.mem_cons.mp hp with rfl | hp
    · exact Nat.lt_succ_self _
    · exact hmirrors.locals_lt p hp

/-- An export takes the place of an earlier one of its name, with its slot as with its value. -/
theorem put_putExport (frame : Frame) (name : String) (slot : Nat) :
    ∀ exports : List (String × Nat), Attrs.put (exports.map fun p => (p.1, frame.get p.2)) name
      (frame.get slot) = (Scope.putExport exports name slot).map fun p => (p.1, frame.get p.2)
  | [] => rfl
  | (n, old) :: rest => by
      simp only [List.map_cons, Attrs.put, Scope.putExport]
      split
      · rfl
      · rw [put_putExport frame name slot rest]
        rfl

theorem mem_putExport {p : String × Nat} {name : String} {slot : Nat} :
    ∀ {exports : List (String × Nat)}, p ∈ Scope.putExport exports name slot →
      p.2 = slot ∨ p ∈ exports
  | [], h => .inl (by rw [List.mem_singleton.mp h])
  | (n, old) :: rest, h => by
      simp only [Scope.putExport] at h
      split at h
      · rcases List.mem_cons.mp h with rfl | h
        · exact .inl rfl
        · exact .inr (List.mem_cons_of_mem _ h)
      · rcases List.mem_cons.mp h with rfl | h
        · exact .inr List.mem_cons_self
        · exact (mem_putExport h).imp_right (List.mem_cons_of_mem _)

theorem Mirrors.bindExport (h : Mirrors s frame env) (name : String) (v : Value) :
    Goes s (s.bindExport name).2 frame (frame.set s.slots v) (env.bindExport name v) := by
  obtain ⟨hmirrors, hslots, hkept⟩ := h.bindLocal name v
  refine ⟨⟨hmirrors.names, ?_, h.functions, hmirrors.locals_lt, ?_⟩, hslots, hkept⟩
  · have hput := put_putExport (frame.set s.slots v) name s.slots s.exports
    have hexports : env.exports = s.exports.map fun p => (p.1, (frame.set s.slots v).get p.2) :=
      hmirrors.exports
    rw [Frame.get_set_self, ← hexports] at hput
    exact hput
  · intro p hp
    rcases mem_putExport hp with heq | hp
    · exact heq ▸ Nat.lt_succ_self _
    · exact hmirrors.exports_lt p hp

/-- Names that become visible one after another take slots in a row. -/
theorem Mirrors.bindExports {names : List String} {values : List Value} {slots : List Nat}
    (h : Mirrors s frame env) (hlength : values.length = names.length)
    (hemit : names.mapM Emit.bindExport s = .ok (slots, s')) :
    Goes s s' frame (frame.setAll (slots.zip values))
      ((names.zip values).foldl (fun env (name, v) => env.bindExport name v) env) := by
  induction names generalizing s frame env values slots with
  | nil =>
      cases hemit
      exact h.goes
  | cons name names ih =>
      cases values with
      | nil => simp at hlength
      | cons v values =>
          rw [List.mapM_cons] at hemit
          obtain ⟨slot, s₁, hfirst, hemit⟩ := emit_bind hemit
          obtain ⟨slots', s₂, hrest, hemit⟩ := emit_bind hemit
          cases hemit
          cases hfirst
          have hgoes := h.bindExport name v
          exact hgoes.trans (ih hgoes.mirrors (Nat.succ.inj hlength) hrest)

/-- Parameters take slots in a row as well, but are not exported. -/
theorem Mirrors.bindLocals {names : List String} {values : List Value} (h : Mirrors s frame env)
    (hlength : values.length = names.length) :
    Goes s (names.foldl (fun s name => (s.bindLocal name).2) s) frame
      ((values.zipIdx s.slots).foldl (fun frame (v, slot) => frame.set slot v) frame)
      { env with names := (names.zip values).reverse ++ env.names } := by
  induction names generalizing s frame env values with
  | nil =>
      cases values with
      | nil => exact h.goes
      | cons v values => simp at hlength
  | cons name names ih =>
      cases values with
      | nil => simp at hlength
      | cons v values =>
          have hgoes := h.bindLocal name v
          have hslots : (s.bindLocal name).2.slots = s.slots + 1 := rfl
          have htrans := hgoes.trans (ih hgoes.mirrors (Nat.succ.inj hlength))
          rw [hslots] at htrans
          simpa using htrans

/-- As many results as there are items. -/
theorem emit_mapM_length {α β : Type} {f : α → Emit β} {as : List α} {bs : List β}
    (hemit : as.mapM f s = .ok (bs, s')) : bs.length = as.length := by
  induction as generalizing s bs with
  | nil =>
      cases hemit
      rfl
  | cons a as ih =>
      rw [List.mapM_cons] at hemit
      obtain ⟨b, s₁, -, hemit⟩ := emit_bind hemit
      obtain ⟨bs', s₂, hrest, hemit⟩ := emit_bind hemit
      cases hemit
      rw [List.length_cons, List.length_cons, ih hrest]

end Template

end LiveUI
