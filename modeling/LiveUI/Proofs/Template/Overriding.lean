import LiveUI.Proofs.Template.Compilation
import LiveUI.Proofs.World.Realms

/-! # Arguments over defaults

A component has defaults for its attributes, and a call has values for some of them. A later default
replaces an earlier one, but an argument is written as any other value is: where the attribute holds
a value that is equal already, that one stays. So what an attribute holds is the last value given to
it, or an equal one from before. -/

namespace LiveUI

namespace Attrs

variable {attrs : Attrs} {name other : String} {v : Value}

theorem get?_put :
    (attrs.put name v).get? other = if name = other then some v else attrs.get? other := by
  split
  next h => rw [← h, get?_put_self]
  next h => exact get?_put_of_ne attrs v h

theorem map_fst_put (attrs : Attrs) (name : String) (v : Value) :
    (attrs.put name v).map (·.1) =
      if name ∈ attrs.map (·.1) then attrs.map (·.1) else attrs.map (·.1) ++ [name] := by
  induction attrs with
  | nil => simp [put]
  | cons a rest ih =>
      obtain ⟨n, u⟩ := a
      by_cases hn : n = name
      · simp [put, hn]
      · by_cases hrest : name ∈ rest.map (·.1)
        · rw [put, if_neg hn, List.map_cons, ih, if_pos hrest, List.map_cons,
            if_pos (List.mem_cons_of_mem _ hrest)]
        · have hnew : name ∉ n :: rest.map (·.1) := by simp [Ne.symm hn, hrest]
          rw [put, if_neg hn, List.map_cons, ih, if_neg hrest, List.map_cons, if_neg hnew,
            List.cons_append]

theorem nodup_put (h : (attrs.map (·.1)).Nodup) : ((attrs.put name v).map (·.1)).Nodup := by
  rw [map_fst_put]
  split
  next => exact h
  next hnew =>
    refine List.nodup_append.mpr ⟨h, List.nodup_singleton _, fun a ha b hb hab => ?_⟩
    rw [hab, List.mem_singleton.mp hb] at ha
    exact hnew ha

theorem mem_put :
    other ∈ (attrs.put name v).map (·.1) ↔ other ∈ attrs.map (·.1) ∨ other = name := by
  rw [map_fst_put]
  split
  next h =>
    refine ⟨.inl, ?_⟩
    rintro (hother | rfl)
    · exact hother
    · exact h
  next => simp

/-- Write a value, unless the attribute holds one that is equal. -/
def set (attrs : Attrs) (name : String) (v : Value) : Attrs :=
  if (attrs.get? name).any (· == v) then attrs else attrs.put name v

/-- Write values one after another. -/
def setAll (attrs : Attrs) (writes : List (String × Value)) : Attrs :=
  writes.foldl (fun attrs (name, v) => attrs.set name v) attrs

/-- The values that are given to a name, in order. -/
def given (name : String) (writes : List (String × Value)) : List Value :=
  (writes.filter (·.1 == name)).map (·.2)

/-- What is held in the end when values are written over `held` one after another. -/
def settled (held : Option Value) (values : List Value) : Option Value :=
  values.foldl (fun held v => if held.any (· == v) then held else some v) held

theorem settled_append (held : Option Value) (values values' : List Value) :
    settled held (values ++ values') = settled (settled held values) values' :=
  List.foldl_append

theorem settled_of_ne {held : Option Value} (h : ∀ u, held = some u → (u == v) = false) :
    settled held [v] = some v := by
  cases held with
  | none => rfl
  | some u => simp [settled, h u rfl]

theorem settled_of_eq {u : Value} (h : (u == v) = true) : settled (some u) [v] = some u := by
  simp [settled, h]

theorem given_cons (name other : String) (v : Value) (writes : List (String × Value)) :
    given name ((other, v) :: writes) =
      if other = name then v :: given name writes else given name writes := by
  by_cases h : other = name <;> simp [given, h]

theorem given_eq_nil_iff {writes : List (String × Value)} :
    given name writes = [] ↔ name ∉ writes.map (·.1) := by
  simp only [given, List.map_eq_nil_iff, List.filter_eq_nil_iff, List.mem_map, not_exists, not_and,
    beq_iff_eq]

theorem get?_set : (attrs.set name v).get? other =
    if name = other then settled (attrs.get? other) [v] else attrs.get? other := by
  by_cases hname : name = other
  · subst hname
    simp only [set, settled, List.foldl_cons, List.foldl_nil, if_pos]
    split
    · rfl
    · rw [get?_put_self]
  · rw [if_neg hname, set]
    split
    · rfl
    · rw [get?_put_of_ne attrs v hname]

theorem get?_setAll (attrs : Attrs) (writes : List (String × Value)) (name : String) :
    (attrs.setAll writes).get? name = settled (attrs.get? name) (given name writes) := by
  induction writes generalizing attrs with
  | nil => rfl
  | cons q writes ih =>
      obtain ⟨other, v⟩ := q
      rw [setAll, List.foldl_cons, ← setAll, ih, get?_set, given_cons]
      by_cases h : other = name
      · rw [if_pos h, if_pos h]
        rfl
      · rw [if_neg h, if_neg h]

/-- A later default replaces an earlier one. -/
theorem get?_ofList (defaults : List (String × Value)) (name : String) :
    (ofList defaults).get? name = (given name defaults).getLast? := by
  have hfold (attrs : Attrs) : (defaults.foldl (fun attrs q => put attrs q.1 q.2) attrs).get? name =
      (given name defaults).getLast?.or (attrs.get? name) := by
    induction defaults generalizing attrs with
    | nil => rfl
    | cons q defaults ih =>
        obtain ⟨other, v⟩ := q
        rw [List.foldl_cons, ih, get?_put, given_cons]
        split
        next => cases hlast : (given name defaults).getLast? <;> simp [List.getLast?_cons, hlast]
        next => rfl
  exact (hfold []).trans (by simp [get?])

theorem nodup_setAll (h : (attrs.map (·.1)).Nodup) (writes : List (String × Value)) :
    ((attrs.setAll writes).map (·.1)).Nodup := by
  refine List.foldlRecOn (motive := fun attrs : Attrs => (attrs.map (·.1)).Nodup) writes _ h
    fun attrs hattrs q _ => ?_
  simp only [set]
  split
  · exact hattrs
  · exact nodup_put hattrs

theorem nodup_ofList (defaults : List (String × Value)) :
    ((ofList defaults).map (·.1)).Nodup :=
  List.foldlRecOn (motive := fun attrs : Attrs => (attrs.map (·.1)).Nodup) defaults _
    (by simp) fun _ hattrs _ _ => nodup_put hattrs

theorem isSome_get?_iff : (attrs.get? name).isSome ↔ name ∈ attrs.map (·.1) := by
  simp [get?]

theorem mem_set : other ∈ (attrs.set name v).map (·.1) ↔
    other ∈ attrs.map (·.1) ∨ other = name := by
  simp only [set]
  split
  next h =>
    have hname : name ∈ attrs.map (·.1) := isSome_get?_iff.mp (Option.isSome_of_any h)
    refine ⟨.inl, ?_⟩
    rintro (hother | rfl)
    · exact hother
    · exact hname
  next => exact mem_put

theorem mem_setAll (attrs : Attrs) (writes : List (String × Value)) (name : String) :
    name ∈ (attrs.setAll writes).map (·.1) ↔ name ∈ attrs.map (·.1) ∨ name ∈ writes.map (·.1) := by
  induction writes generalizing attrs with
  | nil => simp [setAll]
  | cons q writes ih =>
      rw [setAll, List.foldl_cons, ← setAll, ih, mem_set, List.map_cons, List.mem_cons, or_assoc]

theorem mem_ofList (defaults : List (String × Value)) (name : String) :
    name ∈ (ofList defaults).map (·.1) ↔ name ∈ defaults.map (·.1) := by
  rw [← isSome_get?_iff, get?_ofList, List.getLast?_isSome, ne_eq, given_eq_nil_iff, not_not]

/-- The attributes come from defaults and from values that are given in a call. -/
structure Overridden (defaults writes : List (String × Value)) (attrs : Attrs) : Prop where
  distinct : (attrs.map (·.1)).Nodup
  names : ∀ name, name ∈ attrs.map (·.1) ↔
    name ∈ defaults.map (·.1) ∨ name ∈ writes.map (·.1)
  /-- Without a value from the call the last default counts. -/
  default : ∀ name, name ∉ writes.map (·.1) → attrs.get? name = (given name defaults).getLast?
  /-- The last value of the call counts where what was there before is not equal to it. -/
  replaced : ∀ name earlier v, given name writes = earlier ++ [v] →
    (∀ u, settled (given name defaults).getLast? earlier = some u → (u == v) = false) →
    attrs.get? name = some v
  /-- An equal value is kept. -/
  kept : ∀ name earlier u v, given name writes = earlier ++ [v] →
    settled (given name defaults).getLast? earlier = some u → (u == v) = true →
    attrs.get? name = some u

theorem overridden_setAll (defaults writes : List (String × Value)) :
    Overridden defaults writes ((ofList defaults).setAll writes) where
  distinct := nodup_setAll (nodup_ofList defaults) writes
  names name := by rw [mem_setAll, mem_ofList]
  default name hname := by
    rw [get?_setAll, given_eq_nil_iff.mpr hname, get?_ofList]
    rfl
  replaced name earlier v hgiven hne := by
    rw [get?_setAll, get?_ofList, hgiven, settled_append, settled_of_ne hne]
  kept name earlier u v hgiven hheld heq := by
    rw [get?_setAll, get?_ofList, hgiven, settled_append, hheld, settled_of_eq heq]

end Attrs

/-! ## Writing into an object that nobody observes -/

section Writing

variable {w : World} {o : Handle} {x : Object}

/-- In the two worlds the object is `x` and `x'`, and the others are the same. -/
structure World.Turns (w w' : World) (o : Handle) (x' : Object) : Prop where
  object : w'.object? o = some x'
  others : ∀ p : Handle, p.id ≠ o.id → w'.object? p = w.object? p

theorem announce_unobserved (n : Nat) {c : Change} (h : w.observersOf c.object c.attr = []) :
    announce (n + 1) c w = some ((), w) := by
  simp only [announce, Step.get_bind_apply, h]
  rfl

theorem World.turns_write (hx : w.object? o = some x) (attr : String) (v : Value) :
    w.Turns (w.write o attr v) o { x with attrs := x.attrs.put attr v } := by
  have hobject (p : Handle) := object?_modifyObject w o p
    (f := fun x => { x with attrs := x.attrs.put attr v }) fun _ => rfl
  refine ⟨(hobject o).trans ?_, fun p hp => (hobject p).trans (if_neg (Ne.symm hp))⟩
  rw [if_pos rfl, hx]
  rfl

theorem setAttr_unobserved (n : Nat) (hx : w.object? o = some x) (hobs : x.observers = [])
    (attr : String) (v : Value) :
    Step.Yields (setAttr (announce (n + 1)) o attr v) w fun _ w' =>
      w.Turns w' o { x with attrs := x.attrs.set attr v } := by
  have hattr : w.attr? o attr = x.attrs.get? attr := by simp [World.attr?, hx]
  by_cases hequal : (x.attrs.get? attr).any (· == v) = true
  · obtain ⟨u, hu, heq⟩ := (Option.any_eq_true _ _).mp hequal
    refine ⟨false, w, setAttr_of_eq (hattr.trans hu) heq, ?_, fun _ _ => rfl⟩
    rw [Attrs.set, if_pos hequal, hx]
  · have hne : ∀ u, w.attr? o attr = some u → (u == v) = false := by
      intro u hu
      rw [← hattr, hu] at hequal
      simpa using hequal
    have hturns := World.turns_write hx attr v
    have hquiet : (w.write o attr v).observersOf o attr = [] := by
      rw [World.observersOf, hturns.object, Option.map_some, Option.getD_some, hobs,
        List.filter_nil]
    refine ⟨true, w.write o attr v, ?_, ?_⟩
    · rw [setAttr_of_ne hne, announce_unobserved n hquiet]
      rfl
    · rwa [Attrs.set, if_neg hequal]

theorem World.Turns.trans {w w' w'' : World} {o : Handle} {x' x'' : Object}
    (h : w.Turns w' o x') (h' : w'.Turns w'' o x'') : w.Turns w'' o x'' :=
  ⟨h'.object, fun p hp => (h'.others p hp).trans (h.others p hp)⟩

end Writing

namespace Template

/-! ## Building -/

variable {w : World} {o : Handle} {x : Object}

/-- The arguments are written one after another. -/
theorem writeArguments_run (n : Nat) (hx : w.object? o = some x) (hobs : x.observers = [])
    (writes : List (String × Value)) :
    ∃ w', (forIn writes PUnit.unit fun (name, v) _ => do
        let _ ← ExceptT.lift (setAttr (announce (n + 1)) o name v)
        pure (ForInStep.yield PUnit.unit) : Building PUnit).run w = some (.ok ⟨⟩, w') ∧
      w.Turns w' o { x with attrs := x.attrs.setAll writes } := by
  induction writes generalizing w x with
  | nil => exact ⟨w, rfl, hx, fun _ _ => rfl⟩
  | cons q writes ih =>
      obtain ⟨name, v⟩ := q
      -- Nobody hears of the first write, so the next one finds the object as this one leaves it.
      obtain ⟨changed, w₁, hset, hturns⟩ := setAttr_unobserved n hx hobs name v
      obtain ⟨w', hrun, hrest⟩ := ih hturns.object hobs
      refine ⟨w', ?_, hturns.trans hrest⟩
      have hfirst : (ExceptT.lift (setAttr (announce (n + 1)) o name v) : Building Bool).run w =
          some (.ok changed, w₁) := by
        change (setAttr (announce (n + 1)) o name v w).bind _ = _
        rw [hset]
        rfl
      rw [List.forIn_cons, bind_assoc, run_bind_eq, hfirst]
      exact hrun

/-- A call that fits makes one object, and writes the arguments over the defaults. -/
theorem Component.build_run (c : Component) (call : FactoryCall) (n : Nat)
    (hnew : ∀ y ∈ w.objects, y.handle.id < w.nextObject)
    (hfits : call.args.length ≤ c.positional.length) :
    ∃ w', (c.build (announce (n + 1)) call).run w = some (.ok
        { instances := [{ object := ⟨w.nextObject, call.typeName⟩, hooks := c.hooks }] }, w') ∧
      w.Turns w' ⟨w.nextObject, call.typeName⟩
        { handle := ⟨w.nextObject, call.typeName⟩
          attrs := (Attrs.ofList c.defaults).setAll
            (c.positional.zip call.args ++ call.keywords) } := by
  have hx : (w.create call.typeName c.defaults).2.object? ⟨w.nextObject, call.typeName⟩ =
      some { handle := ⟨w.nextObject, call.typeName⟩, attrs := Attrs.ofList c.defaults } := by
    change (w.objects ++ [_]).find? _ = _
    have hnone : w.objects.find? (·.handle.id == w.nextObject) = none :=
      List.find?_eq_none.mpr fun y hy => by simpa using Nat.ne_of_lt (hnew y hy)
    rw [List.find?_append, hnone]
    simp
  obtain ⟨w', hrun, hturns⟩ := writeArguments_run n hx rfl
    (c.positional.zip call.args ++ call.keywords)
  refine ⟨w', ?_, hturns.object, fun p hp => ?_⟩
  · simp only [Component.build, if_neg (Nat.not_lt.mpr hfits)]
    change ((forIn _ _ _ : Building PUnit) >>= fun _ => _).run
      (w.create call.typeName c.defaults).2 = _
    rw [run_bind_eq, hrun]
    rfl
  · rw [hturns.others p hp]
    exact World.object?_create_of_ne _ _ hp

/-- A component refuses a call with too many positional arguments. Otherwise it makes one object,
which takes its attributes from the defaults and from the arguments, positional ones first, and it
leaves all other objects alone. -/
theorem Component.build_overridden (c : Component) (call : FactoryCall) (n : Nat)
    (hnew : ∀ y ∈ w.objects, y.handle.id < w.nextObject) :
    (c.positional.length < call.args.length ∧
      (c.build (announce (n + 1)) call).run w = some (.error (.factory call.typeName
        (.surplus c.positional.length call.args.length)), w)) ∨
    (call.args.length ≤ c.positional.length ∧ ∃ w' y,
      (c.build (announce (n + 1)) call).run w = some (.ok
        { instances := [{ object := ⟨w.nextObject, call.typeName⟩, hooks := c.hooks }] }, w') ∧
      w.Turns w' ⟨w.nextObject, call.typeName⟩ y ∧
      Attrs.Overridden c.defaults (c.positional.zip call.args ++ call.keywords) y.attrs) := by
  by_cases hsurplus : c.positional.length < call.args.length
  · refine .inl ⟨hsurplus, ?_⟩
    simp only [Component.build, if_pos hsurplus]
    rfl
  · obtain ⟨w', hrun, hturns⟩ := c.build_run call n hnew (Nat.not_lt.mp hsurplus)
    exact .inr ⟨Nat.not_lt.mp hsurplus, w', _, hrun, hturns, Attrs.overridden_setAll _ _⟩

/-- A label shows a text, and it is visible if nothing else is said. -/
def labelComponent : Component where
  positional := ["text"]
  defaults := [("text", .str ""), ("visible", .bool true)]

theorem build_overridden_label :
    (∀ y ∈ ({} : World).objects, y.handle.id < ({} : World).nextObject) ∧
    ∃ w' y, (labelComponent.build (announce 1)
        ⟨"Label", [.str "on"], [("text", .str "off")]⟩).run {} =
        some (.ok { instances := [{ object := ⟨1, "Label"⟩ }] }, w') ∧
      ({} : World).Turns w' ⟨1, "Label"⟩ y ∧
      y.attrs.get? "text" = some (.str "off") ∧ y.attrs.get? "visible" = some (.bool true) ∧
      ∀ name, name ∈ y.attrs.map (·.1) ↔ name = "text" ∨ name = "visible" := by
  have hnew : ∀ y ∈ ({} : World).objects, y.handle.id < ({} : World).nextObject := nofun
  refine ⟨hnew, ?_⟩
  obtain ⟨hsurplus, -⟩ | ⟨-, w', y, hrun, hturns, hattrs⟩ := labelComponent.build_overridden
    ⟨"Label", [.str "on"], [("text", .str "off")]⟩ 0 hnew
  · exact absurd hsurplus (by decide)
  · refine ⟨w', y, hrun, hturns, ?_, hattrs.default "visible" (by decide), fun name => ?_⟩
    · refine hattrs.replaced "text" [.str "on"] (.str "off") rfl fun u hu => ?_
      obtain rfl : Value.str "on" = u := by
        rw [Attrs.settled_of_ne] at hu
        · exact Option.some.inj hu
        · rintro u ⟨⟩
          decide +kernel
      decide +kernel
    · rw [hattrs.names]
      simp only [labelComponent, List.map_cons, List.map_nil, List.zip_cons_cons, List.zip_nil_left,
        List.cons_append, List.nil_append, List.mem_cons, List.not_mem_nil, or_false]
      tauto

/-- The default is a number that equals the truth value of the call, and it is kept. -/
theorem build_keeps_equal :
    ∃ w', (Component.build (announce 1) { defaults := [("visible", .float 1.0)] }
        ⟨"Label", [], [("visible", .bool true)]⟩).run {} =
        some (.ok { instances := [{ object := ⟨1, "Label"⟩ }] }, w') ∧
      w'.attr? ⟨1, "Label"⟩ "visible" = some (.float 1.0) := by
  obtain ⟨w', hrun, hturns⟩ := Component.build_run { defaults := [("visible", .float 1.0)] }
    ⟨"Label", [], [("visible", .bool true)]⟩ 0 (w := {}) nofun (Nat.le_refl 0)
  refine ⟨w', hrun, ?_⟩
  have hequal : (Value.float 1.0 == .bool true) = true := by decide +kernel
  have hattr := Attrs.get?_setAll (Attrs.ofList [("visible", .float 1.0)]) [("visible", .bool true)]
    "visible"
  exact (congrArg (·.bind (·.attrs.get? "visible")) hturns.object).trans
    (hattr.trans (Attrs.settled_of_eq hequal))

end Template

end LiveUI
