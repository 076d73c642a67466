import Mathlib.Data.List.Zip
import LiveUI.Proofs.Template.Layout

/-! # Frames are filled once

A run of a program that is laid out well writes the slots of its frame from the first one to the
last, each once, at the operation that takes it. At every point the frame holds the final values of
the slots that have been taken and nothing in the others. The constructs that are open are on the
stack, and what has been built is handed on until it is in the tree of a root. -/

namespace LiveUI

namespace Frame

/-- A frame of `size` slots of which the first ones have been written. -/
def opening (values : List Value) (size : Nat) : Frame :=
  ⟨values ++ List.replicate (size - values.length) .nil⟩

theorem get_opening_take {values : List Value} {taken i : Nat} (h : i < taken)
    (hi : i < values.length) :
    values[i]? = some ((opening (values.take taken) values.length).get i) := by
  have htake : i < (values.take taken).length := by
    rw [List.length_take]
    omega
  simp only [opening, get, List.getD_eq_getElem?_getD, List.getElem?_append_left htake,
    List.getElem?_take_of_lt h, List.getElem?_eq_getElem hi, Option.getD_some]

/-- The slot behind those that have been written. -/
theorem set_opening {values : List Value} {size : Nat} (h : values.length < size) (v : Value) :
    (opening values size).set values.length v = opening (values ++ [v]) size := by
  obtain ⟨rest, hrest⟩ := Nat.exists_eq_add_of_lt h
  have hsize : size - values.length = rest + 1 := by omega
  have hgrow : values.length + 1 - (values.length + (rest + 1)) = 0 := by omega
  have hsize' : size - (values.length + 1) = rest := by omega
  simp [opening, set, hsize, hgrow, hsize', List.replicate_succ]

theorem setAll_opening (values : List Value) {vs : List Value} {size : Nat}
    (h : values.length + vs.length ≤ size) :
    (opening values size).setAll ((List.range' values.length vs.length).zip vs) =
      opening (values ++ vs) size := by
  induction vs generalizing values with
  | nil => rw [List.append_nil]; rfl
  | cons v vs ih =>
      rw [List.length_cons] at h
      have hrest := ih (values ++ [v]) (by simpa using by omega)
      rw [List.length_append, List.length_singleton, List.append_assoc] at hrest
      rw [List.length_cons, List.range'_succ, List.zip_cons_cons]
      change ((opening values size).set values.length v).setAll _ = _
      rw [set_opening (by omega)]
      exact hrest

theorem setAll_append (f : Frame) (slots slots' : List (Nat × Value)) :
    f.setAll (slots ++ slots') = (f.setAll slots).setAll slots' :=
  List.foldl_append

end Frame

namespace Template

open Markup

/-! ## Results of building -/

theorem building_bind {α β : Type} {m : Building α} {f : α → Building β} {b : β} {w w' : World}
    (h : (m >>= f).run w = some (.ok b, w')) :
    ∃ a v, m.run w = some (.ok a, v) ∧ (f a).run v = some (.ok b, w') := by
  change (m.run w).bind _ = _ at h
  obtain ⟨⟨r, v⟩, hm, h⟩ := Option.bind_eq_some_iff.mp h
  cases r with
  | error e => cases h
  | ok a => exact ⟨a, v, hm, h⟩

/-- Whenever building succeeds, what it comes to is as `post` says. -/
def Building.Makes {α : Type} (post : α → Prop) (m : Building α) : Prop :=
  ∀ w a w', m.run w = some (.ok a, w') → post a

namespace Building.Makes

variable {α β : Type} {P : α → Prop} {Q : β → Prop} {m : Building α}

theorem any (m : Building α) : Makes (fun _ => True) m :=
  fun _ _ _ _ => trivial

theorem pure {a : α} (h : P a) : Makes P (Pure.pure a) := by
  intro w b w' hrun
  cases hrun
  exact h

theorem throw (e : RuntimeError) : Makes P (MonadExcept.throw e : Building α) :=
  fun _ _ _ hrun => nomatch hrun

theorem bind {f : α → Building β} (h : Makes P m) (hf : ∀ a, P a → Makes Q (f a)) :
    Makes Q (m >>= f) := by
  intro w b w' hrun
  obtain ⟨a, v, hm, hrun⟩ := building_bind hrun
  exact hf a (h w a v hm) v b w' hrun

theorem ofExcept (r : Except RuntimeError α) :
    Makes (fun a => r = .ok a) (ExceptT.mk (Pure.pure r) : Building α) := by
  intro w a w' hrun
  cases hrun
  rfl

/-- That a run writes a slot is seen in its frame only. -/
theorem write_bind {Q : β → Prop} {m : Machine} {slot : Nat} {v : Value} {k : Machine → Building β}
    (h : Makes Q (k { m with frame := m.frame.set slot v })) :
    Makes Q (ExceptT.lift (m.write slot v) >>= k) :=
  fun w => h (w.setRun m.run (m.frame.set slot v).slots)

theorem writeAll_bind {m : Machine} {slots : List (Nat × Value)} {k : Machine → Building β}
    (h : Makes Q (k { m with frame := m.frame.setAll slots })) :
    Makes Q (ExceptT.lift (m.writeAll slots) >>= k) := by
  induction slots generalizing m with
  | nil => exact h
  | cons p slots ih =>
      have hsplit : ExceptT.lift (m.writeAll (p :: slots)) >>= k =
          ExceptT.lift (m.write p.1 p.2) >>= fun m => ExceptT.lift (m.writeAll slots) >>= k := rfl
      rw [hsplit]
      exact write_bind (ih h)

end Building.Makes

open Building (Makes)

/-! ## Trees -/

/-- The object is that of a node of the tree. -/
inductive Instance.Holds (o : Handle) : Instance → Prop where
  | here {hooks : Hooks} {children : List Instance} : Holds o ⟨o, hooks, children⟩
  | inside {object : Handle} {hooks : Hooks} {children : List Instance} {c : Instance}
      (hc : c ∈ children) (h : Holds o c) : Holds o ⟨object, hooks, children⟩

namespace Instance

variable {o : Handle} {i child : Instance}

theorem Holds.adopt (h : i.Holds o) (child : Instance) : (i.adopt child).Holds o := by
  cases h with
  | here => exact .here
  | inside hc h => exact .inside (List.mem_append_left _ hc) h

theorem Holds.adopted (i : Instance) (h : child.Holds o) : (i.adopt child).Holds o :=
  .inside (List.mem_append_right _ List.mem_cons_self) h

/-- Instances keep what they hold, and hold what they adopt. -/
theorem Holds.foldl_adopt {children : List Instance} {parent : Instance}
    (h : parent.Holds o ∨ ∃ c ∈ children, c.Holds o) :
    (children.foldl Instance.adopt parent).Holds o := by
  induction children generalizing parent with
  | nil => simpa using h
  | cons c children ih =>
      refine ih ?_
      rcases h with h | ⟨d, hd, h⟩
      · exact .inl (h.adopt c)
      · rcases List.mem_cons.mp hd with rfl | hd
        · exact .inl (.adopted parent h)
        · exact .inr ⟨d, hd, h⟩

end Instance

/-- The object is in a tree that a machine has built. -/
def Machine.Holds (m : Machine) (o : Handle) : Prop :=
  (∃ root ∈ m.roots, root.Holds o) ∨ ∃ is ∈ m.stack, ∃ i ∈ is, i.Holds o

/-! ## Operations -/

section Operations

variable {announce : Announce} {registry : Registry} {builder : Factory → Builder} {m : Machine}

/-- What an operation does to a machine: it writes the slots that it takes. -/
structure Machine.Fills (m m' : Machine) (slots : List Nat) : Prop where
  wrote : ∃ values : List Value, values.length = slots.length ∧
    m'.frame = m.frame.setAll (slots.zip values)
  holds : ∀ o, m.Holds o → m'.Holds o

theorem Machine.Fills.trans {m' m'' : Machine} {slots slots' : List Nat} (h : m.Fills m' slots)
    (h' : m'.Fills m'' slots') : m.Fills m'' (slots ++ slots') := by
  obtain ⟨values, hlength, hframe⟩ := h.wrote
  obtain ⟨values', hlength', hframe'⟩ := h'.wrote
  refine ⟨⟨values ++ values', ?_, ?_⟩, fun o ho => h'.holds o (h.holds o ho)⟩
  · rw [List.length_append, List.length_append, hlength, hlength']
  · rw [hframe', hframe, List.zip_append hlength.symm, Frame.setAll_append]

theorem captures_give (output : Output) (place : Location) (captures : List (Nat × String)) :
    Makes (fun m' => ∃ values : List Value, values.length = captures.length ∧
        m' = { m with frame := m.frame.setAll ((captures.map (·.1)).zip values) })
      (captures.foldlM (fun (m : Machine) (slot, attr) => do
        let v ← openConstruct.liftExcept (captured (← getThe World) output attr place)
        ExceptT.lift (m.write slot v)) m) := by
  induction captures generalizing m with
  | nil => exact .pure ⟨[], rfl, rfl⟩
  | cons capture captures ih =>
      simp only [List.foldlM_cons, bind_assoc]
      refine (Makes.any _).bind fun w _ => (Makes.any _).bind fun v _ => .write_bind ?_
      intro w m' w' hrun
      obtain ⟨values, hlength, rfl⟩ := ih w m' w' hrun
      exact ⟨v :: values, congrArg (· + 1) hlength, rfl⟩

/-- Opening a construct writes its slots and puts its instances on top of the stack. -/
theorem openConstruct_gives (b : Build) :
    Makes (fun m' => m.Fills m' (Op.build b).introduced ∧ ∃ done, m'.stack = done :: m.stack)
      (openConstruct announce registry builder m b) := by
  simp only [openConstruct]
  refine (Makes.any _).bind fun args _ => (Makes.any _).bind fun keywords _ => ?_
  refine (Makes.any _).bind fun factory _ => (Makes.any _).bind fun _ _ => ?_
  refine (Makes.any _).bind fun output _ => ?_
  split
  · exact .throw _
  next first _ _ =>
    refine .write_bind ((Makes.ofExcept _).bind fun values hvalues => .writeAll_bind ?_)
    refine (captures_give output b.place b.captures).bind fun m' hm' => ?_
    obtain ⟨captured, hcaptured, rfl⟩ := hm'
    have hunpack := unpackValues_length hvalues
    refine .pure ⟨⟨⟨.object first.object :: (values ++ captured), ?_, ?_⟩, ?_⟩, _, rfl⟩
    · simp [Op.introduced, hunpack, hcaptured]
    · rw [Op.introduced, List.zip_cons_cons, List.zip_append hunpack.symm]
      simp only [Frame.setAll, List.foldl_cons, List.foldl_append]
    · rintro o (h | ⟨is, his, h⟩)
      · exact .inl h
      · exact .inr ⟨is, List.mem_cons_of_mem _ his, h⟩

/-- Closing a construct hands its instances on. -/
theorem closeConstruct_holds {w w' : World} {m' : Machine} {done : List Instance}
    {rest : List (List Instance)} (hstack : m.stack = done :: rest)
    (hrun : closeConstruct m w = some (m', w')) :
    m'.frame = m.frame ∧ m'.stack.length = rest.length ∧ ∀ o, m.Holds o → m'.Holds o := by
  have hroots : ∀ {stack : List (List Instance)} {o : Handle},
      ((∃ root ∈ m.roots, root.Holds o) ∨ ∃ is ∈ done :: stack, ∃ i ∈ is, i.Holds o) →
      Machine.Holds { m with stack, roots := m.roots ++ done } o := by
    rintro stack o (⟨root, hroot, h⟩ | ⟨is, his, i, hi, h⟩)
    · exact .inl ⟨root, List.mem_append_left _ hroot, h⟩
    · rcases List.mem_cons.mp his with rfl | his
      · exact .inl ⟨i, List.mem_append_right _ hi, h⟩
      · exact .inr ⟨is, his, i, hi, h⟩
  simp only [closeConstruct, hstack] at hrun
  rcases rest with _ | ⟨_ | ⟨parent, others⟩, rest'⟩
  · cases hrun
    refine ⟨rfl, rfl, fun o h => hroots ?_⟩
    rwa [Machine.Holds, hstack] at h
  · cases hrun
    refine ⟨rfl, rfl, fun o h => hroots ?_⟩
    rwa [Machine.Holds, hstack] at h
  · change Option.bind _ _ = _ at hrun
    obtain ⟨⟨_, v⟩, -, hrun⟩ := Option.bind_eq_some_iff.mp hrun
    cases hrun
    refine ⟨rfl, rfl, fun o h => ?_⟩
    rw [Machine.Holds, hstack] at h
    rcases h with h | ⟨is, his, i, hi, h⟩
    · exact .inl h
    · have hparent : ∀ j, (j = parent ∧ j.Holds o) ∨ (j ∈ done ∧ j.Holds o) → Machine.Holds
          { m with stack := (done.foldl Instance.adopt parent :: others) :: rest' } o := by
        intro j hj
        refine .inr ⟨_, List.mem_cons_self, _, List.mem_cons_self, Instance.Holds.foldl_adopt ?_⟩
        rcases hj with ⟨rfl, h⟩ | ⟨hmem, h⟩
        · exact .inl h
        · exact .inr ⟨j, hmem, h⟩
      rcases List.mem_cons.mp his with rfl | his
      · exact hparent i (.inr ⟨hi, h⟩)
      · rcases List.mem_cons.mp his with rfl | his
        · rcases List.mem_cons.mp hi with rfl | hi
          · exact hparent i (.inl ⟨rfl, h⟩)
          · exact .inr ⟨_, List.mem_cons_self, i, List.mem_cons_of_mem _ hi, h⟩
        · exact .inr ⟨is, List.mem_cons_of_mem _ his, i, hi, h⟩

/-- One operation writes the slots that it takes and opens or closes what it says. -/
theorem runOp_gives (op : Op) (h : nesting? m.stack.length [op] ≠ none) :
    Makes (fun m' => m.Fills m' op.introduced ∧ nesting? m.stack.length [op] = some m'.stack.length)
      (runOp announce registry builder m op) := by
  cases op with
  | build b =>
      intro w m' w' hrun
      obtain ⟨hfills, done, hstack⟩ := openConstruct_gives b w m' w' hrun
      exact ⟨hfills, by rw [hstack]; rfl⟩
  | assign target op code place =>
      simp only [runOp]
      refine (Makes.any _).bind fun o _ => (Makes.any _).bind fun r _ => ?_
      split
      · exact .pure ⟨⟨⟨[], rfl, rfl⟩, fun _ => id⟩, rfl⟩
      · exact .throw _
  | close =>
      cases hstack : m.stack with
      | nil =>
          rw [hstack] at h
          exact absurd rfl h
      | cons done rest =>
          intro w m' w' hrun
          change Option.bind _ _ = _ at hrun
          obtain ⟨⟨m₁, v⟩, hclose, hrun⟩ := Option.bind_eq_some_iff.mp hrun
          cases hrun
          obtain ⟨hframe, hlength, hholds⟩ := closeConstruct_holds hstack hclose
          refine ⟨⟨⟨[], rfl, hframe⟩, hholds⟩, ?_⟩
          rw [hlength]
          rfl

/-- Operations one after another write the slots that they take, one after another. -/
theorem runOps_fill {ops : List Op} {depth : Nat} {m' : Machine} {w w' : World}
    (hrun : (ops.foldlM (runOp announce registry builder) m).run w = some (.ok m', w'))
    (h : nesting? m.stack.length ops = some depth) :
    m.Fills m' (ops.flatMap Op.introduced) ∧ m'.stack.length = depth := by
  induction ops generalizing m w with
  | nil =>
      cases hrun
      exact ⟨⟨⟨[], rfl, rfl⟩, fun _ => id⟩, Option.some.inj h⟩
  | cons op ops ih =>
      have hsplit := nesting?_append [op] ops m.stack.length
      rw [List.singleton_append, h] at hsplit
      have hop : nesting? m.stack.length [op] ≠ none := by
        intro hnone
        rw [hnone] at hsplit
        cases hsplit
      rw [List.foldlM_cons] at hrun
      obtain ⟨m₁, w₁, hfirst, hrest⟩ := building_bind hrun
      obtain ⟨hfills, hdepth⟩ := runOp_gives op hop _ _ _ hfirst
      rw [hdepth] at hsplit
      obtain ⟨hfills', hdepth'⟩ := ih hrest hsplit.symm
      exact ⟨hfills.trans hfills', hdepth'⟩

end Operations

/-! ## Programs -/

/-- A machine between the operations `before` and `after` of a run that comes to `values` in the
slots and to `roots`. The slots that have been taken hold their values, and these are all that the
next operation reads; the constructs that are open are on the stack, and everything that has been
built comes into the trees of the roots. -/
structure Machine.Between (params : Nat) (before after : List Op) (values : List Value)
    (roots : List Instance) (m : Machine) : Prop where
  frame : m.frame =
    .opening (values.take (params + (before.flatMap Op.introduced).length)) values.length
  read : ∀ op rest, after = op :: rest → ∀ code ∈ op.codes, ∀ i, .slot i ∈ code.leaves →
    values[i]? = some (m.frame.get i)
  depth : nesting? 0 before = some m.stack.length
  enclosed : ∀ rest, after = .close :: rest → m.stack ≠ []
  kept : ∀ o, m.Holds o → ∃ root ∈ roots, root.Holds o

/-- A run of the program on the parameters `params`, from `w` to `w'`, that fills its frame once:
there are final values for all slots, and at every point between two operations the machine is as
they say. -/
def Program.FillsOnce (announce : Announce) (registry : Registry) (builder : Factory → Builder)
    (p : Program) (params : List Value) (built : Built) (w w' : World) : Prop :=
  ∃ values : List Value, values.length = p.slots ∧ params <+: values ∧
    built.exports = p.exports.map (fun (name, slot) => (name, values.getD slot .nil)) ∧
    ∀ before after, p.ops = before ++ after → ∃ m w₁ m',
      (before.foldlM (runOp announce registry builder)
        { run := w.nextRun, frame := .opening params p.slots }).run
          (w.beginRun (Frame.opening params p.slots).slots).2 = some (.ok m, w₁) ∧
      (after.foldlM (runOp announce registry builder) m).run w₁ = some (.ok m', w') ∧
      m'.roots = built.roots ∧ m.Between params.length before after values built.roots

section Programs

variable {announce : Announce} {globals : Globals} {registry : Registry}
  {builder : Factory → Builder}

theorem Program.LaidOut.slots_eq {names : List String} {body : List Construct} {p : Program}
    (h : p.LaidOut globals names body) :
    p.slots = names.length + (p.ops.flatMap Op.introduced).length := by
  have hlength := congrArg List.length h.slots
  simpa using hlength.symm

/-- The slots that operations take stand in a row behind those that have been taken before. -/
theorem Program.LaidOut.row {names : List String} {body : List Construct} {p : Program}
    (h : p.LaidOut globals names body) (before : List Op) {ops after : List Op}
    (hops : p.ops = before ++ (ops ++ after)) :
    ops.flatMap Op.introduced =
      List.range' (names.length + (before.flatMap Op.introduced).length)
        (ops.flatMap Op.introduced).length := by
  have hslots := h.slots
  rw [hops, List.flatMap_append, List.flatMap_append, ← List.append_assoc] at hslots
  have hrow := row_of_append _ hslots
  rwa [List.length_append, List.length_range] at hrow

/-- From a frame in which the slots before them are written, operations come to one in which theirs
are written as well. -/
theorem Program.LaidOut.frame_eq {names : List String} {body : List Construct} {p : Program}
    (h : p.LaidOut globals names body) (before after : List Op) {ops : List Op}
    (hops : p.ops = before ++ (ops ++ after)) {m m' : Machine} {values : List Value}
    (hlength : values.length = names.length + (before.flatMap Op.introduced).length)
    (hstart : m.frame = .opening values p.slots) (hfills : m.Fills m' (ops.flatMap Op.introduced)) :
    ∃ values', values'.length = (ops.flatMap Op.introduced).length ∧
      m'.frame = .opening (values ++ values') p.slots := by
  obtain ⟨values', hlength', hframe⟩ := hfills.wrote
  refine ⟨values', hlength', ?_⟩
  have hslots := h.slots_eq
  rw [hops, List.flatMap_append, List.flatMap_append, List.length_append, List.length_append]
    at hslots
  rw [hframe, hstart, h.row before hops, ← hlength, ← hlength']
  exact Frame.setAll_opening values (by omega)

theorem Program.LaidOut.fillsOnce {names : List String} {body : List Construct} {p : Program}
    (h : p.LaidOut globals names body) {params : List Value} (hparams : params.length = names.length)
    {built : Built} {w w' : World}
    (hrun : (p.run announce registry builder (.opening params p.slots)).run w =
      some (.ok built, w')) :
    p.FillsOnce announce registry builder params built w w' := by
  change (p.ops.foldlM (runOp announce registry builder)
    { run := w.nextRun, frame := .opening params p.slots } >>= fun m =>
      pure (⟨m.roots, p.exports.map fun (name, slot) => (name, m.frame.get slot)⟩ : Built)).run
        (w.beginRun (Frame.opening params p.slots).slots).2 = _ at hrun
  obtain ⟨final, v, hops, hbuilt⟩ := building_bind hrun
  cases hbuilt
  obtain ⟨hfills, hdepth⟩ := runOps_fill hops h.balanced
  have hslots := h.slots_eq
  -- The parameters and then the values of the operations before and behind a point fill the frame.
  have hfull : ∀ {values : List Value}, values.length = p.slots →
      final.frame = .opening values p.slots → final.frame.slots = values := by
    intro values hlength hframe
    rw [hframe, Frame.opening, hlength, Nat.sub_self, List.replicate_zero, List.append_nil]
  obtain ⟨values, hlength, hfinal⟩ := h.frame_eq [] []
    (List.append_nil _).symm hparams rfl hfills
  have hsize : (params ++ values).length = p.slots := by
    rw [List.length_append, hlength, hparams, h.slots_eq]
  have hvalues := hfull hsize hfinal
  refine ⟨params ++ values, hsize, List.prefix_append _ _, ?_, fun before after heq => ?_⟩
  · simp only [Frame.get, hvalues]
  have hsplit := nesting?_append before after 0
  rw [← heq, h.balanced] at hsplit
  obtain ⟨depth, hbefore, hafter⟩ := Option.bind_eq_some_iff.mp hsplit.symm
  rw [heq, List.foldlM_append] at hops
  obtain ⟨m, w₁, hfirst, hrest⟩ := building_bind hops
  obtain ⟨hfills₁, hdepth₁⟩ := runOps_fill hfirst hbefore
  rw [← hdepth₁] at hbefore hafter
  obtain ⟨hfills₂, -⟩ := runOps_fill hrest hafter
  have hframe : m.frame = .opening ((params ++ values).take
      (params.length + (before.flatMap Op.introduced).length)) (params ++ values).length := by
    obtain ⟨values₁, hlength₁, hframe₁⟩ := h.frame_eq [] _ heq hparams rfl hfills₁
    have htaken : (params ++ values₁).length =
        names.length + (before.flatMap Op.introduced).length := by
      rw [List.length_append, hparams, hlength₁]
    obtain ⟨values₂, hlength₂, hframe₂⟩ := h.frame_eq _ []
      (heq.trans (congrArg _ (List.append_nil _).symm)) htaken hframe₁ hfills₂
    have hall := hfull (by
      rw [List.length_append, htaken, hlength₂, hslots, heq, List.flatMap_append,
        List.length_append, Nat.add_assoc]) hframe₂
    rw [hframe₁, hsize, hparams, ← htaken, ← hvalues, hall, List.take_left]
  refine ⟨m, w₁, final, hfirst, hrest, rfl, hframe, ?_, hbefore, ?_, fun o ho => ?_⟩
  · rintro op rest rfl code hcode i hi
    have hread := h.reads before op rest heq code hcode i hi
    have hrow := h.row [] heq
    rw [hrow, List.range_eq_range', ← hparams] at hread
    have hlt : i < params.length + (before.flatMap Op.introduced).length := by
      rcases List.mem_append.mp hread with hread | hread
      · rw [List.mem_range'_1] at hread
        omega
      · rw [List.mem_range'_1] at hread
        simpa using hread.2
    have hle : i < (params ++ values).length := by
      rw [hsize, hslots, heq, List.flatMap_append, List.length_append, ← hparams]
      omega
    rw [hframe, Frame.get_opening_take hlt hle]
  · rintro rest rfl hstack
    rw [hstack] at hafter
    cases hafter
  · rcases hfills₂.holds o ho with hroot | ⟨is, his, -⟩
    · exact hroot
    · rw [List.length_eq_zero_iff.mp hdepth] at his
      cases his

end Programs

/-! ## Templates -/

theorem foldl_set_zipIdx (values : List Value) (size : Nat) (h : values.length ≤ size) :
    values.zipIdx.foldl (fun (frame : Frame) (v, slot) => frame.set slot v) (Frame.ofSize size) =
      .opening values size := by
  have hzip : values.zipIdx.map (fun p => (p.2, p.1)) =
      (List.range' 0 values.length).zip values := by
    rw [List.zipIdx_eq_zip_range']
    exact List.zip_swap _ _
  have hset : values.zipIdx.foldl (fun (frame : Frame) (v, slot) => frame.set slot v)
      (Frame.ofSize size) = (Frame.opening [] size).setAll (values.zipIdx.map fun p => (p.2, p.1)) := by
    rw [Frame.setAll, List.foldl_map]
    rfl
  rw [hset, hzip]
  exact Frame.setAll_opening [] (by simpa using h)

/-- Whatever the compiler accepts, a define or a construct that stands by itself, becomes a program
that is laid out well, and every run of it that succeeds fills its frame once: each slot is written
at the operation that takes it and keeps its value, no slot is read before that, the stack is not
empty where a construct closes, and all that has been built is in the trees of the roots. -/
theorem compiled_fillsOnce (announcing : Announce) (globals : Globals) (w₀ w₁ : World) :
    (∀ (d : Define) (compiled : CompiledDefine),
      (compileDefine announcing globals d).run w₀ = some (.ok compiled, w₁) →
      compiled.program.LaidOut globals d.parameters.names d.body ∧
      ∀ announce registry builder args keywords w built w',
        (compiled.instantiate announce registry builder args keywords).run w =
          some (.ok built, w') →
        ∃ params, bindArguments compiled.params args keywords = .ok params ∧
          compiled.program.FillsOnce announce registry builder params built w w') ∧
    ∀ (c : Construct) (compiled : CompiledConstruct),
      (compileConstruct globals c).run w₀ = some (.ok compiled, w₁) →
      compiled.program.LaidOut globals [] [c] ∧
      ∀ announce registry builder w built w',
        (compiled.program.run announce registry builder
          (Frame.ofSize compiled.program.slots)).run w = some (.ok built, w') →
        compiled.program.FillsOnce announce registry builder [] built w w' := by
  constructor
  · intro d compiled hcompile
    obtain ⟨params, w', hparams, program, n, hemit, rfl⟩ := compileDefine_ok hcompile
    have hlaid := emitProgram_laidOut hemit
    refine ⟨hlaid, fun announce registry builder args keywords w built w' hrun => ?_⟩
    simp only [CompiledDefine.instantiate] at hrun
    cases hvalues : bindArguments params args keywords with
    | error fault =>
        rw [hvalues] at hrun
        cases hrun
    | ok values =>
        rw [hvalues] at hrun
        have hlength : values.length = d.parameters.names.length := by
          rw [bindArguments_length hvalues, ← evalParameters_names hparams, List.length_map]
        dsimp only at hrun
        rw [foldl_set_zipIdx values program.slots (by rw [hlaid.slots_eq]; omega)] at hrun
        exact ⟨values, rfl, hlaid.fillsOnce hlength hrun⟩
  · intro c compiled hcompile
    obtain ⟨program, n, hemit, rfl⟩ := compileConstruct_ok hcompile
    have hlaid := emitProgram_laidOut hemit
    refine ⟨hlaid, fun announce registry builder w built w' hrun => ?_⟩
    exact hlaid.fillsOnce (List.length_nil : ([] : List Value).length = 0) hrun

/-- Whether building succeeds and comes to something as `post` says. -/
def Building.succeeds {α ε : Type} (m : ExceptT ε Step α) (w : World) (post : α → Bool) : Bool :=
  (m.run w).any fun r => r.1.toOption.any post

theorem Building.exists_of_succeeds {α ε : Type} {m : ExceptT ε Step α} {w : World}
    {post : α → Bool} (h : succeeds m w post = true) :
    ∃ a w', m.run w = some (.ok a, w') ∧ post a = true := by
  obtain ⟨⟨r, w'⟩, hrun, hpost⟩ := Option.any_eq_true _ _ |>.mp h
  cases r with
  | error e => cases hpost
  | ok a => exact ⟨a, w', hrun, hpost⟩

theorem compiled_fillsOnce_card :
    (∃ compiled w₁ params built w',
      (compileDefine (announce 8) [] card).run {} = some (.ok compiled, w₁) ∧
      compiled.program.LaidOut [] card.parameters.names card.body ∧
      (compiled.instantiate (announce 8) cardRegistry cardBuilder [.str "News"] []).run {} =
        some (.ok built, w') ∧
      compiled.program.FillsOnce (announce 8) cardRegistry cardBuilder params built {} w') ∧
    ∃ compiled w₁ built w',
      (compileConstruct [] { typeName := "Label" }).run {} = some (.ok compiled, w₁) ∧
      compiled.program.LaidOut [] [] [{ typeName := "Label" }] ∧
      (compiled.program.run (announce 8) cardRegistry cardBuilder
        (Frame.ofSize compiled.program.slots)).run {} = some (.ok built, w') ∧
      compiled.program.FillsOnce (announce 8) cardRegistry cardBuilder [] built {} w' := by
  have hcard : Building.succeeds (compileDefine (announce 8) [] card) {} (fun compiled =>
      Building.succeeds (compiled.instantiate (announce 8) cardRegistry cardBuilder [.str "News"] [])
        {} fun _ => true) = true := by decide +kernel
  have hlabel : Building.succeeds (compileConstruct [] { typeName := "Label" }) {} (fun compiled =>
      Building.succeeds (compiled.program.run (announce 8) cardRegistry cardBuilder
        (Frame.ofSize compiled.program.slots)) {} fun _ => true) = true := by decide +kernel
  obtain ⟨compiled, w₁, hcompile, hruns⟩ := Building.exists_of_succeeds hcard
  obtain ⟨built, w', hrun, -⟩ := Building.exists_of_succeeds hruns
  obtain ⟨compiled', w₁', hcompile', hruns'⟩ := Building.exists_of_succeeds hlabel
  obtain ⟨built', w'', hrun', -⟩ := Building.exists_of_succeeds hruns'
  obtain ⟨hlaid, hfills⟩ := (compiled_fillsOnce (announce 8) [] {} w₁).1 card compiled hcompile
  obtain ⟨params, -, hfills⟩ := hfills _ _ _ _ _ _ _ _ hrun
  obtain ⟨hlaid', hfills'⟩ := (compiled_fillsOnce (announce 8) [] {} w₁').2 _ compiled' hcompile'
  exact ⟨⟨compiled, w₁, params, built, w', hcompile, hlaid, hrun, hfills⟩,
    compiled', w₁', built', w'', hcompile', hlaid', hrun', hfills' _ _ _ _ _ _ hrun'⟩

end Template

end LiveUI
