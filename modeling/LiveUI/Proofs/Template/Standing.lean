import LiveUI.Proofs.Template.Enclosure
import LiveUI.Proofs.World.Sparing

/-! # The trees that a template builds

A template run over a world makes new objects, one for each construct, and hangs them into each other
as it closes the constructs. At each moment the trees of the instances stand in the world as trees of
objects: each object has the children that its instance has, and none occurs twice. -/

namespace LiveUI

open Template World

/-! ## Trees in the world -/

namespace Template.Instance

variable {w₀ w w' : World} {i : Instance} {is js : List Instance}

/-- The nodes of trees without what is below them, parents first. -/
def nodes (is : List Instance) : List (Handle × Hooks) :=
  (walkAll none is).map fun p => (p.1.object, p.1.hooks)

/-- The objects of trees, parents first. -/
def objectsOf (is : List Instance) : List Handle :=
  (walkAll none is).map (·.1.object)

theorem objectsOf_eq_map (is : List Instance) : objectsOf is = (nodes is).map (·.1) := by
  rw [nodes, List.map_map]
  rfl

theorem walkAll_fst (p q : Option Handle) (is : List Instance) :
    (walkAll p is).map (·.1) = (walkAll q is).map (·.1) := by
  induction is with
  | nil => rfl
  | cons i is ih =>
      obtain ⟨o, hooks, cs⟩ := i
      simp only [walkAll, walk, List.map_append, List.map_cons, ih]

theorem nodes_cons (i : Instance) (is : List Instance) : nodes (i :: is) = nodes [i] ++ nodes is := by
  simp [nodes, walkAll]

theorem nodes_node (o : Handle) (hooks : Hooks) (cs : List Instance) :
    nodes [⟨o, hooks, cs⟩] = (o, hooks) :: nodes cs := by
  have hfst : nodes cs = (walkAll (some o) cs).map fun p => (p.1.object, p.1.hooks) := by
    have hmap := congrArg (List.map fun i : Instance => (i.object, i.hooks))
      (walkAll_fst none (some o) cs)
    rwa [List.map_map, List.map_map] at hmap
  rw [hfst]
  simp [nodes, walkAll, walk]

theorem nodes_eq_flatMap (is : List Instance) : nodes is = is.flatMap fun i => nodes [i] := by
  induction is with
  | nil => rfl
  | cons i is ih => rw [nodes_cons, ih, List.flatMap_cons]

theorem nodes_append (is js : List Instance) : nodes (is ++ js) = nodes is ++ nodes js := by
  rw [nodes_eq_flatMap, List.flatMap_append, ← nodes_eq_flatMap, ← nodes_eq_flatMap]

theorem nodes_perm (h : is.Perm js) : (nodes is).Perm (nodes js) := by
  rw [nodes_eq_flatMap is, nodes_eq_flatMap js]
  exact h.flatMap_right _

theorem nodes_adopt (i child : Instance) : nodes [i.adopt child] = nodes [i] ++ nodes [child] := by
  obtain ⟨o, hooks, cs⟩ := i
  rw [adopt, nodes_node, nodes_node, nodes_append, List.cons_append]

theorem objectsOf_cons (i : Instance) (is : List Instance) :
    objectsOf (i :: is) = objectsOf [i] ++ objectsOf is := by
  simp only [objectsOf_eq_map, nodes_cons i is, List.map_append]

theorem objectsOf_node (o : Handle) (hooks : Hooks) (cs : List Instance) :
    objectsOf [⟨o, hooks, cs⟩] = o :: objectsOf cs := by
  simp only [objectsOf_eq_map, nodes_node, List.map_cons]

theorem objectsOf_eq_flatMap (is : List Instance) :
    objectsOf is = is.flatMap fun i => objectsOf [i] := by
  simp only [objectsOf_eq_map, nodes_eq_flatMap is, List.map_flatMap]

theorem objectsOf_append (is js : List Instance) :
    objectsOf (is ++ js) = objectsOf is ++ objectsOf js := by
  simp only [objectsOf_eq_map, nodes_append, List.map_append]

theorem mem_objectsOf {o : Handle} : o ∈ objectsOf is ↔ ∃ i ∈ is, o ∈ objectsOf [i] := by
  rw [objectsOf_eq_flatMap, List.mem_flatMap]

theorem objectsOf_adopt (i child : Instance) :
    objectsOf [i.adopt child] = objectsOf [i] ++ objectsOf [child] := by
  simp only [objectsOf_eq_map, nodes_adopt, List.map_append]

theorem object_mem_objectsOf (i : Instance) : i.object ∈ objectsOf [i] := by
  obtain ⟨o, hooks, cs⟩ := i
  rw [objectsOf_node]
  exact List.mem_cons_self

/-- A tree of objects that came after `w₀`, none of which has been destroyed, and without hooks. -/
inductive Stands (w₀ w : World) : Instance → Prop where
  | node {o : Handle} {cs : List Instance} {x : Object} (hlate : w₀.nextObject ≤ o.id)
      (hx : w.object? o = some x) (hphase : x.phase ≠ .destroyed)
      (hchildren : x.children = cs.map (·.object)) (hcs : ∀ c ∈ cs, Stands w₀ w c) :
      Stands w₀ w ⟨o, {}, cs⟩

theorem Stands.all (h : i.Stands w₀ w) :
    i.All fun o hooks => w₀.nextObject ≤ o.id ∧ w.isAlive o = true ∧ hooks = {} := by
  induction h with
  | node hlate hx _ _ _ ih => exact .node ⟨hlate, by simp [World.isAlive, hx], rfl⟩ ih

theorem Stands.mem (h : i.Stands w₀ w) {o : Handle} (ho : o ∈ objectsOf [i]) :
    w₀.nextObject ≤ o.id ∧ w.isAlive o = true := by
  obtain ⟨p, hp, rfl⟩ := List.mem_map.mp ho
  rw [walkAll, walkAll, List.append_nil] at hp
  obtain ⟨hlate, halive, -⟩ := h.all.walk none p hp
  exact ⟨hlate, halive⟩

/-- A tree stands as long as its own objects keep their children. -/
theorem Stands.congr (h : i.Stands w₀ w) (hkept : ∀ o ∈ objectsOf [i], ∀ x, w.object? o = some x →
    ∃ y, w'.object? o = some y ∧ y.children = x.children ∧
      (x.phase ≠ .destroyed → y.phase ≠ .destroyed)) : i.Stands w₀ w' := by
  induction h with
  | @node o cs x hlate hx hphase hchildren hcs ih =>
      rw [objectsOf_node] at hkept
      obtain ⟨y, hy, hsame, hphase'⟩ := hkept o List.mem_cons_self x hx
      refine .node hlate hy (hphase' hphase) (hsame.trans hchildren) fun c hc => ih c hc fun p hp => ?_
      exact hkept p (List.mem_cons_of_mem _ (mem_objectsOf.mpr ⟨c, hc, hp⟩))

end Template.Instance

open Template.Instance

namespace World

variable {w₀ w w' : World} {is js : List Instance}

theorem Spares.setRun (h : w₀.Spared w) (run : Nat) (values : List Value) :
    Spares w₀ w (w.setRun run values) :=
  h.spares (List.suffix_refl _) fun _ h => h.of_same rfl rfl rfl rfl (List.suffix_refl _) h.functions

/-- The journal has grown, and `w₀` has been spared. -/
structure Advances (w₀ w w' : World) : Prop where
  journal : w.journal <:+ w'.journal
  spared : w₀.Spared w'

theorem Advances.refl (h : w₀.Spared w) : Advances w₀ w w :=
  ⟨List.suffix_refl _, h⟩

instance : Trans (Advances w₀) (Advances w₀) (Advances w₀) :=
  ⟨fun h h' => ⟨h.journal.trans h'.journal, h'.spared⟩⟩

theorem Advances.addChild (h : w₀.Spared w) (parent child : Handle) :
    Advances w₀ w (w.addChild parent child) := by
  refine ⟨List.suffix_refl _, fun hun => ?_⟩
  have hchild : Overlaid w₀ (w.modifyObject child fun x => { x with parent := some parent }) :=
    (h hun).modifyObject child (fun _ => rfl) (fun _ => rfl) (fun _ => rfl) fun _ => rfl
  exact hchild.modifyObject parent (fun _ => rfl) (fun _ => rfl) (fun _ => rfl) fun _ => rfl

/-- The trees stand in the world, and no object occurs twice. -/
structure Bears (w₀ w : World) (is : List Instance) : Prop where
  stands : ∀ i ∈ is, i.Stands w₀ w
  nodup : ((objectsOf is).map (·.id)).Nodup

/-- An object without children that was not there before. -/
def Gains (w w' : World) (o : Handle) : Prop :=
  w.nextObject ≤ o.id ∧ ∃ x, w'.object? o = some x ∧ x.children = [] ∧ x.phase ≠ .destroyed

theorem Gains.keeps {w'' : World} {o : Handle} (h : Gains w w' o) (hkeeps : KeepsTrees w' w'') :
    Gains w w'' o := by
  obtain ⟨hnew, x, hx, hchildren, hphase⟩ := h
  obtain ⟨y, hy, hsame, hphase'⟩ := hkeeps.objects o x hx
  exact ⟨hnew, y, hy, hsame.trans hchildren, hphase' hphase⟩

theorem Gains.since {w₁ : World} {o : Handle} (h : Gains w₁ w' o) (hkeeps : KeepsTrees w w₁) :
    Gains w w' o :=
  ⟨Nat.le_trans hkeeps.nextObject h.1, h.2⟩

theorem lt_of_isAlive (hlt : ∀ x ∈ w.objects, x.handle.id < w.nextObject) {o : Handle}
    (halive : w.isAlive o = true) : o.id < w.nextObject := by
  obtain ⟨x, hx⟩ := Option.isSome_iff_exists.mp halive
  exact handle_of_object? hx ▸ hlt x (List.mem_of_find?_eq_some hx)

namespace Bears

theorem keeps (h : Bears w₀ w is) (hkeeps : KeepsTrees w w') : Bears w₀ w' is :=
  ⟨fun i hi => (h.stands i hi).congr fun o _ => hkeeps.objects o, h.nodup⟩

theorem perm (h : Bears w₀ w is) (hperm : is.Perm js) : Bears w₀ w js := by
  refine ⟨fun i hi => h.stands i (hperm.mem_iff.mpr hi), ?_⟩
  have hobjects : (objectsOf is).Perm (objectsOf js) := by
    rw [objectsOf_eq_map is, objectsOf_eq_map js]
    exact (nodes_perm hperm).map _
  exact (hobjects.map Handle.id).nodup_iff.mp h.nodup

theorem right (is : List Instance) (h : Bears w₀ w (is ++ js)) : Bears w₀ w js := by
  have hnodup := h.nodup
  rw [objectsOf_append, List.map_append] at hnodup
  exact ⟨fun i hi => h.stands i (List.mem_append_right _ hi), hnodup.of_append_right⟩

/-- A new object is a tree of its own. -/
theorem cons (h : Bears w₀ w is) (hlt : ∀ x ∈ w.objects, x.handle.id < w.nextObject)
    (hle : w₀.nextObject ≤ w.nextObject) (hkeeps : KeepsTrees w w') {o : Handle}
    (ho : Gains w w' o) : Bears w₀ w' ({ object := o } :: is) := by
  obtain ⟨hnew, x, hx, hchildren, hphase⟩ := ho
  refine ⟨List.forall_mem_cons.mpr ⟨.node (Nat.le_trans hle hnew) hx hphase hchildren nofun,
    (h.keeps hkeeps).stands⟩, ?_⟩
  rw [objectsOf_cons, objectsOf_node]
  refine List.nodup_cons.mpr ⟨fun hmem => ?_, h.nodup⟩
  obtain ⟨p, hp, hid⟩ := List.mem_map.mp hmem
  obtain ⟨i, hi, hp⟩ := mem_objectsOf.mp hp
  have hbelow := lt_of_isAlive hlt ((h.stands i hi).mem hp).2
  have hid : p.id = o.id := hid
  omega

/-- A tree becomes a child of the root of another. -/
theorem adopt {child parent : Instance} (h : Bears w₀ w (child :: parent :: is)) :
    Bears w₀ (w.addChild parent.object child.object) (parent.adopt child :: is) := by
  obtain ⟨p, hooks, cs⟩ := parent
  have hobjects : (objectsOf (⟨p, hooks, cs ++ [child]⟩ :: is)).Perm
      (objectsOf (child :: ⟨p, hooks, cs⟩ :: is)) := by
    rw [objectsOf_cons, objectsOf_cons child, objectsOf_cons ⟨p, hooks, cs⟩, ← List.append_assoc]
    exact ((List.Perm.of_eq (objectsOf_adopt ⟨p, hooks, cs⟩ child)).trans
      List.perm_append_comm).append_right _
  have hnodup := (hobjects.map Handle.id).nodup_iff.mpr h.nodup
  -- Only the root of the tree that adopts has its children changed, and it occurs nowhere else.
  have hapart : ∀ o ∈ objectsOf (cs ++ [child]) ++ objectsOf is, o.id ≠ p.id := by
    rw [objectsOf_cons, objectsOf_node] at hnodup
    exact fun o ho heq => (List.nodup_cons.mp hnodup).1 (List.mem_map.mpr ⟨o, ho, heq⟩)
  have hkept {i : Instance} (hi : i.Stands w₀ w) (hmem : ∀ o ∈ objectsOf [i], o.id ≠ p.id) :
      i.Stands w₀ (w.addChild p child.object) := by
    refine hi.congr fun o ho x hx => ?_
    exact ⟨_, (object?_addChild w p child.object o).trans (congrArg _ hx),
      if_neg (Ne.symm (hmem o ho)), id⟩
  have hchild := h.stands child List.mem_cons_self
  have hparent := h.stands ⟨p, hooks, cs⟩ (List.mem_cons_of_mem _ List.mem_cons_self)
  refine ⟨List.forall_mem_cons.mpr ⟨?_, fun i hi => ?_⟩, hnodup⟩
  · cases hparent with
    | @node _ _ x hlate hx hphase hchildren hcs =>
        refine .node hlate ((object?_addChild w p child.object p).trans (congrArg _ hx)) hphase
          (by simp [hchildren]) fun c hc => ?_
        refine hkept ?_ fun o ho => hapart o (List.mem_append_left _ (mem_objectsOf.mpr ⟨c, hc, ho⟩))
        rcases List.mem_append.mp hc with hc | hc
        · exact hcs c hc
        · rwa [List.mem_singleton.mp hc]
  · refine hkept (h.stands i (List.mem_cons_of_mem _ (List.mem_cons_of_mem _ hi))) fun o ho => ?_
    exact hapart o (List.mem_append_right _ (mem_objectsOf.mpr ⟨i, hi, ho⟩))

end Bears

end World

namespace Template

/-! ## Building over a world -/

namespace Building

variable {α γ : Type} {w : World}

/-- What is built is laid over `w₀`, unless an earlier observer is called. -/
abbrev Spares (w₀ w : World) (m : Building α) : Prop :=
  Along (World.Spares w₀) w m fun _ _ => True

variable {T : World → World → Prop} [Trans T T T]

/-- Values that are computed one after another, each wherever the ones before have led. -/
theorem mapM_along (hreach : ∀ w w', T w w' → T w' w') {f : γ → Building α} (l : List γ) (h : T w w)
    (hf : ∀ c w₁, T w₁ w₁ → Along T w₁ (f c) fun _ _ => True) :
    Along T w (l.mapM f) fun _ _ => True := by
  induction l generalizing w with
  | nil => exact .pure h trivial
  | cons c l ih =>
      rw [List.mapM_cons]
      exact (hf c w h).bind fun a w₁ hin _ => (ih (hreach _ _ hin)).bind fun as w₂ hin' _ =>
        .pure (hreach _ _ hin') trivial

end Building

/-! ## Statements -/

section Statements

variable {w₀ w w' : World} {announce : Announce} {registry : Registry} {m : Machine}

/-- The machines have the same trees. -/
structure Machine.SameTrees (m m' : Machine) : Prop where
  stack : m'.stack = m.stack
  roots : m'.roots = m.roots

/-! Statements go along every relation that evaluations and changes of frames keep to, and that can go
on from wherever it has led. -/

section Along

variable {T : World → World → Prop} [Trans T T T] (hreach : ∀ w w', T w w' → T w' w')

section Frames

variable (hframe : ∀ w, T w w → ∀ run values, T w (w.setRun run values))

include hreach hframe

theorem write_step (h : T w w) (m : Machine) (slot : Nat) (v : Value) :
    Step.Along T w (m.write slot v) fun m' _ => m.SameTrees m' :=
  have hrun := hframe w h m.run (m.frame.set slot v).slots
  .modify_bind hrun (.pure (hreach _ _ hrun) ⟨rfl, rfl⟩)

theorem write_along (h : T w w) (m : Machine) (slot : Nat) (v : Value) :
    Building.Along T w (ExceptT.lift (m.write slot v)) fun m' _ => m.SameTrees m' :=
  .lift (write_step hreach hframe h m slot v)

theorem writeAll_along (h : T w w) (m : Machine) (slots : List (Nat × Value)) :
    Building.Along T w (ExceptT.lift (m.writeAll slots)) fun m' _ => m.SameTrees m' := by
  refine .lift ?_
  unfold Machine.writeAll
  induction slots generalizing w m with
  | nil => exact .pure h ⟨rfl, rfl⟩
  | cons p slots ih =>
      rw [List.foldlM_cons]
      exact (write_step hreach hframe h m p.1 p.2).bind fun m₁ w₁ hin hm₁ =>
        (ih (hreach _ _ hin) m₁).imp fun m₂ _ hm₂ =>
          ⟨hm₂.stack.trans hm₁.stack, hm₂.roots.trans hm₁.roots⟩

end Frames

variable (hvalue : ∀ w, T w w → ∀ (scope : LiveUI.Scope) (code : Code),
  Step.Along T w (code.value (applyFunc announce) scope) fun _ _ => True)

include hreach hvalue

theorem evalAt_along (h : T w w) (frame : Frame) (place : Location) (code : Code) :
    Building.Along T w (evalAt announce frame place code) fun _ _ => True := by
  refine (Building.Along.lift (hvalue w h _ code)).bind fun r w₁ hin _ => ?_
  cases r with
  | ok v => exact .pure (hreach _ _ hin) trivial
  | error e => exact .throw (hreach _ _ hin) _

theorem targetObject_along (h : T w w) (frame : Frame) (t : TargetCode) (place : Location) :
    Building.Along T w (targetObject announce frame t place) fun _ _ => True := by
  refine (evalAt_along hreach hvalue h frame place t.base).bind fun base w₁ hin _ => ?_
  have hdone := hreach _ _ hin
  simp only [pure_bind]
  split
  next =>
    split
    next o => exact .pure hdone trivial
    next => exact .throw hdone _
  next i items _ =>
    split
    next u _ =>
      split
      next o => exact .pure hdone trivial
      next => exact .throw hdone _
    next => exact .throw hdone _
  next => exact .throw hdone _

end Along

variable (ha : announce.Spares w₀)

include ha

omit ha

/-! ## Runs -/

/-- The open constructs and the finished roots of a machine stand in the world. -/
def Machine.Stands (w₀ w : World) (m : Machine) : Prop :=
  w₀.Undisturbed w → Bears w₀ w (m.stack.flatten ++ m.roots)

theorem Machine.Stands.keeps (hm : m.Stands w₀ w) (h : World.Spares w₀ w w') : m.Stands w₀ w' :=
  fun hun => (hm (hun.of_suffix h.journal)).keeps (h.overlays hun).retains.toKeepsTrees

end Statements

end Template

end LiveUI
