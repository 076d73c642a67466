import LiveUI.Proofs.Template.Standing
import LiveUI.Proofs.World.Removal
import Mathlib.Data.List.Perm.Subperm

/-! # Dropping a view

To drop a view destroys its trees, children first. Each object that is destroyed disconnects the
bindings that it owns, and so what a call has laid over the world goes with the view, but for bindings
that belong to other objects. -/

namespace LiveUI

open Template Template.Instance

theorem Template.Instance.length_objectsOf_le {is : List Instance} {i : Instance} (hi : i ∈ is) :
    (objectsOf [i]).length ≤ (objectsOf is).length := by
  obtain ⟨before, after, rfl⟩ := List.append_of_mem hi
  rw [objectsOf_append, objectsOf_cons i after, List.length_append, List.length_append]
  omega

namespace World

variable {w₀ w w' w'' : World} {gone gone' : List Handle}

/-! ## Objects that are destroyed -/

/-- Objects have been destroyed that came after `w₀`. Their bindings are without observers, and other
objects are what they were. -/
structure Razes (w₀ w w' : World) (gone : List Handle) : Prop where
  overlaid : Overlaid w₀ w'
  length : w'.objects.length = w.objects.length
  others : ∀ o, (∀ v ∈ gone, v.id ≠ o.id) →
    (w'.object? o).map Object.ties = (w.object? o).map Object.ties
  silent : ∀ b, w.entered b = [] → w'.entered b = []
  silenced : ∀ v ∈ gone, ∀ b ∈ w.owned v, w'.entered b = []

theorem length_disconnect (w : World) (b : Nat) :
    (w.disconnect b).objects.length = w.objects.length := by
  have hunobserve (stale : List Subscription) (w : World) :
      (stale.foldl unobserve w).objects.length = w.objects.length := by
    induction stale generalizing w with
    | nil => rfl
    | cons s stale ih => exact (ih _).trans (List.length_map _)
  unfold disconnect
  split
  · rfl
  · exact (hunobserve _ _).trans (hunobserve _ _)

/-- An object that came after `w₀` was not there, and had neither observers nor bindings. -/
theorem Regular.object?_eq_none (hw : Regular w₀) {o : Handle} (hlate : w₀.nextObject ≤ o.id) :
    w₀.object? o = none := by
  refine Option.not_isSome_iff_eq_none.mp fun halive => ?_
  exact absurd (lt_of_isAlive hw.objects halive) (Nat.not_lt.mpr hlate)

/-- An object that came after `w₀` may lose observers and bindings. -/
theorem Overlaid.shrink (h : Overlaid w₀ w) (hw : Regular w₀) {o : Handle}
    (hlate : w₀.nextObject ≤ o.id) {f : Object → Object} (hhandle : ∀ x, (f x).handle = x.handle)
    (hnext : ∀ x, (f x).nextObserver = x.nextObserver)
    (hobservers : ∀ x, (f x).observers ⊆ x.observers) (hbindings : ∀ x, (f x).bindings ⊆ x.bindings) :
    Overlaid w₀ (w.modifyObject o f) := by
  have hless {β : Type} (g : Object → List β) (hg : ∀ x, g (f x) ⊆ g x) (p : Handle) :
      (((w.modifyObject o f).object? p).map g).getD [] ⊆ ((w.object? p).map g).getD [] := by
    rw [object?_modifyObject w o p hhandle]
    split
    · cases w.object? p with
      | none => exact List.Subset.refl _
      | some x => exact hg x
    · exact List.Subset.refl _
  -- What an earlier object has is as before, and a later one has nothing that was there before.
  have hsplit {β : Type} (g : Object → List β) (hg : ∀ x, g (f x) ⊆ g x) {P : β → Prop} (p : Handle)
      (hlater : ∃ later, ((w.object? p).map g).getD [] = ((w₀.object? p).map g).getD [] ++ later ∧
        ∀ a ∈ later, P a) :
      ∃ later, (((w.modifyObject o f).object? p).map g).getD [] =
        ((w₀.object? p).map g).getD [] ++ later ∧ ∀ a ∈ later, P a := by
    obtain ⟨later, heq, hP⟩ := hlater
    by_cases hp : o.id = p.id
    · rw [hw.object?_eq_none (hp ▸ hlate)] at heq ⊢
      refine ⟨_, rfl, fun a ha => hP a ?_⟩
      have hmem := hless g hg p ha
      rwa [heq] at hmem
    · refine ⟨later, ?_, hP⟩
      rw [object?_modifyObject w o p hhandle, if_neg hp]
      exact heq
  refine ⟨h.journal, fun x hx => ?_, h.bindings, h.nextObject, h.nextBinding, ⟨fun p => ?_,
    fun p => hsplit (·.observers) hobservers p (h.layered.observers p), fun p obs hobs =>
    h.layered.heard p obs (hless (·.observers) hobservers p hobs), h.layered.issued⟩,
    fun p => hsplit (·.bindings) hbindings p (h.owned p), h.functions⟩
  · obtain ⟨y, hy, rfl⟩ := List.mem_map.mp hx
    split
    · rw [hhandle]
      exact h.objects y hy
    · exact h.objects y hy
  · rw [nextObserver_modifyObject w o p hhandle hnext]
    exact h.layered.nextObserver p

namespace Razes

theorem nil (h : Overlaid w₀ w) : Razes w₀ w w [] :=
  ⟨h, rfl, fun _ _ => rfl, fun _ => id, nofun⟩

/-- Others may be destroyed after it. -/
theorem append (h : Razes w₀ w w' gone) (h' : Razes w₀ w' w'' gone')
    (hapart : ∀ v ∈ gone', ∀ u ∈ gone, u.id ≠ v.id) : Razes w₀ w w'' (gone ++ gone') := by
  refine ⟨h'.overlaid, h'.length.trans h.length, fun o ho => ?_, fun b hb => h'.silent b (h.silent b hb),
    fun v hv b hb => ?_⟩
  · exact (h'.others o fun v hv => ho v (List.mem_append_right _ hv)).trans
      (h.others o fun v hv => ho v (List.mem_append_left _ hv))
  · rcases List.mem_append.mp hv with hv | hv
    · exact h'.silent b (h.silenced v hv b hb)
    · refine h'.silenced v hv b ?_
      rwa [owned_eq_ties, h.others v (hapart v hv), ← owned_eq_ties]

end Razes

namespace Overlaid

/-- An object that came after `w₀` owns later bindings that write into it. -/
theorem owned_late (h : Overlaid w₀ w) (hw : Regular w₀) {o : Handle} (hlate : w₀.nextObject ≤ o.id)
    {b : Nat} (hb : b ∈ w.owned o) :
    w₀.nextBinding ≤ b ∧ ∃ x, w.binding? b = some x ∧ x.target.id = o.id := by
  obtain ⟨later, heq, hlater⟩ := h.owned o
  have hnone : w₀.owned o = [] := by
    rw [World.owned, hw.object?_eq_none hlate]
    rfl
  rw [heq, hnone] at hb
  exact hlater b hb

/-- The bindings of an object are disconnected one after another. -/
theorem disconnectAll (h : Overlaid w₀ w) (hw : Regular w₀) {bs : List Nat}
    (hlate : ∀ b ∈ bs, w₀.nextBinding ≤ b) :
    Razes w₀ w (bs.foldl World.disconnect w) [] ∧
      ∀ b ∈ bs, (bs.foldl World.disconnect w).entered b = [] := by
  induction bs generalizing w with
  | nil => exact ⟨.nil h, nofun⟩
  | cons b bs ih =>
      obtain ⟨hgone, hempty, hothers⟩ := h.disconnect hw (hlate b List.mem_cons_self)
      obtain ⟨hrest, hsilenced⟩ := ih hgone.overlaid fun c hc => hlate c (List.mem_cons_of_mem b hc)
      have hfirst : Razes w₀ w (w.disconnect b) [] := by
        refine ⟨hgone.overlaid, length_disconnect w b, fun o _ => map_ties_disconnect w b o,
          fun c hc => ?_, nofun⟩
        by_cases hcb : c = b
        · rw [hcb, hempty]
        · rw [hothers c hcb, hc]
      refine ⟨hfirst.append hrest nofun, List.forall_mem_cons.mpr ⟨?_, hsilenced⟩⟩
      exact hrest.silent b hempty

/-- Bindings are let go of by their owner. -/
theorem disownAll (h : Overlaid w₀ w) (bs : List Nat) :
    Razes w₀ w (bs.foldl (fun w b => w.modifyBinding b fun x => { x with owned := false }) w) [] := by
  induction bs generalizing w with
  | nil => exact .nil h
  | cons b bs ih =>
      have hset : Overlaid w₀ (w.modifyBinding b fun x => { x with owned := false }) :=
        h.modifyBinding b (fun _ => rfl) (fun _ => rfl) fun _ => rfl
      have hfirst : Razes w₀ w (w.modifyBinding b fun x => { x with owned := false }) [] := by
        refine ⟨hset, rfl, fun _ _ => rfl, fun c hc => ?_, nofun⟩
        rw [entered_modifyBinding w b c (f := fun x => { x with owned := false }) fun _ => rfl]
        split
        · exact hc
        · exact hc
      exact hfirst.append (ih hset) nofun

/-- An object that came after `w₀` is cut off. -/
theorem dismantle (h : Overlaid w₀ w) (hw : Regular w₀) {o : Handle}
    (hlate : w₀.nextObject ≤ o.id) : Razes w₀ w (w.dismantle o) [o] := by
  have hemptied : Overlaid w₀ (w.modifyObject o fun x => { x with bindings := [] }) :=
    h.shrink hw hlate (fun _ => rfl) (fun _ => rfl) (fun _ => List.Subset.refl _)
      fun _ => List.nil_subset _
  obtain ⟨hdisconnected, hempty⟩ := hemptied.disconnectAll hw fun b hb => (h.owned_late hw hlate hb).1
  have hdisowned := hdisconnected.overlaid.disownAll (w.owned o)
  have hcut := hdisowned.overlaid.shrink hw hlate
    (f := fun x => { x with observers := [], parent := none }) (fun _ => rfl) (fun _ => rfl)
    (fun _ => List.nil_subset _) fun _ => List.Subset.refl _
  refine ⟨(hcut.log _).overlaid, ?_, fun p hp => ?_, fun b hb => ?_, ?_⟩
  · exact (List.length_map _).trans (hdisowned.length.trans (hdisconnected.length.trans
      (List.length_map _)))
  · have hne : o.id ≠ p.id := hp o List.mem_cons_self
    refine (congrArg (Option.map Object.ties) ((object?_modifyObject _ o p (f := fun x =>
      { x with observers := [], parent := none }) fun _ => rfl).trans (if_neg hne))).trans ?_
    refine (hdisowned.others p nofun).trans ((hdisconnected.others p nofun).trans ?_)
    rw [object?_modifyObject w o p (f := fun x => { x with bindings := [] }) fun _ => rfl, if_neg hne]
  · exact hdisowned.silent b (hdisconnected.silent b hb)
  · exact List.forall_mem_singleton.mpr fun b hb => hdisowned.silent b (hempty b hb)

end Overlaid

/-! ## Trees that are destroyed -/

/-- Whatever is not destroyed stands as before. -/
theorem Bears.others {is : List Instance} (h : Bears w₀ w is) (hrazes : Razes w₀ w w' gone)
    (hapart : ∀ v ∈ objectsOf is, ∀ u ∈ gone, u.id ≠ v.id) : Bears w₀ w' is := by
  refine ⟨fun i hi => (h.stands i hi).congr fun o ho x hx => ?_, h.nodup⟩
  have hties := hrazes.others o (hapart o (mem_objectsOf.mpr ⟨i, hi, ho⟩))
  rw [hx] at hties
  obtain ⟨y, hy, hsame⟩ := Option.map_eq_some_iff.mp hties
  obtain ⟨hphase, hchildren, -⟩ := by simpa [Object.ties] using hsame
  exact ⟨y, hy, hchildren, fun hne => hphase ▸ hne⟩

theorem Bears.head {i : Instance} {is : List Instance} (h : Bears w₀ w (i :: is)) : Bears w₀ w [i] := by
  have hnodup := h.nodup
  rw [objectsOf_cons, List.map_append] at hnodup
  exact ⟨fun j hj => h.stands j (List.mem_singleton.mp hj ▸ List.mem_cons_self), hnodup.of_append_left⟩

theorem Bears.apart {i : Instance} {is : List Instance} (h : Bears w₀ w (i :: is)) :
    ∀ v ∈ objectsOf is, ∀ u ∈ objectsOf [i], u.id ≠ v.id := by
  have hnodup := h.nodup
  rw [objectsOf_cons, List.map_append] at hnodup
  intro v hv u hu heq
  exact List.disjoint_of_nodup_append hnodup (List.mem_map_of_mem hu)
    (heq ▸ List.mem_map_of_mem hv)

/-- Trees are destroyed one after another. -/
theorem Razes.foldl {f : World → Handle → World} {is : List Instance}
    (hf : ∀ i ∈ is, ∀ w, Overlaid w₀ w → Bears w₀ w [i] → Razes w₀ w (f w i.object) (objectsOf [i]))
    (h : Overlaid w₀ w) (hbears : Bears w₀ w is) :
    Razes w₀ w ((is.map (·.object)).foldl f w) (objectsOf is) := by
  induction is generalizing w with
  | nil => exact .nil h
  | cons i is ih =>
      have hfirst := hf i List.mem_cons_self w h hbears.head
      have hrest := (Bears.right [i] hbears).others hfirst hbears.apart
      rw [objectsOf_cons]
      exact hfirst.append (ih (fun j hj => hf j (List.mem_cons_of_mem i hj)) hfirst.overlaid hrest)
        hbears.apart

/-- A tree is destroyed as a whole, if its objects are no more than may be entered. -/
theorem Overlaid.destroyTo (hw : Regular w₀) {depth : Nat} {i : Instance} (h : Overlaid w₀ w)
    (hbears : Bears w₀ w [i]) (hdepth : (objectsOf [i]).length ≤ depth) :
    Razes w₀ w (w.destroyTo depth i.object) (objectsOf [i]) := by
  induction depth generalizing w i with
  | zero =>
      have hmem := List.length_pos_of_mem (object_mem_objectsOf i)
      omega
  | succ depth ih =>
      have hnodup := hbears.nodup
      cases hbears.stands i List.mem_cons_self with
      | @node o cs x hlate hx hphase hchildren hcs =>
          rw [objectsOf_node] at hnodup hdepth ⊢
          have hapart : ∀ v ∈ objectsOf cs, ¬o.id = v.id := fun v hv heq =>
            (List.nodup_cons.mp hnodup).1 (List.mem_map.mpr ⟨v, hv, heq.symm⟩)
          -- The object is marked first, then its children are destroyed, and then it is cut off.
          have hmark : Overlaid w₀
              (w.modifyObject o fun x => { x with phase := .destroyed, children := [] }) :=
            h.modifyObject o (fun _ => rfl) (fun _ => rfl) (fun _ => rfl) fun _ => rfl
          have hobject (p : Handle) (hp : ¬o.id = p.id) : (w.modifyObject o fun x =>
              { x with phase := .destroyed, children := [] }).object? p = w.object? p := by
            rw [object?_modifyObject w o p (f := fun x =>
              { x with phase := .destroyed, children := [] }) fun _ => rfl, if_neg hp]
          have howned (p : Handle) := w.owned_modifyObject o p
            (f := fun x => { x with phase := .destroyed, children := [] }) (fun _ => rfl) fun _ => rfl
          have hbelow : Bears w₀
              (w.modifyObject o fun x => { x with phase := .destroyed, children := [] }) cs := by
            refine ⟨fun c hc => (hcs c hc).congr fun p hp y hy => ⟨y, ?_, rfl, id⟩,
              (List.nodup_cons.mp hnodup).2⟩
            rw [hobject p (hapart p (mem_objectsOf.mpr ⟨c, hc, hp⟩)), hy]
          have hchildrenGone := Razes.foldl (f := World.destroyTo depth) (fun c hc v hv hb => ih hv hb
            (Nat.le_trans (length_objectsOf_le hc) (Nat.le_of_succ_le_succ hdepth))) hmark hbelow
          have hgone := hchildrenGone.overlaid.dismantle hw hlate
          unfold World.destroyTo
          simp only [hx, hphase, if_false, hchildren]
          refine ⟨hgone.overlaid, hgone.length.trans (hchildrenGone.length.trans (List.length_map _)),
            fun p hp => ?_, fun b hb => hgone.silent b (hchildrenGone.silent b hb),
            List.forall_mem_cons.mpr ⟨fun b hb => hgone.silenced o List.mem_cons_self b ?_,
              fun v hv b hb => hgone.silent b (hchildrenGone.silenced v hv b ?_)⟩⟩
          · rw [hgone.others p fun v hv => hp v (List.mem_singleton.mp hv ▸ List.mem_cons_self),
              hchildrenGone.others p fun v hv => hp v (List.mem_cons_of_mem o hv),
              hobject p (hp o List.mem_cons_self)]
          · rwa [owned_eq_ties, hchildrenGone.others o fun v hv heq => hapart v hv heq.symm,
              ← owned_eq_ties, howned]
          · rwa [howned]

/-- No world has fewer objects than the trees that stand in it. -/
theorem Bears.length_le {is : List Instance} (h : Bears w₀ w is) :
    (objectsOf is).length ≤ w.objects.length := by
  have hsubset : (objectsOf is).map (·.id) ⊆ w.objects.map (·.handle.id) := by
    intro n hn
    obtain ⟨o, ho, rfl⟩ := List.mem_map.mp hn
    obtain ⟨i, hi, ho⟩ := mem_objectsOf.mp ho
    obtain ⟨x, hx⟩ := Option.isSome_iff_exists.mp ((h.stands i hi).mem ho).2
    exact List.mem_map.mpr ⟨x, List.mem_of_find?_eq_some hx, handle_of_object? hx⟩
  have hle := (List.Nodup.subperm h.nodup hsubset).length_le
  simpa using hle

end World

/-! ## What is left behind -/

namespace World

variable {w₀ w₁ w₂ : World} {gone : List Handle}

/-- The bindings that have been made since `w₀` and that none of the objects owns. -/
def strays (w₀ w : World) (objects : List Handle) : List Binding :=
  w.bindings.filter fun x => decide (w₀.nextBinding ≤ x.id ∧ ∀ v ∈ objects, x.id ∉ w.owned v)

theorem mem_strays {objects : List Handle} {b : Nat} {x : Binding} (hx : w₁.binding? b = some x)
    (hb : w₀.nextBinding ≤ b) (hobjects : ∀ v ∈ objects, b ∉ w₁.owned v) :
    x ∈ w₀.strays w₁ objects := by
  obtain rfl := w₁.id_of_binding? hx
  exact List.mem_filter.mpr ⟨w₁.mem_of_binding? hx, decide_eq_true ⟨hb, hobjects⟩⟩

/-- Further observers that are still there serve bindings that were not disconnected. -/
theorem Razes.observers (h : Razes w₀ w₁ w₂ gone) (o : Handle) :
    ∃ obs, w₂.observers o = w₀.observers o ++ obs ∧
      ∀ x ∈ obs, ∃ y ∈ w₀.strays w₁ gone, x.callback.binding? = some y.id := by
  obtain ⟨obs, heq, hlater⟩ := h.overlaid.layered.observers o
  refine ⟨obs, heq, fun x hx => ?_⟩
  obtain ⟨-, b, hcall, hlate⟩ := hlater x hx
  obtain ⟨s, hs, -⟩ := h.overlaid.layered.heard o x (heq ▸ List.mem_append_right _ hx) b hcall hlate
  -- The binding still holds on to an observer, which one that was disconnected does not.
  have hkept : ¬w₂.entered b = [] := List.ne_nil_of_mem hs
  cases hy : w₁.binding? b with
  | none =>
      refine absurd (h.silent b ?_) hkept
      simp [entered, hy]
  | some y =>
      refine ⟨y, mem_strays hy hlate fun v hv hb => hkept (h.silenced v hv b hb), ?_⟩
      rw [hcall, w₁.id_of_binding? hy]

/-- What an object owns in addition writes into it, and so none of the others owned it. -/
theorem Razes.owned (hw : Regular w₀) (hover : Overlaid w₀ w₁) (h : Razes w₀ w₁ w₂ gone)
    (hgone : ∀ v ∈ gone, w₀.nextObject ≤ v.id) {o : Handle} (halive : w₀.isAlive o = true) :
    ∃ bs, w₂.owned o = w₀.owned o ++ bs ∧ ∀ b ∈ bs, ∃ y ∈ w₀.strays w₁ gone, y.id = b := by
  have hapart : ∀ v ∈ gone, v.id ≠ o.id := fun v hv heq =>
    absurd (lt_of_isAlive hw.objects halive) (Nat.not_lt.mpr (heq ▸ hgone v hv))
  obtain ⟨bs, heq, hlater⟩ := hover.owned o
  refine ⟨bs, ?_, fun b hb => ?_⟩
  · rw [owned_eq_ties, h.others o hapart, ← owned_eq_ties, heq]
  · obtain ⟨hlate, x, hx, htarget⟩ := hlater b hb
    refine ⟨x, mem_strays hx hlate fun v hv hmem => ?_, w₁.id_of_binding? hx⟩
    -- A binding writes into one object only.
    obtain ⟨-, y, hy, htarget'⟩ := hover.owned_late hw (hgone v hv) hmem
    obtain rfl := Option.some.inj (hx.symm.trans hy)
    exact hapart v hv (htarget'.symm.trans htarget)

end World

namespace Template

open World

variable {w₀ w₁ : World}

section Labels

def labels : Registry where
  name := "labels"
  factories := [("Label", .component {})]

def note : Handle := ⟨2, "Note"⟩

/-- A function of the host that observes the model. -/
def watch : Value := .func ⟨0, "watch", .host⟩

end Labels

end Template

end LiveUI
