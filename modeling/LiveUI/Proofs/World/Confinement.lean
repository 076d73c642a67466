import Mathlib.Data.List.Nodup
import LiveUI.Proofs.World.Keeping

/-! # Worlds in which only bindings observe

Where bindings are the only observers, and the functions of the host add none of their own, it stays
so during propagation. The bindings remain the ones that they were, at work or at rest as before,
and the journal tells how deep announcements have nested in the meantime. -/

namespace LiveUI

/-! ## Announcements in a journal -/

def Entry.begins : Entry → Bool
  | .began _ => true
  | _ => false

def Entry.ends : Entry → Bool
  | .ended _ => true
  | _ => false

/-- All announcements that begin in this part of a journal end in it, and at no moment are more than
`depth` of them in progress. The latest entry is the first. -/
structure Nested (depth : Nat) (recent : List Entry) : Prop where
  within : ∀ moment, moment <:+ recent →
    moment.countP Entry.begins ≤ moment.countP Entry.ends + depth
  settled : recent.countP Entry.begins = recent.countP Entry.ends

theorem suffix_append_cases {α : Type} {moment later earlier : List α}
    (h : moment <:+ later ++ earlier) :
    moment <:+ earlier ∨ ∃ part, part <:+ later ∧ moment = part ++ earlier := by
  induction later with
  | nil => exact .inl h
  | cons e later ih =>
      rcases List.suffix_cons_iff.mp h with rfl | h
      · exact .inr ⟨e :: later, List.suffix_refl _, rfl⟩
      · rcases ih h with h | ⟨part, hpart, rfl⟩
        · exact .inl h
        · exact .inr ⟨part, hpart.trans (List.suffix_cons e later), rfl⟩

namespace Nested

variable {depth : Nat} {recent later : List Entry}

theorem nil (depth : Nat) : Nested depth [] := by
  refine ⟨fun moment h => ?_, rfl⟩
  rw [List.suffix_nil.mp h]
  exact Nat.zero_le _

theorem mono {depth' : Nat} (h : Nested depth recent) (hle : depth ≤ depth') :
    Nested depth' recent :=
  ⟨fun moment hmoment => Nat.le_trans (h.within moment hmoment) (Nat.add_le_add_left hle _),
    h.settled⟩

theorem append (hlater : Nested depth later) (h : Nested depth recent) :
    Nested depth (later ++ recent) := by
  refine ⟨fun moment hmoment => ?_, ?_⟩
  · rcases suffix_append_cases hmoment with hmoment | ⟨part, hpart, rfl⟩
    · exact h.within moment hmoment
    · have hwithin := hlater.within part hpart
      have hsettled := h.settled
      simp only [List.countP_append]
      omega
  · simp only [List.countP_append, hlater.settled, h.settled]

theorem of_plain (depth : Nat) {e : Entry} (hbegins : e.begins = false) (hends : e.ends = false) :
    Nested depth [e] := by
  refine ⟨fun moment h => ?_, by simp [hbegins, hends]⟩
  rcases List.suffix_cons_iff.mp h with rfl | h
  · simp [hbegins, hends]
  · exact (nil depth).within moment h

/-- An announcement is one level above all that happens inside it. -/
theorem flight (h : Nested depth recent) (c : Change) :
    Nested (depth + 1) (.ended c :: (recent ++ [.began c])) := by
  have hbegan : [Entry.began c].countP Entry.begins = 1 ∧ [Entry.began c].countP Entry.ends = 0 :=
    ⟨rfl, rfl⟩
  have hended : (Entry.ended c).begins = false ∧ (Entry.ended c).ends = true := ⟨rfl, rfl⟩
  have hsettled := h.settled
  refine ⟨fun moment hmoment => ?_, ?_⟩
  · rcases List.suffix_cons_iff.mp hmoment with rfl | hmoment
    · simp only [List.countP_cons, List.countP_append, hbegan, hended]
      simp
      omega
    · rcases suffix_append_cases hmoment with hmoment | ⟨part, hpart, rfl⟩
      · rcases List.suffix_cons_iff.mp hmoment with rfl | hmoment
        · rw [hbegan.1]
          omega
        · rw [List.suffix_nil.mp hmoment]
          exact Nat.zero_le _
      · have hwithin := h.within part hpart
        simp only [List.countP_append, hbegan]
        omega
  · simp only [List.countP_cons, List.countP_append, hbegan, hended]
    simp
    omega

end Nested

/-! ## Who observes -/

/-- The binding that a callback belongs to. -/
def Callback.binding? : Callback → Option Nat
  | source b | target b => some b
  | host _ => none

/-- Whatever the answers, the routine and the functions that it makes register no observers. -/
def Host.ObservesNothing : Host → Prop
  | done _ => True
  | read _ _ next => ∀ v, (next v).ObservesNothing
  | write _ _ _ next => ∀ changed, (next changed).ObservesNothing
  | emit _ _ _ next => next.ObservesNothing
  | observe _ _ _ _ => False
  | unobserve _ next => next.ObservesNothing
  | inFlight _ _ next => ∀ found, (next found).ObservesNothing
  | phase _ next => ∀ p, (next p).ObservesNothing
  | create _ _ next => ∀ o, (next o).ObservesNothing
  | function _ body next =>
      (∀ calls args, (body calls args).ObservesNothing) ∧ ∀ f, (next f).ObservesNothing
  | builtin _ next => ∀ f, (next f).ObservesNothing
  | destroy _ next => next.ObservesNothing
  | disconnect _ next => next.ObservesNothing
  | report _ next => next.ObservesNothing
  | «recall» next => ∀ m, (next m).ObservesNothing
  | remember _ next => next.ObservesNothing

namespace World

/-- The bindings `live` are the only observers, and no function of the host adds another. -/
structure ServesOnly (live : Nat → Bool) (w : World) : Prop where
  distinct : (w.bindings.map (·.id)).Nodup
  served : ∀ x ∈ w.objects, ∀ obs ∈ x.observers, ∃ b, obs.callback.binding? = some b ∧ live b = true
  functions : ∀ f ∈ w.functions, ∀ calls args, (f.body calls args).ObservesNothing

/-- How many of the bindings there are. -/
def countOf (w : World) (live : Nat → Bool) : Nat :=
  w.bindings.countP fun x => live x.id

/-- How many of the bindings are not at work. -/
def idleOf (w : World) (live : Nat → Bool) : Nat :=
  w.bindings.countP fun x => live x.id && !x.busy

/-- Which bindings there are, and whether they are at work. -/
def marks (w : World) : List (Nat × Bool) :=
  w.bindings.map fun x => (x.id, x.busy)

/-- The world after some propagation in which announcements nested at most `depth` deep. -/
structure Passes (live : Nat → Bool) (depth : Nat) (w w' : World) : Prop where
  serves : w'.ServesOnly live
  marks : w'.marks = w.marks
  journal : ∃ recent, w'.journal = recent ++ w.journal ∧ Nested depth recent

variable {live : Nat → Bool} {w w' w'' : World}

theorem idleOf_le_countOf (w : World) (live : Nat → Bool) : w.idleOf live ≤ w.countOf live :=
  List.countP_mono_left fun _ _ h => (Bool.and_eq_true_iff.mp h).1

theorem idleOf_eq_marks (w : World) (live : Nat → Bool) :
    w.idleOf live = w.marks.countP fun m => live m.1 && !m.2 := by
  simp only [idleOf, marks, List.countP_map]
  rfl

theorem ServesOnly.of_mem_observers (h : w.ServesOnly live) {o : Handle} {obs : Observer}
    (hobs : obs ∈ w.observers o) : ∃ b, obs.callback.binding? = some b ∧ live b = true := by
  unfold observers at hobs
  cases hx : w.object? o with
  | none => simp [hx] at hobs
  | some x =>
      rw [hx] at hobs
      exact h.served x (List.mem_of_find?_eq_some hx) obs hobs

theorem ServesOnly.beginFlight (h : w.ServesOnly live) (c : Change) :
    (w.beginFlight c).ServesOnly live := by
  refine ⟨h.distinct, fun x hx obs hobs => ?_, h.functions⟩
  obtain ⟨y, hy, rfl⟩ := List.mem_map.mp hx
  refine h.served y hy obs ?_
  split at hobs <;> exact hobs

theorem ServesOnly.setBusy (h : w.ServesOnly live) (b : Nat) (busy : Bool) :
    (w.setBusy b busy).ServesOnly live := by
  have hids : (w.setBusy b busy).bindings.map (·.id) = w.bindings.map (·.id) :=
    w.ids_modifyBinding b fun _ => rfl
  exact ⟨hids ▸ h.distinct, h.served, h.functions⟩

theorem ids_eq_marks (w : World) : w.bindings.map (·.id) = w.marks.map (·.1) := by
  simp [marks]

/-- A binding that goes to work is idle no longer. -/
theorem idleOf_setBusy_lt {b : Nat} {x : Binding} (hx : w.binding? b = some x)
    (hlive : live b = true) (hidle : x.busy = false) :
    (w.setBusy b true).idleOf live < w.idleOf live := by
  have hid := w.id_of_binding? hx
  simp only [idleOf, setBusy, modifyBinding, List.countP_map]
  refine countP_lt (fun y _ => ?_) (w.mem_of_binding? hx) ?_ ?_
  · by_cases hy : y.id = b <;> simp [hy]
  · simp [hid, hlive, hidle]
  · simp [hid]

namespace Passes

variable {depth : Nat}

theorem refl (h : w.ServesOnly live) : Passes live depth w w :=
  ⟨h, rfl, [], rfl, .nil _⟩

theorem trans (h : Passes live depth w w') (h' : Passes live depth w' w'') :
    Passes live depth w w'' := by
  obtain ⟨recent, hrecent, hnested⟩ := h.journal
  obtain ⟨later, hlater, hnested'⟩ := h'.journal
  refine ⟨h'.serves, h'.marks.trans h.marks, later ++ recent, ?_, hnested'.append hnested⟩
  rw [hlater, hrecent, List.append_assoc]

theorem mono {depth' : Nat} (h : Passes live depth w w') (hle : depth ≤ depth') :
    Passes live depth' w w' := by
  obtain ⟨recent, hrecent, hnested⟩ := h.journal
  exact ⟨h.serves, h.marks, recent, hrecent, hnested.mono hle⟩

theorem idleOf (h : Passes live depth w w') : w'.idleOf live = w.idleOf live := by
  rw [idleOf_eq_marks, idleOf_eq_marks, h.marks]

/-- What goes on between the beginning and the end of an announcement is nested in it. -/
theorem flight {c : Change} (h : Passes live depth (w.beginFlight c) w') :
    Passes live (depth + 1) w (w'.endFlight c) := by
  obtain ⟨recent, hrecent, hnested⟩ := h.journal
  refine ⟨⟨h.serves.distinct, fun x hx obs hobs => ?_, h.serves.functions⟩, h.marks, ?_⟩
  · obtain ⟨y, hy, rfl⟩ := List.mem_map.mp hx
    refine h.serves.served y hy obs ?_
    split at hobs <;> exact hobs
  · refine ⟨.ended c :: (recent ++ [.began c]), ?_, hnested.flight c⟩
    change .ended c :: w'.journal = _
    rw [hrecent]
    simp [beginFlight, log, modifyObject]

/-- A binding that was idle is so again when its work is done. -/
theorem work {b : Nat} {x : Binding} (hw : w.ServesOnly live) (hx : w.binding? b = some x)
    (hidle : x.busy = false) (h : Passes live depth (w.setBusy b true) w') :
    Passes live depth w (w'.setBusy b false) := by
  have hset (v : World) (busy : Bool) : (v.setBusy b busy).marks =
      v.marks.map fun m => if m.1 == b then (m.1, busy) else m := by
    simp only [World.marks, setBusy, modifyBinding, List.map_map]
    refine List.map_congr_left fun y _ => ?_
    by_cases hy : y.id = b <;> simp [hy]
  have hmarks : (w'.setBusy b false).marks = w.marks := by
    rw [hset, h.marks, hset, List.map_map]
    conv_rhs => rw [← List.map_id w.marks]
    refine List.map_congr_left fun m hm => ?_
    -- no two bindings have the same number, so the mark of this one is that of `x`
    obtain ⟨y, hy, rfl⟩ := List.mem_map.mp hm
    by_cases hyb : y.id = b
    · obtain rfl := List.inj_on_of_nodup_map hw.distinct hy (w.mem_of_binding? hx)
        (hyb.trans (w.id_of_binding? hx).symm)
      simp [hyb, hidle]
    · simp [hyb]
  refine ⟨⟨?_, h.serves.served, h.serves.functions⟩, hmarks, h.journal⟩
  rw [ids_eq_marks, hmarks, ← ids_eq_marks]
  exact hw.distinct

end Passes

/-! ## Operations that announce nothing -/

/-- Done to a world where only the bindings `live` observe, the operation leaves it such a world. -/
def Gentle (live : Nat → Bool) (f : World → World) : Prop :=
  ∀ w : World, w.ServesOnly live → Passes live 0 w (f w)

namespace Gentle

theorem comp {f g : World → World} (hg : Gentle live g) (hf : Gentle live f) :
    Gentle live fun w => g (f w) :=
  fun w h => (hf w h).trans (hg _ (hf w h).serves)

theorem foldl {α : Type} {f : World → α → World} (hf : ∀ a, Gentle live (f · a)) (l : List α) :
    Gentle live fun w => l.foldl f w := by
  intro w h
  induction l generalizing w with
  | nil => exact .refl h
  | cons a l ih => exact (hf a w h).trans (ih _ (hf a w h).serves)

theorem log {e : Entry} (hbegins : e.begins = false) (hends : e.ends = false) :
    Gentle live (·.log e) :=
  fun _ h => ⟨⟨h.distinct, h.served, h.functions⟩, rfl, [e], rfl, .of_plain 0 hbegins hends⟩

theorem notice (n : Notice) : Gentle live (·.notice n) :=
  log rfl rfl

theorem modifyObject (o : Handle) {f : Object → Object}
    (hf : ∀ x, ∀ obs ∈ (f x).observers, obs ∈ x.observers ∨
      ∃ b, obs.callback.binding? = some b ∧ live b = true) :
    Gentle live (·.modifyObject o f) := by
  refine fun w h => ⟨⟨h.distinct, fun x hx obs hobs => ?_, h.functions⟩, rfl, [], rfl, .nil 0⟩
  obtain ⟨y, hy, rfl⟩ := List.mem_map.mp hx
  split at hobs
  · rcases hf y obs hobs with hold | hnew
    · exact h.served y hy obs hold
    · exact hnew
  · exact h.served y hy obs hobs

theorem write (o : Handle) (attr : String) (v : Value) : Gentle live (·.write o attr v) :=
  (log rfl rfl).comp (modifyObject o fun _ _ => .inl)

theorem observe (o : Handle) (attr : String) {callback : Callback} {b : Nat}
    (hcall : callback.binding? = some b) (hlive : live b = true) :
    Gentle live fun w => (w.observe o attr callback).2 := by
  refine fun w h => (modifyObject o (fun x obs hobs => ?_) : Gentle live _) w h
  rcases List.mem_append.mp hobs with hold | hnew
  · exact .inl hold
  · obtain rfl := List.mem_singleton.mp hnew
    exact .inr ⟨b, hcall, hlive⟩

theorem unobserve (s : Subscription) : Gentle live (·.unobserve s) :=
  modifyObject s.object fun _ _ hobs => .inl (List.mem_of_mem_filter hobs)

theorem modifyBinding (b : Nat) {f : Binding → Binding} (hid : ∀ x, (f x).id = x.id)
    (hbusy : ∀ x, (f x).busy = x.busy) : Gentle live (·.modifyBinding b f) := by
  intro w h
  refine ⟨⟨?_, h.served, h.functions⟩, ?_, [], rfl, .nil 0⟩
  · rw [w.ids_modifyBinding b hid]
    exact h.distinct
  · simp only [World.marks, World.modifyBinding, List.map_map]
    refine List.map_congr_left fun x _ => ?_
    by_cases hb : x.id = b <;> simp [hb, hid, hbusy]

theorem disconnect (b : Nat) : Gentle live (·.disconnect b) := by
  intro w h
  change Passes live 0 w (w.disconnect b)
  unfold World.disconnect
  cases w.binding? b with
  | none => exact .refl h
  | some x =>
      have hcleared : Gentle live
          (·.modifyBinding b fun x => { x with sources := [], targetListener := none }) :=
        modifyBinding b (fun _ => rfl) (fun _ => rfl)
      have hsources := (foldl unobserve x.sources : Gentle live _) w h
      have htarget := (foldl unobserve x.targetListener.toList : Gentle live _) _ hsources.serves
      exact (hsources.trans htarget).trans (hcleared _ htarget.serves)

theorem release (b : Nat) : Gentle live (·.release b) := by
  intro w h
  change Passes live 0 w (w.release b)
  obtain heq | heq := w.release_cases b
  · rw [heq]
    exact .refl h
  · rw [heq]
    exact disconnect b w h

theorem dismantle (o : Handle) : Gentle live (·.dismantle o) := by
  intro w h
  have hunowned : Gentle live (·.modifyObject o fun x => { x with bindings := [] }) :=
    modifyObject o fun _ _ => .inl
  have hcut : Gentle live (·.modifyObject o fun x => { x with observers := [], parent := none }) :=
    modifyObject o fun _ obs hobs => absurd hobs List.not_mem_nil
  have hdisowned : ∀ b, Gentle live (·.modifyBinding b fun x => { x with owned := false }) :=
    fun b => modifyBinding b (fun _ => rfl) (fun _ => rfl)
  exact ((notice (.destroyed o)).comp (hcut.comp ((foldl hdisowned _).comp
    ((foldl disconnect _).comp hunowned)))) w h

theorem destroyTo (depth : Nat) (o : Handle) : Gentle live (World.destroyTo depth · o) := by
  induction depth generalizing o with
  | zero => exact fun w h => .refl h
  | succ depth ih =>
      intro w h
      change Passes live 0 w (w.destroyTo (depth + 1) o)
      unfold World.destroyTo
      cases w.object? o with
      | none => exact .refl h
      | some x =>
          dsimp only
          split
          · exact .refl h
          · have hmarked : Gentle live
                (·.modifyObject o fun x => { x with phase := .destroyed, children := [] }) :=
              modifyObject o fun _ _ => .inl
            exact ((dismantle o).comp ((foldl ih x.children).comp hmarked)) w h

theorem destroy (o : Handle) : Gentle live (·.destroy o) :=
  fun w h => destroyTo w.objects.length o w h

theorem create (typeName : String) (attrs : List (String × Value)) :
    Gentle live fun w => (w.create typeName attrs).2 := by
  refine fun w h => ⟨⟨h.distinct, fun x hx obs hobs => ?_, h.functions⟩, rfl, [], rfl, .nil 0⟩
  rcases List.mem_append.mp hx with hold | hnew
  · exact h.served x hold obs hobs
  · rw [List.mem_singleton.mp hnew] at hobs
    exact absurd hobs List.not_mem_nil

theorem addFunction (name : String) {body : Nat → List Value → Host}
    (hbody : ∀ calls args, (body calls args).ObservesNothing) :
    Gentle live fun w => (w.addFunction name body).2 := by
  refine fun w h => ⟨⟨h.distinct, h.served, fun f hf => ?_⟩, rfl, [], rfl, .nil 0⟩
  rcases List.mem_append.mp hf with hold | hnew
  · exact h.functions f hold
  · rw [List.mem_singleton.mp hnew]
    exact hbody

theorem addBuiltin (b : Builtin) : Gentle live fun w => (w.addBuiltin b).2 :=
  fun _ h => ⟨⟨h.distinct, h.served, h.functions⟩, rfl, [], rfl, .nil 0⟩

theorem remember (m : Memory) : Gentle live fun w => { w with memory := m } :=
  fun _ h => ⟨⟨h.distinct, h.served, h.functions⟩, rfl, [], rfl, .nil 0⟩

end Gentle

theorem enterFunction?_passes (h : w.ServesOnly live) {f : Func} {args : List Value}
    {routine : Host} (henter : w.enterFunction? f args = some (routine, w')) :
    routine.ObservesNothing ∧ Passes live 0 w w' := by
  obtain ⟨x, hx, heq⟩ := Option.map_eq_some_iff.mp henter
  obtain ⟨rfl, rfl⟩ := by simpa using heq
  refine ⟨h.functions x (List.mem_of_find?_eq_some hx) _ _, ⟨h.distinct, h.served, ?_⟩, rfl, [], rfl,
    .nil 0⟩
  intro g hg
  obtain ⟨y, hy, rfl⟩ := List.mem_map.mp hg
  split <;> exact h.functions y hy

end World

end LiveUI
