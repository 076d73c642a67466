import LiveUI.Proofs.Template.Sides

/-! # Calls do not disturb each other

Two calls of a define share its program and nothing else. If their arguments have nothing in common,
each takes place in a realm of its own, and what is written on the side of one call never comes to
the side of the other. -/

namespace LiveUI

open World

/-! ## The realm of a call -/

/-- The realm of the objects among `M` and of what is still to be made. -/
def Realm.around (w : World) (M : Value → Prop) : Realm :=
  (Realm.rest w).joined (objectsAmong M)

/-- The side of what led from `w` to `w'`, given the values `M`, with the bindings that it made. -/
def Realm.side (w w' : World) (M : Value → Prop) : Realm where
  objects := w.side w' M
  bindings b := w.nextBinding ≤ b ∧ b < w'.nextBinding

/-- What led from `w` to `w'` has stayed in the realm around the values `M`, whose objects had been
made and had not been touched. -/
structure World.Housed (w w' : World) (M : Value → Prop) : Prop where
  within : (Realm.around w M).Within w w'
  numbered : w.Numbered
  made : ∀ id, objectsAmong M id → id < w.nextObject
  untouched : ∀ o x, objectsAmong M o.id → w.object? o = some x → x.observers = [] ∧ x.bindings = []

namespace World.Housed

variable {w w₁ w₂ : World} {M M₁ M₂ : Value → Prop}

/-- The side is what the realm has. -/
theorem has_iff (h : w.Housed w₁ M) {id : Nat} : (Realm.around w M).Has w₁ id ↔ w.side w₁ M id := by
  constructor
  · rintro ⟨hle | hid, hlt⟩
    · exact .inr ⟨hle, hlt⟩
    · exact .inl hid
  · rintro (hid | ⟨hle, hlt⟩)
    · exact ⟨.inr hid, Nat.lt_of_lt_of_le (h.made id hid) h.within.nextObject⟩
    · exact ⟨.inl hle, hlt⟩

/-- The objects of the side own bindings of the side only. -/
theorem owned (h : w.Housed w₁ M) {o : Handle} {y : Object} (ho : w.side w₁ M o.id)
    (hy : w₁.object? o = some y) : ∀ b ∈ y.bindings, (Realm.side w w₁ M).bindings b := by
  rcases h.within.past o y (h.has_iff.mpr ho).1 hy with ⟨-, hserves⟩ | ⟨x, hx, hgrows⟩
  · exact hserves
  · intro b hb
    rcases hgrows.bindings b hb with hold | hserves
    · rcases ho with ho | ⟨hle, -⟩
      · simp [(h.untouched o x ho hx).2] at hold
      · exact absurd (h.numbered.lt_of_object? hx) (Nat.not_lt.mpr hle)
    · exact hserves

/-- Nobody else has come to observe the side, since the numbers of its observers are new. -/
theorem guarded (h : w.Housed w₁ M) : (Realm.side w w₁ M).Guarded w₁ := by
  refine ⟨fun b x hb hx s hs ho obs hobs hid => ?_, fun o y ho hy b hb hnew => ?_⟩
  · have hold : b < w.nextBinding := Nat.lt_of_not_le fun hle =>
      hb ⟨hle, h.within.isSealed.numbered.lt_of_binding? hx⟩
    rw [h.within.bindings b (Nat.not_le.mpr hold)] at hx
    have hissued := h.numbered.subscriptions b x hx s hs
    obtain ⟨y, hy⟩ := Option.isSome_iff_exists.mp (w₁.isAlive_of_mem_observers hobs)
    have hmem : obs ∈ y.observers := by
      simpa [observers, hy] using hobs
    rcases h.within.past _ y (h.has_iff.mpr ho).1 hy with ⟨hnew, -⟩ | ⟨z, hz, hgrows⟩
    · exact Nat.not_lt.mpr hnew hissued.1
    · rcases hgrows.observers obs hmem with hmem | hle
      · rcases ho with ho | ⟨hnew, -⟩
        · simp [(h.untouched _ z ho hz).1] at hmem
        · exact Nat.not_lt.mpr hnew hissued.1
      · exact Nat.not_lt.mpr (hid ▸ hle) (hissued.2 z hz)
  · have hlt := h.within.isSealed.numbered.lt_of_object? hy
    rw [h.within.objects o fun hR => ho (h.has_iff.mp ⟨hR, hlt⟩)] at hy
    exact Nat.not_lt.mpr hnew.1 (h.numbered.owned o y hy b hb)

/-- Two that come one after another and are given nothing in common end up each in a realm of its
own, with nothing of the other's. -/
theorem parts (h₁ : w.Housed w₁ M₁) (h₂ : w₁.Housed w₂ M₂)
    (hmade : ∀ id, objectsAmong M₂ id → id < w.nextObject)
    (hdisjoint : ∀ id, objectsAmong M₁ id → ¬objectsAmong M₂ id) :
    ((Realm.around w M₁).carried w₁ w₂).Parts (Realm.side w₁ w₂ M₂) w₂ (w.side w₁ M₁) ∧
      (Realm.around w₁ M₂).Parts (Realm.side w w₁ M₁) w₂ (w₁.side w₂ M₂) := by
  have hobjects (id : Nat) (hid : w.side w₁ M₁ id) : ¬(Realm.around w₁ M₂).objects id := by
    have hlt := (h₁.has_iff.mpr hid).2
    rintro (hle | hid₂)
    · exact Nat.not_lt.mpr hle hlt
    · rcases hid with hid₁ | ⟨hle, -⟩
      · exact hdisjoint id hid₁ hid₂
      · exact Nat.not_lt.mpr hle (hmade id hid₂)
  have hbindings (b : Nat) (hb : (Realm.side w w₁ M₁).bindings b) :
      ¬(Realm.around w₁ M₂).bindings b := Nat.not_le.mpr hb.2
  obtain ⟨hguarded, hstill⟩ := h₁.guarded.within h₂.within hobjects hbindings
  constructor
  · refine ⟨h₁.within.isSealed.carried h₂.within.isSealed.numbered ?_ ?_ h₂.within.nextObject
      h₂.within.nextBinding, fun id hid => ?_, fun id hid => ?_, fun b hb => ?_, h₂.guarded,
      fun o y ho hy => h₂.owned ho hy⟩
    · exact fun o ho => hstill.objects o (h₁.has_iff.mp ho)
    · exact fun b hb => hstill.bindings b hb
    · exact ⟨.inl (h₁.has_iff.mpr hid), Nat.lt_of_lt_of_le (h₁.has_iff.mpr hid).2
        h₂.within.nextObject⟩
    · obtain ⟨hin, hlt⟩ := h₂.has_iff.mpr hid
      rintro (hold | hle)
      · exact hobjects id (h₁.has_iff.mp hold) hin
      · exact Nat.not_lt.mpr hle hlt
    · rintro (hold | hle)
      · exact Nat.not_lt.mpr hb.1 hold.2
      · exact Nat.not_lt.mpr hle hb.2
  · refine ⟨h₂.within.isSealed, fun id => h₂.has_iff.mpr, hobjects, hbindings, hguarded,
      fun o y ho hy => ?_⟩
    rw [hstill.objects o ho] at hy
    exact h₁.owned ho hy

end World.Housed

namespace Template

/-! ## Calls -/

/-- All that a call is given. -/
def given (args : List Value) (keywords : List (String × Value)) : List Value :=
  args ++ keywords.map (·.2)

section Calls

variable {registry : Registry} {d : CompiledDefine} {limits : Limits} {w w' : World}

/-- A call on values whose objects nobody has touched stays in the realm around them. -/
theorem CompiledDefine.call_housed (hd : ∀ v ∈ d.retained, v.isInert = true) (hr : registry.Plain)
    (hw : w.Numbered) {M : Value → Prop} (hM : w.Catchment M) (huntouched : w.Untouched M)
    {args : List Value} {keywords : List (String × Value)} (hgiven : ∀ v ∈ given args keywords, M v)
    {view : View} (hcall : (d.call limits registry args keywords).run w = some (.ok view, w')) :
    w.Housed w' M := by
  have hsealed : (Realm.around w M).Sealed w := hM.isSealed (Realm.sealed_rest hw) fun o ho => by
    obtain ⟨x, hx, hobservers, -⟩ := huntouched o ho
    simp [observers, hx, hobservers]
  have hcontains : ∀ v ∈ given args keywords, (Realm.around w M).Contains w v :=
    fun v hv => hM.contains v (hgiven v hv)
  obtain ⟨hin, -⟩ := d.call_minds hr hsealed hd
    (fun v hv => hcontains v (List.mem_append_left _ hv))
    (fun p hp => hcontains p.2 (List.mem_append_right _ (List.mem_map_of_mem hp))) limits _ _ hcall
  refine ⟨hin, hw, fun id => hM.lt, ?_⟩
  rintro o x ⟨p, hid, hp⟩ hx
  obtain ⟨y, hy, hnothing⟩ := huntouched p hp
  rw [← w.object?_congr hid, hy] at hx
  exact Option.some.inj hx ▸ hnothing

/-- Let a define without objects and functions of the host be called twice, on values that have
nothing in common. From then on whatever is written on the side of one call, and clear of the other
side, leaves the other side as it is. -/
theorem calls_isolated (hd : ∀ v ∈ d.retained, v.isInert = true) (hr : registry.Plain)
    (hw : w.Numbered) {args₁ args₂ : List Value} {keywords₁ keywords₂ : List (String × Value)}
    (hseparate : w.Separate (given args₁ keywords₁) (given args₂ keywords₂))
    (hfunctions : ∀ f, w.Comprises (given args₁ keywords₁ ++ given args₂ keywords₂) (.func f) →
      f.kind ≠ .host)
    {view₁ view₂ : View} {w₁ w₂ : World}
    (hcall₁ : (d.call limits registry args₁ keywords₁).run w = some (.ok view₁, w₁))
    (hcall₂ : (d.call limits registry args₂ keywords₂).run w₁ = some (.ok view₂, w₂)) :
    w₂.Isolated (w.side w₁ (w.Comprises (given args₁ keywords₁)))
        (w₁.side w₂ (w.Comprises (given args₂ keywords₂))) ∧
      w₂.Isolated (w₁.side w₂ (w.Comprises (given args₂ keywords₂)))
        (w.side w₁ (w.Comprises (given args₁ keywords₁))) := by
  have hreach₁ := hseparate.left.catchment hw fun f ⟨v, hv, hf⟩ =>
    hfunctions f ⟨v, List.mem_append_left _ hv, hf⟩
  have hreach₂ := hseparate.right.catchment hw fun f ⟨v, hv, hf⟩ =>
    hfunctions f ⟨v, List.mem_append_right _ hv, hf⟩
  have hhoused₁ := d.call_housed hd hr hw hreach₁ hseparate.left
    (fun v hv => ⟨v, hv, .refl⟩) hcall₁
  -- the first call has not touched what the second one is given
  have hsame (o : Handle) (ho : w.Comprises (given args₂ keywords₂) (.object o)) :
      w₁.object? o = w.object? o := by
    refine hhoused₁.within.objects o ?_
    rintro (hnew | hid)
    · exact Nat.not_lt.mpr hnew (hreach₂.objects ho)
    · exact hseparate.disjoint o.id hid ⟨o, rfl, ho⟩
  have hhoused₂ := d.call_housed hd hr hhoused₁.within.isSealed.numbered
    (hreach₂.of_same hsame hhoused₁.within.nextObject)
    (fun o ho => by rw [hsame o ho]; exact hseparate.right o ho)
    (fun v hv => ⟨v, hv, .refl⟩) hcall₂
  obtain ⟨hparts₁, hparts₂⟩ := hhoused₁.parts hhoused₂ (fun _ => hreach₂.lt) hseparate.disjoint
  exact ⟨fun _ run => run.sameOn hparts₁, fun _ run => run.sameOn hparts₂⟩

end Calls

/-! ## Two people and a form -/

section Form

def ada : Handle := ⟨1, "Person"⟩
def bob : Handle := ⟨2, "Person"⟩
def zoe : Handle := ⟨3, "Person"⟩
def eve : Handle := ⟨4, "Person"⟩

/-- A routine of the host that tells Bob. -/
def tellBob (news : Value) : Host :=
  .write bob "news" news fun _ => .skip

/-- Ada and Bob are each their own boss, Zoe's boss is Bob, and the host passes on to him what is
new of Eve. -/
def people (act : Value) : World where
  objects := [
    { handle := ada
      attrs := [("boss", .object ada), ("name", .str "Ada"), ("news", .str ""), ("act", act)] },
    { handle := bob
      attrs := [("boss", .object bob), ("name", .str "Bob"), ("news", .str ""), ("act", act)] },
    { handle := zoe, attrs := [("boss", .object bob)] },
    { handle := eve, attrs := [("news", .str "")]
      observers := [⟨0, "news", .host fun c => tellBob c.new⟩], nextObserver := 1 }]
  functions := [{ id := 0, body := fun _ args => tellBob (args.headD .nil) }]
  nextObject := 5
  nextFunction := 2

/-- The function of the host that tells Bob, and a builtin. -/
def tell : Value := .func ⟨0, "tell", .host⟩
def spell : Value := .func ⟨1, "str", .builtin .str⟩

/-- A form with a field, whose text is related by `op` to what `code` says. The person is in the
first slot and the field in the second. -/
def form (op : Markup.Operator) (code : Code) : CompiledDefine where
  name := "Form"
  params := [("person", none)]
  program := {
    ops := [
      .build { typeName := "Field", args := [], keywords := [], selfSlot := 1, unpack := [],
               captures := [], place := default },
      .assign { base := .slot 1, attr := "text" } op code default,
      .close]
    slots := 2 }

def fields (defaults : List (String × Value)) : Registry where
  name := "fields"
  factories := [("Field", .component { defaults })]

/-- The field of the first form. -/
def field : Handle := ⟨5, "Field"⟩

section Scenarios

variable {registry : Registry} {d : CompiledDefine} {limits : Limits} {w : World}

/-- Whether a call on one argument succeeds and leads to a world that is as `p` says. -/
def CompiledDefine.leadsTo (limits : Limits) (registry : Registry) (d : CompiledDefine)
    (arg : Value) (w : World) (p : World → Bool) : Bool :=
  ((d.call limits registry [arg] []).run w).any fun r => r.1.isOk && p r.2

theorem CompiledDefine.exists_of_leadsTo {arg : Value} {p : World → Bool}
    (h : d.leadsTo limits registry arg w p = true) :
    ∃ view w', (d.call limits registry [arg] []).run w = some (.ok view, w') ∧ p w' = true := by
  obtain ⟨⟨r, w'⟩, hrun, hr⟩ := Option.any_eq_true _ _ |>.mp h
  cases r with
  | error e => cases hr
  | ok view => exact ⟨view, w', hrun, hr⟩

end Scenarios

variable {act : Value}

theorem numbered_people : (people act).Numbered := by
  have hbare : ∀ x ∈ (people act).objects, x.handle.id < 5 ∧ x.bindings = [] := by
    simp [people, ada, bob, zoe, eve]
  refine ⟨by simp [people, ada, bob, zoe, eve], fun x hx => (hbare x hx).1, nofun,
    fun o x hx b hb => ?_, nofun⟩
  rw [(hbare x (List.mem_of_find?_eq_some hx)).2] at hb
  cases hb

/-- Ada and Bob lead to themselves only. -/
theorem comprises_people (hact : act.objects = []) {o : Handle} :
    ((people act).Comprises [.object ada] (.object o) → o.id = 1) ∧
      ((people act).Comprises [.object bob] (.object o) → o.id = 2) := by
  have hada : (people act).Bounds (· = 1) := by
    simp [Bounds, people, ada, bob, zoe, eve, Value.objects, hact, -Prod.forall]
  have hbob : (people act).Bounds (· = 2) := by
    simp [Bounds, people, ada, bob, zoe, eve, Value.objects, hact, -Prod.forall]
  constructor
  · intro h
    simpa [Value.objects] using hada.comprises (by simp [Value.objects, ada]) h
  · intro h
    simpa [Value.objects] using hbob.comprises (by simp [Value.objects, bob]) h

theorem separate_people (hact : act.objects = []) :
    (people act).Separate [.object ada] [.object bob] := by
  refine ⟨fun o ho => ?_, fun o ho => ?_, ?_⟩
  · rw [object?_congr (o := o) (p := ada) _ ((comprises_people hact).1 ho)]
    exact ⟨_, rfl, rfl, rfl⟩
  · rw [object?_congr (o := o) (p := bob) _ ((comprises_people hact).2 ho)]
    exact ⟨_, rfl, rfl, rfl⟩
  · rintro id ⟨o, rfl, ho⟩ ⟨p, hid, hp⟩
    have hada := (comprises_people hact).1 ho
    have hbob := (comprises_people hact).2 hp
    omega

theorem plain_fields {defaults : List (String × Value)} (h : ∀ a ∈ defaults, a.2.isInert = true) :
    (fields defaults).Plain := by
  intro f hf
  obtain rfl : f = _ := by simpa [fields] using hf
  exact ⟨_, rfl, rfl, h⟩

/-- `person.boss.news` -/
def bossNews : Code := .attr (.attr (.slot 0) "boss") "news"

/-- Ada's form and Bob's are isolated, as long as a person can be asked for nothing that the host
does. -/
theorem calls_isolated_people :
    ∃ view₁ w₁ view₂ w₂,
      ((form .delegate bossNews).call ⟨8, 1⟩ (fields []) [.object ada] []).run (people spell) =
        some (.ok view₁, w₁) ∧
      ((form .delegate bossNews).call ⟨8, 1⟩ (fields []) [.object bob] []).run w₁ =
        some (.ok view₂, w₂) ∧
      w₂.Isolated ((people spell).side w₁ ((people spell).Comprises [.object ada]))
          (w₁.side w₂ ((people spell).Comprises [.object bob])) ∧
        w₂.Isolated (w₁.side w₂ ((people spell).Comprises [.object bob]))
          ((people spell).side w₁ ((people spell).Comprises [.object ada])) := by
  have hruns : (form .delegate bossNews).leadsTo ⟨8, 1⟩ (fields []) (.object ada) (people spell)
      (fun w₁ => (form .delegate bossNews).leadsTo ⟨8, 1⟩ (fields []) (.object bob) w₁
        fun _ => true) = true := by decide +kernel
  obtain ⟨view₁, w₁, hcall₁, hruns⟩ := CompiledDefine.exists_of_leadsTo hruns
  obtain ⟨view₂, w₂, hcall₂, -⟩ := CompiledDefine.exists_of_leadsTo hruns
  have hfunctions : ∀ f, (people spell).Comprises [.object ada, .object bob] (.func f) →
      f.kind ≠ .host := by
    intro f hf
    have hinnocent := hf.isInnocent (by decide) (by decide)
    simpa [Value.isInnocent] using hinnocent
  refine ⟨view₁, w₁, view₂, w₂, hcall₁, hcall₂, ?_⟩
  exact calls_isolated (by decide) (plain_fields (by simp)) numbered_people (separate_people rfl)
    hfunctions hcall₁ hcall₂

/-! ### Writes that are not clear of the other side -/

/-- The value of Bob's news, if it is a text. -/
def news (w : World) : String :=
  ((w.attr? bob "news").bind Value.asStr?).getD ""

def setAll (announce : Announce) (writes : List (Handle × String × Value)) : Step Unit :=
  writes.forM fun (o, attr, v) => do
    let _ ← setAttr announce o attr v

/-- A define without objects and functions of the host is called with components that start without
objects, for values `vs` and `us` that have nothing in common. Then the `writes` are made on the
side of the first call, of values without an object of the other side. Still something changes
there. -/
structure Disturbed (limits : Limits) (registry : Registry) (d : CompiledDefine) (w : World)
    (vs us : List Value) (writes : List (Handle × String × Value)) : Prop where
  constants : ∀ v ∈ d.retained, v.isInert = true
  components : ∀ f ∈ registry.factories.map (·.2), ∃ c : Component, f = .component c ∧
    c.hooks = {} ∧ ∀ a ∈ c.defaults, a.2.objects = []
  numbered : w.Numbered
  separate : w.Separate vs us
  changed : ∃ view₁ w₁ view₂ w₂ w₃,
    (d.call limits registry vs []).run w = some (.ok view₁, w₁) ∧
    (d.call limits registry us []).run w₁ = some (.ok view₂, w₂) ∧
    setAll (announce limits.announcements) writes w₂ = some (⟨⟩, w₃) ∧
    (∀ p ∈ writes, w.side w₁ (w.Comprises vs) p.1.id ∧
      ∀ id ∈ p.2.2.objects, ¬w₁.side w₂ (w.Comprises us) id) ∧
    ¬SameOn (w₁.side w₂ (w.Comprises us)) w₂ w₃

/-- Whether the form is filled in for Ada and for Bob and the `writes` that are then made on Ada's
side bring news to Bob. -/
def bringsNews (act : Value) (defaults : List (String × Value)) (op : Markup.Operator) (code : Code)
    (writes : List (Handle × String × Value)) : Bool :=
  (form op code).leadsTo ⟨8, 1⟩ (fields defaults) (.object ada) (people act) fun w₁ =>
    (form op code).leadsTo ⟨8, 1⟩ (fields defaults) (.object bob) w₁ fun w₂ =>
      (setAll (announce 8) writes w₂).any fun r =>
        decide (∀ p ∈ writes, (p.1.id = 1 ∨ 5 ≤ p.1.id ∧ p.1.id < w₁.nextObject) ∧
          ∀ id ∈ p.2.2.objects, id ≠ 2 ∧ id < w₁.nextObject) && news w₂ != news r.2

theorem disturbed_people (hact : act.objects = []) {defaults : List (String × Value)}
    (hdefaults : ∀ a ∈ defaults, a.2.objects = []) {op : Markup.Operator} {code : Code}
    (hcode : ∀ v ∈ (form op code).retained, v.isInert = true)
    {writes : List (Handle × String × Value)}
    (h : bringsNews act defaults op code writes = true) :
    Disturbed ⟨8, 1⟩ (fields defaults) (form op code) (people act) [.object ada] [.object bob]
      writes := by
  refine ⟨hcode, fun f hf => ?_, numbered_people, separate_people hact, ?_⟩
  · obtain rfl : f = _ := by simpa [fields] using hf
    exact ⟨_, rfl, rfl, hdefaults⟩
  obtain ⟨view₁, w₁, hcall₁, h⟩ := CompiledDefine.exists_of_leadsTo h
  obtain ⟨view₂, w₂, hcall₂, h⟩ := CompiledDefine.exists_of_leadsTo h
  obtain ⟨⟨⟨⟩, w₃⟩, hset, h⟩ := Option.any_eq_true _ _ |>.mp h
  simp only [Bool.and_eq_true, decide_eq_true_eq, bne_iff_ne] at h
  obtain ⟨hwrites, hnews⟩ := h
  refine ⟨view₁, w₁, view₂, w₂, w₃, hcall₁, hcall₂, hset, fun p hp => ⟨?_, fun id hid => ?_⟩, ?_⟩
  · refine (hwrites p hp).1.imp_left fun hada => ?_
    exact ⟨ada, hada.symm, _, List.mem_singleton_self _, .refl⟩
  · obtain ⟨hbob, hlt⟩ := (hwrites p hp).2 id hid
    rintro (⟨o, rfl, ho⟩ | ⟨hle, -⟩)
    · exact hbob ((comprises_people hact).2 ho)
    · exact Nat.not_lt.mpr hle hlt
  · intro hsame
    have hbob := hsame.objects bob (.inl ⟨bob, rfl, _, List.mem_singleton_self _, .refl⟩)
    exact hnews (by simp only [news, attr?, hbob])

/-- `person.boss.boss.news` -/
def higherNews : Code := .attr (.attr (.attr (.slot 0) "boss") "boss") "news"

/-- `asked.act(person.name)`, where `asked` is in the slot -/
def ask (slot : Nat) : Code :=
  .call (.attr (.slot slot) "act") [.attr (.slot 0) "name"]

/-- News come to Bob when Ada's boss is one who has him as boss, or one whose news the host passes
on, and also when the host can be asked to tell him, through a function that is among the attributes
of the people or of the field or that is given to Ada. -/
theorem calls_disturbed_people :
    Disturbed ⟨8, 1⟩ (fields []) (form .delegate higherNews) (people spell)
        [.object ada] [.object bob]
        [(ada, "boss", .object zoe), (field, "text", .str "hello")] ∧
      Disturbed ⟨8, 1⟩ (fields []) (form .delegate bossNews) (people spell)
        [.object ada] [.object bob]
        [(ada, "boss", .object eve), (field, "text", .str "hello")] ∧
      Disturbed ⟨8, 1⟩ (fields []) (form .bind (ask 0)) (people tell)
        [.object ada] [.object bob] [(ada, "name", .str "Ann")] ∧
      Disturbed ⟨8, 1⟩ (fields [("act", tell)]) (form .bind (ask 1)) (people spell)
        [.object ada] [.object bob] [(ada, "name", .str "Ann")] ∧
      Disturbed ⟨8, 1⟩ (fields []) (form .bind (ask 0)) (people spell)
        [.object ada] [.object bob] [(ada, "act", tell)] := by
  refine ⟨?_, ?_, ?_, ?_, ?_⟩ <;>
    exact disturbed_people (by decide) (by decide) (by decide) (by decide +kernel)

end Form

end Template

end LiveUI
