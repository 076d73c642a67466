import LiveUI.Proofs.Value.Equality
import LiveUI.Proofs.World.Provenance
import LiveUI.Proofs.World.Requests

/-! # Attributes under announcement

The journal tells of every write and of the beginning and the end of every announcement, so a run can
be followed through it moment by moment. In a network no attribute is announced twice at a time, and
none is written while it is announced: whether the target is free is asked before a binding is
evaluated, and between the question and the write nothing but evaluations and observers of the same
binding come in. The two writes of a delegate that do not ask are never made, for nothing in a network
normalises a value, unless a value does not equal itself. -/

namespace LiveUI

/-- The entry tells of a write of a value that is not a number, or has that as an element. -/
def Entry.storesNaN : Entry → Bool
  | .wrote _ _ v => v.hasNaN
  | _ => false

/-- No value that was ever written is a double that is not a number, or has one as an element. -/
def World.NaNFree (w : World) : Prop :=
  ∀ e ∈ w.journal, e.storesNaN = false

/-- The same as a test. -/
def World.nanFree (w : World) : Bool :=
  w.journal.all fun e => !e.storesNaN

theorem World.nanFree_iff {w : World} : w.nanFree = true ↔ w.NaNFree := by
  simp [nanFree, NaNFree]

theorem World.NaNFree.of_suffix {w w' : World} (h : w'.NaNFree) (hsuffix : w.journal <:+ w'.journal) :
    w.NaNFree :=
  fun e he => h e (hsuffix.subset he)

/-! ## Moments -/

/-- The change is one of this attribute. -/
def Change.At (c : Change) (o : Handle) (attr : String) : Prop :=
  c.object.id = o.id ∧ c.attr = attr

instance (c : Change) (o : Handle) (attr : String) : Decidable (c.At o attr) :=
  inferInstanceAs (Decidable (_ ∧ _))

/-- What is being announced and what is stored. -/
structure Moment where
  /-- The changes that are being announced, the one that began last first. -/
  announced : List Change
  attr? : Handle → String → Option Value

namespace Moment

/-- The moment after what an entry tells of. -/
def after (m : Moment) : Entry → Moment
  | .wrote o attr v =>
      { m with attr? := fun p other =>
          if p.id = o.id ∧ other = attr then some v else m.attr? p other }
  | .began c => { m with announced := c :: m.announced }
  | .ended c => { m with announced := m.announced.eraseP fun d => d.At c.object c.attr }
  | .called .. | .evaluated .. | .hooked .. | .notice _ | .report _ => m

/-- The moment after what a part of a journal tells of. -/
def afterAll (m : Moment) (entries : List Entry) : Moment :=
  entries.foldr (fun e m => m.after e) m

/-- Each attribute is announced once at most, and while it is, it holds what its announcement says. -/
structure Steady (m : Moment) : Prop where
  once : m.announced.Pairwise fun c d => ¬c.At d.object d.attr
  held : ∀ c ∈ m.announced, m.attr? c.object c.attr = some c.new

/-- All moments from the first one to the last one are steady. -/
structure Leads (m : Moment) (entries : List Entry) (m' : Moment) : Prop where
  steady : ∀ part, part <:+ entries → (m.afterAll part).Steady
  last : m.afterAll entries = m'

variable {m m' m'' : Moment} {entries later earlier : List Entry}

theorem afterAll_append (m : Moment) (later earlier : List Entry) :
    m.afterAll (later ++ earlier) = (m.afterAll earlier).afterAll later :=
  List.foldr_append ..

namespace Leads

theorem last_steady (h : Leads m entries m') : m'.Steady :=
  h.last ▸ h.steady entries (List.suffix_refl _)

theorem nil (h : m.Steady) : Leads m [] m := by
  refine ⟨fun part hpart => ?_, rfl⟩
  rw [List.suffix_nil.mp hpart]
  exact h

theorem entry (e : Entry) (h : m.Steady) (h' : (m.after e).Steady) : Leads m [e] (m.after e) := by
  refine ⟨fun part hpart => ?_, rfl⟩
  rcases List.suffix_cons_iff.mp hpart with rfl | hpart
  · exact h'
  · rw [List.suffix_nil.mp hpart]
    exact h

theorem append (h : Leads m earlier m') (h' : Leads m' later m'') :
    Leads m (later ++ earlier) m'' := by
  refine ⟨fun part hpart => ?_, ?_⟩
  · rcases suffix_append_cases hpart with hearlier | ⟨part, hlater, rfl⟩
    · exact h.steady part hearlier
    · rw [afterAll_append, h.last]
      exact h'.steady part hlater
  · rw [afterAll_append, h.last, h'.last]

end Leads

/-- Writing an attribute that is not being announced leaves what is announced as it is. -/
theorem Steady.wrote (h : m.Steady) {o : Handle} {attr : String} (v : Value)
    (hfree : ∀ c ∈ m.announced, ¬c.At o attr) : (m.after (.wrote o attr v)).Steady := by
  refine ⟨h.once, fun c hc => ?_⟩
  have hne : ¬(c.object.id = o.id ∧ c.attr = attr) := hfree c hc
  simp only [after, if_neg hne]
  exact h.held c hc

theorem Steady.began (h : m.Steady) {c : Change} (hfree : ∀ d ∈ m.announced, ¬d.At c.object c.attr)
    (hheld : m.attr? c.object c.attr = some c.new) : (m.after (.began c)).Steady := by
  refine ⟨List.pairwise_cons.mpr ⟨fun d hd hat => ?_, h.once⟩, List.forall_mem_cons.mpr ⟨hheld, h.held⟩⟩
  exact hfree d hd ⟨hat.1.symm, hat.2.symm⟩

/-- The end of an announcement takes the last one that began. -/
theorem after_ended {c : Change} {cs : List Change} (h : m.announced = c :: cs) :
    m.after (.ended c) = { m with announced := cs } := by
  simp [after, h, Change.At]

theorem Steady.ended (h : m.Steady) {c : Change} {cs : List Change} (hcs : m.announced = c :: cs) :
    (m.after (.ended c)).Steady := by
  rw [after_ended hcs]
  obtain ⟨honce, hheld⟩ := h
  rw [hcs] at honce hheld
  exact ⟨honce.of_cons, fun d hd => hheld d (List.mem_cons_of_mem c hd)⟩

end Moment

/-! ## Networks in the middle of announcements -/

namespace World

variable {w w' w'' : World} {cs : List Change} {c : Change}

/-- The moment that a world is in, while `cs` are being announced. -/
def moment (w : World) (cs : List Change) : Moment :=
  ⟨cs, w.attr?⟩

/-- A network in which `cs` are being announced. -/
structure Announcing (cs : List Change) (w : World) : Prop where
  network : Network w
  intact : Intact w
  inFlight : ∀ o attr, w.isInFlight o attr = true ↔ ∃ c ∈ cs, c.At o attr
  steady : (w.moment cs).Steady

/-- What happened on the way is in the journal, and all moments on the way are steady. -/
def Calm (cs : List Change) (w w' : World) : Prop :=
  ∃ entries, w'.journal = entries ++ w.journal ∧
    (w.moment cs).Leads entries (w'.moment cs)

/-- A piece of a run inside announcements of `cs`. -/
structure Proceeds (cs : List Change) (w w' : World) : Prop where
  announcing : Announcing cs w'
  keeps : Keeps w w'
  calm : Calm cs w w'

theorem Calm.trans (h : Calm cs w w') (h' : Calm cs w' w'') : Calm cs w w'' := by
  obtain ⟨earlier, hearlier, hleads⟩ := h
  obtain ⟨later, hlater, hleads'⟩ := h'
  exact ⟨later ++ earlier, by rw [hlater, hearlier, List.append_assoc], hleads.append hleads'⟩

theorem moment_congr (hattr : ∀ o attr, w'.attr? o attr = w.attr? o attr) (cs : List Change) :
    w'.moment cs = w.moment cs := by
  have heq : w'.attr? = w.attr? := funext fun o => funext (hattr o)
  rw [moment, moment, heq]

/-- Only entries that are about neither attributes nor announcements have been made. -/
theorem Calm.of_entries (h : (w.moment cs).Steady) (entries : List Entry)
    (hjournal : w'.journal = entries ++ w.journal) (hplain : ∀ e ∈ entries, ∀ m : Moment, m.after e = m)
    (hattr : ∀ o attr, w'.attr? o attr = w.attr? o attr) : Calm cs w w' := by
  refine ⟨entries, hjournal, ?_⟩
  rw [moment_congr hattr]
  clear hjournal
  induction entries with
  | nil => exact .nil h
  | cons e entries ih =>
      obtain ⟨he, hentries⟩ := List.forall_mem_cons.mp hplain
      have hentry := Moment.Leads.entry e h (by rwa [he])
      rw [he] at hentry
      exact (ih hentries).append hentry

namespace Announcing

variable (h : Announcing cs w)

include h

theorem free_iff {o : Handle} {attr : String} :
    w.isInFlight o attr = false ↔ ∀ c ∈ cs, ¬c.At o attr := by
  rw [← Bool.not_eq_true, h.inFlight]
  simp

/-- Attributes, observers and the journal may have changed. -/
theorem of_keeps (hnet : Network w') (hkeeps : Keeps w w') (hcalm : Calm cs w w')
    (hattr : ∀ o attr v, w'.attr? o attr = some v → w.Knows v) : Proceeds cs w w' := by
  refine ⟨⟨hnet, h.intact.of_keeps hkeeps hattr, fun o attr => ?_, ?_⟩, hkeeps, hcalm⟩
  · rw [hkeeps.isInFlight]
    exact h.inFlight o attr
  · obtain ⟨_, -, hleads⟩ := hcalm
    exact hleads.last_steady

theorem proceeds_refl : Proceeds cs w w :=
  ⟨h, .refl w, .of_entries h.steady [] rfl (by simp) fun _ _ => rfl⟩

theorem proceeds_called (c : Change) (observer : Nat) : Proceeds cs w (w.log (.called c observer)) :=
  h.of_keeps (h.network.log fun _ => rfl) (.log w _)
    (.of_entries h.steady [.called c observer] rfl (by simp [Moment.after]) fun _ _ => rfl)
    fun _ _ _ => h.intact.attrs

theorem proceeds_notices (hn : Notices w w') : Proceeds cs w w' := by
  have hattr : ∀ o attr, w'.attr? o attr = w.attr? o attr := by
    induction hn with
    | refl => exact fun _ _ => rfl
    | notice n _ ih => exact ih
  have hentries : ∃ entries, w'.journal = entries ++ w.journal ∧
      ∀ e ∈ entries, ∀ m : Moment, m.after e = m := by
    clear hattr
    induction hn with
    | refl => exact ⟨[], rfl, nofun⟩
    | notice n _ ih =>
        obtain ⟨entries, hjournal, hplain⟩ := ih
        refine ⟨.notice n :: entries, congrArg (List.cons (Entry.notice n)) hjournal, ?_⟩
        exact List.forall_mem_cons.mpr ⟨fun _ => rfl, hplain⟩
  obtain ⟨entries, hjournal, hplain⟩ := hentries
  refine h.of_keeps (hn.network h.network) hn.keeps (.of_entries h.steady _ hjournal hplain hattr) ?_
  intro o attr v hv
  exact h.intact.attrs ((hattr o attr).symm.trans hv)

theorem proceeds_write {o : Handle} (attr : String) {v : Value} (halive : w.isAlive o = true)
    (hfree : w.isInFlight o attr = false) (hv : w.Knows v) : Proceeds cs w (w.write o attr v) := by
  have hmoment : (w.write o attr v).moment cs = (w.moment cs).after (.wrote o attr v) := by
    simp only [moment, Moment.after, Moment.mk.injEq, true_and]
    exact funext fun p => funext (attr?_write w halive v p)
  refine h.of_keeps (h.network.write o attr v) (.write w o attr v)
    ⟨[.wrote o attr v], rfl, ?_⟩ fun p other u hu => ?_
  · rw [hmoment]
    exact .entry _ h.steady (h.steady.wrote v (h.free_iff.mp hfree))
  · rw [attr?_write w halive] at hu
    split at hu
    · exact Option.some.inj hu ▸ hv
    · exact h.intact.attrs hu

end Announcing

theorem Proceeds.trans (h : Proceeds cs w w') (h' : Proceeds cs w' w'') : Proceeds cs w w'' :=
  ⟨h'.announcing, h.keeps.trans h'.keeps, h.calm.trans h'.calm⟩

/-! ### Announcements -/

theorem isAlive_beginFlight (w : World) (c : Change) (o : Handle) :
    (w.beginFlight c).isAlive o = w.isAlive o :=
  w.isAlive_modifyObject c.object o (f := fun x => { x with inFlight := c.attr :: x.inFlight })
    fun _ => rfl

theorem isInFlight_beginFlight_iff (w : World) {c : Change} (halive : w.isAlive c.object = true)
    (o : Handle) (attr : String) :
    (w.beginFlight c).isInFlight o attr = true ↔ c.At o attr ∨ w.isInFlight o attr = true := by
  refine ⟨fun h => (w.isInFlight_beginFlight h).imp_left fun hat => ⟨hat.1.symm, hat.2.symm⟩, ?_⟩
  have hobj := object?_modifyObject w c.object o
    (f := fun x => { x with inFlight := c.attr :: x.inFlight }) fun _ => rfl
  change _ → (((w.modifyObject c.object _).object? o).map _).getD _ = _
  rw [hobj]
  by_cases hid : c.object.id = o.id
  · have hsome : (w.object? o).isSome = true := by rwa [← w.object?_congr hid]
    obtain ⟨x, hx⟩ := Option.isSome_iff_exists.mp hsome
    rw [if_pos hid, isInFlight, hx]
    rintro (hat | hflight)
    · simp [hat.2]
    · simp only [Option.map_some, Option.getD_some] at hflight ⊢
      rw [List.contains_cons, hflight, Bool.or_true]
  · rw [if_neg hid]
    rintro (hat | hflight)
    · exact absurd hat.1 hid
    · exact hflight

theorem Announcing.beginFlight (h : Announcing cs w) (hheld : w.attr? c.object c.attr = some c.new)
    (hfree : w.isInFlight c.object c.attr = false) : Announcing (c :: cs) (w.beginFlight c) := by
  have halive : w.isAlive c.object = true := by
    obtain ⟨x, hx, -⟩ := Option.bind_eq_some_iff.mp hheld
    rw [isAlive, hx]
    rfl
  have hknows := fun v => (knows_congr (w.isAlive_beginFlight c) v).mpr
  refine ⟨h.network.beginFlight c, ⟨fun hv => hknows _ ?_, fun hx v hv => hknows v ?_⟩,
    fun o attr => ?_, ?_⟩
  · rw [attr?_beginFlight] at hv
    exact h.intact.attrs hv
  · exact h.intact.bindings hx v hv
  · rw [w.isInFlight_beginFlight_iff halive, h.inFlight]
    simp
  · have hbegan := h.steady.began (h.free_iff.mp hfree) hheld
    have hmoment := moment_congr (w.attr?_beginFlight c) (c :: cs)
    rw [hmoment]
    exact hbegan

/-- An announcement passes with what happens in the course of it. -/
theorem Proceeds.flight (h : Announcing cs w) (hheld : w.attr? c.object c.attr = some c.new)
    (hfree : w.isInFlight c.object c.attr = false) (hproceeds : Proceeds (c :: cs) (w.beginFlight c) w') :
    Proceeds cs w (w'.endFlight c) := by
  obtain ⟨hann, hkeeps, entries, hjournal, hleads⟩ := hproceeds
  refine h.of_keeps (hann.network.endFlight c) hkeeps.flight ⟨.ended c :: entries ++ [.began c], ?_, ?_⟩
    fun o attr v hv => ?_
  · have hbegan : (w.beginFlight c).journal = .began c :: w.journal := rfl
    change .ended c :: w'.journal = _
    rw [hjournal, hbegan]
    simp
  · have hbegan := Moment.Leads.entry (.began c) h.steady
      (h.steady.began (h.free_iff.mp hfree) hheld)
    have hended := Moment.Leads.entry (.ended c) hann.steady (hann.steady.ended rfl)
    rw [moment_congr (w.attr?_beginFlight c)] at hleads
    have hlast : (w'.moment (c :: cs)).after (.ended c) = (w'.endFlight c).moment cs := by
      rw [Moment.after_ended rfl, moment_congr (w'.attr?_endFlight c)]
      rfl
    rw [hlast] at hended
    exact (hbegan.append hleads).append hended
  · rw [attr?_endFlight] at hv
    refine (knows_congr (fun o => ?_) v).mp (hann.intact.attrs hv)
    rw [hkeeps.isAlive, isAlive_beginFlight]

/-! ### The work of bindings -/

/-- A binding at work is under the same announcements. -/
theorem Announcing.setBusy (h : Announcing cs w) {b : Nat} {x : Binding}
    (hx : w.binding? b = some x) (huse : w.InUse x) : Announcing cs (w.setBusy b true) := by
  refine ⟨h.network.setBusy hx huse, ⟨h.intact.attrs, fun {c y} hy => ?_⟩, h.inFlight, h.steady⟩
  rw [World.setBusy, binding?_modifyBinding w b c (f := fun x => { x with busy := true }) fun _ => rfl]
    at hy
  split at hy
  · obtain ⟨z, hz, rfl⟩ := Option.map_eq_some_iff.mp hy
    exact h.intact.bindings (x := z) hz
  · exact h.intact.bindings hy

/-- The busy mark around the work of a binding makes no difference. -/
theorem Proceeds.work (h : Announcing cs w) {b : Nat} {x : Binding} (hx : w.binding? b = some x)
    (howned : x.owned = true) (hbusy : x.busy = false)
    (hproceeds : Proceeds cs (w.setBusy b true) w') : Proceeds cs w (w'.setBusy b false) := by
  obtain ⟨hann, hkeeps, entries, hjournal, hleads⟩ := hproceeds
  obtain ⟨hnet, hkeeps'⟩ := h.network.work hx howned hbusy hann.network hkeeps
  refine h.of_keeps hnet hkeeps' ⟨entries, hjournal, hleads⟩ fun o attr v hv => ?_
  exact (knows_congr hkeeps.isAlive v).mp (hann.intact.attrs hv)

/-- An evaluation writes nothing. -/
theorem Announcing.proceeds_evaluated (h : Announcing cs w) {b : Nat} {x : Binding}
    (hx : w.binding? b = some x) (hbusy : x.busy = true) {result : Except EvalError Value}
    {reads : List (Handle × String)}
    (hsub : resubscribe b reads (w.log (.evaluated b result reads)) = some ((), w')) :
    Proceeds cs w w' := by
  have heval := (h.network.evaluated hx (Binding.inService_of_busy hbusy) result reads).result hsub
  have hjournal : w'.journal = [.evaluated b result reads] ++ w.journal := resubscribe_journal hsub
  refine h.of_keeps heval.network heval.keeps
    (.of_entries h.steady _ hjournal (by simp [Moment.after]) heval.attr?) fun o attr v hv => ?_
  exact h.intact.attrs ((heval.attr? o attr).symm.trans hv)

end World

/-! ## Propagation -/

open World

namespace Work

/-- What is announced is stored and not announced already; what is about to be written is not being
announced. -/
def Free (w : World) : Work → Prop
  | announce c => w.attr? c.object c.attr = some c.new ∧ w.isInFlight c.object c.attr = false ∧
      w.Knows c.new
  | deliver c _ | react c _ _ | writeBack _ c _ => w.Knows c.new
  | refresh b _ => ∀ x, w.binding? b = some x → w.isInFlight x.target x.attr = false
  | store b v _ => (∀ x, w.binding? b = some x → w.isInFlight x.target x.attr = false) ∧ w.Knows v
  | set o attr v => w.isAlive o = true ∧ w.isInFlight o attr = false ∧ w.Knows v

/-- What was announced or written is there in the end. -/
def Stands (w' : World) : Work → Prop
  | announce c => w'.attr? c.object c.attr = some c.new
  | set o attr v => (w'.stored o attr == v) = true
  | deliver _ _ | react _ _ _ | refresh _ _ | store _ _ _ | writeBack _ _ _ => True

variable {w w' : World} {b : Nat} {x : Binding} {v : Value} {result : Except EvalError Unit}

/-- A binding that stores a value may write its target. -/
theorem Free.set_target (hfree : (store b v result).Free w) (h : Network w)
    (hready : (store b v result).Ready w) (hx : w.binding? b = some x) :
    (set x.target x.attr v).Free w := by
  have hbusy := of_binding? hx hready
  have huse := h.inUse x (mem_of_binding? _ hx) (Binding.inService_of_busy hbusy)
  exact ⟨huse.alive, hfree.1 x hx, hfree.2⟩

/-- A delegate that writes back may write its source. -/
theorem Free.set_source {cs : List Change} {c : Change} {o : Handle} {attr : String}
    (hfree : (writeBack b c result).Free w) (h : Announcing cs w)
    (hready : (writeBack b c result).Ready w) (hx : w.binding? b = some x)
    (hsource : x.source w = .ok (o, attr)) (hflight : w.isInFlight o attr = false)
    (hn : Notices w w') : (set o attr c.new).Free w' := by
  have hbusy := of_binding? hx hready
  have huse := h.network.inUse x (mem_of_binding? _ hx) (Binding.inService_of_busy hbusy)
  refine ⟨?_, ?_, (knows_congr hn.keeps.isAlive _).mpr hfree⟩
  · rw [hn.keeps.isAlive]
    exact h.intact.isAlive_source (h.intact.bindings hx) huse.hostFree hsource
  · rw [hn.keeps.isInFlight]
    exact hflight

/-- What was not being announced is free in the course of further steps. -/
theorem Free.refresh_keeps (hfree : (refresh b result).Free w) (hkeeps : Keeps w w') :
    (refresh b result).Free w' := by
  intro x hx
  obtain ⟨y, hy, hcore⟩ := hkeeps.exists_binding? hx
  have htarget : x.target = y.target := congrArg (·.target) hcore
  have hattr : x.attr = y.attr := congrArg (·.attr) hcore
  rw [hkeeps.isInFlight, htarget, hattr]
  exact hfree y hy

end Work

/-- Propagation goes from one steady moment to the next. -/
theorem Runs.proceeds {k : Work} {w w' : World} (run : Runs k w w') {cs : List Change}
    (h : Announcing cs w) (hready : k.Ready w) (hfree : k.Free w) (hnan : w'.NaNFree) :
    Proceeds cs w w' ∧ k.Stands w' := by
  induction run generalizing cs with
  | unheard => exact ⟨h.proceeds_refl, hfree.1⟩
  | @heard c w w' _ _ ih =>
      obtain ⟨hheld, hflight, hknows⟩ := hfree
      obtain ⟨hproceeds, -⟩ := ih (h.beginFlight hheld hflight) trivial
        ((knows_congr (w.isAlive_beginFlight c) _).mpr hknows)
        (hnan.of_suffix (List.suffix_cons _ _))
      refine ⟨.flight h hheld hflight hproceeds, ?_⟩
      change (w'.endFlight c).attr? c.object c.attr = some c.new
      rw [attr?_endFlight]
      exact hproceeds.announcing.steady.held c List.mem_cons_self
  | delivered => exact ⟨h.proceeds_refl, trivial⟩
  | dropped _ _ ih => exact ih h trivial hfree hnan
  | @called c obs _ _ _ _ _ _ hobs hcall run runRest ih ihRest =>
      have hlog := h.proceeds_called c obs.id
      have hstart := h.network.ready (c := c) hobs hcall
      obtain ⟨hnet, hkeeps⟩ := run.keeps hlog.announcing.network hstart
      obtain ⟨-, hkeepsRest⟩ := runRest.keeps hnet trivial
      obtain ⟨hreact, -⟩ := ih hlog.announcing hstart hfree (hnan.of_suffix hkeepsRest.journal)
      obtain ⟨hrest, -⟩ := ihRest hreact.announcing trivial
        ((knows_congr hkeeps.isAlive _).mpr hfree) hnan
      exact ⟨(hlog.trans hreact).trans hrest, trivial⟩
  | skipped _ _ hn => exact ⟨h.proceeds_notices hn, trivial⟩
  | @refreshed _ b x result _ w₁ _ _ hx hbusy hflight hn _ hn' ih =>
      obtain ⟨hservice, -⟩ := of_binding? hx hready
      have howned := Binding.owned_of_idle hservice hbusy
      have hnoted := h.proceeds_notices hn
      rw [← hn.binding?] at hx
      have huse := hnoted.announcing.network.inUse _ (mem_of_binding? _ hx) hservice
      have hset := binding?_setBusy hx true
      have hstart : (Work.refresh b result).Free (w₁.setBusy b true) := by
        intro y hy
        obtain rfl := Option.some.inj (hset.symm.trans hy)
        exact (hn.keeps.isInFlight x.target x.attr).trans hflight
      obtain ⟨hwork, -⟩ := ih (hnoted.announcing.setBusy hx huse) ⟨_, hset, rfl⟩ hstart
        (hnan.of_suffix hn'.keeps.journal)
      have hdone := hnoted.trans (.work hnoted.announcing hx howned hbusy hwork)
      exact ⟨hdone.trans (hdone.announcing.proceeds_notices hn'), trivial⟩
  | answered hx hbusy _ hn ih =>
      obtain ⟨hservice, -⟩ := of_binding? hx hready
      have howned := Binding.owned_of_idle hservice hbusy
      have huse := h.network.inUse _ (mem_of_binding? _ hx) hservice
      obtain ⟨hwork, -⟩ := ih (h.setBusy hx huse) ⟨_, binding?_setBusy hx true, rfl⟩ hfree
        (hnan.of_suffix hn.keeps.journal)
      have hdone := Proceeds.work h hx howned hbusy hwork
      exact ⟨hdone.trans (hdone.announcing.proceeds_notices hn), trivial⟩
  | failed _ _ hsub hn =>
      obtain ⟨y, hy, hbusy⟩ := hready
      have heval := h.proceeds_evaluated hy hbusy hsub
      exact ⟨heval.trans (heval.announcing.proceeds_notices hn), trivial⟩
  | @evaluated b x v _ _ w _ w₂ _ hx hlook hsub hn _ ih =>
      have hbusy := of_binding? hx hready
      have huse := h.network.inUse x (mem_of_binding? _ hx) (Binding.inService_of_busy hbusy)
      have hknows : w.Knows v := huse.hostFree.look_gives h.intact.pervades (h.intact.bindings hx) v
        (congrArg Prod.fst hlook)
      have heval := h.proceeds_evaluated hx hbusy hsub
      have hnoted := heval.trans (heval.announcing.proceeds_notices hn)
      obtain ⟨hstore, -⟩ := ih hnoted.announcing (hnoted.keeps.exists_busy hx hbusy)
        ⟨hfree.refresh_keeps hnoted.keeps, (knows_congr hnoted.keeps.isAlive v).mpr hknows⟩ hnan
      exact ⟨hnoted.trans hstore, trivial⟩
  | bound hx _ _ ih => exact ⟨(ih h trivial (hfree.set_target h.network hready hx) hnan).1, trivial⟩
  | agreed hx _ _ _ ih =>
      exact ⟨(ih h trivial (hfree.set_target h.network hready hx) hnan).1, trivial⟩
  | handedBack hx _ run hne _ runSource ih =>
      -- What was written is still there, so there is nothing to hand back.
      obtain ⟨hnet, -⟩ := run.keeps h.network trivial
      obtain ⟨-, hkeeps⟩ := runSource.keeps hnet trivial
      obtain ⟨-, hstands⟩ := ih h trivial (hfree.set_target h.network hready hx)
        (hnan.of_suffix hkeeps.journal)
      exact absurd (hstands.symm.trans hne) (by simp)
  | unreturned hx _ _ hne _ ih =>
      obtain ⟨-, hstands⟩ := ih h trivial (hfree.set_target h.network hready hx) hnan
      exact absurd (hstands.symm.trans hne) (by simp)
  | sourceless => exact ⟨h.proceeds_refl, trivial⟩
  | sourceInFlight _ _ _ hn => exact ⟨h.proceeds_notices hn, trivial⟩
  | returned hx hsource hflight hn _ _ ih =>
      have hnoted := h.proceeds_notices hn
      obtain ⟨hset, -⟩ := ih hnoted.announcing trivial
        (hfree.set_source h hready hx hsource hflight hn) hnan
      exact ⟨hnoted.trans hset, trivial⟩
  | normalised hx hsource hflight hn run hne runTarget ih =>
      have hnoted := h.proceeds_notices hn
      obtain ⟨hnet, -⟩ := run.keeps hnoted.announcing.network trivial
      obtain ⟨-, hkeeps⟩ := runTarget.keeps hnet trivial
      obtain ⟨-, hstands⟩ := ih hnoted.announcing trivial
        (hfree.set_source h hready hx hsource hflight hn) (hnan.of_suffix hkeeps.journal)
      exact absurd (hstands.symm.trans hne) (by simp)
  | unchanged hold heq =>
      refine ⟨h.proceeds_refl, ?_⟩
      simpa [Work.Stands, stored, hold] using heq
  | @changed o attr v w w' _ run ih =>
      obtain ⟨halive, hflight, hknows⟩ := hfree
      have hwrite := h.proceeds_write _ halive hflight hknows
      have hself := w.attr?_write_self attr v halive
      obtain ⟨-, hkeeps⟩ := run.keeps hwrite.announcing.network trivial
      obtain ⟨hrest, hstands⟩ := ih hwrite.announcing trivial
        ⟨hself, (hwrite.keeps.isInFlight o attr).trans hflight,
          (knows_congr hwrite.keeps.isAlive v).mpr hknows⟩ hnan
      have hstored : w'.attr? o attr = some v := hstands
      have hwritten := hnan (.wrote o attr v) (hkeeps.journal.subset List.mem_cons_self)
      refine ⟨hwrite.trans hrest, ?_⟩
      simp only [Work.Stands, stored, hstored, Option.getD_some]
      exact v.beq_self hwritten

end LiveUI
