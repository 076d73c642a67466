import LiveUI.Proofs.Value.Equality
import LiveUI.Proofs.World.Settling

/-! # Delegates between fixed attributes

The expression of such a delegate is an attribute of an object that never changes: it reads that
attribute whenever it is evaluated, and denotes it when the target is written back. -/

namespace LiveUI

namespace Code

/-- The code is an attribute of one object, whatever the world. -/
def Denotes (frame : Frame) (code : Code) (o : Handle) (attr : String) : Prop :=
  ∃ base, code = .attr base attr ∧
    (base = .const (.object o) ∨ ∃ n, base = .slot n ∧ frame.get n = .object o)

variable {frame : Frame} {code : Code} {o : Handle} {attr : String}

theorem Denotes.eval_eq (h : Denotes frame code o attr) (apply : Apply) :
    code.eval apply { frame } = Evaluation.readAttr (.object o) attr := by
  obtain ⟨base, rfl, rfl | ⟨n, rfl, hget⟩⟩ := h
  · simp only [eval, pure_bind]
  · simp only [eval, hget, pure_bind]

theorem Denotes.hostFree (h : Denotes frame code o attr) : code.HostFree { frame } := by
  obtain ⟨base, rfl, rfl | ⟨n, rfl, -⟩⟩ := h
  · exact .of_callsBuiltins rfl _
  · exact .of_callsBuiltins rfl _

theorem Denotes.look_eq (h : Denotes frame code o attr) (w : World) :
    code.look { frame } w =
      ((w.attr? o attr).elim (.error (.missingAttribute o.typeName attr)) .ok, [(o, attr)]) := by
  have hevaluate : code.evaluate builtinsOnly { frame } true w =
      some (((w.attr? o attr).elim (.error (.missingAttribute o.typeName attr)) .ok,
        [(o, attr)]), w) := by
    rw [evaluate_eq_outcome, h.eval_eq, Evaluation.outcome_readAttr]
    simp [Reads.note, Reads.contains]
  simp only [look, hevaluate]

end Code

namespace Binding

/-- The attribute at the other end of a delegate. -/
def Joins (x : Binding) (o : Handle) (attr : String) : Prop :=
  x.code.Denotes x.frame o attr

theorem SamePlan.joins {x y : Binding} (h : x.SamePlan y) {o : Handle} {attr : String} :
    x.Joins o attr ↔ y.Joins o attr := by
  rw [Joins, Joins, h.code, h.frame]

variable {x : Binding} {o : Handle} {attr : String}

theorem Joins.look_eq (h : x.Joins o attr) (w : World) :
    x.look w =
      ((w.attr? o attr).elim (.error (.missingAttribute o.typeName attr)) .ok, [(o, attr)]) :=
  Code.Denotes.look_eq h w

theorem Joins.source_eq (h : x.Joins o attr) (w : World) : x.source w = .ok (o, attr) := by
  obtain ⟨base, hcode, hbase⟩ := h
  have hvalue : base.look { frame := x.frame } w = (.ok (.object o), []) := by
    obtain rfl | ⟨n, rfl, hget⟩ := hbase
    · rfl
    · rw [← hget]
      rfl
  simp only [source, hcode, Code.attrPath?, hvalue]

/-- There is one attribute only. -/
theorem Joins.unique (h : x.Joins o attr) {p : Handle} {other : String} (h' : x.Joins p other) :
    p = o ∧ other = attr := by
  have heq := (h.source_eq default).symm.trans (h'.source_eq default)
  simpa [eq_comm] using heq

end Binding

/-- What a delegate with its other end at `o` hears of in a role. -/
def Role.place (x : Binding) (o : Handle) (attr : String) : Role → Handle × String
  | .source => (o, attr)
  | .target => (x.target, x.attr)

namespace World

variable {w w' : World}

/-- All bindings in service are delegates between attributes of objects that are alive. -/
def Delegates (w : World) : Prop :=
  ∀ b x, w.binding? b = some x → x.inService = true →
    x.kind = .delegate ∧ ∃ o attr, x.Joins o attr ∧ w.isAlive o = true

theorem Delegates.samePlans (h : Delegates w) (hplans : SamePlans w w')
    (halive : ∀ o, w'.isAlive o = w.isAlive o) : Delegates w' := by
  intro b x' hx' hservice
  obtain ⟨x, hx, hplan, heq⟩ := hplans b x' hx'
  obtain ⟨hkind, o, attr, hjoins, hlive⟩ := h b x hx (heq.symm.trans hservice)
  exact ⟨hplan.kind.trans hkind, o, attr, hplan.joins.mpr hjoins, (halive o).trans hlive⟩

theorem Delegates.keeps (h : Delegates w) (hkeeps : Keeps w w') : Delegates w' :=
  h.samePlans hkeeps.samePlans hkeeps.isAlive

theorem Delegates.alike (h : Delegates w) (halike : Alike w w') : Delegates w' :=
  h.samePlans halike.plans halike.isAlive

/-- What a delegate has read is the attribute at its other end. -/
def Listening (w : World) : Prop :=
  ∀ b x, w.binding? b = some x → x.inService = true → ∀ o attr, x.Joins o attr →
    ∀ result reads, w.lastEvaluation? b = some (result, reads) → reads = [(o, attr)]

theorem Listening.of_same (h : Listening w) (hplans : SamePlans w w')
    (hlast : ∀ b, w'.lastEvaluation? b = w.lastEvaluation? b) : Listening w' := by
  intro b x' hx' hservice o attr hjoins result reads hreads
  obtain ⟨x, hx, hplan, heq⟩ := hplans b x' hx'
  rw [hlast] at hreads
  exact h b x hx (heq.symm.trans hservice) o attr (hplan.joins.mp hjoins) result reads hreads

theorem Listening.alike (h : Listening w) (halike : Alike w w') : Listening w' :=
  h.of_same halike.plans halike.lastEvaluation?

theorem Listening.evaluated (h : Listening w) {b : Nat} {x : Binding}
    {result : Except EvalError Value} {reads : List (Handle × String)}
    (heval : Evaluated w b result reads w') (hx : w.binding? b = some x)
    (hlook : x.look w = (result, reads)) : Listening w' := by
  intro c y' hy' hservice o attr hjoins result' reads' hlast
  obtain ⟨y, hy, hplan, heq⟩ := heval.keeps.samePlans c y' hy'
  rw [heval.lastEvaluation?] at hlast
  split at hlast
  next hc =>
    subst hc
    obtain rfl := Option.some.inj (hx.symm.trans hy)
    rw [(hplan.joins.mp hjoins).look_eq] at hlook
    rw [← hlook] at hlast
    simpa [eq_comm] using congrArg (Option.map (·.2)) hlast
  next hc =>
    exact h c y hy (heq.symm.trans hservice) o attr (hplan.joins.mp hjoins) result' reads' hlast

theorem Listening.durable : Durable Listening where
  same h hplans hlast := h.of_same hplans hlast
  evaluated h heval hx hlook := h.evaluated heval hx hlook

/-- Whatever is owned has been evaluated. -/
def Started (w : World) : Prop :=
  ∀ b x, w.binding? b = some x → x.owned = true →
    ∃ evaluation, w.lastEvaluation? b = some evaluation

theorem Started.of_journal (h : Started w) (hjournal : w.journal <:+ w'.journal)
    (hbinding : ∀ b x', w'.binding? b = some x' → x'.owned = true →
      ∃ x, w.binding? b = some x ∧ x.owned = true) : Started w' := by
  intro b x' hx' howned'
  obtain ⟨x, hx, howned⟩ := hbinding b x' hx' howned'
  obtain ⟨evaluation, hlast⟩ := h b x hx howned
  exact exists_findSome?_of_suffix hjournal hlast

theorem Started.keeps (h : Started w) (hkeeps : Keeps w w') : Started w' := by
  refine h.of_journal hkeeps.journal fun b x' hx' howned => ?_
  obtain ⟨x, hx, hcore⟩ := hkeeps.exists_binding? hx'
  exact ⟨x, hx, (congrArg (·.owned) hcore).symm.trans howned⟩

theorem Started.setBusy (h : Started w) (b : Nat) (busy : Bool) : Started (w.setBusy b busy) := by
  refine h.of_journal (List.suffix_refl _) fun c x' hx' howned => ?_
  rw [World.setBusy, binding?_modifyBinding w b c (f := fun x => { x with busy }) fun _ => rfl]
    at hx'
  split at hx'
  · obtain ⟨x, hx, rfl⟩ := Option.map_eq_some_iff.mp hx'
    exact ⟨x, hx, howned⟩
  · exact ⟨x', hx', howned⟩

end World

open World

/-! ## Meshes -/

namespace World

variable {w w' : World}

/-- A network of delegates between fixed attributes. -/
structure Mesh (w : World) : Prop where
  network : Network w
  delegates : Delegates w
  listening : Listening w
  started : Started w

namespace Mesh

variable {b : Nat} {x : Binding}

theorem log (h : Mesh w) {e : Entry} (he : ∀ b, e.evaluationOf? b = none) : Mesh (w.log e) :=
  ⟨h.network.log he, h.delegates.alike (.log w he), h.listening.alike (.log w he),
    h.started.keeps (.log w e)⟩

theorem notices (h : Mesh w) (hn : Notices w w') : Mesh w' :=
  ⟨hn.network h.network, h.delegates.alike (.notices hn), h.listening.alike (.notices hn),
    h.started.keeps hn.keeps⟩

theorem beginFlight (h : Mesh w) (c : Change) : Mesh (w.beginFlight c) :=
  ⟨h.network.beginFlight c, h.delegates.alike (.beginFlight w c),
    h.listening.alike (.beginFlight w c),
    h.started.of_journal (List.suffix_cons _ _) fun _ x hx howned => ⟨x, hx, howned⟩⟩

theorem write (h : Mesh w) (o : Handle) (attr : String) (v : Value) : Mesh (w.write o attr v) := by
  have hkeeps := Keeps.write w o attr v
  exact ⟨h.network.write o attr v, h.delegates.keeps hkeeps,
    h.listening.of_same hkeeps.samePlans (w.lastEvaluation?_write o attr v),
    h.started.keeps hkeeps⟩

theorem setBusy (h : Mesh w) (hx : w.binding? b = some x) (howned : x.owned = true) :
    Mesh (w.setBusy b true) := by
  have huse := h.network.inUse x (w.mem_of_binding? hx) (by simp [Binding.inService, howned])
  have halike := Alike.setBusy hx howned true
  exact ⟨h.network.setBusy hx huse, h.delegates.alike halike, h.listening.alike halike,
    h.started.setBusy b true⟩

theorem evaluated (h : Mesh w) {result : Except EvalError Value} {reads : List (Handle × String)}
    (heval : Evaluated w b result reads w') (hx : w.binding? b = some x)
    (hlook : x.look w = (result, reads)) : Mesh w' :=
  ⟨heval.network, h.delegates.keeps heval.keeps, h.listening.evaluated heval hx hlook,
    h.started.keeps heval.keeps⟩

theorem run (h : Mesh w) {k : Work} (run : Runs k w w') (hready : k.Ready w) : Mesh w' := by
  obtain ⟨hnet, hkeeps⟩ := run.keeps h.network hready
  exact ⟨hnet, h.delegates.keeps hkeeps, Listening.durable.runs run h.network hready h.listening,
    h.started.keeps hkeeps⟩

/-- The other end of a delegate that is owned is all that it read last. -/
theorem lastReads (h : Mesh w) (hx : w.binding? b = some x) (howned : x.owned = true) {o : Handle}
    {attr : String} (hjoins : x.Joins o attr) : w.lastReads b = [(o, attr)] := by
  obtain ⟨⟨result, reads⟩, hlast⟩ := h.started b x hx howned
  have hreads := h.listening b x hx (by simp [Binding.inService, howned]) o attr hjoins result
    reads hlast
  simp only [World.lastReads, hlast, Option.elim, hreads]

/-- The source of a delegate at work is the attribute at its other end. -/
theorem joins_of_source (h : Mesh w) (hx : w.binding? b = some x) (hbusy : x.busy = true)
    {o : Handle} {attr : String} {w' : World} (hsource : x.source w' = .ok (o, attr)) :
    x.Joins o attr ∧ w.isAlive o = true := by
  obtain ⟨-, p, other, hjoins, halive⟩ := h.delegates b x hx (Binding.inService_of_busy hbusy)
  obtain ⟨rfl, rfl⟩ : p = o ∧ other = attr := by simpa [hjoins.source_eq] using hsource
  exact ⟨hjoins, halive⟩

theorem source_ne_error (h : Mesh w) (hx : w.binding? b = some x) (hbusy : x.busy = true)
    {e : EvalError} (w' : World) : x.source w' ≠ .error e := by
  obtain ⟨-, o, attr, hjoins, -⟩ := h.delegates b x hx (Binding.inService_of_busy hbusy)
  rw [hjoins.source_eq]
  nofun

/-- What a delegate hears of is one of its ends. -/
theorem end_of_observer (h : Mesh w) {o : Handle} {obs : Observer} (hobs : obs ∈ w.observers o)
    {role : Role} (hcall : obs.callback = role.callback b) (hx : w.binding? b = some x) {p : Handle}
    {other : String} (hjoins : x.Joins p other) :
    (role.place x p other).1.id = o.id ∧ (role.place x p other).2 = obs.attr := by
  cases role with
  | source =>
      obtain ⟨y, hy, hservice, q, hq, hid, hattr⟩ := h.network.exists_read hobs hcall
      obtain rfl := Option.some.inj (hx.symm.trans hy)
      cases hlast : w.lastEvaluation? b with
      | none => simp [World.lastReads, hlast] at hq
      | some evaluation =>
          obtain ⟨result, reads⟩ := evaluation
          have hreads := h.listening b x hx hservice p other hjoins result reads hlast
          simp only [World.lastReads, hlast, Option.elim, hreads, List.mem_singleton] at hq
          rw [hq] at hid hattr
          exact ⟨hid, hattr⟩
  | target =>
      obtain ⟨y, hy, -, -, hid, hattr⟩ := h.network.exists_target hobs hcall
      obtain rfl := Option.some.inj (hx.symm.trans hy)
      exact ⟨hid, hattr⟩

end Mesh

end World

end LiveUI
