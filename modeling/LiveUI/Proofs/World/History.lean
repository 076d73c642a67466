import LiveUI.World.Basic

/-! # The last evaluation of a binding

The journal says what each evaluation of a binding came to and what it read. -/

namespace LiveUI

/-- What an entry says of an evaluation of a binding. -/
def Entry.evaluationOf? (b : Nat) : Entry → Option (Except EvalError Value × List (Handle × String))
  | .evaluated c result reads => if c = b then some (result, reads) else none
  | _ => none

/-- The value that a binding was evaluated to, according to an entry. -/
def Entry.valueOf? (b : Nat) (e : Entry) : Option Value :=
  match e.evaluationOf? b with
  | some (.ok v, _) => some v
  | _ => none

namespace World

/-- What the last evaluation of a binding came to, and what it read. -/
def lastEvaluation? (w : World) (b : Nat) :
    Option (Except EvalError Value × List (Handle × String)) :=
  w.journal.findSome? (Entry.evaluationOf? b)

def lastReads (w : World) (b : Nat) : List (Handle × String) :=
  (w.lastEvaluation? b).elim [] (·.2)

/-- The value of the last evaluation of a binding that had one. -/
def lastValue? (w : World) (b : Nat) : Option Value :=
  w.journal.findSome? (Entry.valueOf? b)

variable {w : World}

theorem lastEvaluation?_log (w : World) (e : Entry) (b : Nat) :
    (w.log e).lastEvaluation? b = (e.evaluationOf? b).or (w.lastEvaluation? b) := by
  simp only [lastEvaluation?, log, List.findSome?_cons]
  cases e.evaluationOf? b <;> rfl

theorem lastValue?_log (w : World) (e : Entry) (b : Nat) :
    (w.log e).lastValue? b = (e.valueOf? b).or (w.lastValue? b) := by
  simp only [lastValue?, log, List.findSome?_cons]
  cases e.valueOf? b <;> rfl

theorem lastEvaluation?_write (w : World) (o : Handle) (attr : String) (v : Value) (b : Nat) :
    (w.write o attr v).lastEvaluation? b = w.lastEvaluation? b :=
  lastEvaluation?_log _ (.wrote o attr v) b

theorem lastValue?_write (w : World) (o : Handle) (attr : String) (v : Value) (b : Nat) :
    (w.write o attr v).lastValue? b = w.lastValue? b :=
  lastValue?_log _ (.wrote o attr v) b

/-- An evaluation is the last one of its binding. -/
theorem lastEvaluation?_evaluated (w : World) (b : Nat) (result : Except EvalError Value)
    (reads : List (Handle × String)) (c : Nat) :
    (w.log (.evaluated b result reads)).lastEvaluation? c =
      if b = c then some (result, reads) else w.lastEvaluation? c := by
  rw [lastEvaluation?_log]
  by_cases hc : b = c <;> simp [Entry.evaluationOf?, hc]

theorem lastValue?_evaluated (w : World) (b : Nat) (result : Except EvalError Value)
    (reads : List (Handle × String)) (c : Nat) :
    (w.log (.evaluated b result reads)).lastValue? c =
      if b = c then result.toOption.or (w.lastValue? c) else w.lastValue? c := by
  rw [lastValue?_log]
  by_cases hc : b = c
  · cases result <;> simp [Entry.valueOf?, Entry.evaluationOf?, hc, Except.toOption]
  · simp [Entry.valueOf?, Entry.evaluationOf?, hc]

theorem lastReads_congr {w' : World} (h : ∀ b, w'.lastEvaluation? b = w.lastEvaluation? b)
    (b : Nat) : w'.lastReads b = w.lastReads b := by
  simp only [lastReads, h]

/-- Where nothing was evaluated there is no value. -/
theorem lastValue?_eq_none {b : Nat} (h : w.lastEvaluation? b = none) : w.lastValue? b = none := by
  simp only [lastEvaluation?, lastValue?, List.findSome?_eq_none_iff] at h ⊢
  intro e he
  simp only [Entry.valueOf?, h e he]

/-- The value of a last evaluation that had one. -/
theorem lastValue?_of_ok {b : Nat} {v : Value} {reads : List (Handle × String)}
    (h : w.lastEvaluation? b = some (.ok v, reads)) : w.lastValue? b = some v := by
  simp only [lastEvaluation?, lastValue?] at h ⊢
  generalize w.journal = journal at h ⊢
  induction journal with
  | nil => simp at h
  | cons e rest ih =>
      rw [List.findSome?_cons] at h ⊢
      cases he : e.evaluationOf? b with
      | none =>
          rw [he] at h
          simp only [Entry.valueOf?, he]
          exact ih h
      | some evaluation =>
          rw [he] at h
          obtain rfl := Option.some.inj h
          simp only [Entry.valueOf?, he]

/-- What a journal tells of, a longer one does too. -/
theorem exists_findSome?_of_suffix {α : Type} {f : Entry → Option α} {journal journal' : List Entry}
    (hsuffix : journal <:+ journal') {a : α} (h : journal.findSome? f = some a) :
    ∃ a', journal'.findSome? f = some a' := by
  obtain ⟨e, he, hentry⟩ := List.exists_of_findSome?_eq_some h
  refine Option.isSome_iff_exists.mp (List.findSome?_isSome_iff.mpr ⟨e, hsuffix.subset he, ?_⟩)
  rw [hentry]
  rfl

/-- The last evaluation is on record. -/
theorem evaluated_mem {b : Nat} {result : Except EvalError Value}
    {reads : List (Handle × String)} (h : w.lastEvaluation? b = some (result, reads)) :
    .evaluated b result reads ∈ w.journal := by
  obtain ⟨e, he, hentry⟩ := List.exists_of_findSome?_eq_some h
  cases e with
  | evaluated c r ps =>
      simp only [Entry.evaluationOf?] at hentry
      split at hentry
      next hc =>
        obtain ⟨rfl, rfl⟩ := by simpa using hentry
        exact hc ▸ he
      next => contradiction
  | _ => simp [Entry.evaluationOf?] at hentry

end World

end LiveUI
