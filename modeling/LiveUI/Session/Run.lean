import LiveUI.Session.Expressions
import LiveUI.Session.Views

/-!
# Running a session

Each command answers, or is refused, and has the events that happened meanwhile: all reports, and
the notices of the levels that are shown. Between commands the objects that nobody refers to any
more are reclaimed.
-/

namespace LiveUI.Session

open LiveUI.Template

/-- Give an observer to an attribute. -/
def observeAttr (subscription : String) (o : Handle) (attr : String) (actions : List Action) :
    Performing Answer := do
  let _ ← inWorld <| Host.run announcing <|
    .observe o attr (Action.observer subscription actions) fun s =>
      keepSubscription subscription s .skip
  return .done

/-- Carry out a command. -/
def perform : Command → Performing Answer
  | .name name t => do
      keepValue name (← inWorld t.force)
      return .done
  | .object name typeName attrs => do
      let attrs ← inWorld (forceAll attrs)
      let o ← inWorld (modifyGet (·.create typeName attrs))
      keepValue name (.object o)
      return .identity (some o)
  | .forget name => do
      change fun w => { w with memory := w.memory.forget name }
      return .done
  | .read o attr => do
      let o ← namedObject o
      return .value (← orRefuse .missing ((← theWorld).attr? o attr))
  | .has o attr => do
      let o ← namedObject o
      return .flag ((← theWorld).attr? o attr).isSome
  | .set o attr t => do
      let o ← namedObject o
      return .flag (← inWorld do setAttr announcing o attr (← t.force))
  | .emit o attr t => do
      let o ← namedObject o
      inWorld do emitAttr announcing o attr (← t.force)
      return .done
  | .addChild parent child => do
      let parent ← namedObject parent
      let child ← namedObject child
      change (·.addChild parent child)
      return .done
  | .setPhase o phase => do
      let o ← namedObject o
      change (·.setPhase o phase)
      return .done
  | .destroy o => do
      let o ← namedObject o
      change (·.destroy o)
      return .done
  | .describe o => do
      let o ← namedObject o
      let w ← theWorld
      return .object (.of w (← orRefuse .unknown (w.object? o)))
  | .evaluate code => evaluate code
  | .showFrom level => do
      modifyThe Session ({ · with level })
      return .done
  | .observe subscription o attr actions => do
      observeAttr subscription (← namedObject o) attr actions
  | .unobserve subscription => do
      let _ ← inWorld ((dropSubscription subscription .skip).run announcing)
      return .done
  | .observedBy subscription => do
      let w ← theWorld
      return .identity (((w.memory.subscription? subscription).map (·.object)).filter w.isAlive)
  | .countObservers o attr => do
      let o ← namedObject o
      return .count ((← theWorld).observersOf o attr).length
  | .bind name op o attr code => do bindAttr name op (← namedObject o) attr code
  | .binding name => do return .binding (.of (← namedBinding name))
  | .disconnect name => do
      let b ← namedBinding name
      change (·.disconnect b.id)
      return .done
  | .define name t => do
      let v ← inWorld t.force
      modifyThe Session fun s => { s with globals := s.globals ++ [(name, v)] }
      return .done
  | .component typeName spec => register typeName (return .component (← spec.make))
  | .factory typeName spec => register typeName spec.make
  | .contains typeName => do
      return .flag ((← getThe Session).registry.contains typeName)
  | .compile source => compile source
  | .compilePlan plan => compilePlan plan
  | .register => registerModule
  | .call view define args keywords => callDefine view define args keywords
  | .build view => buildModule view
  | .exported view name => do
      return .value (← orRefuse .missing ((← namedView view).get? name))
  | .pick name view selector index => do pickFrom name (← namedView view) selector index
  | .trees view => do return .trees (← treesOf (← namedView view))
  | .destroyView view => do
      inWorld (← namedView view).destroy
      return .done
  | .dropView view => return .flag (← letGoOfView view)
  | .listing what => return .text (← listed what)

/-! ## Events -/

/-- What a step shows of the journal. -/
inductive Event where
  | report (r : Report)
  | notice (n : Notice)

def Event.ofEntry? (level : Level) : Entry → Option Event
  | .report r => some (.report r)
  | .notice n => if n.level.rank ≤ level.rank then some (.notice n) else none
  | _ => none

structure Outcome where
  result : Except Refusal Answer
  events : List Event

/-- Carry out a command with a journal of its own, then reclaim what nobody refers to. There is no
outcome where announcements or factories are nested too deep. -/
def step (s : Session) (c : Command) : Option (Outcome × Session) := do
  let (result, s) ← (perform c).run { s with world := { s.world with journal := [] } }
  let events := s.world.journal.reverse.filterMap (Event.ofEntry? s.level)
  return (⟨result, events⟩, { s with world := s.world.reclaim s.retained })

/-- Carry out commands one after another. -/
def steps (s : Session) : List Command → Option (List Outcome × Session)
  | [] => some ([], s)
  | c :: cs => do
      let (outcome, s) ← s.step c
      let (outcomes, s) ← s.steps cs
      return (outcome :: outcomes, s)

end LiveUI.Session
