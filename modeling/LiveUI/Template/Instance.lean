import LiveUI.World.Propagation

/-!
# Instances

The tree that a template builds: each node has its object, the hooks of its toolkit and its
children. A tree that is complete is led through the phases of its life, each phase over the whole
tree, parents first, before the next one starts.
-/

namespace LiveUI.Template

/-- What a toolkit does when an object enters a phase. Only `create` is told the parent. -/
structure Hooks where
  create : Handle → Option Handle → Host := fun _ _ => .skip
  prepare : Handle → Host := fun _ => .skip
  bind : Handle → Host := fun _ => .skip

structure Instance where
  object : Handle
  hooks : Hooks := {}
  children : List Instance := []

namespace Instance

/-- A child is attached in the tree of instances; `World.addChild` attaches its object. -/
def adopt (i child : Instance) : Instance :=
  { i with children := i.children ++ [child] }

mutual

/-- The nodes of a tree with their parents, parents first. -/
def walk (parent : Option Handle) : Instance → List (Instance × Option Handle)
  | ⟨object, hooks, children⟩ =>
      (⟨object, hooks, children⟩, parent) :: walkAll (some object) children

def walkAll (parent : Option Handle) : List Instance → List (Instance × Option Handle)
  | [] => []
  | i :: is => walk parent i ++ walkAll parent is

end

/-- The first node of a type, parents first. -/
def find? (i : Instance) (typeName : String) : Option Instance :=
  ((i.walk none).find? (·.1.object.typeName == typeName)).map (·.1)

end Instance

/-- The routine of a node for the phase that it enters. -/
def Hooks.routine (hooks : Hooks) (phase : Phase) (o : Handle) (parent : Option Handle) : Host :=
  match phase with
  | .created => hooks.create o parent
  | .initialized => hooks.prepare o
  | _ => hooks.bind o

/-- One node enters a phase. -/
def enterPhase (announce : Announce) (phase : Phase) (i : Instance) (parent : Option Handle) :
    Step Unit := do
  modify (·.setPhase i.object phase)
  modify (·.log (.hooked phase i.object parent))
  let _ ← (i.hooks.routine phase i.object parent).run announce
  return ()

/-- Lead finished trees through the phases of their life. -/
def runLifecycle (announce : Announce) (roots : List Instance) : Step Unit :=
  [Phase.created, .initialized, .bound].forM fun phase => do
    (Instance.walkAll none roots).forM fun (i, parent) => enterPhase announce phase i parent
    Step.notice (.lifecycle phase roots.length)

end LiveUI.Template
