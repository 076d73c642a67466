import LiveUI.Template.Run

/-!
# Views

A finished tree with the values that its template exports. Its life has been started; letting go of
it destroys its roots.
-/

namespace LiveUI.Template

structure View where
  roots : List Instance
  exports : List (String × Value)

namespace View

/-- The value of an exported name. -/
def get? (v : View) (name : String) : Option Value :=
  (v.exports.find? (·.1 == name)).map (·.2)

/-- The first node of a type in the tree of the first root. -/
def find? (v : View) (typeName : String) : Option Instance :=
  v.roots.head?.bind (·.find? typeName)

/-- The node that a path of positions leads to, a root first. -/
def path? (v : View) : List Nat → Option Instance
  | [] => none
  | i :: is => (v.roots[i]?).bind (descend is)
where
  descend : List Nat → Instance → Option Instance
    | [], node => some node
    | i :: is, node => (node.children[i]?).bind (descend is)

def destroy (v : View) : Step Unit :=
  v.roots.forM fun root => modify (·.destroy root.object)

end View

/-- How deep announcements and factories may be nested. -/
structure Limits where
  announcements : Nat
  factories : Nat

/-- Start the life of what a run has built. -/
def Built.finish (announce : Announce) (b : Built) : Building View := do
  ExceptT.lift (runLifecycle announce b.roots)
  return ⟨b.roots, b.exports⟩

/-- Call a define: a fresh tree with its life started. -/
def CompiledDefine.call (limits : Limits) (registry : Registry) (d : CompiledDefine)
    (args : List Value) (keywords : List (String × Value)) : Building View := do
  let announce := announce limits.announcements
  ExceptT.lift (Step.notice (.calling d.name registry.name))
  let built ← d.instantiate announce registry (Factory.build announce registry limits.factories)
    args keywords
  built.finish announce

/-- Build a construct that stands by itself. -/
def CompiledConstruct.view (limits : Limits) (registry : Registry) (c : CompiledConstruct) :
    Building View := do
  let announce := announce limits.announcements
  let built ← c.program.run announce registry
    (Factory.build announce registry limits.factories) (Frame.ofSize c.program.slots)
  built.finish announce

/-- Build constructs one after another. Where one fails the ones before it are destroyed. -/
def buildViews (limits : Limits) (registry : Registry) :
    List CompiledConstruct → List View → Building (List View)
  | [], done => return done
  | c :: cs, done => do
      match ← ExceptT.lift (c.view limits registry).run with
      | .ok v => buildViews limits registry cs (done ++ [v])
      | .error e =>
          ExceptT.lift (done.forM View.destroy)
          throw e

/-- Every construct of a module, in the order of its text. -/
def CompiledModule.build (limits : Limits) (registry : Registry) (m : CompiledModule) :
    Building (List View) :=
  buildViews limits registry m.constructs []

end LiveUI.Template
