import LiveUI.World.Basic

/-!
# Destroying objects

An object is destroyed together with the tree below it, children first. Its bindings are
disconnected, its observers dropped and its ties to parent and children cut; its attributes stay.
The phase is set before anything else, so a tree with cycles is gone through once.
-/

namespace LiveUI.World

/-- Cut an object off whose children are destroyed already. -/
def dismantle (w : World) (o : Handle) : World :=
  let owned := ((w.object? o).map (·.bindings)).getD []
  let w := w.modifyObject o fun x => { x with bindings := [] }
  let w := owned.foldl disconnect w
  let w := owned.foldl (fun w b => w.modifyBinding b fun x => { x with owned := false }) w
  let w := w.modifyObject o fun x => { x with observers := [], parent := none }
  w.notice (.destroyed o)

/-- Destroy an object; below it at most `depth` further objects are entered on any path. -/
def destroyTo : (depth : Nat) → World → Handle → World
  | 0, w, _ => w
  | depth + 1, w, o =>
      match w.object? o with
      | none => w
      | some x =>
          if x.phase = .destroyed then w
          else
            let w := w.modifyObject o fun x => { x with phase := .destroyed, children := [] }
            (x.children.foldl (destroyTo depth) w).dismantle o

/-- Destroy an object and everything below it. Each object that is entered was not destroyed before,
so no path is longer than the number of objects. -/
def destroy (w : World) (o : Handle) : World :=
  destroyTo w.objects.length w o

end LiveUI.World
