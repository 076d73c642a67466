import LiveUI.Template.View
import LiveUI.World.Reclaim

/-!
# What templates hold on to

The values that compiled programs, factories and views refer to. An object among them stays alive.
-/

namespace LiveUI.Template

def Build.retained (b : Build) : List Value :=
  b.args.flatMap Code.constants ++ b.keywords.flatMap (·.2.constants)

def Op.retained : Op → List Value
  | .build b => b.retained
  | .assign target _ value _ => target.base.constants ++ value.constants
  | .close => []

def Program.retained (p : Program) : List Value :=
  p.ops.flatMap Op.retained

def CompiledDefine.retained (d : CompiledDefine) : List Value :=
  d.params.filterMap (·.2) ++ d.program.retained

def CompiledModule.retained (m : CompiledModule) : List Value :=
  m.defines.flatMap CompiledDefine.retained ++ m.constructs.flatMap (·.program.retained)

def Factory.retained : Factory → List Value
  | .component c => c.defaults.map (·.2)
  | .define d => d.retained
  | .alias _ => []
  | .procedure _ keeps => keeps

def Registry.retained (r : Registry) : List Value :=
  r.factories.flatMap (·.2.retained)

def View.retained (v : View) : List Value :=
  (Instance.walkAll none v.roots).map (.object ·.1.object) ++ v.exports.map (·.2)

end LiveUI.Template
