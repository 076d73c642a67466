import LiveUI.World.Propagation

/-! # Closing code over frames

A binding of a template holds code with slots and the frame that the slots are read from. Closed, it
holds code in which the values of the slots have taken their places, and no frame. A world in which
every binding has been closed goes on as before. -/

namespace LiveUI

namespace Code

mutual

/-- The code with the values of the slots put in. -/
def close (frame : Frame) : Code → Code
  | const v => const v
  | slot n => const (frame.get n)
  | change => change
  | list items => list (closeAll frame items)
  | attr value a => attr (close frame value) a
  | index value i => index (close frame value) (close frame i)
  | call func args => call (close frame func) (closeAll frame args)
  | unary op operand => unary op (close frame operand)
  | binary op left right => binary op (close frame left) (close frame right)
  | boolOp op left right => boolOp op (close frame left) (close frame right)
  | ifElse body condition otherwise =>
      ifElse (close frame body) (close frame condition) (close frame otherwise)

def closeAll (frame : Frame) : List Code → List Code
  | [] => []
  | c :: cs => close frame c :: closeAll frame cs

end

mutual

/-- Closed code has no slots. -/
theorem close_close (frame frame' : Frame) : ∀ code : Code,
    (code.close frame).close frame' = code.close frame
  | const _ => by simp only [close]
  | slot _ => by simp only [close]
  | change => by simp only [close]
  | list items => by simp only [close, closeAll_closeAll frame frame' items]
  | attr value a => by simp only [close, close_close frame frame' value]
  | index value i => by
      simp only [close, close_close frame frame' value, close_close frame frame' i]
  | call func args => by
      simp only [close, close_close frame frame' func, closeAll_closeAll frame frame' args]
  | unary op operand => by simp only [close, close_close frame frame' operand]
  | binary op left right => by
      simp only [close, close_close frame frame' left, close_close frame frame' right]
  | boolOp op left right => by
      simp only [close, close_close frame frame' left, close_close frame frame' right]
  | ifElse body condition otherwise => by
      simp only [close, close_close frame frame' body, close_close frame frame' condition,
        close_close frame frame' otherwise]

theorem closeAll_closeAll (frame frame' : Frame) : ∀ codes : List Code,
    closeAll frame' (closeAll frame codes) = closeAll frame codes
  | [] => by simp only [closeAll]
  | c :: cs => by
      simp only [closeAll, close_close frame frame' c, closeAll_closeAll frame frame' cs]

end

mutual

/-- Closed code comes to the same without a frame. -/
theorem eval_close (apply : Apply) (frame : Frame) (v : Value) : ∀ code : Code,
    (code.close frame).eval apply ⟨{}, v⟩ = code.eval apply ⟨frame, v⟩
  | const _ => by simp only [close, eval]
  | slot _ => by simp only [close, eval]
  | change => by simp only [close, eval]
  | list items => by simp only [close, eval, evalAll_closeAll apply frame v items]
  | attr value a => by simp only [close, eval, eval_close apply frame v value]
  | index value i => by
      simp only [close, eval, eval_close apply frame v value, eval_close apply frame v i]
  | call func args => by
      simp only [close, eval, eval_close apply frame v func, evalAll_closeAll apply frame v args]
  | unary op operand => by simp only [close, eval, eval_close apply frame v operand]
  | binary op left right => by
      simp only [close, eval, eval_close apply frame v left, eval_close apply frame v right]
  | boolOp op left right => by
      cases op <;>
        simp only [close, eval, eval_close apply frame v left, eval_close apply frame v right]
  | ifElse body condition otherwise => by
      simp only [close, eval, eval_close apply frame v body, eval_close apply frame v condition,
        eval_close apply frame v otherwise]

theorem evalAll_closeAll (apply : Apply) (frame : Frame) (v : Value) : ∀ codes : List Code,
    evalAll apply ⟨{}, v⟩ (closeAll frame codes) = evalAll apply ⟨frame, v⟩ codes
  | [] => by simp only [closeAll, evalAll]
  | c :: cs => by
      simp only [closeAll, evalAll, eval_close apply frame v c, evalAll_closeAll apply frame v cs]

end

theorem evaluate_close (apply : Apply) (frame : Frame) (v : Value) (recording : Bool)
    (code : Code) : (code.close frame).evaluate apply ⟨{}, v⟩ recording =
      code.evaluate apply ⟨frame, v⟩ recording := by
  simp only [evaluate, eval_close]

theorem value_close (apply : Apply) (frame : Frame) (v : Value) (code : Code) :
    (code.close frame).value apply ⟨{}, v⟩ = code.value apply ⟨frame, v⟩ := by
  simp only [value, evaluate_close]

theorem attrPath?_close (frame : Frame) (code : Code) :
    (code.close frame).attrPath? = code.attrPath?.map fun p => (p.1.close frame, p.2) := by
  cases code <;> simp [close, attrPath?]

end Code

/-- A binding without a frame. -/
def Binding.closed (x : Binding) : Binding :=
  { x with code := x.code.close x.frame, frame := {}, run := none }

namespace World

/-- The world with all bindings closed. Runs matter to nobody then. -/
def closed (w : World) : World :=
  { w with bindings := w.bindings.map Binding.closed, runs := [], nextRun := 0 }

end World

end LiveUI
