import Ember.Eval.CallStack
import Ember.Heap

/-!
# The machine

What evaluation reads and changes: the heap, the call stack and the printed text. A step of
evaluation either gives a value or unwinds, and in both cases the machine that it leaves comes with
the answer.
-/

namespace Ember

/-- Where printed lines go. -/
inductive Printer where
  /-- Lines are dropped. -/
  | silent
  /-- Lines are kept, each with a line feed. -/
  | buffer (text : String)
deriving DecidableEq

namespace Printer

/-- A printer that keeps lines and has none yet. -/
def fresh : Printer := .buffer ""

/-- Prints one line. -/
def println (line : String) : Printer → Printer
  | silent => silent
  | buffer text => buffer (text ++ line ++ "\n")

/-- The text kept so far. -/
def text : Printer → String
  | silent => ""
  | buffer text => text

/-- Forgets the text kept so far. -/
def clear : Printer → Printer
  | silent => silent
  | buffer _ => buffer ""

end Printer

/-- The state of an interpreter. -/
structure Machine where
  heap : Heap
  calls : CallStack
  printer : Printer

/-- A machine before its first evaluation. -/
def Machine.start (limit : Option Nat) (printer : Printer) : Machine :=
  ⟨.empty, .empty limit, printer⟩

/-- Why a step of evaluation did not give a value. -/
inductive Unwind where
  /-- A `return` on its way to the end of the body. -/
  | returning (value : Value)
  | error (e : RuntimeError)
  | fault (f : Fault)
  /-- The budget of nested calls was used up. -/
  | exhausted

/-- A step of evaluation. -/
abbrev Eval := EStateM Unwind Machine

namespace Eval

/-- Raises a runtime error where there is one. -/
def ofExcept {α : Type} : Except RuntimeError α → Eval α
  | .ok a => pure a
  | .error e => throw (.error e)

/-- Runs a change of the heap that gives a result. -/
def onHeap {α : Type} (change : Heap → α × Heap) : Eval α :=
  modifyGet fun m => let (a, heap) := change m.heap; (a, { m with heap })

/-- A value that is given a new identity. -/
def allocate (make : Identity → Value) : Eval Value := do
  return make (← onHeap Heap.freshIdentity)

/-- Prints one line. -/
def println (line : String) : Eval Unit :=
  modify fun m => { m with printer := m.printer.println line }

/-- The machine with the newest frame popped. -/
def popFrame (m : Machine) : Machine := { m with calls := m.calls.pop }

/--
Runs the body of a call with a frame on the stack. However the body ends, the frame is popped; a
`return` ends here.
-/
def inFrame (frame : CallFrame) (body : Eval Value) : Eval Value := fun m =>
  match m.calls.push frame with
  | .error f => .error (.fault f) m
  | .ok calls =>
    match body { m with calls } with
    | .ok v m => .ok v (popFrame m)
    | .error (.returning v) m => .ok v (popFrame m)
    | .error u m => .error u (popFrame m)

end Eval

end Ember
