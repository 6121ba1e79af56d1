import Ember.Eval.Error

/-!
# The call stack

One frame for each call that has not returned. The limit is checked when a frame is pushed: a call
that would go beyond it is refused and leaves the stack as it is.
-/

namespace Ember

/-- A call: the name it was made by and the place where it was made. -/
structure CallFrame where
  name : String
  position : Position
deriving DecidableEq

/-- How a frame is shown. -/
def CallFrame.render (f : CallFrame) : String := s!"{f.name} at {f.position.toText}"

/-- The frames of the calls that are under way, oldest first, and how many there may be. -/
structure CallStack where
  frames : Array CallFrame
  limit : Option Nat
deriving DecidableEq

namespace CallStack

/-- The limit when none is chosen. -/
def defaultLimit : Nat := 2000

/-- A stack without frames. -/
def empty (limit : Option Nat) : CallStack := ⟨#[], limit⟩

/-- The number of frames. -/
def depth (s : CallStack) : Nat := s.frames.size

/-- Whether there is no frame. -/
def isEmpty (s : CallStack) : Bool := s.frames.isEmpty

/-- The stack with one more frame, unless that is more than the limit allows. -/
def push (s : CallStack) (f : CallFrame) : Except Fault CallStack :=
  match s.limit with
  | none => .ok { s with frames := s.frames.push f }
  | some n =>
    if n ≤ s.depth then .error (.callDepth n) else .ok { s with frames := s.frames.push f }

/-- The stack without its newest frame. -/
def pop (s : CallStack) : CallStack := { s with frames := s.frames.pop }

/-- The newest frame. -/
def current? (s : CallStack) : Option CallFrame := s.frames.back?

/-- The frames, newest first. -/
def backtrace (s : CallStack) : List CallFrame := s.frames.toList.reverse

theorem pop_of_push {s t : CallStack} {f : CallFrame} (h : s.push f = .ok t) : t.pop = s := by
  unfold push at h
  repeat' split at h
  all_goals
    cases h
  all_goals simp [pop]

/-- Pushing a frame leaves the limit as it is. -/
theorem limit_of_push {s t : CallStack} {f : CallFrame} (h : s.push f = .ok t) :
    t.limit = s.limit := by
  unfold push at h
  repeat' split at h
  all_goals
    cases h
  all_goals rfl

theorem depth_of_push {s t : CallStack} {f : CallFrame} (h : s.push f = .ok t) :
    t.depth = s.depth + 1 := by
  unfold push at h
  repeat' split at h
  all_goals
    cases h
  all_goals simp [depth]

/-- A frame is pushed only where the limit leaves room for it. -/
theorem depth_lt_of_push {s t : CallStack} {f : CallFrame} {n : Nat} (h : s.push f = .ok t)
    (hlimit : s.limit = some n) : s.depth < n := by
  unfold push at h
  rw [hlimit] at h
  simp only at h
  split at h
  · cases h
  · omega

/-- A frame is refused only by a limit. -/
theorem of_push_error {s : CallStack} {f : CallFrame} {fault : Fault}
    (h : s.push f = .error fault) : ∃ n, fault = .callDepth n ∧ s.limit = some n := by
  unfold push at h
  split at h
  · cases h
  · next n hlimit =>
    split at h
    · cases h
      exact ⟨n, rfl, hlimit⟩
    · cases h

end CallStack

end Ember
