import Ember.Proofs.Eval.Bare
import Ember.Proofs.Eval.Coupling
import Ember.Proofs.Eval.Stepwise

/-!
# Evaluation does not look at tokens

A machine without tokens goes in step with the machine (`Coupling.lawful_bare`). So whether tokens
are taken out before an evaluation or after it makes no difference (`Machine.evalWith_bare`).

Two programs that differ only in their tokens are therefore alike to everyone who runs them: both
end or neither does, and they print the same and end in values with the same text
(`Program.ends_alike`).
-/

namespace Ember

/-! ## With tokens and without -/

namespace Coupling

/-- The second machine is the first one without tokens, and evaluates trees without tokens. -/
def bare : Coupling := .ofMap (fun _ => .endOfInput) .bare

theorem same_bare (v : Value) : bare.Same v v.bare := same_ofMap_iff.mpr rfl

/-- The other frame is determined: it is the same one without its place. -/
theorem SameFrame.eq_bare {f g : CallFrame} (h : bare.SameFrame f g) : g = f.bare := by
  cases h
  rfl

/-- Every primitive step does without tokens what it does with them. -/
theorem lawful_bare : bare.Lawful where
  lookup := by
    rintro m _ i _ name rfl rfl -
    show Option.Rel _ (m.heap.lookup i name.name) (m.heap.bare.lookup i name.name)
    rw [Heap.lookup_bare]
    cases m.heap.lookup i name.name with
    | none => exact .none
    | some v => exact .some (same_bare v)
  set := by
    rintro m _ i _ name v w rfl rfl - hv
    obtain rfl := same_ofMap_iff.mp hv
    exact congrArg (Machine.mk · m.calls.bare m.printer) (m.heap.set_bare i name.name v)
  identity := by
    rintro m _ rfl
    exact ⟨rfl, rfl⟩
  newScope := by
    rintro m _ i _ rfl rfl
    have hnew := m.heap.newScope_bare (some i)
    exact ⟨(congrArg Prod.fst hnew).symm,
      congrArg (Machine.mk · m.calls.bare m.printer) (congrArg Prod.snd hnew)⟩
  pushFrame := by
    rintro m _ f g rfl hframe
    -- Whether there is room for a frame does not depend on its place.
    rw [hframe.eq_bare]
    show Agree _ (m.calls.push f) (m.calls.bare.push f.bare)
    rw [CallStack.push_bare]
    cases m.calls.push f with
    | ok calls => exact .ok rfl
    | error fault => exact .error fault
  popFrame := by
    rintro m _ rfl
    exact congrArg (Machine.mk m.heap.bare · m.printer) m.calls.pop_bare

/-- What is printed is decided by the values without their tokens. -/
theorem prints_bare : bare.Prints := by
  rintro m _ line rfl
  rfl

end Coupling

/-- The program without the tokens of its statements, and without diagnostics. -/
def Program.bare (p : Program) : Program := ⟨p.statements.map Stmt.bare, []⟩

/-- The node without its tokens. -/
def Node.bare : Node → Node
  | .program p => .program p.bare
  | .statement s => .statement s.bare
  | .expression e => .expression e.bare
  | .missing => .missing

/-- Each part of a program goes with itself without tokens. -/
theorem Coupling.sameNode_bare (node : Node) : bare.SameNode node node.bare := by
  cases node with
  | program p => exact .program (bodyHasShape_any p.statements) rfl
  | statement s => exact .statement s.hasShape_any
  | expression e => exact .expression e.hasShape_any
  | missing => exact .missing

/-- The end of an evaluation, without tokens. -/
abbrev Outcome.bare : Outcome → Outcome := mapTokens fun _ => .endOfInput

open Coupling

/-- A node is evaluated as it is without its tokens, on a machine without tokens. -/
theorem Machine.evalWith_bare (m : Machine) (budget : Nat) (env : ScopeId) (node : Node) :
    m.bare.evalWith budget env node.bare =
      ((m.evalWith budget env node).1.bare, (m.evalWith budget env node).2.bare) :=
  evalWith_ofMap lawful_bare prints_bare (sameNode_bare node) m budget env

/-! ## Programs that differ in their tokens -/

/-- A program that differs in its tokens only comes to the same, but for tokens. -/
theorem Machine.bare_evalWith_congr {p q : Program}
    (hpq : p.statements.map Stmt.bare = q.statements.map Stmt.bare) (m : Machine) (budget : Nat)
    (env : ScopeId) :
    (m.evalWith budget env (.program p)).1.bare = (m.evalWith budget env (.program q)).1.bare ∧
      (m.evalWith budget env (.program p)).2.bare =
        (m.evalWith budget env (.program q)).2.bare := by
  have hbare : (Node.program p).bare = (Node.program q).bare :=
    congrArg (fun ss => Node.program ⟨ss, []⟩) hpq
  have hp := m.evalWith_bare budget env (.program p)
  rw [hbare, m.evalWith_bare budget env (.program q)] at hp
  obtain ⟨houtcome, hmachine⟩ := Prod.mk.inj hp
  exact ⟨houtcome.symm, hmachine.symm⟩

/-- What can be seen of two values is the same. -/
structure Value.Alike (v w : Value) : Prop where
  type : v.type = w.type
  text : v.render = w.render
  message : ∀ text, v = .error text ↔ w = .error text

/-- An error value has no tokens in it. -/
theorem Value.error_bare_iff {v : Value} {text : String} :
    v.bare = .error text ↔ v = .error text := by
  cases v with
  | error _ => exact Iff.rfl
  | _ => exact ⟨nofun, nofun⟩

/-- Values that differ only in the tokens of their literals are alike. -/
theorem Value.alike_of_bare {v w : Value} (h : v.bare = w.bare) : v.Alike w where
  type := by rw [← (same_bare v).type, h, (same_bare w).type]
  text := by rw [← (same_bare v).render Like.render, h, (same_bare w).render Like.render]
  message text := by rw [← error_bare_iff, h, error_bare_iff]

/-- Two evaluations came to values of which the same can be seen, or to the same fault. -/
inductive Outcome.Alike : Outcome → Outcome → Prop
  | value {v w : Value} (h : v.Alike w) : Alike (.value v) (.value w)
  | fault (f : Fault) : Alike (.fault f) (.fault f)

theorem Outcome.bare_eq_exhausted_iff {o : Outcome} : o.bare = .exhausted ↔ o = .exhausted := by
  cases o with
  | exhausted => exact Iff.rfl
  | _ => exact ⟨nofun, nofun⟩

/-- Outcomes that differ only in tokens are alike, once there is an outcome. -/
theorem Outcome.alike_of_bare {o o' : Outcome} (h : o.bare = o'.bare) (ho : o ≠ .exhausted) :
    o.Alike o' := by
  cases o with
  | exhausted => exact absurd rfl ho
  | value v =>
    cases o' with
    | value w => exact .value (Value.alike_of_bare (Outcome.value.inj h))
    | _ => cases h
  | fault f =>
    cases o' with
    | fault g =>
      cases h
      exact .fault f
    | _ => cases h

/-- A machine that keeps what is printed, with a scope of its own and none around it. -/
def Machine.fresh (limit : Option Nat) : ScopeId × Machine :=
  (Machine.start limit .fresh).newScope none

namespace Program

variable {limit : Option Nat} {p q : Program} {o o' : Outcome} {n n' : Machine}

/-- On a fresh machine, the evaluation of the program ends after finitely many steps. -/
def Ends (limit : Option Nat) (p : Program) (o : Outcome) (n : Machine) : Prop :=
  (Machine.fresh limit).2.Finishes (Machine.fresh limit).1 (.program p) o n

/-- A program ends in a session of its own if some budget is enough for it there. -/
theorem ends_iff : p.Ends limit o n ↔ ∃ budget,
    (Machine.fresh limit).2.evalWith budget (Machine.fresh limit).1 (.program p) = (o, n) ∧
      o ≠ .exhausted :=
  Machine.finishes_iff (Heap.closed_empty.newScope nofun) Nat.zero_lt_one

/-- The evaluations of two programs that differ in their tokens end together. -/
theorem Ends.of_bare (hpq : p.statements.map Stmt.bare = q.statements.map Stmt.bare)
    (h : p.Ends limit o n) : ∃ o' n', q.Ends limit o' n' ∧ o.bare = o'.bare ∧ n.bare = n'.bare := by
  obtain ⟨budget, heval, ho⟩ := ends_iff.mp h
  obtain ⟨houtcome, hmachine⟩ :=
    (Machine.fresh limit).2.bare_evalWith_congr hpq budget (Machine.fresh limit).1
  obtain ⟨o', n', heval'⟩ : ∃ o' n', (Machine.fresh limit).2.evalWith budget
      (Machine.fresh limit).1 (.program q) = (o', n') := ⟨_, _, rfl⟩
  rw [heval, heval'] at houtcome hmachine
  refine ⟨o', n', ends_iff.mpr ⟨budget, heval', ?_⟩, houtcome, hmachine⟩
  rw [Ne, ← Outcome.bare_eq_exhausted_iff, ← houtcome, Outcome.bare_eq_exhausted_iff]
  exact ho

/--
Two programs that differ in their tokens do the same on fresh machines. They end together, in
values of which the same can be seen or in the same fault. They print the same and bind the same
names.
-/
theorem ends_alike (hpq : p.statements.map Stmt.bare = q.statements.map Stmt.bare)
    (limit : Option Nat) : ((∃ o n, p.Ends limit o n) ↔ ∃ o n, q.Ends limit o n) ∧
      ∀ o n o' n', p.Ends limit o n → q.Ends limit o' n' → o.Alike o' ∧ n.printer = n'.printer ∧
        n.heap.names (Machine.fresh limit).1 = n'.heap.names (Machine.fresh limit).1 := by
  refine ⟨⟨?_, ?_⟩, fun o n o' n' h h' => ?_⟩
  · rintro ⟨o, n, h⟩
    obtain ⟨o', n', h', -⟩ := h.of_bare hpq
    exact ⟨o', n', h'⟩
  · rintro ⟨o, n, h⟩
    obtain ⟨o', n', h', -⟩ := h.of_bare hpq.symm
    exact ⟨o', n', h'⟩
  · obtain ⟨o'', n'', h'', houtcome, hmachine⟩ := h.of_bare hpq
    obtain ⟨rfl, rfl⟩ := Machine.Finishes.unique h'' h'
    obtain ⟨_, _, ho⟩ := ends_iff.mp h
    have hprinter : n.bare.printer = n'.bare.printer := congrArg Machine.printer hmachine
    have hheap : n.heap.bare = n'.heap.bare := congrArg Machine.heap hmachine
    refine ⟨Outcome.alike_of_bare houtcome ho, hprinter, ?_⟩
    rw [← Heap.names_bare, hheap, Heap.names_bare]

end Program

end Ember
