import Ember.Tree.Transform
import Ember.Proofs.Recovery.Placeholders

/-!
# Transforming a program

To transform a program is to run along its statements. `Rewrites` says what such a run is: one call
for each statement in turn, each in the state that the call before it has left, and each statement
replaced as the answer for it says (`Node.Replaces`). `Node.transform` is that run
(`Rewrites.run_transform`), and a function that records what it is called with has each statement in
its record once and in order (`Rewrites.recorded`).

A function that answers with what it was given leaves the statements as they are exactly if every
expression statement has the token of its expression. The parser makes no others, so a program that
was parsed is left as it is, whether or not there are diagnostics.
-/

namespace Ember

/-- What is handed over for a statement: the expression of an expression statement, else itself. -/
def Stmt.handed : Stmt → Node
  | .expression _ e => .expression e
  | s => .statement s

theorem Stmt.transform_eq {m : Type → Type} (f : Node → m Node) (s : Stmt) :
    s.transform f = f s.handed := by
  cases s <;> rfl

/-- Nothing that is handed over is shaped like a program. -/
theorem Stmt.handed_ne (s : Stmt) : (∀ p, s.handed ≠ .program p) ∧ s.handed ≠ .missing := by
  cases s <;> exact ⟨nofun, nofun⟩

/-- By the answer, the statement stands where one with the token `token` stood. -/
inductive Node.Replaces (token : Token) : Node → Stmt → Prop
  | statement (s : Stmt) : Replaces token (.statement s) s
  | expression (e : Expr) : Replaces token (.expression e) (.expression e.token e)
  | program (p : Program) : Replaces token (.program p) (.missing token)
  | missing : Replaces token .missing (.missing token)

theorem Node.replaces_iff {token : Token} {answer : Node} {s : Stmt} :
    answer.Replaces token s ↔ answer.toStmt token = s := by
  constructor
  · intro h
    cases h <;> rfl
  · rintro rfl
    cases answer with
    | statement s => exact .statement s
    | expression e => exact .expression e
    | program p => exact .program p
    | missing => exact .missing

/-! ## One call for each statement -/

section Run

variable {σ : Type}

/--
From the state `a`, the function is called for each statement of the first list in turn. The answers
make the statements of the second list, and the last call leaves the state `b`.
-/
inductive Rewrites (f : Node → StateM σ Node) : σ → List Stmt → List Stmt → σ → Prop
  | nil (a : σ) : Rewrites f a [] [] a
  | cons {a b c : σ} {s t : Stmt} {ss ts : List Stmt} {answer : Node}
      (call : (f s.handed).run a = (answer, b)) (replaces : answer.Replaces s.token t)
      (rest : Rewrites f b ss ts c) : Rewrites f a (s :: ss) (t :: ts) c

/-- The function, with a record of what it was called with. -/
def recording (f : Node → StateM σ Node) (node : Node) : StateM (σ × List Node) Node :=
  fun (a, record) =>
    let (answer, b) := (f node).run a
    (answer, b, record ++ [node])

variable {f : Node → StateM σ Node} {a b : σ} {ss ts : List Stmt}

theorem exists_rewrites (f : Node → StateM σ Node) (ss : List Stmt) (a : σ) :
    ∃ ts b, Rewrites f a ss ts b := by
  induction ss generalizing a with
  | nil => exact ⟨[], a, .nil a⟩
  | cons s ss ih =>
    obtain ⟨answer, b, hcall⟩ : ∃ answer b, (f s.handed).run a = (answer, b) := ⟨_, _, rfl⟩
    obtain ⟨ts, c, hrest⟩ := ih b
    exact ⟨_ :: ts, c, .cons hcall (Node.replaces_iff.mpr rfl) hrest⟩

theorem run_bind_of_run {α β : Type} {r : StateM σ α} {v : α} (h : r.run a = (v, b))
    (g : α → StateM σ β) : (r >>= g).run a = (g v).run b := by
  show (g (r.run a).1).run (r.run a).2 = _
  rw [h]

namespace Rewrites

/-- There are as many statements as before. -/
theorem length_eq (h : Rewrites f a ss ts b) : ts.length = ss.length := by
  induction h with
  | nil => rfl
  | cons _ _ _ ih => rw [List.length_cons, List.length_cons, ih]

theorem run_mapM (h : Rewrites f a ss ts b) :
    (ss.mapM fun s => do return (← s.transform f).toStmt s.token : StateM σ (List Stmt)).run a =
      (ts, b) := by
  induction h with
  | nil => rfl
  | @cons a b c s t ss ts answer call replaces _ ih =>
    have hfirst : (do return (← s.transform f).toStmt s.token : StateM σ Stmt).run a = (t, b) := by
      rw [Stmt.transform_eq, run_bind_of_run call, Node.replaces_iff.mp replaces]
      rfl
    rw [List.mapM_cons, run_bind_of_run hfirst, run_bind_of_run ih]
    rfl

/-- A program is transformed by one run along its statements. -/
theorem run_transform {p : Program} (h : Rewrites f a p.statements ts b) :
    (Node.transform f (.program p)).run a = (.program ⟨ts, p.diagnostics⟩, b) := by
  rw [Node.transform, run_bind_of_run h.run_mapM]
  rfl

/-- The record of a run has what was handed over, each statement once and in order. -/
theorem recorded (h : Rewrites f a ss ts b) (record : List Node) :
    Rewrites (recording f) (a, record) ss ts (b, record ++ ss.map Stmt.handed) := by
  induction h generalizing record with
  | nil =>
    rw [List.map_nil, List.append_nil]
    exact .nil _
  | @cons a b c s t ss ts answer call replaces _ ih =>
    have hcall : (recording f s.handed).run (a, record) = (answer, b, record ++ [s.handed]) := by
      show ((f s.handed).run a).map id (fun b => (b, record ++ [s.handed])) = _
      rw [call]
      rfl
    have hrest := ih (record ++ [s.handed])
    rw [List.append_assoc, List.singleton_append] at hrest
    exact .cons hcall replaces hrest

end Rewrites

/-! ## Answering with what was given -/

/-- An expression statement has the token of its expression. -/
def Stmt.HasOwnToken : Stmt → Prop
  | .expression token e => token = e.token
  | _ => True

/-- A statement that is handed over and given back is the same if it has its own token. -/
theorem Stmt.handed_replaces_iff {s t : Stmt} (h : s.handed.Replaces s.token t) :
    t = s ↔ s.HasOwnToken := by
  rw [Node.replaces_iff] at h
  subst h
  cases s with
  | expression token e =>
    show Stmt.expression e.token e = .expression token e ↔ token = e.token
    rw [Stmt.expression.injEq, and_iff_left rfl, eq_comm]
  | _ => exact ⟨fun _ => trivial, fun _ => rfl⟩

/-- A function that gives back what it was given leaves exactly the statements with own tokens. -/
theorem Rewrites.eq_iff (hf : ∀ node a, ((f node).run a).1 = node) (h : Rewrites f a ss ts b) :
    ts = ss ↔ ∀ s ∈ ss, s.HasOwnToken := by
  induction h with
  | nil => exact ⟨fun _ => List.forall_mem_nil _, fun _ => rfl⟩
  | @cons a b c s t ss ts answer call replaces _ ih =>
    have hanswer : answer = s.handed := by rw [← hf s.handed a, call]
    rw [hanswer] at replaces
    rw [List.cons.injEq, ih, Stmt.handed_replaces_iff replaces, List.forall_mem_cons]

end Run

open Phrase in
theorem Stmt.hasOwnToken_of_phrase {ts us : List Token} {s : Stmt} {n : Nat}
    (h : Statement ts s n us) : s.HasOwnToken := by
  cases h with
  | ended _ _ | bare _ _ => rfl
  | letBinding _ _ _ _ _ | returning _ _ _ => trivial

/-- The parser makes an expression statement with the token of its expression. -/
theorem Program.hasOwnToken_of_mem_ofTokens {l : TokenList} {s : Stmt}
    (hs : s ∈ (ofTokens l).statements) : s.HasOwnToken := by
  rcases phrase_of_mem_readAll (Input.ended_ofList l) hs with hmissing | ⟨ts, n, us, -, -, hphrase⟩
  · cases s with
    | missing token => trivial
    | _ => exact absurd rfl hmissing
  · exact Stmt.hasOwnToken_of_phrase hphrase

/--
With a function that keeps a state, a program is transformed statement by statement. The function is
called once for each statement, in order, with the expression of an expression statement and with
any other statement itself, never with a program. A record of its calls shows that. Its answers
replace the statements, as many as there were, and the diagnostics stay. If the function gives back
whatever it is given, the program of a source text stays what it is.
-/
theorem Node.transform_statementwise :
    (∀ {σ : Type} (f : Node → StateM σ Node) (p : Program) (a : σ), ∃ ts b,
      Rewrites f a p.statements ts b ∧ ts.length = p.statements.length ∧
        (Node.transform f (.program p)).run a = (.program ⟨ts, p.diagnostics⟩, b) ∧
        (Node.transform (recording f) (.program p)).run (a, []) =
          (.program ⟨ts, p.diagnostics⟩, b, p.statements.map Stmt.handed) ∧
        ∀ node ∈ p.statements.map Stmt.handed, (∀ q, node ≠ .program q) ∧ node ≠ .missing) ∧
    ∀ {σ : Type} (f : Node → StateM σ Node), (∀ node a, ((f node).run a).1 = node) →
      ∀ (source : String) (a : σ),
        ((Node.transform f (.program (.ofSource source))).run a).1 =
          .program (.ofSource source) := by
  refine ⟨fun f p a => ?_, fun f hf source a => ?_⟩
  · obtain ⟨ts, b, h⟩ := exists_rewrites f p.statements a
    refine ⟨ts, b, h, h.length_eq, h.run_transform, (h.recorded []).run_transform, ?_⟩
    exact List.forall_mem_map.mpr fun s _ => s.handed_ne
  · obtain ⟨ts, b, h⟩ := exists_rewrites f (Program.ofSource source).statements a
    have heq := (h.eq_iff hf).mpr fun s hs => Program.hasOwnToken_of_mem_ofTokens hs
    rw [h.run_transform, heq]

/-- A function that counts its calls is called for both statements, also for the one that failed. -/
theorem Node.transform_statementwise_counting :
    let count : Node → StateM Nat Node := fun node n => (node, n + 1)
    (∀ node n, ((count node).run n).1 = node) ∧
      (Program.ofSource "1 + ; f(2)").hasDiagnostics = true ∧
      (Node.transform count (.program (.ofSource "1 + ; f(2)"))).run 0 =
        (.program (.ofSource "1 + ; f(2)"), 2) := by
  intro count
  have hcount : ∀ node n, ((count node).run n).1 = node := fun _ _ => rfl
  have hsame := Node.transform_statementwise.2 count hcount "1 + ; f(2)" 0
  refine ⟨hcount, by decide +kernel, Prod.ext hsame ?_⟩
  decide +kernel

end Ember
