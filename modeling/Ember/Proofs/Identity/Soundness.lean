import Ember.Proofs.Identity.Reading
import Ember.Proofs.Value.Inserted

/-!
# The equality of the language is sound

Arrays, hashes and functions are compared by identity. Through a whole session this is what one
expects of it (`Moment.identity_sound`): two of them that are equal are the same in all they
contain, what a literal, `push` or `rest` makes is equal to nothing that was there before, and a
value that is bound, passed, returned or stored is read back as it was.
-/

namespace Ember

/-! ## What a literal stores -/

namespace Eval

variable {apply : Apply} {env : ScopeId} {m n : Machine}

variable (apply env)

/-- Pairs are evaluated in order, each to the entry that is stored for it. -/
inductive Stores : List (Expr × Expr) → Machine → List (HashKey × Value × Value) → Machine → Prop
  | nil (m : Machine) : Stores [] m [] m
  | cons {key value : Expr} {ps : List (Expr × Expr)} {hashKey : HashKey} {k v : Value}
      {es : List (HashKey × Value × Value)} {m m₁ m₂ n : Machine}
      (hk : expr apply env key m = .ok k m₁) (hkey : k.hashKey? = some hashKey)
      (hv : expr apply env value m₁ = .ok v m₂) (hps : Stores ps m₂ es n) :
      Stores ((key, value) :: ps) m ((hashKey, k, v) :: es) n

/-- What the value of a literal is made of. -/
inductive Builds (m : Machine) : Expr → Value → Prop
  | array {t : Token} {elements : List Expr} {vs : List Value} {n : Machine} (id : Identity)
      (h : exprs apply env elements m = .ok vs n) : Builds m (.array t elements) (.array id vs)
  | hash {t : Token} {ps : List (Expr × Expr)} {es : List (HashKey × Value × Value)}
      {entries : HashEntries} {n : Machine} (id : Identity) (h : Stores apply env ps m es n)
      (hentries : ∀ before key k v after, es = before ++ (key, k, v) :: after →
        key ∉ after.map Prod.fst → OrderedMap.get? entries key = some (k, v)) :
      Builds m (.hash t ps) (.hash id entries)
  | function (id : Identity) (f : FunctionLiteral) : Builds m (.function f) (.function id f env)

variable {apply env}

theorem stores_of_pairs : ∀ (ps : List (Expr × Expr)) {entries entries' : HashEntries}
    {m : Machine}, pairs apply env ps entries m = .ok entries' n →
      ∃ es, Stores apply env ps m es n ∧ entries' = OrderedMap.insertAll entries es
  | [], _, _, _, h => by
    cases h
    exact ⟨[], .nil _, rfl⟩
  | (key, value) :: ps, entries, entries', m, h => by
    rw [pairs] at h
    obtain ⟨k, m₁, hk, h⟩ := of_bind_ok h
    cases hkey : k.hashKey? with
    | none =>
      simp only [hkey] at h
      cases h
    | some hashKey =>
      simp only [hkey] at h
      obtain ⟨v, m₂, hv, h⟩ := of_bind_ok h
      obtain ⟨es, hstores, rfl⟩ := stores_of_pairs ps h
      exact ⟨(hashKey, k, v) :: es, .cons hk hkey hv hstores, rfl⟩

end Eval

/-- The expression is an array, a hash or a function literal. -/
def Expr.IsLiteral : Expr → Prop
  | .array _ _ | .hash _ _ | .function _ => True
  | _ => False

namespace Moment

variable {a b c : Moment} {v w : Value}

/-- A literal that has a value has made it, from the values of its parts. -/
theorem makes_of_literal (ha : a.Closed) {e : Expr} (hf : a.focus = .task (.expr e))
    (he : e.IsLiteral) {budget : Nat} {n : Machine}
    (h : Eval.expr (applyFunction budget) a.env e a.machine = .ok w n) :
    Eval.Builds (applyFunction budget) a.env a.machine e w ∧
      ∃ d, a.LeadsTo d ∧ d.Makes w ∧ d.next = { a with focus := .value w, machine := n } := by
  have hcalls := followsCalls_applyFunction budget
  obtain ⟨focus, env, pending, callers, m⟩ := a
  obtain rfl : focus = .task (.expr e) := hf
  let context : Context := ⟨env, pending, callers⟩
  -- The parts are evaluated first, and then one step makes the value.
  cases e with
  | array t es =>
    obtain ⟨vs, l, hvs, hw⟩ := Eval.of_bind_ok h
    cases hw
    have hfollows := follows_exprs hcalls es context ha.next
    rw [hvs] at hfollows
    let d := context.moment (.act (.array vs)) l
    have hmakes : d.Makes (.array l.heap.freshIdentity.1 vs) := ⟨_, rfl, .array vs⟩
    refine ⟨.array _ hvs, d, ?_, hmakes, hmakes.next_eq⟩
    exact .step (hfollows.leadsTo_of_ok.trans ⟨1, rfl⟩)
  | hash t ps =>
    obtain ⟨entries, l, hentries, hw⟩ := Eval.of_bind_ok h
    cases hw
    obtain ⟨es, hstores, hes⟩ := Eval.stores_of_pairs ps hentries
    have hfollows := follows_pairs hcalls ps context ha.next
    rw [hentries] at hfollows
    let d := context.moment (.act (.hash entries)) l
    have hmakes : d.Makes (.hash l.heap.freshIdentity.1 entries) := ⟨_, rfl, .hash entries⟩
    refine ⟨.hash _ hstores ?_, d, ?_, hmakes, hmakes.next_eq⟩
    · rintro before key k v after rfl hlast
      rw [hes]
      exact OrderedMap.get?_insertAll_append [] before after (k, v) hlast
    · exact .step (hfollows.leadsTo_of_ok.trans ⟨1, rfl⟩)
  | function f =>
    cases h
    let d := context.moment (.act (.function f)) m
    have hmakes : d.Makes (.function m.heap.freshIdentity.1 f env) := ⟨_, rfl, .function f⟩
    exact ⟨.function _ f, d, ⟨1, rfl⟩, hmakes, hmakes.next_eq⟩
  | _ => exact he.elim

theorem LeadsTo.before (h : b.LeadsTo c) (hab : a.Before b) : a.Before c :=
  h.invariant (fun _ hd => .next hd trivial) hab

theorem env_start (m : Machine) (env : ScopeId) (node : Node) : (start m env node).env = env := by
  cases node <;> rfl

/-- What the interpreter answers is the end of an evaluation of the session. -/
theorem Before.exists_outcome {m n : Machine} {env : ScopeId} {node : Node} {budget : Nat}
    {o : Outcome} (ha : a.Opens) (h : a.Before (start m env node))
    (heval : m.evalWith budget env node = (o, n)) (ho : o ≠ .exhausted) :
    ∃ d, a.Before d ∧ d.outcome? = some (o, n) := by
  have hclosed := h.closed (closed_of_opens ha)
  have hheap := hclosed.heap
  rw [machine_start] at hheap
  have henv : m.heap.Has env := by
    have henv := hclosed.env
    rwa [machine_start, env_start] at henv
  obtain ⟨k, hk⟩ := Machine.finishes_of_evalWith hheap henv heval ho
  exact ⟨_, LeadsTo.before ⟨k, rfl⟩ h, hk⟩

/--
A session is followed from its first moment. Of the values that are there at its moments, two that
are equal are the same if one of them is an array, a hash or a function. A value that is made is not
equal to any that is there or was there before. Array, hash and function literals have such values,
made of the values of their parts; `Action.Makes` says of which calls of `push` and `rest` this is
true. And whatever is bound, passed, returned or stored is handed on as it is.

The moments are those of the interpreter: the session goes through all that it answers.
-/
theorem identity_sound (ha : a.Opens) :
    (∀ b c v w, a.Before b → b.Before c → b.Has v → c.Has w → v.identity?.isSome = true →
      evalBinary v .eq w = .ok (.boolean true) ∨ evalBinary w .eq v = .ok (.boolean true) →
        v = w) ∧
    (∀ c w, a.Before c → c.Makes w → c.next.focus = .value w ∧
      ∀ b v, a.Before b → b.Before c → b.Has v →
        evalBinary v .eq w = .ok (.boolean false) ∧ evalBinary w .eq v = .ok (.boolean false)) ∧
    (∀ c e budget w n, a.Before c → c.focus = .task (.expr e) → e.IsLiteral →
      Eval.expr (applyFunction budget) c.env e c.machine = .ok w n →
        Eval.Builds (applyFunction budget) c.env c.machine e w ∧
          ∃ d, c.LeadsTo d ∧ a.Before d ∧ d.Makes w ∧
            d.next = { c with focus := .value w, machine := n }) ∧
    (∀ c, a.Before c → c.HandsOn) ∧
    ∀ m env node budget o n, a.Before (start m env node) →
      m.evalWith budget env node = (o, n) → o ≠ .exhausted →
        ∃ d, a.Before d ∧ d.outcome? = some (o, n) := by
  refine ⟨fun b c v w hab hbc hv hw hid h => ?_, fun c w hac hw => ⟨?_, ?_⟩, ?_,
    fun c hac => handsOn_of_before ha hac, ?_⟩
  · exact eq_of_evalBinary ha hab hbc hv hw hid h
  · rw [hw.next_eq]
  · exact fun b v hab hbc hv => Makes.differs ha hab hbc hw hv
  · intro c e budget w n hac hf he h
    obtain ⟨hbuilds, d, hleads, hmakes, hnext⟩ :=
      makes_of_literal (hac.closed (closed_of_opens ha)) hf he h
    exact ⟨hbuilds, d, hleads, hleads.before hac, hmakes, hnext⟩
  · exact fun m env node budget o n h heval ho => h.exists_outcome ha heval ho

/-- An empty array is bound and read. It is new when it is made, and the same when it is read. -/
theorem identity_sound_binding :
    let t := Token.endOfInput
    let name : Identifier := ⟨t, "a"⟩
    let p : Program := ⟨[.letBinding t name (.array t []), .expression t (.identifier name)], []⟩
    let a := start ⟨(Heap.empty.newScope none).2, .empty none, .fresh⟩ ⟨0⟩ (.program p)
    let v : Value := .array ⟨0⟩ []
    a.Opens ∧ (next^[4] a).Makes v ∧ (next^[12] a).focus = .value v ∧
      evalBinary .null .eq v = .ok (.boolean false) ∧ evalBinary v .eq v = .ok (.boolean true) := by
  intro t name p a v
  have hopens : a.Opens := ⟨_, _, rfl, rfl⟩
  obtain ⟨hsame, hnew, -, hhands, -⟩ := identity_sound hopens
  have hbefore : ∀ k, a.Before (next^[k] a) := fun k => LeadsTo.before ⟨k, rfl⟩ .refl
  have hmakes : (next^[4] a).Makes v := ⟨_, rfl, .array []⟩
  have hnull : a.Has .null := ⟨.null, List.mem_cons_self, .whole _⟩
  have hbound : (next^[7] a).machine.heap.Binds ⟨0⟩ "a" v :=
    (hhands _ (hbefore 5)).binding rfl rfl
  -- Between the binding and the lookup no name is bound.
  have hkept : ∀ b : Moment, (∀ q, b.focus ≠ .act q) → ¬b.Rebinds ⟨0⟩ "a" := by
    rintro b hb (⟨hf, _⟩ | ⟨hf, _⟩)
    · exact hb _ hf
    · exact hb _ hf
  have h7 : ¬(next^[7] a).Rebinds ⟨0⟩ "a" := hkept _ fun q hq => by cases hq
  have h8 : ¬(next^[8] a).Rebinds ⟨0⟩ "a" := hkept _ fun q hq => by cases hq
  have h9 : ¬(next^[9] a).Rebinds ⟨0⟩ "a" := hkept _ fun q hq => by cases hq
  have h10 : ¬(next^[10] a).Rebinds ⟨0⟩ "a" := hkept _ fun q hq => by cases hq
  have hthrough : (next^[7] a).Through (fun b => ¬b.Rebinds ⟨0⟩ "a") (next^[11] a) :=
    .next (.next (.next (.next .refl h7) h8) h9) h10
  have hread : (next^[12] a).focus = .value v :=
    congrArg focus ((hhands _ (hbefore 7)).lookup hbound hthrough rfl)
  refine ⟨hopens, hmakes, hread, ?_, ?_⟩
  · exact ((hnew _ v (hbefore 4) hmakes).2 a .null .refl (hbefore 4) hnull).1
  · exact (hhands _ (hbefore 12)).self (has_of_focus hread)

end Moment

end Ember
