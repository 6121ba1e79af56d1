import Ember.Proofs.Cursor.Onward
import Ember.Proofs.Recovery.Balanced

/-!
# What every rule promises

A rule starts with the cursor on its first token. If it succeeds it leaves the cursor on the last
token that it has taken, and the braces among the tokens it has taken are balanced. If it fails it
leaves the cursor on the token that it reports. This holds of every rule (`Production.contract`) in
any list, from any position and with any number of levels open, and it is what recovery relies on.

Which tokens a rule has taken is for the grammar on inputs to say: those that are in front of the
cursor when the rule starts and not behind it when it ends.
-/

namespace Ember

namespace Cursor

variable {c d : Cursor} {start : Nat}

/-! ## The tokens up to a cursor -/

/-- The tokens from `start` up to the one at the position. -/
def since (c : Cursor) (start : Nat) : List Token := (c.tokens.take (c.position + 1)).drop start

/-- Unless the cursor is on an end of input, these tokens end in the one it is on. -/
theorem getLast?_since (hle : start ≤ c.position) (hne : c.current.kind ≠ .eof) :
    (c.since start).getLast? = some c.current := by
  unfold since
  rw [drop_take_succ c hle]
  cases ht : c.tokens[c.position]? with
  | none =>
    -- Past the tokens of the list the cursor is on an end of input.
    unfold current at hne
    rw [ht] at hne
    exact absurd rfl hne
  | some t =>
    unfold current
    rw [ht, Option.toList_some, List.getLast?_concat, Option.getD_some]

variable {o : Cursor} {i j : Input}

/-- What was pending at a cursor, up to another one and behind that. -/
theorem pending_eq_since (hc : On o c i) (hd : Before o d j)
    (h : j.pending.length ≤ i.pending.length) :
    i.pending = d.since c.position ++ j.pending := by
  have hpending := pending_eq_append hc hd.advance h
  rw [← hd.advance.follows.tokens, advance_of_ne hd.kind_current] at hpending
  exact hpending

/-- A cursor on an input has the whole of it ahead, but for another end of the input. -/
theorem On.ahead_eq (h : On o c i) (hending : i.ending = o.ahead.ending) : c.ahead = i := by
  obtain ⟨pending, ending⟩ := i
  have hc : c.ahead.ending = ending := h.follows.ending.trans hending.symm
  rw [← hc, ← show c.ahead.pending = pending from h.pending]

end Cursor

/-! ## The rules -/

/--
The rules of the grammar. The loops inside a rule and the semicolon behind a statement are parts of
these rules: they begin on a token that is not theirs.
-/
inductive Production
  | statement
  | block
  | expression (above : Precedence)
  | level (above : Precedence)
  | operand
  | unary
  | conditional
  | parameters
  | expressions (closing : Kind)
  | operatorAfter (left : Expr)

namespace Production

open Cursor Grammar

/-- What a rule answers. -/
def Answer : Production → Type
  | statement => Stmt
  | block => Block
  | parameters => List Identifier
  | expressions _ => List Expr
  | _ => Expr

/-- The rule by position. -/
def walk : (p : Production) → Nat → Walk p.Answer
  | statement, n => Walk.statement n
  | block, n => Walk.block n
  | expression above, n => Walk.expression n above
  | level above, n => Walk.level n above
  | operand, n => Walk.operand n
  | unary, n => Walk.unary n
  | conditional, n => Walk.conditional n
  | parameters, n => Walk.parameters n
  | expressions closing, n => Walk.expressions n closing
  | operatorAfter left, n => Walk.operatorAfter n left

/-- The rule on inputs, with so many levels left. -/
def rule : (p : Production) → Nat → Rule p.Answer
  | statement, levels => Grammar.statement (Grammar.expression levels)
  | block, levels => Grammar.block (Grammar.expression levels)
  | expression above, levels => Grammar.expression levels above
  | level above, levels => Grammar.expression levels above
  | operand, levels => Grammar.operand (Grammar.expression levels)
  | unary, levels => Grammar.unary (Grammar.expression levels)
  | conditional, levels => Grammar.conditional (Grammar.expression levels)
  | parameters, _ => Grammar.parameters
  | expressions closing, levels =>
    Rule.advance >>= fun _ => Grammar.expressions (Grammar.expression levels) closing
  | operatorAfter left, levels => Grammar.operatorAfter (Grammar.expression levels) left

/-- Which tokens the rule may start on. A rule with no token of its own may start on any. -/
def Begins : Production → Kind → Prop
  | block, kind => kind = .lBrace
  | conditional, kind => kind = .kwIf
  | parameters, kind => kind = .lParen
  | expressions closing, kind =>
    kind = .lParen ∧ closing = .rParen ∨ kind = .lBracket ∧ closing = .rBracket
  | _, _ => True

/--
How a rule ends that starts at `c`. What it has read are the tokens from there up to the one that
the cursor is left on, and their braces are balanced. What it could not read is the token that the
cursor is left on, and this is the one in the diagnostic.
-/
inductive Contract (p : Production) (c : Cursor) : Prop
  | read (a : p.Answer) (d : Cursor) (hwalk : Comes (fun n => p.walk n c) (.ok a, d))
      (hrule : p.rule (maxNesting - c.nesting) c.ahead = .ok a d.advance.ahead)
      (htaken : c.ahead = d.advance.ahead.prepend (d.since c.position))
      (hlast : (d.since c.position).getLast? = some d.current)
      (hbraces : Balanced (d.since c.position)) (hposition : c.position ≤ d.position)
  | reported (reason : Diagnostic.Reason) (d : Cursor)
      (hwalk : Comes (fun n => p.walk n c) (.error ⟨reason, d.current⟩, d))
      (hrule : p.rule (maxNesting - c.nesting) c.ahead = .error ⟨reason, d.current⟩ d.ahead)
      (hposition : c.position ≤ d.position)

/-! ## By position and on inputs -/

theorem agreesInside (o : Cursor) : AgreesInside o (Grammar.expression (maxNesting - o.nesting)) :=
  ⟨agreesExpr o, takes_expression _, takes_statement _, takes_pair _⟩

theorem matches_some {α : Type} {o : Cursor} {w : Nat → Option (Except Diagnostic α × Cursor)}
    {r : EStateM.Result Diagnostic Input α} (h : Matches (Before o) (On o) w r) :
    Matches (BeforeSome o) (OnSome o) w r :=
  h.mono (fun _ _ hs => ⟨o.nesting, hs⟩) fun _ _ hf => ⟨o.nesting, hf⟩

theorem matches_rule (p : Production) (c : Cursor) (h : p.Begins c.current.kind) :
    Matches (BeforeSome c) (OnSome c) (fun n => p.walk n c)
      (p.rule (maxNesting - c.nesting) c.ahead) := by
  have hc := On.refl c
  have he := agreesInside c
  have hhead : ∀ kind, c.current.kind = kind → c.ahead.head.kind = kind := fun kind hk => by
    rw [head_ahead, hk]
  cases p with
  | statement => exact matches_some (matches_statement_expression hc)
  | block => exact matches_some (matches_block he.agrees he.takes_statement hc (hhead _ h))
  | expression above => exact matches_some (he.agrees above _ _ hc)
  | level above => exact matches_level above rfl (fun m _ _ => agreesInside (c.atLevel m)) hc
  | operand => exact matches_some (matches_operand he hc)
  | unary => exact matches_some (matches_unary he.agrees hc)
  | conditional =>
    exact matches_some (matches_conditional he.agrees he.takes_statement hc (hhead _ h))
  | parameters =>
    have hopen := hhead _ h
    have hbefore := hc.before (by rw [hopen]; decide)
    show Matches _ _ _ (Grammar.parameters _)
    -- The procedure begins behind the parenthesis that the rule takes.
    unfold Grammar.parameters
    rw [Rule.bind_of_ok (Rule.expect_of_eq hopen)]
    exact matches_some (matches_parameters hbefore)
  | expressions closing =>
    have hne : c.ahead.head.kind ≠ .eof ∧ closing ≠ .eof := by
      rcases h with ⟨hopen, rfl⟩ | ⟨hopen, rfl⟩ <;> rw [hhead _ hopen] <;> decide
    exact matches_some (matches_expressions hne.2 he.agrees he.takes (hc.before hne.1))
  | operatorAfter left => exact matches_some (matches_operatorAfter he left hc)

theorem balances (p : Production) (levels : Nat) {i : Input} (hi : i.Ended)
    (h : p.Begins i.head.kind) : Balances (p.rule levels) i := by
  have he := local_expression levels
  have ht := tractable levels he
  cases p with
  -- A statement may take the semicolon that ends it. Outside of braces no local rule takes one.
  | statement => exact .of_settles hi (settles_statement he hi)
  | block => exact .of_local hi (local_block he ht.takes_statement hi)
  | expression above | level above => exact .of_local hi (he above 0 i hi)
  | operand => exact .of_local hi (local_operand ht hi)
  | unary => exact .of_local hi (local_unary he hi)
  | conditional => exact .of_local hi (local_conditional he ht.takes_statement hi)
  | parameters => exact .of_local hi (local_parameters hi)
  | expressions closing =>
    have hopen : nestKind i.head.kind 0 = some 0 := by
      rcases h with ⟨hopen, -⟩ | ⟨hopen, -⟩ <;> rw [hopen] <;> rfl
    refine .of_local hi ((Rule.Local.advance hi hopen).andThen hi fun _ j hj => ?_)
    exact local_separated (h.imp And.right And.right) ht.takes (he .lowest 0) hj
  | operatorAfter left => exact .of_local hi (local_operatorAfter ht left hi)

/-- Every rule leaves as many levels open as it found, but for the inside of an expression. -/
theorem steady (p : Production) (hp : ∀ above, p ≠ .level above) (n : Nat) :
    Keeps Steady (p.walk n) := by
  have h := steadyAt n
  cases p with
  | statement => exact h.statement
  | block => exact h.block
  | expression above => exact h.expression above
  | level above => exact absurd rfl (hp above)
  | operand => exact h.operand
  | unary => exact h.unary
  | conditional => exact h.conditional
  | parameters => exact .parameters n
  | expressions closing => exact h.expressions closing
  | operatorAfter left => exact h.operatorAfter left

theorem onward (p : Production) (n : Nat) : Keeps Onward (p.walk n) := by
  by_cases hp : ∃ above, p = .level above
  · obtain ⟨above, rfl⟩ := hp
    exact (steadyAt n).level above
  · exact (p.steady (fun above h => hp ⟨above, h⟩) n).onward

/-! ## The contract -/

theorem position_le_of_comes {p : Production} {c d : Cursor} {result : Except Diagnostic p.Answer}
    (h : Comes (fun n => p.walk n c) (result, d)) : c.position ≤ d.position := by
  obtain ⟨n, hn⟩ := h
  exact (p.onward n (hn n (Nat.le_refl n))).position

/-- Where a rule stops on an input, the cursor stops in what lay ahead of it. -/
theorem ahead_eq_of_onSome {c d : Cursor} {j : Input} {taken : List Token}
    (hij : c.ahead = j.prepend taken) (h : OnSome c d j) : d.ahead = j := by
  obtain ⟨n, hd⟩ := h
  exact hd.ahead_eq (congrArg Input.ending hij).symm

theorem contract (p : Production) (c : Cursor) (h : p.Begins c.current.kind) : p.Contract c := by
  have hmatches := p.matches_rule c h
  have hbalances := p.balances (maxNesting - c.nesting) (On.refl c).ended (by rwa [head_ahead])
  generalize hr : p.rule (maxNesting - c.nesting) c.ahead = result at hmatches
  cases hmatches with
  | @ok a d j hwalk hs =>
    obtain ⟨taken, hij, hbalanced⟩ := hbalances.ok hr
    obtain ⟨n, hd⟩ := hs
    have hj : d.advance.ahead = j := ahead_eq_of_onSome hij ⟨n, hd.advance⟩
    have hle := position_le_of_comes hwalk
    -- The cursor has gone past as many tokens as the rule has taken from the input.
    have htaken : d.since c.position = taken := by
      have hpending := pending_eq_since ((On.refl c).atLevel n) hd (by simp [hij])
      rw [hij, Input.prepend_pending] at hpending
      exact (List.append_cancel_right hpending).symm
    refine .read a d hwalk ?_ ?_ (getLast?_since hle hd.kind_current) ?_ hle
    · rw [hr, hj]
    · rw [hj, htaken, hij]
    · rw [htaken]
      exact hbalanced
  | @error reason d j hwalk hf =>
    -- Both stop in front of the same token, so it is the same one that they report.
    obtain ⟨taken, hij⟩ := hbalances.error hr
    have hj : d.ahead = j := ahead_eq_of_onSome hij hf
    refine .reported reason d hwalk ?_ (position_le_of_comes hwalk)
    rw [hr, ← hj, head_ahead]

end Production

open Cursor in
/--
Every rule keeps its contract: in any list, from any position with a token that it may start on and
with any number of levels open, it ends as `Production.Contract` says. No rule moves the cursor
back, from wherever it starts and however deep its calls may go. An expression leaves as many levels
open as it found, whether it is read or fails. So every statement of a program begins with none.
-/
theorem rules_keep_contract :
    (∀ (p : Production) (c : Cursor), p.Begins c.current.kind → p.Contract c) ∧
    (∀ (p : Production) (n : Nat) (c d : Cursor) (result : Except Diagnostic p.Answer),
      p.walk n c = some (result, d) → d.tokens = c.tokens ∧ c.position ≤ d.position) ∧
    (∀ (n : Nat) (above : Precedence) (c d : Cursor) (result : Except Diagnostic Expr),
      Walk.expression n above c = some (result, d) → d.nesting = c.nesting) ∧
    ∀ (l : TokenList) (c : Cursor), Turn l c → c.tokens = l.tokens ∧ c.nesting = 0 := by
  refine ⟨Production.contract, fun p n c d result h => ?_, fun n above c d result h => ?_,
    fun l c h => ?_⟩
  · have honward := p.onward n h
    exact ⟨honward.tokens, honward.position⟩
  · exact ((Production.expression above).steady nofun n h).nesting
  · have hsteady := steady_of_turn h
    exact ⟨hsteady.tokens, hsteady.nesting⟩

open Cursor in
/-- A body in braces, seven levels deep in a list. -/
theorem rules_keep_contract_body :
    let c : Cursor :=
      ⟨[.synthetic .ident "x", .synthetic .lBrace "\x7b", .synthetic .rBrace "\x7d"], 1, 7⟩
    c.current.kind = .lBrace ∧ Production.block.Contract c ∧
      (∃ result d, Walk.expression 9 .lowest c = some (result, d) ∧ d.nesting = 7) ∧
      (∃ b d, Walk.block 9 c = some (.ok b, d) ∧ 1 ≤ d.position) ∧
      Turn ⟨c.tokens⟩ (start ⟨c.tokens⟩) ∧ (start ⟨c.tokens⟩).nesting = 0 := by
  intro c
  have hkind : c.current.kind = .lBrace := by decide
  have hturn : Turn ⟨c.tokens⟩ (start ⟨c.tokens⟩) := .first (by decide)
  refine ⟨hkind, rules_keep_contract.1 .block c hkind, ?_, ?_, hturn, ?_⟩
  · exact ⟨_, _, rfl, rules_keep_contract.2.2.1 9 .lowest c _ _ rfl⟩
  · exact ⟨_, _, rfl, (rules_keep_contract.2.1 .block 9 c _ _ rfl).2⟩
  · exact (rules_keep_contract.2.2.2 _ _ hturn).2

end Ember
