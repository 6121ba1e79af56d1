import Ember.Proofs.Canonical.Pieces
import Ember.Proofs.Grammar.Soundness
import Ember.Proofs.Text.Decimal
import Ember.Proofs.Tree.Tokens

/-!
# The pieces of a tree are a phrase

Tokens that spell the pieces of a writable tree are a phrase of the grammar. The grammar gives it
the same tree again but for the tokens, and counts the levels that the tree says
(`phrase_of_pieces`, `statement_of_pieces`).

The printer puts parentheses around everything but atoms and calls, so every expression is an
operation of the stratum of applications, with its chain of calls at the left edge.
-/

namespace Ember

open Phrase

/-! ## Tokens that spell pieces -/

/-- The tokens `ts` begin with tokens that have the pieces `ps`, and `us` is left behind them. -/
def Spells : List Token → List Piece → List Token → Prop
  | ts, [], us => ts = us
  | [], _ :: _, _ => False
  | t :: ts, p :: ps, us => t.piece = p ∧ Spells ts ps us

namespace Spells

variable {ts us : List Token} {ps qs : List Piece} {kind : Kind} {literal : String}

/-- Tokens spell their own pieces. -/
theorem of_map (ts : List Token) : Spells ts (ts.map Token.piece) [] := by
  induction ts with
  | nil => rfl
  | cons t ts ih => exact ⟨rfl, ih⟩

/-- The first piece is the first token. -/
theorem of_cons (h : Spells ts ((kind, literal) :: ps) us) :
    ∃ t vs, ts = t :: vs ∧ t.kind = kind ∧ t.literal = literal ∧ Spells vs ps us := by
  cases ts with
  | nil => exact absurd h id
  | cons t vs =>
    obtain ⟨hp, hvs⟩ := h
    exact ⟨t, vs, rfl, congrArg Prod.fst hp, congrArg Prod.snd hp, hvs⟩

/-- What two runs of pieces spell may be cut between them. -/
theorem of_append (h : Spells ts (ps ++ qs) us) : ∃ vs, Spells ts ps vs ∧ Spells vs qs us := by
  induction ps generalizing ts with
  | nil =>
    cases ts with
    | nil => exact ⟨[], rfl, h⟩
    | cons t ts => exact ⟨t :: ts, rfl, h⟩
  | cons p ps ih =>
    cases ts with
    | nil => exact absurd h id
    | cons t ts =>
      obtain ⟨hp, hrest⟩ := h
      obtain ⟨vs, hps, hqs⟩ := ih hrest
      exact ⟨vs, ⟨hp, hps⟩, hqs⟩

theorem of_nil (h : Spells ts [] us) : ts = us := by
  cases ts <;> exact h

/-- A single piece is one token. -/
theorem of_singleton (h : Spells ts [(kind, literal)] us) :
    ∃ t, ts = t :: us ∧ t.kind = kind ∧ t.literal = literal := by
  obtain ⟨t, vs, rfl, hkind, hliteral, hvs⟩ := h.of_cons
  rw [hvs.of_nil]
  exact ⟨t, rfl, hkind, hliteral⟩

end Spells

/-! ## From smaller phrases to larger ones -/

/-- A name that a token spells is the name but for the token. -/
theorem bare_ofToken {t : Token} {i : Identifier} (h : t.literal = i.name) :
    (Identifier.ofToken t).bare = i.bare := congrArg (Identifier.mk _) h

/-- An operation of any stratum is an expression with a level of its own. -/
theorem nested_of_operation {s : Stratum} {ts us : List Token} {e : Expr} {k n : Nat}
    (h : Operation s ts e k n us) : Nested .equality ts e (n + 1) us :=
  .mk (h.loosen (Nat.zero_le _))

/-- An operation in parentheses is an atom. -/
theorem operation_of_grouped {s : Stratum} {o c : Token} {ts us : List Token} {e : Expr}
    {k n : Nat} (ho : o.kind = .lParen) (h : Operation s ts e k n (c :: us))
    (hc : c.kind = .rParen) : Operation .application (o :: ts) e 0 (n + 1) us :=
  .tighter rfl (.atom (.grouped ho (nested_of_operation h) hc))

/-- Behind a comma, items go on a list. -/
theorem moreItems_of_items {closing : Kind} {c : Token} {ts us : List Token} {e : Expr}
    {es : List Expr} {n : Nat} (hc : c.kind = .comma) (h : Items closing ts (e :: es) n us) :
    MoreItems closing (c :: ts) (e :: es) n us := by
  cases h with
  | some he hes => exact .comma hc he hes

theorem moreParameters_of_parameters {c : Token} {ts us : List Token} {i : Identifier}
    {is : List Identifier} (hc : c.kind = .comma) (h : Parameters ts (i :: is) us) :
    MoreParameters (c :: ts) (i :: is) us := by
  cases h with
  | some ht his => exact .comma hc ht his

/-- Lists that are the same but for their tokens have as many items. -/
theorem exists_cons_of_bareList {es fs : List Expr} {f : Expr}
    (h : bareList es = bareList (f :: fs)) : ∃ g gs, es = g :: gs := by
  cases es with
  | nil => cases h
  | cons g gs => exact ⟨g, gs, rfl⟩

/-! ## Parameters -/

/-- Tokens that spell parameters and a closing parenthesis are those parameters. -/
theorem parameters_of_pieces : ∀ (is : List Identifier) (ts us : List Token),
    Spells ts (parameterPieces is ++ [(.rParen, ")")]) us →
      ∃ js, js.map Identifier.bare = is.map Identifier.bare ∧ Parameters ts js us
  | [], ts, us, h => by
    obtain ⟨c, rfl, hc, -⟩ := Spells.of_singleton h
    exact ⟨[], rfl, .none hc⟩
  | [i], ts, us, h => by
    obtain ⟨t, vs, rfl, ht, hname, h⟩ := Spells.of_cons h
    obtain ⟨c, rfl, hc, -⟩ := Spells.of_singleton h
    refine ⟨[.ofToken t], ?_, .some ht (.close hc)⟩
    rw [List.map_singleton, List.map_singleton, bare_ofToken hname]
  | i :: j :: is, ts, us, h => by
    obtain ⟨t, vs, rfl, ht, hname, h⟩ := Spells.of_cons h
    obtain ⟨c, ws, rfl, hc, -, h⟩ := Spells.of_cons h
    obtain ⟨js, hbare, hjs⟩ := parameters_of_pieces (j :: is) ws us h
    obtain ⟨k, ks, rfl⟩ : ∃ k ks, js = k :: ks := by
      cases js with
      | nil => cases hbare
      | cons k ks => exact ⟨k, ks, rfl⟩
    refine ⟨.ofToken t :: k :: ks, ?_, .some ht (moreParameters_of_parameters hc hjs)⟩
    rw [List.map_cons, hbare, bare_ofToken hname, ← List.map_cons]

/-! ## Trees -/

mutual

/-- Tokens that spell an expression are that expression. -/
theorem phrase_of_pieces : ∀ (e : Expr), e.Writable → ∀ ts us : List Token,
    Spells ts e.pieces us →
      ∃ e', e'.bare = e.bare ∧ Operation .application ts e' e.chain e.depth us
  | .identifier name, _, ts, us, h => by
    obtain ⟨t, rfl, hkind, hname⟩ := Spells.of_singleton h
    refine ⟨.identifier (.ofToken t), ?_, .tighter rfl (.atom (.identifier hkind))⟩
    simp only [Expr.mapTokens, bare_ofToken hname]
  | .integer _ value, _, ts, us, h => by
    obtain ⟨t, rfl, hkind, hliteral⟩ := Spells.of_singleton h
    have hvalue : (Text.readInt? t.literal.toList).bind fit? = some value := by
      rw [hliteral, Text.readInt?_writeInt, Option.bind_some, fit?_toInt]
    exact ⟨.integer t value, rfl, .tighter rfl (.atom (.integer hkind hvalue))⟩
  | .boolean _ true, _, ts, us, h => by
    obtain ⟨t, rfl, hkind, -⟩ := Spells.of_singleton h
    exact ⟨.boolean t true, rfl, .tighter rfl (.atom (.yes hkind))⟩
  | .boolean _ false, _, ts, us, h => by
    obtain ⟨t, rfl, hkind, -⟩ := Spells.of_singleton h
    exact ⟨.boolean t false, rfl, .tighter rfl (.atom (.no hkind))⟩
  | .string _ value, _, ts, us, h => by
    obtain ⟨t, rfl, hkind, hliteral⟩ := Spells.of_singleton h
    refine ⟨.string t t.literal, ?_, .tighter rfl (.atom (.string hkind))⟩
    rw [hliteral]
    rfl
  | .array _ elements, hw, ts, us, h => by
    obtain ⟨t, vs, rfl, hkind, -, h⟩ := Spells.of_cons h
    obtain ⟨es, hbare, hes⟩ := items_of_pieces elements hw vs us h
    refine ⟨.array t es, ?_, .tighter rfl (.atom (.array hkind hes))⟩
    simp only [Expr.mapTokens, hbare]
  | .hash _ pairs, hw, ts, us, h => by
    obtain ⟨t, vs, rfl, hkind, -, h⟩ := Spells.of_cons h
    obtain ⟨ps, hbare, hps⟩ := pairs_of_pieces pairs hw vs us h
    refine ⟨.hash t ps, ?_, .tighter rfl (.atom (.hash hkind hps))⟩
    simp only [Expr.mapTokens, hbare]
  | .unary _ op right, hw, ts, us, h => by
    obtain ⟨o, vs, rfl, ho, -, h⟩ := Spells.of_cons h
    obtain ⟨t, ws, rfl, ht, -, h⟩ := Spells.of_cons h
    obtain ⟨xs, hright, h⟩ := Spells.of_append h
    obtain ⟨c, rfl, hc, -⟩ := Spells.of_singleton h
    obtain ⟨r, hbare, hr⟩ := phrase_of_pieces right hw ws (c :: us) hright
    have hnested : Nested .unary ws r (right.depth + 1) (c :: us) := .mk (hr.loosen (by decide))
    refine ⟨.unary t op r, ?_, operation_of_grouped ho (.unary ht hnested) hc⟩
    simp only [Expr.mapTokens, hbare]
  | .binary _ left op right, hw, ts, us, h => by
    obtain ⟨o, vs, rfl, ho, -, h⟩ := Spells.of_cons h
    obtain ⟨ws, hleft, h⟩ := Spells.of_append h
    obtain ⟨t, xs, rfl, ht, -, h⟩ := Spells.of_cons h
    obtain ⟨ys, hright, h⟩ := Spells.of_append h
    obtain ⟨c, rfl, hc, -⟩ := Spells.of_singleton h
    obtain ⟨l, hbarel, hl⟩ := phrase_of_pieces left hw.1 vs (t :: xs) hleft
    obtain ⟨r, hbarer, hr⟩ := phrase_of_pieces right hw.2 xs (c :: us) hright
    -- Both operands are applications, which is tight enough for any operator between them.
    have hleft' : Operation (.ofOp op) vs l left.chain left.depth (t :: xs) :=
      hl.loosen (by cases op <;> decide)
    have hright' : Nested (Stratum.ofOp op).ceiling.stratumAbove xs r (right.depth + 1)
        (c :: us) := .mk (hr.loosen (by cases op <;> decide))
    refine ⟨.binary t l op r, ?_,
      operation_of_grouped ho (.binary hleft' ht (Grammar.tighter?_ofOp op) hright') hc⟩
    simp only [Expr.mapTokens, hbarel, hbarer]
  | .conditional _ condition consequence none, hw, ts, us, h => by
    obtain ⟨t, vs, rfl, ht, -, h⟩ := Spells.of_cons h
    obtain ⟨o, ws, rfl, ho, -, h⟩ := Spells.of_cons h
    obtain ⟨xs, hcondition, h⟩ := Spells.of_append h
    obtain ⟨c, ys, rfl, hc, -, hblock⟩ := Spells.of_cons h
    obtain ⟨e, hbaree, he⟩ := phrase_of_pieces condition hw.1 ws (c :: ys) hcondition
    obtain ⟨b, hbareb, hb⟩ := block_of_pieces consequence hw.2 ys us hblock
    refine ⟨.conditional t e b none, ?_,
      .tighter rfl (.atom (.conditional ht ho (nested_of_operation he) hc hb))⟩
    simp only [Expr.mapTokens, hbaree, hbareb]
  | .conditional _ condition consequence (some alternative), hw, ts, us, h => by
    obtain ⟨t, vs, rfl, ht, -, h⟩ := Spells.of_cons h
    obtain ⟨o, ws, rfl, ho, -, h⟩ := Spells.of_cons h
    obtain ⟨xs, hcondition, h⟩ := Spells.of_append h
    obtain ⟨c, ys, rfl, hc, -, h⟩ := Spells.of_cons h
    obtain ⟨zs, hblock, h⟩ := Spells.of_append h
    obtain ⟨q, qs, rfl, hq, -, hother⟩ := Spells.of_cons h
    obtain ⟨e, hbaree, he⟩ := phrase_of_pieces condition hw.1 ws (c :: ys) hcondition
    obtain ⟨b, hbareb, hb⟩ := block_of_pieces consequence hw.2.1 ys (q :: qs) hblock
    obtain ⟨a, hbarea, ha⟩ := block_of_pieces alternative hw.2.2 qs us hother
    refine ⟨.conditional t e b (some a), ?_,
      .tighter rfl (.atom (.alternative ht ho (nested_of_operation he) hc hb hq ha))⟩
    simp only [Expr.mapTokens, hbaree, hbareb, hbarea]
  | .function ⟨_, parameters, body⟩, hw, ts, us, h => by
    obtain ⟨t, vs, rfl, ht, -, h⟩ := Spells.of_cons h
    obtain ⟨o, ws, rfl, ho, -, h⟩ := Spells.of_cons h
    -- The closing parenthesis belongs to the parameters.
    rw [List.append_cons] at h
    obtain ⟨xs, hparameters, hbody⟩ := Spells.of_append h
    obtain ⟨is, hbarei, his⟩ := parameters_of_pieces parameters ws xs hparameters
    obtain ⟨b, hbareb, hb⟩ := block_of_pieces body hw.2 xs us hbody
    refine ⟨.function ⟨t, is, b⟩, ?_, .tighter rfl (.atom (.function ht ho his hb))⟩
    simp only [Expr.mapTokens, FunctionLiteral.mapTokens, hbarei, hbareb]
  | .call _ callee arguments, hw, ts, us, h => by
    obtain ⟨vs, hcallee, h⟩ := Spells.of_append h
    obtain ⟨t, ws, rfl, ht, -, hitems⟩ := Spells.of_cons h
    obtain ⟨f, hbaref, hf⟩ := phrase_of_pieces callee hw.1 ts (t :: ws) hcallee
    obtain ⟨es, hbarees, hes⟩ := items_of_pieces arguments hw.2 ws us hitems
    refine ⟨.call t f es, ?_, .call hf ht hes⟩
    simp only [Expr.mapTokens, hbaref, hbarees]
  | .index _ left index, hw, ts, us, h => by
    obtain ⟨o, vs, rfl, ho, -, h⟩ := Spells.of_cons h
    obtain ⟨ws, hleft, h⟩ := Spells.of_append h
    obtain ⟨t, xs, rfl, ht, -, h⟩ := Spells.of_cons h
    obtain ⟨ys, hindex, h⟩ := Spells.of_append h
    obtain ⟨b, zs, rfl, hb, -, h⟩ := Spells.of_cons h
    obtain ⟨c, rfl, hc, -⟩ := Spells.of_singleton h
    obtain ⟨l, hbarel, hl⟩ := phrase_of_pieces left hw.1 vs (t :: xs) hleft
    obtain ⟨i, hbarei, hi⟩ := phrase_of_pieces index hw.2 xs (b :: c :: us) hindex
    refine ⟨.index t l i, ?_,
      operation_of_grouped ho (.index hl ht (nested_of_operation hi) hb) hc⟩
    simp only [Expr.mapTokens, hbarel, hbarei]
  | .missing _, hw, _, _, _ => absurd hw id

/-- Tokens that spell a list and its closing token are that list, whatever closes it. -/
theorem items_of_pieces : ∀ (es : List Expr), WritableList es → ∀ {closing : Kind}
    {literal : String} (ts us : List Token),
    Spells ts (listPieces es ++ [(closing, literal)]) us →
      ∃ es', bareList es' = bareList es ∧ Items closing ts es' (listDepth es) us
  | [], _, _, _, ts, us, h => by
    obtain ⟨c, rfl, hc, -⟩ := Spells.of_singleton h
    exact ⟨[], rfl, .none hc⟩
  | [e], hw, _, _, ts, us, h => by
    obtain ⟨vs, he, h⟩ := Spells.of_append h
    obtain ⟨c, rfl, hc, -⟩ := Spells.of_singleton h
    obtain ⟨e', hbare, he'⟩ := phrase_of_pieces e hw.1 ts (c :: us) he
    refine ⟨[e'], ?_, .some (nested_of_operation he') (.close hc)⟩
    simp only [mapTokensList, hbare]
  | e :: f :: es, hw, _, _, ts, us, h => by
    rw [listPieces_cons_cons, List.append_assoc] at h
    obtain ⟨vs, he, h⟩ := Spells.of_append h
    obtain ⟨c, ws, rfl, hc, -, h⟩ := Spells.of_cons h
    obtain ⟨e', hbare, he'⟩ := phrase_of_pieces e hw.1 ts (c :: ws) he
    obtain ⟨es', hbares, hes'⟩ := items_of_pieces (f :: es) hw.2 ws us h
    obtain ⟨g, gs, rfl⟩ := exists_cons_of_bareList hbares
    refine ⟨e' :: g :: gs, ?_, .some (nested_of_operation he') (moreItems_of_items hc hes')⟩
    exact List.cons_eq_cons.mpr ⟨hbare, hbares⟩

theorem pairs_of_pieces : ∀ (pairs : List (Expr × Expr)), WritablePairs pairs →
    ∀ (ts us : List Token), Spells ts (pairPieces pairs ++ [(.rBrace, "\x7d")]) us →
      ∃ pairs', barePairs pairs' = barePairs pairs ∧ Pairs ts pairs' (pairDepth pairs) us
  | [], _, ts, us, h => by
    obtain ⟨c, rfl, hc, -⟩ := Spells.of_singleton h
    exact ⟨[], rfl, .close hc⟩
  | [(key, value)], hw, ts, us, h => by
    rw [pairPieces, List.append_assoc] at h
    obtain ⟨vs, hkey, h⟩ := Spells.of_append h
    obtain ⟨c, ws, rfl, hc, -, h⟩ := Spells.of_cons h
    obtain ⟨xs, hvalue, h⟩ := Spells.of_append h
    obtain ⟨b, rfl, hb, -⟩ := Spells.of_singleton h
    obtain ⟨k, hbarek, hk⟩ := phrase_of_pieces key hw.1 ts (c :: ws) hkey
    obtain ⟨v, hbarev, hv⟩ := phrase_of_pieces value hw.2.1 ws (b :: us) hvalue
    have hdepth : pairDepth [(key, value)] = max (key.depth + 1) (value.depth + 1) :=
      Nat.max_zero _
    refine ⟨[(k, v)], ?_, ?_⟩
    · simp only [mapTokensPairs, hbarek, hbarev]
    · rw [hdepth]
      exact .last (nested_of_operation hk) hc (nested_of_operation hv) hb
  | (key, value) :: pair :: pairs, hw, ts, us, h => by
    rw [pairPieces_cons_cons, List.append_assoc] at h
    obtain ⟨vs, hkey, h⟩ := Spells.of_append h
    obtain ⟨c, ws, rfl, hc, -, h⟩ := Spells.of_cons h
    rw [List.append_eq, List.append_assoc] at h
    obtain ⟨xs, hvalue, h⟩ := Spells.of_append h
    obtain ⟨m, ys, rfl, hm, -, h⟩ := Spells.of_cons h
    obtain ⟨k, hbarek, hk⟩ := phrase_of_pieces key hw.1 ts (c :: ws) hkey
    obtain ⟨v, hbarev, hv⟩ := phrase_of_pieces value hw.2.1 ws (m :: ys) hvalue
    obtain ⟨ps, hbares, hps⟩ := pairs_of_pieces (pair :: pairs) hw.2.2 ys us h
    refine ⟨(k, v) :: ps, ?_,
      .comma (nested_of_operation hk) hc (nested_of_operation hv) hm hps⟩
    exact List.cons_eq_cons.mpr ⟨Prod.ext hbarek hbarev, hbares⟩

/-- Tokens that spell a block are that block. -/
theorem block_of_pieces : ∀ (b : Block), b.Writable → ∀ ts us : List Token,
    Spells ts b.pieces us → ∃ b', b'.bare = b.bare ∧ Braced ts b' b.depth us
  | ⟨_, statements⟩, hw, ts, us, h => by
    obtain ⟨t, vs, rfl, ht, -, h⟩ := Spells.of_cons h
    obtain ⟨ss, hbare, hss⟩ := body_of_pieces statements hw vs us h
    refine ⟨⟨t, ss⟩, ?_, .mk ht hss⟩
    simp only [Block.mapTokens, hbare]

theorem body_of_pieces : ∀ (ss : List Stmt), WritableBody ss → ∀ ts us : List Token,
    Spells ts (bodyPieces ss ++ [(.rBrace, "\x7d")]) us →
      ∃ ss', bareBody ss' = bareBody ss ∧ Body ts ss' (bodyDepth ss) us
  | [], _, ts, us, h => by
    obtain ⟨c, rfl, hc, -⟩ := Spells.of_singleton h
    exact ⟨[], rfl, .close hc⟩
  | s :: ss, hw, ts, us, h => by
    rw [bodyPieces, List.append_assoc] at h
    obtain ⟨vs, hs, h⟩ := Spells.of_append h
    obtain ⟨s', hbare, hs'⟩ := statement_of_pieces s hw.1 ts vs hs
    obtain ⟨ss', hbares, hss'⟩ := body_of_pieces ss hw.2 vs us h
    exact ⟨s' :: ss', List.cons_eq_cons.mpr ⟨hbare, hbares⟩, .cons hs' hss'⟩

/-- Tokens that spell a statement are that statement. -/
theorem statement_of_pieces : ∀ (s : Stmt), s.Writable → ∀ ts us : List Token,
    Spells ts s.pieces us → ∃ s', s'.bare = s.bare ∧ Statement ts s' s.levels us
  | .letBinding _ name value, hw, ts, us, h => by
    obtain ⟨t, vs, rfl, ht, -, h⟩ := Spells.of_cons h
    obtain ⟨i, ws, rfl, hi, hname, h⟩ := Spells.of_cons h
    obtain ⟨a, xs, rfl, ha, -, h⟩ := Spells.of_cons h
    obtain ⟨ys, hvalue, h⟩ := Spells.of_append h
    obtain ⟨c, rfl, hc, -⟩ := Spells.of_singleton h
    obtain ⟨v, hbare, hv⟩ := phrase_of_pieces value hw.2 xs (c :: us) hvalue
    refine ⟨.letBinding t (.ofToken i) v, ?_,
      .letBinding ht hi ha (nested_of_operation hv) (.semicolon hc)⟩
    simp only [Stmt.mapTokens, hbare, bare_ofToken hname]
  | .returning _ value, hw, ts, us, h => by
    obtain ⟨t, vs, rfl, ht, -, h⟩ := Spells.of_cons h
    obtain ⟨ws, hvalue, h⟩ := Spells.of_append h
    obtain ⟨c, rfl, hc, -⟩ := Spells.of_singleton h
    obtain ⟨v, hbare, hv⟩ := phrase_of_pieces value hw vs (c :: us) hvalue
    refine ⟨.returning t v, ?_, .returning ht (nested_of_operation hv) (.semicolon hc)⟩
    simp only [Stmt.mapTokens, hbare]
  | .expression _ e, hw, ts, us, h => by
    obtain ⟨vs, he, h⟩ := Spells.of_append h
    obtain ⟨c, rfl, hc, -⟩ := Spells.of_singleton h
    obtain ⟨e', hbare, he'⟩ := phrase_of_pieces e hw ts (c :: us) he
    refine ⟨.ofExpr e', ?_, .ended (nested_of_operation he') hc⟩
    simp only [Stmt.ofExpr, Stmt.mapTokens, hbare]
  | .block _, hw, _, _, _ => absurd hw id
  | .missing _, hw, _, _, _ => absurd hw id

end

end Ember
