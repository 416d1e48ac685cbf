import MiniCompiler.Proofs.Reading

/-!
# What is read is spelled

Every run of the reader that succeeds takes tokens that spell its answer. The proofs go by
induction on the fuel, one lemma for each rule.

An expression with operators is read with a bound on how loosely its operators bind. The invariant
of that loop ties the bound to the rules of the grammar: what was read so far is spelled by the rule
`Rule.atLeast n` for some `n` that is no smaller than the bound, and the operator that comes next, if
there is one, binds no tighter than `n`.
-/

namespace MiniCompiler

/-! ## Rules and levels -/

/-- The loosest rule whose operators all bind at least as tightly as `n`. -/
def Rule.atLeast (n : Nat) : Rule :=
  if n ≤ 3 then .or
  else if n ≤ 4 then .and
  else if n ≤ 9 then .equality
  else if n ≤ 10 then .relation
  else if n ≤ 12 then .sum
  else if n ≤ 13 then .product
  else .unary

theorem Rule.atLeast_succ (n : Nat) : Rule.atLeast n = Rule.atLeast (n + 1) ∨
    (Rule.atLeast n).operand? = some (Rule.atLeast (n + 1)) := by
  grind [Rule.atLeast, Rule.operand?]

/-- An operator stands in the rule of its level, between operands of the next tighter rule. -/
theorem Rule.atLeast_level {k : TokenKind} {l : Nat} (h : BinaryOp.level? k = some l) :
    k ∈ (Rule.atLeast l).operators ∧
      (Rule.atLeast l).operand? = some (Rule.atLeast (l + 1)) ∧ l ≤ 13 := by
  cases k <;> simp [BinaryOp.level?] at h <;> subst h <;> decide

/-- What holds of a rule if it holds of that of its operands is handed on to looser rules. -/
theorem Rule.atLeast_induction {P : Rule → Prop}
    (hP : ∀ {r r'}, r.operand? = some r' → P r' → P r) {m n : Nat} (hmn : m ≤ n)
    (h : P (.atLeast n)) : P (.atLeast m) := by
  -- one level at a time: most levels have no operators, and there the rule stays the same
  induction hmn with
  | refl => exact h
  | @step n _ ih =>
    obtain heq | hoperand := Rule.atLeast_succ n
    · exact ih (heq ▸ h)
    · exact ih (hP hoperand h)

theorem Expr.Spelled.atLeast_mono {ts : List Token} {e : Expr} {m n : Nat} (hmn : m ≤ n)
    (h : Expr.Spelled (Rule.atLeast n) ts e) : Expr.Spelled (Rule.atLeast m) ts e :=
  Rule.atLeast_induction (P := fun r => Expr.Spelled r ts e) .operand hmn h

/-! ## Sound steps -/

namespace Parser

open TokenStream

/-- Every run of `x` divides the tokens into some that it takes and some that it leaves, and its
    answer fits them. -/
def Sound {α : Type} (eof : Token) (fits : α → List Token → List Token → Prop) (x : Parser α) :
    Prop :=
  ∀ ts a st', Reads x (before eof ts) a st' →
    ∃ us vs, ts = us ++ vs ∧ st' = before eof vs ∧ fits a us vs

/-- The step takes tokens that spell its answer. -/
abbrev Spells {α : Type} (eof : Token) (spelled : List Token → α → Prop) (x : Parser α) : Prop :=
  Sound eof (fun a us _ => spelled us a) x

variable {α β : Type} {eof : Token} {allows : Feature → Bool} {fuel : Nat}
variable {st' : TokenStream} {ts : List Token} {b : β}

theorem sound_throw {fits : α → List Token → List Token → Prop} {stop : ParseStop} :
    Sound eof fits (throw stop) := fun _ _ _ h => absurd h not_reads_throw

/-- What a sequence of steps reads comes after what its first step takes. -/
theorem Sound.bind {fits : α → List Token → List Token → Prop} {x : Parser α}
    (hx : Sound eof fits x) {next : α → Parser β} (h : Reads (x >>= next) (before eof ts) b st') :
    ∃ us vs a, ts = us ++ vs ∧ fits a us vs ∧ Reads (next a) (before eof vs) b st' := by
  obtain ⟨a, st₁, hrun, h⟩ := reads_bind.1 h
  obtain ⟨us, vs, rfl, rfl, hfits⟩ := hx _ _ _ hrun
  exact ⟨us, vs, a, rfl, hfits, h⟩

/-- After one part of a list: a comma and more parts, or the end of the list. -/
theorem sound_more {spelled : List Token → α → Prop} {more : Parser (List α)}
    (heof : eof.kind.isLast = true) (hmore : Spells eof (SpelledList spelled) more) {x : α}
    {us vs : List Token} (hx : spelled us x) {xs : List α} (h : Reads (accept .comma >>= fun b =>
      if b = true then more >>= fun xs => pure (x :: xs) else pure [x]) (before eof vs) xs st') :
    ∃ ws ys, us ++ vs = ws ++ ys ∧ st' = before eof ys ∧ SpelledList spelled ws xs := by
  obtain ⟨comma, vs, rfl, hcomma, -, h⟩ | ⟨-, h⟩ := (reads_accept heof (by decide)).1 h
  · obtain ⟨ws, ys, xs, rfl, hxs, h⟩ := hmore.bind h
    obtain ⟨rfl, rfl⟩ := reads_pure.1 h
    exact ⟨us ++ comma :: ws, ys, by simp, rfl, .next hx hcomma hxs⟩
  · obtain ⟨rfl, rfl⟩ := reads_pure.1 h
    exact ⟨us, vs, rfl, rfl, .last hx⟩

/-! ## Expressions -/

/-- The operator that comes next, if there is one, has a level that satisfies `p`. -/
def NextLevel (eof : Token) (p : Nat → Prop) (ts : List Token) : Prop :=
  ∀ l, BinaryOp.level? (peek eof ts) = some l → p l

/-- The steps of reading an expression with this fuel take what spells their answers. -/
structure ExprSound (eof : Token) (fuel : Nat) : Prop where
  expr : Spells eof (Expr.Spelled .expr) (expr fuel)
  operators : ∀ m ≤ 14, Sound eof
    (fun e us vs => Expr.Spelled (Rule.atLeast m) us e ∧ NextLevel eof (· < m) vs)
    (operators fuel m)
  operatorsAfter : ∀ m n left us ts e st', m ≤ n → Expr.Spelled (Rule.atLeast n) us left →
    NextLevel eof (· ≤ n) ts → Reads (operatorsAfter fuel m left) (before eof ts) e st' →
    ∃ vs ws, ts = vs ++ ws ∧ st' = before eof ws ∧ Expr.Spelled (Rule.atLeast m) (us ++ vs) e ∧
      NextLevel eof (· < m) ws
  unary : Spells eof (Expr.Spelled .unary) (unary fuel)
  primary : Spells eof (Expr.Spelled .primary) (primary fuel)
  arguments : Spells eof (SpelledList (Expr.Spelled .expr)) (arguments fuel)

theorem sound_expr (heof : eof.kind.isLast = true) (ih : ExprSound eof fuel) :
    Spells eof (Expr.Spelled .expr) (expr (fuel + 1)) := by
  intro ts e st' h
  rw [expr, reads_current, reads_nextKind, reads_ite] at h
  obtain ⟨⟨hident, hassign⟩, h⟩ | ⟨-, h⟩ := h
  · obtain ⟨x, us, rfl, hx⟩ := exists_of_peek heof (by decide) hident
    obtain ⟨sign, us, rfl, hsign⟩ := exists_of_peek heof (by decide) hassign
    rw [reads_advance, reads_current, reads_advance] at h
    obtain ⟨us, vs, value, rfl, hvalue, h⟩ := ih.expr.bind h.2.2
    obtain ⟨rfl, rfl⟩ := reads_pure.1 h
    exact ⟨x :: sign :: us, vs, rfl, rfl, .assign hx hsign hvalue⟩
  · obtain ⟨us, vs, e, rfl, ⟨he, -⟩, h⟩ := (ih.operators 0 (by omega)).bind h
    rw [reads_current, reads_ite] at h
    obtain ⟨-, h⟩ | ⟨-, h⟩ := h
    · exact absurd h not_reads_refuse
    · obtain ⟨rfl, rfl⟩ := reads_pure.1 h
      exact ⟨us, vs, rfl, rfl, .operators he⟩

theorem sound_operators (ih : ExprSound eof fuel) {m : Nat} (hm : m ≤ 14) :
    Sound eof (fun e us vs => Expr.Spelled (Rule.atLeast m) us e ∧ NextLevel eof (· < m) vs)
      (operators (fuel + 1) m) := by
  intro ts e st' h
  rw [operators] at h
  obtain ⟨us, vs, left, rfl, hleft, h⟩ := ih.unary.bind h
  have hnext : NextLevel eof (· ≤ 14) vs := fun l hl => by
    have := (Rule.atLeast_level hl).2.2
    omega
  obtain ⟨ws, xs, rfl, rfl, he, hstop⟩ := ih.operatorsAfter m 14 left us _ _ _ hm hleft hnext h
  exact ⟨us ++ ws, xs, by simp, rfl, he, hstop⟩

section

variable (heof : eof.kind.isLast = true)

include heof

theorem sound_operatorsAfter (ih : ExprSound eof fuel) {m n : Nat}
    {left : Expr} {us : List Token} {e : Expr} (hmn : m ≤ n)
    (hleft : Expr.Spelled (Rule.atLeast n) us left) (hnext : NextLevel eof (· ≤ n) ts)
    (h : Reads (operatorsAfter (fuel + 1) m left) (before eof ts) e st') :
    ∃ vs ws, ts = vs ++ ws ∧ st' = before eof ws ∧ Expr.Spelled (Rule.atLeast m) (us ++ vs) e ∧
      NextLevel eof (· < m) ws := by
  rw [operatorsAfter, reads_current] at h
  cases hlevel : BinaryOp.level? (peek eof ts) with
  | none =>
    rw [show BinaryOp.level? (ts.headD eof).kind = none from hlevel] at h
    obtain ⟨rfl, rfl⟩ := reads_pure.1 h
    refine ⟨[], ts, rfl, rfl, by simpa using hleft.atLeast_mono hmn, ?_⟩
    intro l hl
    rw [hlevel] at hl
    cases hl
  | some l =>
    simp only [show BinaryOp.level? (ts.headD eof).kind = some l from hlevel] at h
    rw [reads_ite] at h
    obtain ⟨hlt, h⟩ | ⟨hle, h⟩ := h
    · obtain ⟨rfl, rfl⟩ := reads_pure.1 h
      refine ⟨[], ts, rfl, rfl, by simpa using hleft.atLeast_mono hmn, ?_⟩
      intro l' hl'
      rw [hlevel] at hl'
      cases hl'
      exact hlt
    · obtain ⟨hmem, hoperand, hl⟩ := Rule.atLeast_level hlevel
      have hend : (peek eof ts).isLast = false := by
        cases hk : peek eof ts <;> rw [hk] at hlevel <;> first | rfl | cases hlevel
      obtain ⟨op, us', rfl, -⟩ := exists_of_peek heof hend rfl
      rw [reads_advance] at h
      obtain ⟨vs, ws, right, rfl, ⟨hright, hstop⟩, h⟩ := (ih.operators (l + 1) (by omega)).bind h.2
      -- the operator and its operands are spelled by the rule of its level
      have hbinary : Expr.Spelled (Rule.atLeast l) (us ++ op :: vs)
          (.binary op.pos (.ofKind op.kind) left right) :=
        .operation hoperand hmem (hleft.atLeast_mono (hnext l hlevel)) hright
      obtain ⟨xs, ys, rfl, rfl, he, hstop⟩ := ih.operatorsAfter m l _ _ _ _ _ (by omega) hbinary
        (fun l' hl' => Nat.le_of_lt_succ (hstop l' hl')) h
      exact ⟨op :: vs ++ xs, ys, by simp, rfl, by simpa using he, hstop⟩

theorem sound_unary (ih : ExprSound eof fuel) :
    Spells eof (Expr.Spelled .unary) (unary (fuel + 1)) := by
  intro ts e st' h
  rw [unary, reads_current, reads_ite] at h
  obtain ⟨hsign, h⟩ | ⟨-, h⟩ := h
  · have hend : (peek eof ts).isLast = false := by
      obtain hk | hk := hsign <;> rw [peek, hk] <;> rfl
    obtain ⟨t, us, rfl, -⟩ := exists_of_peek heof hend rfl
    rw [reads_advance] at h
    obtain ⟨us, vs, e, rfl, he, h⟩ := ih.unary.bind h.2
    obtain ⟨rfl, rfl⟩ := reads_pure.1 h
    exact ⟨t :: us, vs, rfl, rfl, .sign hsign he⟩
  · obtain ⟨us, vs, rfl, rfl, he⟩ := ih.primary _ _ _ h
    exact ⟨us, vs, rfl, rfl, .atom he⟩

theorem sound_arguments (ih : ExprSound eof fuel) :
    Spells eof (SpelledList (Expr.Spelled .expr)) (arguments (fuel + 1)) := by
  intro ts es st' h
  rw [arguments] at h
  obtain ⟨us, vs, e, rfl, he, h⟩ := ih.expr.bind h
  exact sound_more heof ih.arguments he h

theorem sound_primary (ih : ExprSound eof fuel) :
    Spells eof (Expr.Spelled .primary) (primary (fuel + 1)) := by
  intro ts e st' h
  rw [primary, reads_current] at h
  split at h
  case h_1 ht =>
    obtain ⟨t, ts, rfl, ht⟩ := exists_of_peek heof (by decide) ht
    obtain ⟨-, h⟩ := reads_advance.1 h
    cases hn : int64? t.value.toList with
    | none =>
      simp only [List.headD_cons, hn] at h
      exact absurd h not_reads_refuse
    | some n =>
      simp only [List.headD_cons, hn] at h
      obtain ⟨rfl, rfl⟩ := reads_pure.1 h
      exact ⟨[t], ts, rfl, rfl, .number ht hn⟩
  case h_2 ht =>
    obtain ⟨t, ts, rfl, ht⟩ := exists_of_peek heof (by decide) ht
    obtain ⟨-, h⟩ := reads_advance.1 h
    obtain ⟨rfl, rfl⟩ := reads_pure.1 h
    exact ⟨[t], ts, rfl, rfl, .true ht⟩
  case h_3 ht =>
    obtain ⟨t, ts, rfl, ht⟩ := exists_of_peek heof (by decide) ht
    obtain ⟨-, h⟩ := reads_advance.1 h
    obtain ⟨rfl, rfl⟩ := reads_pure.1 h
    exact ⟨[t], ts, rfl, rfl, .false ht⟩
  case h_4 ht =>
    obtain ⟨t, ts, rfl, ht⟩ := exists_of_peek heof (by decide) ht
    obtain ⟨-, h⟩ := reads_advance.1 h
    obtain ⟨lp, us, rfl, hlp, -, h⟩ | ⟨-, h⟩ := (reads_accept heof (by decide)).1 h
    · rw [if_pos rfl, reads_sees, reads_ite] at h
      obtain ⟨-, h⟩ | ⟨-, h⟩ := h
      · rw [pure_bind] at h
        obtain ⟨rp, vs, rfl, hrp, -, h⟩ := (reads_expect heof (by decide)).1 h
        obtain ⟨rfl, rfl⟩ := reads_pure.1 h
        exact ⟨[t, lp, rp], vs, rfl, rfl, .callEmpty ht hlp hrp⟩
      · obtain ⟨us, vs, args, rfl, hargs, h⟩ := ih.arguments.bind h
        obtain ⟨rp, vs, rfl, hrp, -, h⟩ := (reads_expect heof (by decide)).1 h
        obtain ⟨rfl, rfl⟩ := reads_pure.1 h
        obtain ⟨us, e, more, rfl, he, hcommas, hmore, rfl⟩ := hargs.toArgs
        exact ⟨_, vs, by simp, rfl, .call ht hlp hrp he hcommas hmore⟩
    · obtain ⟨rfl, rfl⟩ := reads_pure.1 h
      exact ⟨[t], ts, rfl, rfl, .var ht⟩
  case h_5 ht =>
    obtain ⟨t, ts, rfl, ht⟩ := exists_of_peek heof (by decide) ht
    obtain ⟨-, h⟩ := reads_advance.1 h
    obtain ⟨us, vs, e, rfl, he, h⟩ := ih.expr.bind h
    obtain ⟨rp, vs, rfl, hrp, -, h⟩ := (reads_expect heof (by decide)).1 h
    obtain ⟨rfl, rfl⟩ := reads_pure.1 h
    exact ⟨t :: (us ++ [rp]), vs, by simp, rfl, .parens ht hrp he⟩
  case h_6 => exact absurd h not_reads_refuse

theorem exprSound (fuel : Nat) : ExprSound eof fuel := by
  -- the steps call each other with one less unit of fuel, so all are shown at once
  induction fuel with
  | zero =>
    exact {
      expr := sound_throw
      operators := fun _ _ => sound_throw
      operatorsAfter := fun _ _ _ _ _ _ _ _ _ _ h => absurd h not_reads_throw
      unary := sound_throw
      primary := sound_throw
      arguments := sound_throw }
  | succ fuel ih =>
    exact {
      expr := sound_expr heof ih
      operators := fun _ => sound_operators ih
      operatorsAfter := fun _ _ _ _ _ _ _ => sound_operatorsAfter heof ih
      unary := sound_unary heof ih
      primary := sound_primary heof ih
      arguments := sound_arguments heof ih }

/-! ## Parts of statements -/

theorem sound_localVars (fuel : Nat) :
    Spells eof (SpelledList Local.Spelled) (localVars fuel) := by
  induction fuel with
  | zero => exact sound_throw
  | succ fuel ih =>
    intro ts vars st' h
    rw [localVars] at h
    obtain ⟨x, us, rfl, hx, -, h⟩ := (reads_expect heof (by decide)).1 h
    obtain ⟨sign, us, rfl, hsign, -, h⟩ | ⟨-, h⟩ := (reads_accept heof (by decide)).1 h
    · obtain ⟨us, vs, e, rfl, he, h⟩ := (exprSound heof fuel).expr.bind h
      exact sound_more heof ih (Local.Spelled.init hx hsign he) h
    · rw [if_neg (by simp), pure_bind] at h
      exact sound_more heof ih (Local.Spelled.bare hx) h

theorem exists_of_isType (h : (peek eof ts).isType) :
    ∃ t us, ts = t :: us ∧ t.kind.isType := by
  cases ts with
  | nil =>
    rw [peek_nil] at h
    cases hk : eof.kind <;> rw [hk] at heof h <;> first | cases heof; done | cases h
  | cons t us => exact ⟨t, us, rfl, h⟩

theorem sound_locals {s : Stmt} (htype : (peek eof ts).isType)
    (h : Reads (locals fuel) (before eof ts) s st') :
    ∃ us vs, ts = us ++ vs ∧ st' = before eof vs ∧ Stmt.Declares us s := by
  obtain ⟨t, ts, rfl, ht⟩ := exists_of_isType heof htype
  rw [locals, reads_current, reads_advance] at h
  obtain ⟨us, vs, vars, rfl, hvars, h⟩ := (sound_localVars heof fuel).bind h.2
  obtain ⟨rfl, rfl⟩ := reads_pure.1 h
  exact ⟨t :: us, vs, rfl, rfl, .locals ht hvars⟩

theorem sound_condition {keyword : String} {next : Expr → Parser β}
    (h : Reads (condition fuel keyword >>= next) (before eof ts) b st') :
    ∃ lp us rp vs test, ts = lp :: (us ++ rp :: vs) ∧ lp.kind = .leftParen ∧
      rp.kind = .rightParen ∧ Expr.Spelled .expr us test ∧
      Reads (next test) (before eof vs) b st' := by
  simp only [condition, bind_assoc] at h
  obtain ⟨lp, us, rfl, hlp, -, h⟩ := (reads_expect heof (by decide)).1 h
  obtain ⟨us, vs, e, rfl, he, h⟩ := (exprSound heof fuel).expr.bind h
  obtain ⟨rp, vs, rfl, hrp, -, h⟩ := (reads_expect heof (by decide)).1 h
  rw [pure_bind] at h
  exact ⟨lp, us, rp, vs, e, rfl, hlp, hrp, he, h⟩

theorem sound_orAbsent {k : TokenKind} {next : Expr → Parser β} (h : Reads (sees k >>= fun b =>
      if b = true then pure Expr.absent >>= next else expr fuel >>= next) (before eof ts) b st') :
    ∃ us vs e, ts = us ++ vs ∧ Expr.SpelledOrAbsent us e ∧
      Reads (next e) (before eof vs) b st' := by
  rw [reads_sees, reads_ite] at h
  obtain ⟨-, h⟩ | ⟨-, h⟩ := h
  · rw [pure_bind] at h
    exact ⟨[], ts, .absent, rfl, .absent, h⟩
  · obtain ⟨us, vs, e, rfl, he, h⟩ := (exprSound heof fuel).expr.bind h
    exact ⟨us, vs, e, rfl, .present he, h⟩

theorem sound_forInit :
    Spells eof Stmt.SpelledInit (forInit fuel) := by
  intro ts s st' h
  rw [forInit, reads_current, reads_ite, reads_ite] at h
  obtain ⟨-, h⟩ | ⟨-, ⟨htype, h⟩ | ⟨-, h⟩⟩ := h
  · obtain ⟨rfl, rfl⟩ := reads_pure.1 h
    exact ⟨[], ts, rfl, rfl, .absent⟩
  · obtain ⟨us, vs, rfl, rfl, hs⟩ := sound_locals heof htype h
    exact ⟨us, vs, rfl, rfl, .declares hs⟩
  · obtain ⟨us, vs, e, rfl, he, h⟩ := (exprSound heof fuel).expr.bind h
    obtain ⟨rfl, rfl⟩ := reads_pure.1 h
    obtain ⟨t, us, rfl⟩ := he.exists_cons
    exact ⟨t :: us, vs, rfl, rfl, .expr he⟩

/-! ## Statements -/

/-- A statement and its tokens, and no `else` after them that would belong to the statement. -/
def FitsStmt (eof : Token) (allows : Feature → Bool) (s : Stmt) (us vs : List Token) : Prop :=
  Stmt.Spelled allows us s ∧ (s.endsOpen = true → peek eof vs ≠ .kwElse)

/-- Statements one after the other, and the brace that closes their block. -/
def FitsBlock (allows : Feature → Bool) (ss : List Stmt) (us : List Token) : Prop :=
  ∃ items : List (List Token × Stmt), ∃ rb : Token, us = items.flatMap Prod.fst ++ [rb] ∧
    rb.kind = .rightBrace ∧ ss = items.map Prod.snd ∧ ∀ i ∈ items, Stmt.Spelled allows i.1 i.2

/-- The steps of reading a statement with this fuel take what spells their answers. -/
structure StmtSound (eof : Token) (allows : Feature → Bool) (fuel : Nat) : Prop where
  stmt : Sound eof (FitsStmt eof allows) (stmt allows fuel)
  block : ∀ t ts s st', t.kind = .leftBrace →
    Reads (block allows fuel) (before eof (t :: ts)) s st' →
    ∃ us vs, t :: ts = us ++ vs ∧ st' = before eof vs ∧ FitsStmt eof allows s us vs
  blockStmts : ∀ p, Sound eof (fun ss us _ => FitsBlock allows ss us) (blockStmts allows fuel p)

theorem sound_blockStmts (ih : StmtSound eof allows fuel) (p : Pos) :
    Sound eof (fun ss us _ => FitsBlock allows ss us) (blockStmts allows (fuel + 1) p) := by
  intro ts ss st' h
  rw [blockStmts, reads_current] at h
  split at h
  case h_1 hrb =>
    obtain ⟨rb, vs, rfl, hrb⟩ := exists_of_peek heof (by decide) hrb
    obtain ⟨-, h⟩ := reads_advance.1 h
    obtain ⟨rfl, rfl⟩ := reads_pure.1 h
    exact ⟨[rb], vs, rfl, rfl, [], rb, rfl, hrb, rfl, by simp⟩
  case h_2 => exact absurd h not_reads_refuse
  case h_3 =>
    obtain ⟨us, vs, s, rfl, ⟨hs, -⟩, h⟩ := ih.stmt.bind h
    obtain ⟨_, vs, ss, rfl, ⟨items, rb, rfl, hrb, rfl, hitems⟩, h⟩ := (ih.blockStmts p).bind h
    obtain ⟨rfl, rfl⟩ := reads_pure.1 h
    refine ⟨_, vs, (List.append_assoc ..).symm, rfl, (us, s) :: items, rb, by simp, hrb, rfl, ?_⟩
    intro i hi
    cases hi with
    | head => exact hs
    | tail _ htail => exact hitems i htail

omit heof in
theorem sound_block (ih : StmtSound eof allows fuel) {t : Token} {s : Stmt}
    (ht : t.kind = .leftBrace) (h : Reads (block allows (fuel + 1)) (before eof (t :: ts)) s st') :
    ∃ us vs, t :: ts = us ++ vs ∧ st' = before eof vs ∧ FitsStmt eof allows s us vs := by
  rw [block, reads_current, reads_advance] at h
  obtain ⟨_, vs, ss, rfl, ⟨items, rb, rfl, hrb, rfl, hitems⟩, h⟩ := (ih.blockStmts _).bind h.2
  obtain ⟨rfl, rfl⟩ := reads_pure.1 h
  exact ⟨_, vs, rfl, rfl, .block ht hrb hitems, nofun⟩

theorem sound_cond (ih : StmtSound eof allows fuel) {t : Token} (ht : t.kind = .kwIf) :
    Sound eof (fun s us vs => FitsStmt eof allows s (t :: us) vs) (do
      let test ← condition fuel "if"
      let yes ← stmt allows fuel
      let no ← if ← accept .kwElse then stmt allows fuel else pure .absent
      return .cond t.pos test yes no) := by
  intro ts s st' h
  obtain ⟨lp, us, rp, vs, test, rfl, hlp, hrp, htest, h⟩ := sound_condition heof h
  obtain ⟨vs, ws, yes, rfl, ⟨hyes, hopen⟩, h⟩ := ih.stmt.bind h
  obtain ⟨other, ws, rfl, hother, -, h⟩ | ⟨hno, h⟩ := (reads_accept heof (by decide)).1 h
  · obtain ⟨ws, xs, no, rfl, ⟨hno, hlast⟩, h⟩ := ih.stmt.bind h
    obtain ⟨rfl, rfl⟩ := reads_pure.1 h
    -- the reader took the `else` here, so it does not belong to an `if` inside the first branch
    have hclosed : yes.endsOpen = false := by
      cases hy : yes.endsOpen with
      | false => rfl
      | true => exact absurd hother (hopen hy)
    refine ⟨lp :: (us ++ rp :: (vs ++ other :: ws)), xs, by simp, rfl,
      .condElse ht hlp htest hrp hyes hclosed hother hno, ?_⟩
    rwa [Stmt.endsOpen_cond hno.ne_absent]
  · rw [if_neg (by simp), pure_bind] at h
    obtain ⟨rfl, rfl⟩ := reads_pure.1 h
    exact ⟨lp :: (us ++ rp :: vs), ws, by simp, rfl, .cond ht hlp htest hrp hyes, fun _ => hno⟩

theorem sound_forLoop (ih : StmtSound eof allows fuel) {t : Token}
    (ht : t.kind = .kwFor) (hallows : allows .forLoops = true) :
    Sound eof (fun s us vs => FitsStmt eof allows s (t :: us) vs) (do
      let _ ← expect .leftParen (.missing .leftParen "'for'")
      let init ← forInit fuel
      let _ ← expect .semicolon (.missing .semicolon "for-loop initializer")
      let test ← if ← sees .semicolon then pure .absent else expr fuel
      let _ ← expect .semicolon (.missing .semicolon "for-loop condition")
      let step ← if ← sees .rightParen then pure .absent else expr fuel
      let _ ← expect .rightParen (.missing .rightParen "for-loop step")
      let body ← stmt allows fuel
      return .forLoop t.pos init test step body) := by
  intro ts s st' h
  obtain ⟨lp, us, rfl, hlp, -, h⟩ := (reads_expect heof (by decide)).1 h
  obtain ⟨us, vs, init, rfl, hinit, h⟩ := (sound_forInit heof).bind h
  obtain ⟨s₁, vs, rfl, hs₁, -, h⟩ := (reads_expect heof (by decide)).1 h
  obtain ⟨vs, ws, test, rfl, htest, h⟩ := sound_orAbsent heof h
  obtain ⟨s₂, ws, rfl, hs₂, -, h⟩ := (reads_expect heof (by decide)).1 h
  obtain ⟨ws, xs, step, rfl, hstep, h⟩ := sound_orAbsent heof h
  obtain ⟨rp, xs, rfl, hrp, -, h⟩ := (reads_expect heof (by decide)).1 h
  obtain ⟨xs, ys, body, rfl, ⟨hbody, hlast⟩, h⟩ := ih.stmt.bind h
  obtain ⟨rfl, rfl⟩ := reads_pure.1 h
  exact ⟨lp :: (us ++ s₁ :: (vs ++ s₂ :: (ws ++ rp :: xs))), ys, by simp, rfl,
    .forLoop hallows ht hlp hinit hs₁ htest hs₂ hstep hrp hbody, hlast⟩

theorem sound_stmt (ih : StmtSound eof allows fuel) :
    Sound eof (FitsStmt eof allows) (stmt allows (fuel + 1)) := by
  intro ts s st' h
  rw [stmt, reads_current] at h
  split at h
  case h_1 ht =>
    obtain ⟨t, ts, rfl, ht⟩ := exists_of_peek heof (by decide) ht
    exact ih.block _ _ _ _ ht h
  case h_2 ht | h_3 ht | h_4 ht =>
    have htype : (peek eof ts).isType := by
      rw [show peek eof ts = _ from ht]
      rfl
    obtain ⟨s, st₁, hrun, h⟩ := reads_bind.1 h
    obtain ⟨us, vs, rfl, rfl, hs⟩ := sound_locals heof htype hrun
    obtain ⟨semi, vs, rfl, hsemi, -, h⟩ := (reads_expect heof (by decide)).1 h
    obtain ⟨rfl, rfl⟩ := reads_pure.1 h
    refine ⟨us ++ [semi], vs, by simp, rfl, .locals hs hsemi, ?_⟩
    cases hs
    exact nofun
  case h_5 ht =>
    obtain ⟨t, ts, rfl, ht⟩ := exists_of_peek heof (by decide) ht
    obtain ⟨-, h⟩ := reads_advance.1 h
    obtain ⟨rfl, rfl⟩ := reads_pure.1 h
    exact ⟨[t], ts, rfl, rfl, .empty ht, nofun⟩
  case h_6 ht =>
    obtain ⟨t, ts, rfl, ht⟩ := exists_of_peek heof (by decide) ht
    obtain ⟨-, h⟩ := reads_advance.1 h
    obtain ⟨us, vs, rfl, rfl, hs⟩ := sound_cond heof ih ht _ _ _ h
    exact ⟨t :: us, vs, rfl, rfl, hs⟩
  case h_7 ht =>
    obtain ⟨t, ts, rfl, ht⟩ := exists_of_peek heof (by decide) ht
    obtain ⟨-, h⟩ := reads_advance.1 h
    obtain ⟨lp, us, rp, vs, test, rfl, hlp, hrp, htest, h⟩ := sound_condition heof h
    obtain ⟨vs, ws, body, rfl, ⟨hbody, hlast⟩, h⟩ := ih.stmt.bind h
    obtain ⟨rfl, rfl⟩ := reads_pure.1 h
    exact ⟨t :: lp :: (us ++ rp :: vs), ws, by simp, rfl, .whileLoop ht hlp htest hrp hbody, hlast⟩
  case h_8 ht =>
    obtain ⟨t, ts, rfl, ht⟩ := exists_of_peek heof (by decide) ht
    rw [reads_require, reads_advance] at h
    obtain ⟨hallows, -, h⟩ := h
    obtain ⟨us, vs, rfl, rfl, hs⟩ := sound_forLoop heof ih ht hallows _ _ _ h
    exact ⟨t :: us, vs, rfl, rfl, hs⟩
  case h_9 ht =>
    obtain ⟨t, ts, rfl, ht⟩ := exists_of_peek heof (by decide) ht
    obtain ⟨-, h⟩ := reads_advance.1 h
    obtain ⟨semi, vs, rfl, hsemi, -, h⟩ := (reads_expect heof (by decide)).1 h
    obtain ⟨rfl, rfl⟩ := reads_pure.1 h
    exact ⟨[t, semi], vs, rfl, rfl, .breakLoop ht hsemi, nofun⟩
  case h_10 ht =>
    obtain ⟨t, ts, rfl, ht⟩ := exists_of_peek heof (by decide) ht
    rw [reads_require, reads_advance] at h
    obtain ⟨hallows, -, h⟩ := h
    obtain ⟨semi, vs, rfl, hsemi, -, h⟩ := (reads_expect heof (by decide)).1 h
    obtain ⟨rfl, rfl⟩ := reads_pure.1 h
    exact ⟨[t, semi], vs, rfl, rfl, .continueLoop hallows ht hsemi, nofun⟩
  case h_11 ht =>
    obtain ⟨t, ts, rfl, ht⟩ := exists_of_peek heof (by decide) ht
    obtain ⟨-, h⟩ := reads_advance.1 h
    obtain ⟨us, vs, e, rfl, he, h⟩ := sound_orAbsent heof h
    obtain ⟨semi, vs, rfl, hsemi, -, h⟩ := (reads_expect heof (by decide)).1 h
    obtain ⟨rfl, rfl⟩ := reads_pure.1 h
    exact ⟨t :: (us ++ [semi]), vs, by simp, rfl, .ret ht he hsemi, nofun⟩
  case h_12 => exact absurd h not_reads_refuse
  case h_13 =>
    obtain ⟨us, vs, e, rfl, he, h⟩ := (exprSound heof fuel).expr.bind h
    obtain ⟨semi, vs, rfl, hsemi, -, h⟩ := (reads_expect heof (by decide)).1 h
    obtain ⟨rfl, rfl⟩ := reads_pure.1 h
    obtain ⟨t, us, rfl⟩ := he.exists_cons
    exact ⟨t :: us ++ [semi], vs, by simp, rfl, .expr he hsemi, nofun⟩

theorem stmtSound (fuel : Nat) : StmtSound eof allows fuel := by
  induction fuel with
  | zero =>
    exact {
      stmt := sound_throw
      block := fun _ _ _ _ _ h => absurd h not_reads_throw
      blockStmts := fun _ => sound_throw }
  | succ fuel ih =>
    exact {
      stmt := sound_stmt heof ih
      block := fun _ _ _ _ => sound_block ih
      blockStmts := sound_blockStmts heof ih }

/-! ## Programs -/

theorem sound_param :
    Spells eof (Param.Spelled allows) (param allows) := by
  intro ts p st' h
  rw [param, reads_current, reads_ite] at h
  obtain ⟨htype, h⟩ | ⟨-, h⟩ := h
  · obtain ⟨t, ts, rfl, ht⟩ := exists_of_isType heof htype
    rw [reads_advance, reads_current, reads_ite] at h
    obtain ⟨-, ⟨hmark, h⟩ | ⟨-, h⟩⟩ := h
    · obtain ⟨mark, us, rfl, hmark⟩ := exists_of_peek heof (by decide) hmark
      rw [reads_require, reads_advance, pure_bind] at h
      obtain ⟨hallows, -, h⟩ := h
      obtain ⟨x, us, rfl, hx, -, h⟩ := (reads_expect heof (by decide)).1 h
      obtain ⟨rfl, rfl⟩ := reads_pure.1 h
      exact ⟨[t, mark, x], us, rfl, rfl, .byRef ht hmark hallows hx⟩
    · rw [pure_bind] at h
      obtain ⟨x, us, rfl, hx, -, h⟩ := (reads_expect heof (by decide)).1 h
      obtain ⟨rfl, rfl⟩ := reads_pure.1 h
      exact ⟨[t, x], us, rfl, rfl, .byValue ht hx⟩
  · exact absurd h not_reads_refuse

theorem sound_params (fuel : Nat) :
    Spells eof (SpelledList (Param.Spelled allows)) (params allows fuel) := by
  induction fuel with
  | zero => exact sound_throw
  | succ fuel ih =>
    intro ts ps st' h
    rw [params] at h
    obtain ⟨us, vs, p, rfl, hp, h⟩ := (sound_param heof).bind h
    exact sound_more heof ih hp h

theorem sound_paramList {next : List Param → Parser β} (h : Reads (sees .rightParen >>= fun b =>
      if b = true then pure [] >>= next else params allows fuel >>= next) (before eof ts) b st') :
    ∃ us vs ps, ts = us ++ vs ∧ Param.SpelledAll allows us ps ∧
      Reads (next ps) (before eof vs) b st' := by
  rw [reads_sees, reads_ite] at h
  obtain ⟨-, h⟩ | ⟨-, h⟩ := h
  · rw [pure_bind] at h
    exact ⟨[], ts, [], rfl, .none, h⟩
  · obtain ⟨us, vs, ps, rfl, hps, h⟩ := (sound_params heof fuel).bind h
    exact ⟨us, vs, ps, rfl, .some hps, h⟩

theorem sound_function :
    Spells eof (Function.Spelled allows) (function allows fuel) := by
  intro ts f st' h
  rw [function, reads_current, reads_ite] at h
  obtain ⟨htype, h⟩ | ⟨-, h⟩ := h
  · obtain ⟨t, ts, rfl, ht⟩ := exists_of_isType heof htype
    obtain ⟨-, h⟩ := reads_advance.1 h
    obtain ⟨x, us, rfl, hx, -, h⟩ := (reads_expect heof (by decide)).1 h
    obtain ⟨lp, us, rfl, hlp, -, h⟩ := (reads_expect heof (by decide)).1 h
    obtain ⟨us, vs, ps, rfl, hps, h⟩ := sound_paramList heof h
    obtain ⟨rp, vs, rfl, hrp, -, h⟩ := (reads_expect heof (by decide)).1 h
    obtain ⟨semi, vs, rfl, hsemi, -, h⟩ | ⟨-, h⟩ := (reads_accept heof (by decide)).1 h
    · obtain ⟨rfl, rfl⟩ := reads_pure.1 h
      exact ⟨t :: x :: lp :: (us ++ [rp, semi]), vs, by simp, rfl,
        .prototype ht hx hlp hps hrp hsemi⟩
    · rw [if_neg (by simp), reads_current, reads_ite] at h
      obtain ⟨hbrace, h⟩ | ⟨-, h⟩ := h
      · obtain ⟨lb, vs, rfl, hlb⟩ := exists_of_peek heof (by decide) hbrace
        obtain ⟨-, h⟩ := reads_advance.1 h
        obtain ⟨_, ws, ss, rfl, ⟨items, rb, rfl, hrb, rfl, hitems⟩, h⟩ :=
          ((stmtSound heof fuel).blockStmts _).bind h
        obtain ⟨rfl, rfl⟩ := reads_pure.1 h
        exact ⟨t :: x :: lp :: (us ++ rp :: (lb :: (items.flatMap Prod.fst ++ [rb]))), ws, by simp,
          rfl, .definition ht hx hlp hps hrp (.block hlb hrb hitems)⟩
      · exact absurd h not_reads_refuse
  · exact absurd h not_reads_refuse

theorem sound_functions (fuel : Nat) :
    Sound eof (fun p us vs => Program.Spelled allows us p ∧ peek eof vs = .endOfFile)
      (functions allows fuel) := by
  induction fuel with
  | zero => exact sound_throw
  | succ fuel ih =>
    intro ts p st' h
    rw [functions, reads_sees, reads_ite] at h
    obtain ⟨hend, h⟩ | ⟨-, h⟩ := h
    · obtain ⟨rfl, rfl⟩ := reads_pure.1 h
      exact ⟨[], ts, rfl, rfl, .nil, beq_iff_eq.1 hend⟩
    · obtain ⟨us, vs, f, rfl, hf, h⟩ := (sound_function heof).bind h
      obtain ⟨vs, ws, fs, rfl, ⟨hfs, hend⟩, h⟩ := ih.bind h
      obtain ⟨rfl, rfl⟩ := reads_pure.1 h
      exact ⟨us ++ vs, ws, by simp, rfl, .cons hf hfs, hend⟩

end

end Parser
end MiniCompiler
