import MiniCompiler.Proofs.ParseSound

/-!
# What is spelled is read

Every program that tokens spell is read from them, by the fuel that `parseFuel` gives. A step that
spends fuel on `n` tokens needs ten times `n` and a small constant that depends on the step, so that
taking one token pays for the calls down to the next one.

What a step reads can depend on the token after it: a variable must not be followed by a
parenthesis, an operand not by a tighter operator, a statement not by an `else` that would be its
own. Each statement here says which tokens may follow.
-/

namespace MiniCompiler

variable {ts : List Token} {ps : List Param} {r : Rule}

/-! ## Levels of the rules -/

/-- How tightly the operators of a rule bind; a rule without operators binds tighter than all. -/
def Rule.level : Rule → Nat
  | .or => 3
  | .and => 4
  | .equality => 9
  | .relation => 10
  | .sum => 12
  | .product => 13
  | _ => 14

theorem Rule.level_operand {r r' : Rule} (h : r.operand? = some r') :
    r.level + 1 ≤ r'.level := by
  cases r <;> cases h <;> decide

theorem Rule.level_operator {k : TokenKind} (h : k ∈ r.operators) :
    BinaryOp.level? k = some r.level := by
  cases r <;> simp [Rule.operators] at h <;> grind [BinaryOp.level?, Rule.level]

/-! ## First tokens -/

section FirstTokens

open TokenStream

/-- What the operators spell does not begin with a variable and an assignment sign. -/
theorem Expr.Spelled.not_assign {eof : Token} {e : Expr}
    (h : Expr.Spelled r ts e) (hr : r ≠ .expr) (rest : List Token) (hrest : peek eof rest ≠ .assign) :
    ¬ (peek eof (ts ++ rest) = .identifier ∧ peek eof (ts ++ rest).tail = .assign) := by
  induction h generalizing rest with
  | assign | operators => exact absurd rfl hr
  | operand hoperand _ ih => exact ih (by rintro rfl; cases ‹Rule› <;> cases hoperand) rest hrest
  | atom _ ih => exact ih nofun rest hrest
  | @operation r r' op us vs left right _ hop hleft _ ih _ =>
    rw [List.append_assoc, List.cons_append]
    refine ih hr _ ?_
    intro hk
    rw [peek_cons] at hk
    have := Rule.level_operator hop
    rw [hk] at this
    cases this
  | var => exact fun hk => hrest hk.2
  | sign ht =>
    rintro ⟨hk, -⟩
    obtain ht | ht := ht <;> simp [ht] at hk
  | _ => simp_all

/-- The kinds of the tokens that an expression can begin with. -/
def Expr.starters : List TokenKind :=
  [.minus, .not, .number, .kwTrue, .kwFalse, .identifier, .leftParen]

theorem Expr.Spelled.starts {e : Expr} (h : Expr.Spelled r ts e) :
    ∃ t us, ts = t :: us ∧ t.kind ∈ Expr.starters ∧
      (r = .primary → t.kind ≠ .minus ∧ t.kind ≠ .not) := by
  induction h with
  | operators _ ih | atom _ ih =>
    obtain ⟨t, us, rfl, ht, -⟩ := ih
    exact ⟨t, us, rfl, ht, nofun⟩
  | @operand r _ _ _ hr _ ih | @operation r _ _ _ _ _ _ hr _ _ _ ih _ =>
    obtain ⟨t, us, rfl, ht, -⟩ := ih
    exact ⟨t, _, rfl, ht, by rintro rfl; cases hr⟩
  | sign ht =>
    refine ⟨_, _, rfl, ?_, nofun⟩
    obtain ht | ht := ht <;> rw [ht] <;> decide
  | assign hx => exact ⟨_, _, rfl, by rw [hx]; decide, nofun⟩
  | number ht | true ht | false ht | var ht | callEmpty ht | call ht | parens ht =>
    exact ⟨_, _, rfl, by rw [ht]; decide, fun _ => by rw [ht]; decide⟩

/-- A statement begins neither with an `else` nor with a token that ends a block. -/
theorem Stmt.Spelled.starts {allows : Feature → Bool} {s : Stmt} (h : Stmt.Spelled allows ts s) :
    ∃ t us, ts = t :: us ∧ t.kind ≠ .kwElse ∧ t.kind ≠ .rightBrace ∧ t.kind ≠ .endOfFile := by
  cases h with
  | locals hs =>
    obtain ⟨ht, -⟩ := hs
    refine ⟨_, _, rfl, ?_⟩
    simp only [TokenKind.isType, Bool.or_eq_true, beq_iff_eq] at ht
    obtain (ht | ht) | ht := ht <;> rw [ht] <;> decide
  | expr he =>
    obtain ⟨_, _, ⟨⟩, ht, -⟩ := he.starts
    refine ⟨_, _, rfl, ?_⟩
    refine ⟨?_, ?_, ?_⟩ <;> intro hk <;> simp [hk, Expr.starters] at ht
  | block ht | empty ht | cond ht | condElse ht | whileLoop ht | forLoop _ ht | breakLoop ht
  | continueLoop _ ht | ret ht => exact ⟨_, _, rfl, by rw [ht]; decide⟩

theorem SpelledList.starts_isType {allows : Feature → Bool}
    (h : SpelledList (Param.Spelled allows) ts ps) : ∃ t us, ts = t :: us ∧ t.kind.isType := by
  cases h with
  | last hp => cases hp with
    | byValue ht | byRef ht => exact ⟨_, _, rfl, ht⟩
  | next hp => cases hp with
    | byValue ht | byRef ht => exact ⟨_, _, rfl, ht⟩

end FirstTokens

namespace Parser

open TokenStream

/-! ## Complete steps -/

/-- No token is illegal. -/
def Legal (ts : List Token) : Prop := ∀ t ∈ ts, t.kind ≠ .illegal

/-- With enough fuel the step `x` takes the tokens `ts` and answers `a`, whatever follows as long as
    `follow` allows a token of the kind that comes next. -/
def Complete {α : Type} (eof : Token) (cost : Nat) (follow : TokenKind → Prop)
    (x : Nat → Parser α) (ts : List Token) (a : α) : Prop :=
  ∀ rest fuel, Legal (ts ++ rest) → follow (peek eof rest) →
    10 * (ts ++ rest).length + cost ≤ fuel →
    Reads (x fuel) (before eof (ts ++ rest)) a (before eof rest)

variable {α β : Type} {eof : Token} {allows : Feature → Bool}
variable {ts rest us vs : List Token} {e test : Expr} {t rp lp : Token} {st' : TokenStream} {b : β}
  {fuel : Nat} {k : TokenKind} {s : Stmt}

theorem Legal.tail (h : Legal (t :: ts)) : Legal ts :=
  fun u hu => h u (by simp [hu])

theorem Legal.right (h : Legal (us ++ vs)) : Legal vs :=
  fun u hu => h u (by simp [hu])

theorem Legal.peek (heof : eof.kind = .endOfFile) (h : Legal ts) :
    peek eof ts ≠ .illegal := by
  cases ts with
  | nil => simp [heof]
  | cons t ts => exact h t (by simp)

theorem Complete.of_succ {cost : Nat} {follow : TokenKind → Prop} {x : Nat → Parser α} {a : α}
    (h : ∀ rest fuel, Legal (ts ++ rest) → follow (peek eof rest) →
      10 * (ts ++ rest).length + cost ≤ fuel →
      Reads (x (fuel + 1)) (before eof (ts ++ rest)) a (before eof rest)) :
    Complete eof (cost + 1) follow x ts a := by
  intro rest fuel hlegal hfollow hfuel
  obtain ⟨fuel, rfl⟩ : ∃ n, fuel = n + 1 := ⟨fuel - 1, by omega⟩
  exact h rest fuel hlegal hfollow (by omega)

/-- What follows a complete step is read from the tokens that it leaves. -/
theorem Complete.bind {cost : Nat} {follow : TokenKind → Prop} {x : Nat → Parser α} {a : α}
    (hx : Complete eof cost follow x ts a) (hlegal : Legal (ts ++ rest))
    (hfollow : follow (peek eof rest)) (hfuel : 10 * (ts ++ rest).length + cost ≤ fuel)
    {next : α → Parser β} (h : Reads (next a) (before eof rest) b st') :
    Reads (x fuel >>= next) (before eof (ts ++ rest)) b st' :=
  reads_bind.2 ⟨a, _, hx rest fuel hlegal hfollow hfuel, h⟩

theorem reads_done {a : α} {st : TokenStream} : Reads (pure a) st a st := reads_pure.2 ⟨rfl, rfl⟩

section

variable (heof : eof.kind = .endOfFile)

include heof

theorem isLast_of_eof : eof.kind.isLast = true := by
  rw [heof]
  rfl

theorem reads_advance_of (hlegal : Legal (t :: ts))
    {f : Unit → Parser β} (h : Reads (f ()) (before eof ts) b st') :
    Reads (advance >>= f) (before eof (t :: ts)) b st' :=
  reads_advance.2 ⟨hlegal.tail.peek heof, h⟩

theorem reads_expect_of {e : SyntaxError} (hk : k.isLast = false) (ht : t.kind = k)
    (hlegal : Legal (t :: ts)) {f : Token → Parser β} (h : Reads (f t) (before eof ts) b st') :
    Reads (expect k e >>= f) (before eof (t :: ts)) b st' :=
  (reads_expect (isLast_of_eof heof) hk).2 ⟨t, ts, rfl, ht, hlegal.tail.peek heof, h⟩

theorem reads_accept_of (hk : k.isLast = false) (ht : t.kind = k)
    (hlegal : Legal (t :: ts)) {f : Bool → Parser β} (h : Reads (f true) (before eof ts) b st') :
    Reads (accept k >>= f) (before eof (t :: ts)) b st' :=
  (reads_accept (isLast_of_eof heof) hk).2 (.inl ⟨t, ts, rfl, ht, hlegal.tail.peek heof, h⟩)

theorem reads_accept_not (hk : k.isLast = false)
    (hts : peek eof ts ≠ k) {f : Bool → Parser β} (h : Reads (f false) (before eof ts) b st') :
    Reads (accept k >>= f) (before eof ts) b st' :=
  (reads_accept (isLast_of_eof heof) hk).2 (.inr ⟨hts, h⟩)

theorem reads_more_last {more : Parser (List α)} {x : α}
    (hts : peek eof ts ≠ .comma) : Reads (accept .comma >>= fun b =>
      if b = true then more >>= fun xs => pure (x :: xs) else pure [x]) (before eof ts) [x]
      (before eof ts) :=
  reads_accept_not heof (by decide) hts reads_done

theorem reads_more_next {more : Parser (List α)} {x : α} {xs : List α} {comma : Token}
    (hcomma : comma.kind = .comma) (hlegal : Legal (comma :: ts))
    (hmore : Reads more (before eof ts) xs st') : Reads (accept .comma >>= fun b =>
      if b = true then more >>= fun xs => pure (x :: xs) else pure [x]) (before eof (comma :: ts))
      (x :: xs) st' :=
  reads_accept_of heof (by decide) hcomma hlegal
    (reads_bind.2 ⟨xs, st', hmore, reads_done⟩)

end

/-! ## Expressions -/

/-- Can a token of this kind follow an expression? -/
abbrev Closes (k : TokenKind) : Prop := k = .rightParen ∨ k = .semicolon ∨ k = .comma

/-- Can a token of this kind follow an operand? After a name, a parenthesis opens the arguments of a
    call. -/
abbrev EndsOperand (k : TokenKind) : Prop := k ≠ .leftParen

theorem Closes.spec (h : Closes k) : k ≠ .assign ∧ EndsOperand k ∧ BinaryOp.level? k = none := by
  obtain rfl | rfl | rfl := h <;> decide

/-- Reading operators goes on after these tokens with the expression that they spell on the left. -/
def Continues (eof : Token) (n : Nat) (ts : List Token) (e : Expr) : Prop :=
  ∀ m ≤ n, ∀ rest fuel, Legal (ts ++ rest) → EndsOperand (peek eof rest) →
    NextLevel eof (· ≤ n) rest → 10 * (ts ++ rest).length + 3 ≤ fuel →
    ∃ fuel', 10 * rest.length + 1 ≤ fuel' ∧ ∀ a st',
      Reads (operatorsAfter fuel' m e) (before eof rest) a st' →
      Reads (operators fuel m) (before eof (ts ++ rest)) a st'

/-- What is read of the tokens that spell an expression by this rule. -/
def ExprComplete (eof : Token) : Rule → List Token → Expr → Prop
  | .expr => Complete eof 4 Closes expr
  | .unary => Complete eof 2 EndsOperand unary
  | .primary => Complete eof 1 EndsOperand primary
  | r => Continues eof r.level

theorem Continues.mono {m n : Nat} (hmn : m ≤ n) (h : Continues eof n ts e) :
    Continues eof m ts e := by
  intro k hk rest fuel hlegal hparen hnext hfuel
  exact h k (by omega) rest fuel hlegal hparen (fun l hl => Nat.le_trans (hnext l hl) hmn) hfuel

/-- Operators end where none follows that binds tightly enough. -/
theorem reads_operatorsAfter_stop {m : Nat} (h : NextLevel eof (· < m) rest) :
    Reads (operatorsAfter (fuel + 1) m e) (before eof rest) e (before eof rest) := by
  rw [operatorsAfter, reads_current]
  cases hlevel : BinaryOp.level? (peek eof rest) with
  | none =>
    rw [show BinaryOp.level? (rest.headD eof).kind = none from hlevel]
    exact reads_done
  | some l =>
    simp only [show BinaryOp.level? (rest.headD eof).kind = some l from hlevel]
    rw [if_pos (h l hlevel)]
    exact reads_done

/-- An operand is read as an operand, whichever rule spells it. -/
theorem ExprComplete.continues {r r' : Rule} (hr : r.operand? = some r')
    (h : ExprComplete eof r' ts e) : Continues eof r'.level ts e := by
  cases r <;> cases hr
  -- only below a product is the operand read by `unary`, at the cost of the call from `operators`
  case product =>
    intro m _ rest fuel hlegal hparen _ hfuel
    obtain ⟨fuel, rfl⟩ : ∃ n, fuel = n + 1 := ⟨fuel - 1, by omega⟩
    refine ⟨fuel, by simp at hfuel; omega, ?_⟩
    intro a st' ha
    rw [operators, reads_bind]
    exact ⟨e, _, h rest fuel hlegal hparen (by omega), ha⟩
  all_goals exact h

/-- An operator is read with all that was read before it as its left operand. -/
theorem Continues.operation {r r' : Rule} {op : Token} {left right : Expr}
    (heof : eof.kind = .endOfFile) (hr : r.operand? = some r') (hop : op.kind ∈ r.operators)
    (hleft : Continues eof r.level us left) (hright : Continues eof r'.level vs right) :
    Continues eof r.level (us ++ op :: vs) (.binary op.pos (.ofKind op.kind) left right) := by
  intro m hm rest fuel hlegal hparen hnext hfuel
  have hlevel := Rule.level_operator hop
  have hlt := Rule.level_operand hr
  rw [List.append_assoc, List.cons_append] at hlegal hfuel ⊢
  have hop' : NextLevel eof (· ≤ r.level) (op :: (vs ++ rest)) := fun l hl => by
    rw [peek_cons, hlevel] at hl
    cases hl
    exact Nat.le_refl _
  have hne : peek eof (op :: (vs ++ rest)) ≠ .leftParen := fun hk => by
    rw [peek_cons] at hk
    rw [hk] at hlevel
    cases hlevel
  obtain ⟨fuel₁, hfuel₁, hcont⟩ := hleft m hm (op :: (vs ++ rest)) fuel hlegal hne hop' hfuel
  obtain ⟨fuel₁, rfl⟩ : ∃ n, fuel₁ = n + 1 := ⟨fuel₁ - 1, by omega⟩
  simp only [List.length_cons, List.length_append] at hfuel₁
  have hlegal' : Legal (vs ++ rest) := hlegal.right.tail
  -- the right operand ends where the next operator binds no tighter than this one
  obtain ⟨fuel₂, hfuel₂, hstop⟩ := hright (r.level + 1) hlt rest fuel₁ hlegal' hparen
    (fun l hl => by have := hnext l hl; omega) (by simp; omega)
  have hread : Reads (operators fuel₁ (r.level + 1)) (before eof (vs ++ rest)) right
      (before eof rest) := by
    refine hstop _ _ ?_
    obtain ⟨fuel₂, rfl⟩ : ∃ n, fuel₂ = n + 1 := ⟨fuel₂ - 1, by omega⟩
    exact reads_operatorsAfter_stop fun l hl => Nat.lt_succ_of_le (hnext l hl)
  refine ⟨fuel₁, by omega, fun a st' ha => hcont a st' ?_⟩
  rw [operatorsAfter, reads_current, List.headD_cons]
  simp only [hlevel]
  rw [if_neg (by omega)]
  exact reads_advance_of heof hlegal.right (reads_bind.2 ⟨_, _, hread, ha⟩)

theorem Continues.complete (hspelled : Expr.Spelled .or ts e) (h : Continues eof 3 ts e) :
    Complete eof 4 Closes expr ts e := by
  refine .of_succ fun rest fuel hlegal hclose hfuel => ?_
  obtain ⟨hassign, hparen, hlevel⟩ := hclose.spec
  have hnext {p : Nat → Prop} : NextLevel eof p rest := fun l hl => by
    rw [hlevel] at hl
    cases hl
  obtain ⟨fuel', hfuel', hcont⟩ := h 0 (by omega) rest fuel hlegal hparen hnext (by omega)
  obtain ⟨fuel', rfl⟩ : ∃ n, fuel' = n + 1 := ⟨fuel' - 1, by omega⟩
  rw [expr, reads_current, reads_nextKind]
  refine reads_ite.2 (.inr ⟨hspelled.not_assign (by decide) rest hassign, ?_⟩)
  refine reads_bind.2 ⟨e, before eof rest, hcont _ _ (reads_operatorsAfter_stop hnext), ?_⟩
  rw [reads_current]
  exact reads_ite.2 (.inr ⟨hassign, reads_done⟩)

theorem complete_assign {x sign : Token} (heof : eof.kind = .endOfFile) (hx : x.kind = .identifier)
    (hsign : sign.kind = .assign) (h : Complete eof 4 Closes expr ts e) :
    Complete eof 4 Closes expr (x :: sign :: ts)
      (.assign sign.pos ⟨x.pos, x.value, none⟩ e) := by
  intro rest fuel hlegal hclose hfuel
  simp only [List.cons_append, List.length_cons] at hlegal hfuel ⊢
  obtain ⟨fuel, rfl⟩ : ∃ n, fuel = n + 1 := ⟨fuel - 1, by omega⟩
  rw [expr, reads_current, reads_nextKind]
  refine reads_ite.2 (.inl ⟨⟨hx, hsign⟩, ?_⟩)
  refine reads_advance_of heof hlegal ?_
  rw [reads_current]
  refine reads_advance_of heof hlegal.tail ?_
  exact h.bind hlegal.tail.tail hclose (by omega) reads_done

theorem complete_sign (heof : eof.kind = .endOfFile) (ht : t.kind = .minus ∨ t.kind = .not)
    (h : Complete eof 2 EndsOperand unary ts e) : Complete eof 2 EndsOperand unary (t :: ts)
      (.unary t.pos (.ofKind t.kind) e) := by
  intro rest fuel hlegal hparen hfuel
  simp only [List.cons_append, List.length_cons] at hlegal hfuel ⊢
  obtain ⟨fuel, rfl⟩ : ∃ n, fuel = n + 1 := ⟨fuel - 1, by omega⟩
  rw [unary, reads_current]
  refine reads_ite.2 (.inl ⟨ht, ?_⟩)
  refine reads_advance_of heof hlegal ?_
  exact h.bind hlegal.tail hparen (by omega) reads_done

theorem complete_atom (hspelled : Expr.Spelled .primary ts e)
    (h : Complete eof 1 EndsOperand primary ts e) : Complete eof 2 EndsOperand unary ts e := by
  refine .of_succ fun rest fuel hlegal hparen hfuel => ?_
  obtain ⟨t, us, rfl, -, hsign⟩ := hspelled.starts
  rw [unary, reads_current]
  refine reads_ite.2 (.inr ⟨?_, h rest fuel hlegal hparen (by omega)⟩)
  exact fun hk => hk.elim (hsign rfl).1 (hsign rfl).2

section

variable (heof : eof.kind = .endOfFile) {p : Program}

include heof

theorem complete_arguments {es : List Expr} (h : SpelledList (Complete eof 4 Closes expr) ts es) :
    Complete eof 5 (· = .rightParen) arguments ts es := by
  induction h with
  | @last ts e he =>
    refine .of_succ fun rest fuel hlegal hparen hfuel => ?_
    rw [arguments]
    refine he.bind hlegal (.inl hparen) (by omega) ?_
    exact reads_more_last heof (by rw [hparen]; decide)
  | @next ts us comma e es he hcomma _ ih =>
    refine .of_succ fun rest fuel hlegal hparen hfuel => ?_
    rw [List.append_assoc, List.cons_append] at hlegal hfuel ⊢
    rw [arguments]
    refine he.bind hlegal (.inr (.inr hcomma)) (by omega) ?_
    refine reads_more_next heof hcomma hlegal.right (ih rest fuel hlegal.right.tail hparen ?_)
    simp only [List.length_append, List.length_cons] at hfuel ⊢
    omega

theorem complete_call {f : Token} {es : List Expr}
    (hf : f.kind = .identifier) (hlp : lp.kind = .leftParen) (hrp : rp.kind = .rightParen)
    (hnext : ∃ t us, ts = t :: us ∧ t.kind ∈ Expr.starters)
    (h : Complete eof 5 (· = .rightParen) arguments ts es) :
    Complete eof 1 EndsOperand primary (f :: lp :: (ts ++ [rp]))
      (.call f.pos f.value (es.map (false, ·)) none) := by
  refine .of_succ fun rest fuel hlegal _ hfuel => ?_
  simp only [List.cons_append, List.append_assoc, List.nil_append] at hlegal hfuel ⊢
  rw [primary, reads_current, List.headD_cons]
  simp only [hf]
  refine reads_advance_of heof hlegal ?_
  refine reads_accept_of heof (by decide) hlp hlegal.tail ?_
  rw [if_pos rfl, reads_sees]
  refine reads_ite.2 (.inr ⟨?_, ?_⟩)
  · obtain ⟨t, us, rfl, ht⟩ := hnext
    rintro hk
    rw [List.cons_append, peek_cons, beq_iff_eq] at hk
    rw [hk] at ht
    simp [Expr.starters] at ht
  · refine h.bind hlegal.tail.tail hrp (by simp at hfuel ⊢; omega) ?_
    exact reads_expect_of heof (by decide) hrp hlegal.tail.tail.right reads_done

theorem complete_callEmpty {f : Token} (hf : f.kind = .identifier)
    (hlp : lp.kind = .leftParen) (hrp : rp.kind = .rightParen) :
    Complete eof 1 EndsOperand primary [f, lp, rp]
      (.call f.pos f.value [] none) := by
  refine .of_succ fun rest fuel hlegal _ hfuel => ?_
  simp only [List.cons_append, List.nil_append] at hlegal hfuel ⊢
  rw [primary, reads_current, List.headD_cons]
  simp only [hf]
  refine reads_advance_of heof hlegal ?_
  refine reads_accept_of heof (by decide) hlp hlegal.tail ?_
  rw [if_pos rfl, reads_sees, peek_cons, hrp]
  refine reads_ite.2 (.inl ⟨rfl, ?_⟩)
  rw [pure_bind]
  refine reads_expect_of heof (by decide) hrp hlegal.tail.tail ?_
  exact reads_done

theorem complete_parens (hlp : lp.kind = .leftParen)
    (hrp : rp.kind = .rightParen) (h : Complete eof 4 Closes expr ts e) :
    Complete eof 1 EndsOperand primary (lp :: (ts ++ [rp])) e := by
  refine .of_succ fun rest fuel hlegal _ hfuel => ?_
  simp only [List.cons_append, List.append_assoc, List.nil_append] at hlegal hfuel ⊢
  rw [primary, reads_current, List.headD_cons]
  simp only [hlp]
  refine reads_advance_of heof hlegal ?_
  refine h.bind hlegal.tail (.inl hrp) (by simp at hfuel ⊢; omega) ?_
  exact reads_expect_of heof (by decide) hrp hlegal.tail.right reads_done

omit heof in
theorem complete_token
    (h : ∀ fuel ts, Legal (t :: ts) → EndsOperand (peek eof ts) →
      Reads (primary (fuel + 1)) (before eof (t :: ts)) e (before eof ts)) :
    Complete eof 1 EndsOperand primary [t] e := by
  refine .of_succ fun rest fuel hlegal hparen hfuel => ?_
  exact h fuel rest hlegal hparen

theorem exprComplete (h : Expr.Spelled r ts e) :
    ExprComplete eof r ts e := by
  -- along the derivation: the rules with operators carry `Continues`, the others `Complete`
  induction h with
  | assign hx hsign _ ih => exact complete_assign heof hx hsign ih
  | operators hspelled ih => exact Continues.complete hspelled ih
  | @operand r r' ts e hr _ ih =>
    have hcont := (ih.continues hr).mono (Nat.le_of_succ_le (Rule.level_operand hr))
    cases r <;> cases hr <;> exact hcont
  | @operation r r' op us vs left right hr hop _ _ ihl ihr =>
    have hleft : Continues eof r.level us left := by cases r <;> cases hr <;> exact ihl
    have hcont := hleft.operation heof hr hop (ihr.continues hr)
    cases r <;> cases hr <;> exact hcont
  | sign ht _ ih => exact complete_sign heof ht ih
  | atom hspelled ih => exact complete_atom hspelled ih
  | number ht hn =>
    refine complete_token fun fuel ts hlegal _ => ?_
    rw [primary, reads_current, List.headD_cons]
    simp only [ht]
    refine reads_advance_of heof hlegal ?_
    simp only [hn]
    exact reads_done
  | true ht | false ht =>
    refine complete_token fun fuel ts hlegal _ => ?_
    rw [primary, reads_current, List.headD_cons]
    simp only [ht]
    exact reads_advance_of heof hlegal reads_done
  | var ht =>
    refine complete_token fun fuel ts hlegal hparen => ?_
    rw [primary, reads_current, List.headD_cons]
    simp only [ht]
    refine reads_advance_of heof hlegal ?_
    exact reads_accept_not heof (by decide) hparen reads_done
  | callEmpty hf hlp hrp => exact complete_callEmpty heof hf hlp hrp
  | call hf hlp hrp he hcomma _ ih ihmore =>
    obtain ⟨t, us, rfl, ht, -⟩ := he.starts
    have hargs := complete_arguments heof (.ofArgs ih hcomma ihmore)
    exact complete_call heof hf hlp hrp ⟨t, _, rfl, ht⟩ hargs
  | parens hlp hrp _ ih => exact complete_parens heof hlp hrp ih

/-! ## Parts of statements -/

theorem reads_local {v : Local} (hv : Local.Spelled ts v) (hlegal : Legal (ts ++ rest))
    (hrest : Closes (peek eof rest)) (hfuel : 10 * (ts ++ rest).length ≤ fuel)
    (next : Local → Parser β) (h : Reads (next v) (before eof rest) b st') : Reads (do
      let name ← expect .identifier (.expected "variable name in declaration")
      let init ← if ← accept .assign then expr fuel else pure .absent
      next ⟨name.pos, name.value, init, none⟩) (before eof (ts ++ rest)) b st' := by
  cases hv with
  | bare hx =>
    refine reads_expect_of heof (by decide) hx hlegal ?_
    refine reads_accept_not heof (by decide) hrest.spec.1 ?_
    rw [if_neg (by simp), pure_bind]
    exact h
  | @init x sign ts e hx hsign he =>
    simp only [List.cons_append, List.length_cons] at hlegal hfuel ⊢
    refine reads_expect_of heof (by decide) hx hlegal ?_
    refine reads_accept_of heof (by decide) hsign hlegal.tail ?_
    exact (exprComplete heof he).bind hlegal.tail.tail hrest (by omega) h

/-- What is read of a declaration after one of its variables. -/
def moreLocals (fuel : Nat) (v : Local) : Parser (List Local) := do
  if ← accept .comma then
    let vs ← localVars fuel
    return v :: vs
  else
    return [v]

theorem complete_localVars {vars : List Local} (h : SpelledList Local.Spelled ts vars) :
    Complete eof 1 (· = .semicolon) localVars ts vars := by
  induction h with
  | @last ts v hv =>
    refine .of_succ fun rest fuel hlegal hsemi hfuel => ?_
    have hbound : 10 * (ts ++ rest).length ≤ fuel := by omega
    rw [localVars]
    refine reads_local heof hv hlegal (.inr (.inl hsemi)) hbound (moreLocals fuel) ?_
    exact reads_more_last heof (by rw [hsemi]; decide)
  | @next ts us comma v vars hv hcomma _ ih =>
    refine .of_succ fun rest fuel hlegal hsemi hfuel => ?_
    rw [List.append_assoc, List.cons_append] at hlegal hfuel ⊢
    have hbound : 10 * (ts ++ comma :: (us ++ rest)).length ≤ fuel := by omega
    rw [localVars]
    refine reads_local heof hv hlegal (.inr (.inr hcomma)) hbound (moreLocals fuel) ?_
    refine reads_more_next heof hcomma hlegal.right (ih rest fuel hlegal.right.tail hsemi ?_)
    simp only [List.length_append, List.length_cons] at hfuel ⊢
    omega

theorem complete_locals (h : Stmt.Declares ts s) :
    Complete eof 1 (· = .semicolon) locals ts s := by
  intro rest fuel hlegal hsemi hfuel
  obtain ⟨ht, hvars⟩ := h
  simp only [List.cons_append, List.length_cons] at hlegal hfuel ⊢
  rw [locals, reads_current]
  refine reads_advance_of heof hlegal ?_
  exact (complete_localVars heof hvars).bind hlegal.tail hsemi (by omega) reads_done

theorem reads_condition {keyword : String}
    (hlp : lp.kind = .leftParen) (hrp : rp.kind = .rightParen) (htest : Expr.Spelled .expr ts test)
    (hlegal : Legal (lp :: (ts ++ rp :: rest))) (hfuel : 10 * (ts ++ rp :: rest).length + 4 ≤ fuel)
    {next : Expr → Parser β} (h : Reads (next test) (before eof rest) b st') :
    Reads (condition fuel keyword >>= next) (before eof (lp :: (ts ++ rp :: rest))) b st' := by
  simp only [condition, bind_assoc]
  refine reads_expect_of heof (by decide) hlp hlegal ?_
  refine (exprComplete heof htest).bind hlegal.tail (.inl hrp) hfuel ?_
  refine reads_expect_of heof (by decide) hrp hlegal.tail.right ?_
  rwa [pure_bind]

theorem reads_orAbsent (hk : Closes k) (ht : t.kind = k)
    (he : Expr.SpelledOrAbsent ts e) (hlegal : Legal (ts ++ t :: rest))
    (hfuel : 10 * (ts ++ t :: rest).length + 4 ≤ fuel) {next : Expr → Parser β}
    (h : Reads (next e) (before eof (t :: rest)) b st') : Reads (sees k >>= fun b =>
      if b = true then pure Expr.absent >>= next else expr fuel >>= next)
      (before eof (ts ++ t :: rest)) b st' := by
  rw [reads_sees]
  cases he with
  | absent =>
    refine reads_ite.2 (.inl ⟨beq_iff_eq.2 ht, ?_⟩)
    rwa [pure_bind]
  | present he =>
    refine reads_ite.2 (.inr ⟨?_, ?_⟩)
    · obtain ⟨u, us, rfl, hu, -⟩ := he.starts
      rw [List.cons_append, peek_cons, beq_iff_eq]
      rintro rfl
      obtain hk | hk | hk := hk <;> simp [hk, Expr.starters] at hu
    · have hend : Closes (peek eof (t :: rest)) := by rwa [peek_cons, ht]
      exact (exprComplete heof he).bind hlegal hend hfuel h

theorem complete_forInit (h : Stmt.SpelledInit ts s) :
    Complete eof 4 (· = .semicolon) forInit ts s := by
  intro rest fuel hlegal hsemi hfuel
  rw [forInit, reads_current]
  cases h with
  | absent => exact reads_ite.2 (.inl ⟨hsemi, reads_done⟩)
  | declares hs =>
    have hread := complete_locals heof hs rest fuel hlegal hsemi (by omega)
    obtain ⟨ht, -⟩ := hs
    refine reads_ite.2 (.inr ⟨?_, reads_ite.2 (.inl ⟨ht, hread⟩)⟩)
    rintro hk
    rw [List.cons_append, List.headD_cons] at hk
    rw [hk] at ht
    cases ht
  | @expr t us e he =>
    obtain ⟨_, _, ⟨⟩, ht, -⟩ := he.starts
    refine reads_ite.2 (.inr ⟨?_, reads_ite.2 (.inr ⟨?_, ?_⟩)⟩)
    · rintro hk
      rw [List.cons_append, List.headD_cons] at hk
      simp [hk, Expr.starters] at ht
    · rintro hk
      rw [List.cons_append, List.headD_cons] at hk
      cases h : t.kind <;> simp [h, Expr.starters, TokenKind.isType] at ht hk
    · exact (exprComplete heof he).bind hlegal (.inr (.inl hsemi)) hfuel reads_done

/-! ## Statements -/

/-- With enough fuel a statement is read from its tokens, if no `else` follows that would belong to
    it. -/
abbrev StmtComplete (eof : Token) (allows : Feature → Bool) (ts : List Token) (s : Stmt) : Prop :=
  Complete eof 6 (fun k => s.endsOpen = true → k ≠ .kwElse) (stmt allows) ts s

theorem complete_blockStmts {items : List (List Token × Stmt)}
    (hspelled : ∀ i ∈ items, Stmt.Spelled allows i.1 i.2)
    (hitems : ∀ i ∈ items, StmtComplete eof allows i.1 i.2) {rb : Token}
    (hrb : rb.kind = .rightBrace) (p : Pos) :
    Complete eof 7 (fun _ => True) (blockStmts allows · p)
      (items.flatMap Prod.fst ++ [rb]) (items.map Prod.snd) := by
  induction items with
  | nil =>
    refine .of_succ fun rest fuel hlegal _ hfuel => ?_
    simp only [blockStmts]
    rw [reads_current]
    simp only [List.flatMap_nil, List.nil_append, List.cons_append, List.headD_cons, hrb]
    exact reads_advance_of heof hlegal reads_done
  | cons i items ih =>
    refine .of_succ fun rest fuel hlegal _ hfuel => ?_
    obtain ⟨t, us, hfirst, -, hbrace, hend⟩ := (hspelled i (by simp)).starts
    have hsplit : (List.flatMap Prod.fst (i :: items) ++ [rb]) ++ rest =
        i.1 ++ ((items.flatMap Prod.fst ++ [rb]) ++ rest) := by simp
    rw [hsplit] at hlegal hfuel ⊢
    -- what comes after a statement of a block is another statement or the closing brace
    have hnext : peek eof ((items.flatMap Prod.fst ++ [rb]) ++ rest) ≠ .kwElse := by
      cases items with
      | nil => simp [hrb]
      | cons j items =>
        obtain ⟨u, vs, hu, helse, -, -⟩ := (hspelled j (by simp)).starts
        simp [hu, helse]
    have hread := hitems i (by simp) _ fuel hlegal (fun _ => hnext) (by omega)
    have hmore := ih (fun j hj => hspelled j (by simp [hj])) (fun j hj => hitems j (by simp [hj]))
      rest fuel hlegal.right trivial (by simp [hfirst] at hfuel ⊢; omega)
    simp only [blockStmts]
    rw [reads_current, hfirst, List.cons_append, List.headD_cons]
    rw [hfirst, List.cons_append] at hread
    split
    · exact absurd ‹_› hbrace
    · exact absurd ‹_› hend
    · exact reads_bind.2 ⟨i.2, _, hread, reads_bind.2 ⟨_, _, hmore, reads_done⟩⟩

theorem complete_block {items : List (List Token × Stmt)}
    (hspelled : ∀ i ∈ items, Stmt.Spelled allows i.1 i.2)
    (hitems : ∀ i ∈ items, StmtComplete eof allows i.1 i.2) {lb rb : Token}
    (hlb : lb.kind = .leftBrace) (hrb : rb.kind = .rightBrace) :
    StmtComplete eof allows (lb :: (items.flatMap Prod.fst ++ [rb]))
      (.block lb.pos (items.map Prod.snd)) := by
  intro rest fuel hlegal _ hfuel
  obtain ⟨fuel, rfl⟩ : ∃ n, fuel = n + 2 := ⟨fuel - 2, by omega⟩
  rw [List.cons_append] at hlegal hfuel ⊢
  rw [stmt, reads_current, List.headD_cons]
  simp only [hlb]
  rw [block, reads_current, List.headD_cons]
  refine reads_advance_of heof hlegal ?_
  refine (complete_blockStmts heof hspelled hitems hrb lb.pos).bind hlegal.tail trivial ?_
    reads_done
  simp only [List.length_cons] at hfuel
  omega

theorem complete_localsStmt {semi : Token} (hs : Stmt.Declares ts s)
    (hsemi : semi.kind = .semicolon) : StmtComplete eof allows (ts ++ [semi]) s := by
  refine .of_succ fun rest fuel hlegal _ hfuel => ?_
  rw [List.append_assoc] at hlegal hfuel ⊢
  have hread := complete_locals heof hs (semi :: rest) fuel hlegal hsemi (by simp at hfuel ⊢; omega)
  have hrest : Reads (do
      let s ← locals fuel
      let _ ← expect .semicolon (.missing .semicolon "declaration")
      return s) (before eof (ts ++ ([semi] ++ rest))) s (before eof rest) :=
    reads_bind.2 ⟨s, _, hread,
      reads_expect_of heof (by decide) hsemi hlegal.right reads_done⟩
  obtain ⟨ht, -⟩ := hs
  rw [stmt, reads_current, List.cons_append, List.headD_cons]
  rw [List.cons_append] at hrest
  simp only [TokenKind.isType, Bool.or_eq_true, beq_iff_eq] at ht
  -- `stmt` has one branch for each type that can begin a declaration, all with the same body
  obtain (ht | ht) | ht := ht <;> simpa only [ht] using hrest

theorem complete_exprStmt {semi : Token}
    (he : Expr.Spelled .expr (t :: ts) e) (hsemi : semi.kind = .semicolon) :
    StmtComplete eof allows (t :: ts ++ [semi]) (.expr t.pos e) := by
  refine .of_succ fun rest fuel hlegal _ hfuel => ?_
  rw [List.append_assoc] at hlegal hfuel ⊢
  have hread := exprComplete heof he (semi :: rest) fuel hlegal (.inr (.inl hsemi))
    (by simp at hfuel ⊢; omega)
  have hrest : Reads (do
      let e ← expr fuel
      let _ ← expect .semicolon (.missing .semicolon "expression")
      return Stmt.expr t.pos e) (before eof (t :: ts ++ ([semi] ++ rest))) (.expr t.pos e)
      (before eof rest) :=
    reads_bind.2 ⟨e, _, hread,
      reads_expect_of heof (by decide) hsemi hlegal.right reads_done⟩
  obtain ⟨_, _, ⟨⟩, ht, -⟩ := he.starts
  rw [List.cons_append] at hrest ⊢
  rw [stmt, reads_current, List.headD_cons]
  simp only [Expr.starters, List.mem_cons, List.not_mem_nil, or_false] at ht
  -- no token that begins an expression selects another branch of `stmt`
  obtain ht | ht | ht | ht | ht | ht | ht := ht <;> simpa only [ht] using hrest

theorem complete_cond {yes : Stmt} (ht : t.kind = .kwIf)
    (hlp : lp.kind = .leftParen) (htest : Expr.Spelled .expr ts test) (hrp : rp.kind = .rightParen)
    (hyes : StmtComplete eof allows us yes) :
    StmtComplete eof allows (t :: lp :: (ts ++ rp :: us)) (.cond t.pos test yes .absent) := by
  refine .of_succ fun rest fuel hlegal helse hfuel => ?_
  simp only [List.cons_append, List.append_assoc, List.length_cons] at hlegal hfuel ⊢
  rw [stmt, reads_current, List.headD_cons]
  simp only [ht]
  refine reads_advance_of heof hlegal ?_
  refine reads_condition heof hlp hrp htest hlegal.tail (by omega) ?_
  have hlegal := hlegal.tail.tail.right.tail
  refine hyes.bind hlegal (fun _ => helse rfl) (by simp at hfuel ⊢; omega) ?_
  refine reads_accept_not heof (by decide) (helse rfl) ?_
  rw [if_neg (by simp), pure_bind]
  exact reads_done

theorem complete_condElse {other : Token} {yes no : Stmt} (ht : t.kind = .kwIf)
    (hlp : lp.kind = .leftParen) (htest : Expr.Spelled .expr ts test) (hrp : rp.kind = .rightParen)
    (hyes : StmtComplete eof allows us yes) (hclosed : yes.endsOpen = false)
    (hother : other.kind = .kwElse) (hpresent : no ≠ .absent) (hno : StmtComplete eof allows vs no) :
    StmtComplete eof allows (t :: lp :: (ts ++ rp :: (us ++ other :: vs)))
      (.cond t.pos test yes no) := by
  refine .of_succ fun rest fuel hlegal helse hfuel => ?_
  rw [Stmt.endsOpen_cond hpresent] at helse
  simp only [List.cons_append, List.append_assoc, List.length_cons] at hlegal hfuel ⊢
  rw [stmt, reads_current, List.headD_cons]
  simp only [ht]
  refine reads_advance_of heof hlegal ?_
  refine reads_condition heof hlp hrp htest hlegal.tail (by omega) ?_
  have hlegal := hlegal.tail.tail.right.tail
  -- the first branch is closed, so the `else` is not read as part of it
  refine hyes.bind hlegal (by simp [hclosed]) (by simp at hfuel ⊢; omega) ?_
  refine reads_accept_of heof (by decide) hother hlegal.right ?_
  exact hno.bind hlegal.right.tail helse (by simp at hfuel ⊢; omega) reads_done

theorem complete_whileLoop {body : Stmt} (ht : t.kind = .kwWhile)
    (hlp : lp.kind = .leftParen) (htest : Expr.Spelled .expr ts test) (hrp : rp.kind = .rightParen)
    (hbody : StmtComplete eof allows us body) :
    StmtComplete eof allows (t :: lp :: (ts ++ rp :: us)) (.whileLoop t.pos test body) := by
  refine .of_succ fun rest fuel hlegal helse hfuel => ?_
  simp only [List.cons_append, List.append_assoc, List.length_cons] at hlegal hfuel ⊢
  rw [stmt, reads_current, List.headD_cons]
  simp only [ht]
  refine reads_advance_of heof hlegal ?_
  refine reads_condition heof hlp hrp htest hlegal.tail (by omega) ?_
  exact hbody.bind hlegal.tail.tail.right.tail helse (by simp at hfuel ⊢; omega) reads_done

theorem complete_forLoop {s₁ s₂ : Token} {ws : List Token}
    {init : Stmt} {step : Expr} {body : Stmt} (hallows : allows .forLoops = true)
    (ht : t.kind = .kwFor) (hlp : lp.kind = .leftParen) (hinit : Stmt.SpelledInit ts init)
    (hs₁ : s₁.kind = .semicolon) (htest : Expr.SpelledOrAbsent us test) (hs₂ : s₂.kind = .semicolon)
    (hstep : Expr.SpelledOrAbsent vs step) (hrp : rp.kind = .rightParen)
    (hbody : StmtComplete eof allows ws body) :
    StmtComplete eof allows (t :: lp :: (ts ++ s₁ :: (us ++ s₂ :: (vs ++ rp :: ws))))
      (.forLoop t.pos init test step body) := by
  refine .of_succ fun rest fuel hlegal helse hfuel => ?_
  simp only [List.cons_append, List.append_assoc] at hlegal hfuel ⊢
  simp only [List.length_cons, List.length_append] at hfuel
  rw [stmt, reads_current, List.headD_cons]
  simp only [ht]
  rw [reads_require]
  refine ⟨hallows, reads_advance_of heof hlegal ?_⟩
  refine reads_expect_of heof (by decide) hlp hlegal.tail ?_
  have hlegal := hlegal.tail.tail
  refine (complete_forInit heof hinit).bind hlegal hs₁ (by simp; omega) ?_
  refine reads_expect_of heof (by decide) hs₁ hlegal.right ?_
  have hlegal := hlegal.right.tail
  refine reads_orAbsent heof (.inr (.inl rfl)) hs₂ htest hlegal (by simp; omega) ?_
  refine reads_expect_of heof (by decide) hs₂ hlegal.right ?_
  have hlegal := hlegal.right.tail
  refine reads_orAbsent heof (.inl rfl) hrp hstep hlegal (by simp; omega) ?_
  refine reads_expect_of heof (by decide) hrp hlegal.right ?_
  exact hbody.bind hlegal.right.tail helse (by simp; omega) reads_done

theorem stmtComplete (h : Stmt.Spelled allows ts s) :
    StmtComplete eof allows ts s := by
  induction h with
  | block hlb hrb hspelled ih => exact complete_block heof hspelled ih hlb hrb
  | locals hs hsemi => exact complete_localsStmt heof hs hsemi
  | cond ht hlp htest hrp _ ih => exact complete_cond heof ht hlp htest hrp ih
  | condElse ht hlp htest hrp _ hclosed hother hno ihyes ihno =>
    exact complete_condElse heof ht hlp htest hrp ihyes hclosed hother hno.ne_absent ihno
  | whileLoop ht hlp htest hrp _ ih => exact complete_whileLoop heof ht hlp htest hrp ih
  | forLoop hallows ht hlp hinit hs₁ htest hs₂ hstep hrp _ ih =>
    exact complete_forLoop heof hallows ht hlp hinit hs₁ htest hs₂ hstep hrp ih
  | expr he hsemi => exact complete_exprStmt heof he hsemi
  | empty ht =>
    refine .of_succ fun rest fuel hlegal _ _ => ?_
    rw [stmt, reads_current, List.cons_append, List.headD_cons]
    simp only [ht]
    exact reads_advance_of heof hlegal reads_done
  | breakLoop ht hsemi =>
    refine .of_succ fun rest fuel hlegal _ _ => ?_
    rw [stmt, reads_current, List.cons_append, List.headD_cons]
    simp only [ht]
    refine reads_advance_of heof hlegal ?_
    exact reads_expect_of heof (by decide) hsemi hlegal.tail reads_done
  | continueLoop hallows ht hsemi =>
    refine .of_succ fun rest fuel hlegal _ _ => ?_
    rw [stmt, reads_current, List.cons_append, List.headD_cons]
    simp only [ht]
    rw [reads_require]
    refine ⟨hallows, reads_advance_of heof hlegal ?_⟩
    exact reads_expect_of heof (by decide) hsemi hlegal.tail reads_done
  | ret ht he hsemi =>
    refine .of_succ fun rest fuel hlegal _ hfuel => ?_
    simp only [List.cons_append, List.append_assoc, List.length_cons] at hlegal hfuel ⊢
    rw [stmt, reads_current, List.headD_cons]
    simp only [ht]
    refine reads_advance_of heof hlegal ?_
    refine reads_orAbsent heof (.inr (.inl rfl)) hsemi he hlegal.tail (by simp at hfuel ⊢; omega) ?_
    exact reads_expect_of heof (by decide) hsemi hlegal.tail.right reads_done

/-! ## Programs -/

theorem reads_param {p : Param} (hp : Param.Spelled allows ts p) (hlegal : Legal (ts ++ rest)) :
    Reads (param allows) (before eof (ts ++ rest)) p (before eof rest) := by
  rw [param, reads_current]
  cases hp with
  | byValue ht hx =>
    refine reads_ite.2 (.inl ⟨ht, ?_⟩)
    refine reads_advance_of heof hlegal ?_
    rw [reads_current]
    refine reads_ite.2 (.inr ⟨by simp [hx], ?_⟩)
    rw [pure_bind]
    exact reads_expect_of heof (by decide) hx hlegal.tail reads_done
  | byRef ht hmark hallows hx =>
    refine reads_ite.2 (.inl ⟨ht, ?_⟩)
    refine reads_advance_of heof hlegal ?_
    rw [reads_current]
    refine reads_ite.2 (.inl ⟨hmark, ?_⟩)
    rw [reads_require]
    refine ⟨hallows, reads_advance_of heof hlegal.tail ?_⟩
    rw [pure_bind]
    exact reads_expect_of heof (by decide) hx hlegal.tail.tail reads_done

theorem complete_params (h : SpelledList (Param.Spelled allows) ts ps) :
    Complete eof 1 (· = .rightParen) (params allows) ts ps := by
  induction h with
  | @last ts p hp =>
    refine .of_succ fun rest fuel hlegal hparen hfuel => ?_
    rw [params]
    refine reads_bind.2 ⟨p, _, reads_param heof hp hlegal, ?_⟩
    exact reads_more_last heof (by rw [hparen]; decide)
  | @next ts us comma p ps hp hcomma _ ih =>
    refine .of_succ fun rest fuel hlegal hparen hfuel => ?_
    rw [List.append_assoc, List.cons_append] at hlegal hfuel ⊢
    rw [params]
    refine reads_bind.2 ⟨p, _, reads_param heof hp hlegal, ?_⟩
    refine reads_more_next heof hcomma hlegal.right (ih rest fuel hlegal.right.tail hparen ?_)
    simp only [List.length_append, List.length_cons] at hfuel ⊢
    omega

theorem reads_paramList
    (hrp : rp.kind = .rightParen) (hps : Param.SpelledAll allows ts ps)
    (hlegal : Legal (ts ++ rp :: rest)) (hfuel : 10 * (ts ++ rp :: rest).length + 1 ≤ fuel)
    {next : List Param → Parser β} (h : Reads (next ps) (before eof (rp :: rest)) b st') :
    Reads (sees .rightParen >>= fun b =>
      if b = true then pure [] >>= next else params allows fuel >>= next)
      (before eof (ts ++ rp :: rest)) b st' := by
  rw [reads_sees]
  cases hps with
  | none =>
    refine reads_ite.2 (.inl ⟨beq_iff_eq.2 hrp, ?_⟩)
    rwa [pure_bind]
  | some hps =>
    refine reads_ite.2 (.inr ⟨?_, ?_⟩)
    · obtain ⟨t, us, rfl, ht⟩ := hps.starts_isType
      rw [List.cons_append, peek_cons, beq_iff_eq]
      intro hk
      rw [hk] at ht
      cases ht
    · exact (complete_params heof hps).bind hlegal hrp hfuel h

theorem complete_function {f : Function}
    (h : Function.Spelled allows ts f) : Complete eof 1 (fun _ => True) (function allows) ts f := by
  intro rest fuel hlegal _ hfuel
  rw [function, reads_current]
  -- prototypes and definitions start with the same header
  obtain ⟨ht, hx, hlp, hps, hrp, hsemi⟩ | ⟨ht, hx, hlp, hps, hrp, hbody⟩ := h
  all_goals
    simp only [List.cons_append, List.append_assoc, List.length_cons] at hlegal hfuel ⊢
    refine reads_ite.2 (.inl ⟨ht, ?_⟩)
    refine reads_advance_of heof hlegal ?_
    refine reads_expect_of heof (by decide) hx hlegal.tail ?_
    refine reads_expect_of heof (by decide) hlp hlegal.tail.tail ?_
    replace hlegal := hlegal.tail.tail.tail
    refine reads_paramList heof hrp hps hlegal (by simp at hfuel ⊢; omega) ?_
    refine reads_expect_of heof (by decide) hrp hlegal.right ?_
    replace hlegal := hlegal.right.tail
  · exact reads_accept_of heof (by decide) hsemi hlegal reads_done
  · -- of all statements only a block is spelled as `.block`: a declaration is never one
    cases hbody with
    | locals hs => cases hs
    | @block lb rb items hlb hrb hitems =>
      have hcomplete := fun i hi => stmtComplete heof (hitems i hi)
      rw [List.cons_append] at hlegal ⊢
      refine reads_accept_not heof (by decide) (by simp [hlb]) ?_
      rw [if_neg (by simp), reads_current]
      refine reads_ite.2 (.inl ⟨hlb, ?_⟩)
      refine reads_advance_of heof hlegal ?_
      refine (complete_blockStmts heof hitems hcomplete hrb _).bind hlegal.tail trivial ?_
        reads_done
      simp at hfuel ⊢
      omega

theorem complete_functions (h : Program.Spelled allows ts p) :
    Complete eof 2 (· = .endOfFile) (functions allows) ts p := by
  induction h with
  | nil =>
    refine .of_succ fun rest fuel hlegal hend hfuel => ?_
    rw [functions, reads_sees]
    exact reads_ite.2 (.inl ⟨beq_iff_eq.2 hend, reads_done⟩)
  | @cons ts us f fs hf _ ih =>
    refine .of_succ fun rest fuel hlegal hend hfuel => ?_
    rw [List.append_assoc] at hlegal hfuel ⊢
    rw [functions, reads_sees]
    obtain ⟨t, vs, rfl, ht⟩ : ∃ t vs, ts = t :: vs ∧ t.kind.isType := by
      cases hf with
      | prototype ht | definition ht => exact ⟨_, _, rfl, ht⟩
    refine reads_ite.2 (.inr ⟨?_, ?_⟩)
    · rw [List.cons_append, peek_cons, beq_iff_eq]
      intro hk
      rw [hk] at ht
      cases ht
    · refine (complete_function heof hf).bind hlegal trivial (by omega) ?_
      exact ih.bind hlegal.right hend (by simp at hfuel ⊢; omega) reads_done

end

end Parser

/-! ## The reader and the grammar -/

section

variable {allows : Feature → Bool} {ts : List Token} {eof : Token}

theorem Program.parse_eq (hlegal : TokenStream.peek eof ts ≠ .illegal) :
    Program.parse allows (ts ++ [eof]) =
      (Parser.functions allows (parseFuel (ts.length + 1))).run' (.before eof ts) := by
  cases ts with
  | nil =>
    rw [TokenStream.peek_nil] at hlegal
    rw [List.nil_append, Program.parse, if_neg hlegal]
    rfl
  | cons t ts =>
    rw [TokenStream.peek_cons] at hlegal
    rw [List.cons_append, Program.parse, if_neg hlegal]
    simp [TokenStream.before]

theorem Program.parse_eq_ok_iff (hlegal : TokenStream.peek eof ts ≠ .illegal) :
    Program.parse allows (ts ++ [eof]) = .ok p ↔
      ∃ st', Parser.Reads (Parser.functions allows (parseFuel (ts.length + 1))) (.before eof ts) p
        st' := by
  rw [Program.parse_eq hlegal, StateT.run']
  simp only [Parser.Reads, Functor.map, Except.map]
  cases hrun : Parser.functions allows (parseFuel (ts.length + 1)) (.before eof ts) with
  | error stop => simp
  | ok r =>
    obtain ⟨q, st'⟩ := r
    simp

/-- What is read from the tokens of a scan is spelled by all of them, and the scan reached the end of
    the file. -/
theorem Program.spelled_of_parse (heof : eof.kind.isLast = true)
    (hts : ∀ t ∈ ts, t.kind.isLast = false) (h : Program.parse allows (ts ++ [eof]) = .ok p) :
    eof.kind = .endOfFile ∧ Program.Spelled allows ts p := by
  have hlegal : TokenStream.peek eof ts ≠ .illegal := by
    intro hk
    cases ts with
    | nil =>
      rw [TokenStream.peek_nil] at hk
      rw [List.nil_append, Program.parse, if_pos hk] at h
      cases h
    | cons t ts =>
      have ht := hts t (by simp)
      rw [show t.kind = .illegal from hk] at ht
      cases ht
  obtain ⟨st', hread⟩ := (Program.parse_eq_ok_iff hlegal).1 h
  obtain ⟨us, vs, rfl, -, hp, hend⟩ := Parser.sound_functions heof _ _ _ _ hread
  -- all tokens are taken: the first of those that are left would be an end of the file
  cases vs with
  | nil => exact ⟨hend, by simpa using hp⟩
  | cons t vs =>
    have ht := hts t (by simp)
    rw [show t.kind = .endOfFile from hend] at ht
    cases ht

theorem Program.parse_of_spelled (heof : eof.kind = .endOfFile)
    (hts : ∀ t ∈ ts, t.kind.isLast = false) (hp : Program.Spelled allows ts p) :
    Program.parse allows (ts ++ [eof]) = .ok p := by
  have hlegal : Parser.Legal ts := fun t ht hk => by
    have := hts t ht
    rw [hk] at this
    cases this
  have hread := Parser.complete_functions heof hp [] (parseFuel (ts.length + 1))
  rw [List.append_nil] at hread
  refine (Program.parse_eq_ok_iff (hlegal.peek heof)).2 ⟨.before eof [], hread hlegal heof ?_⟩
  simp only [parseFuel]
  omega

/-- The reader accepts exactly the grammar. Up to one end of file and without illegal tokens, it
    returns a program just if the grammar derives the kinds of the tokens and every number among
    them can be read, and the program is the one that the tokens spell. -/
theorem Program.parse_accepts_grammar (allows : Feature → Bool) (ts : List Token) (eof : Token)
    (heof : eof.kind = .endOfFile) (hts : ∀ t ∈ ts, t.kind ≠ .endOfFile ∧ t.kind ≠ .illegal) :
    ((∃ p, Program.parse allows (ts ++ [eof]) = .ok p) ↔
      Derives (grammar allows) (.rule .program) (ts.map Token.kind) ∧ ∀ t ∈ ts, t.Readable) ∧
    ∀ p, Program.parse allows (ts ++ [eof]) = .ok p ↔ Program.Spelled allows ts p := by
  have hlast : ∀ t ∈ ts, t.kind.isLast = false := fun t ht => by simp [TokenKind.isLast, hts t ht]
  have hspelled (p : Program) :
      Program.parse allows (ts ++ [eof]) = .ok p ↔ Program.Spelled allows ts p :=
    ⟨fun h => (Program.spelled_of_parse (Parser.isLast_of_eof heof) hlast h).2,
      Program.parse_of_spelled heof hlast⟩
  refine ⟨?_, hspelled⟩
  rw [← Program.exists_spelled_iff]
  exact exists_congr hspelled

end

/-- The tokens of `void f() { if (true) if (false) ; else ; }`, all at one place. -/
def danglingElse : List Token :=
  [.kwVoid, .identifier, .leftParen, .rightParen, .leftBrace,
    .kwIf, .leftParen, .kwTrue, .rightParen, .kwIf, .leftParen, .kwFalse, .rightParen, .semicolon,
    .kwElse, .semicolon, .rightBrace].map fun k => { kind := k, value := "f" }

/-- The `else` goes to the inner `if`, and the grammar derives the whole. -/
theorem Program.parse_accepts_grammar_danglingElse :
    Program.Spelled (fun _ => true) danglingElse [
      { pos := {}, name := "f", result := .void, params := [], isPrototype := false,
        body := some ⟨{}, [.cond {} (.bool {} true)
          (.cond {} (.bool {} false) (.empty {}) (.empty {})) .absent]⟩ }] ∧
    Derives (grammar fun _ => true) (.rule .program) (danglingElse.map Token.kind) :=
  have haccepts := Program.parse_accepts_grammar (fun _ => true) danglingElse
    { kind := .endOfFile } rfl (by decide)
  ⟨(haccepts.2 _).1 rfl, (haccepts.1.1 ⟨_, rfl⟩).1⟩

end MiniCompiler
