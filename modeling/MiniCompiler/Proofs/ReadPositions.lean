import MiniCompiler.Proofs.Positions
import MiniCompiler.Proofs.Reading

/-!
# Reading does not depend on positions

A step of reading looks at the kinds and the values of tokens. On a stream without positions it does
what it does on the stream, without positions: it reads the bare tree, or refuses a token for the same
reason. There is one lemma for each step, and the recursion is on the fuel.

Main statement: `Compilation.run_bare_tokens`.
-/

namespace MiniCompiler

/-! ## Steps of reading -/

def Token.bare (t : Token) : Token := { t with pos := {} }

@[simp] theorem Token.kind_bare (t : Token) : t.bare.kind = t.kind := rfl

@[simp] theorem Token.value_bare (t : Token) : t.bare.value = t.value := rfl

def TokenStream.bare (st : TokenStream) : TokenStream := ⟨st.current.bare, st.rest.map Token.bare⟩

namespace Parser

variable {α β γ δ : Type} {g : α → β} {h : γ → δ} {allows : Feature → Bool} {fuel : Nat}

/-- What a step comes to, without positions. -/
def bareResult (g : α → β) : Except ParseStop (α × TokenStream) → Except ParseStop (β × TokenStream)
  | .ok (a, st) => .ok (g a, st.bare)
  | .error stop => .error stop.bare

/-- `y` does on a stream without positions what `x` does on the stream. What `x` reads is what `y` reads
    under `g`. -/
def Alike (g : α → β) (x : Parser α) (y : Parser β) : Prop :=
  ∀ st, y st.bare = bareResult g (x st)

theorem alike_pure (g : α → β) (a : α) : Alike g (pure a) (pure (g a)) := fun _ => rfl

theorem Alike.bind {x : Parser α} {y : Parser β} {f : α → Parser γ} {f' : β → Parser δ}
    (hx : Alike g x y) (hf : ∀ a, Alike h (f a) (f' (g a))) : Alike h (x >>= f) (y >>= f') := by
  intro st
  rw [run_bind, run_bind, hx st]
  cases x st with
  | error stop => rfl
  | ok r => exact hf r.1 r.2

theorem Alike.ite {c : Prop} [Decidable c] {x x' : Parser α} {y y' : Parser β} (hx : Alike g x y)
    (hx' : Alike g x' y') : Alike g (if c then x else x') (if c then y else y') := by
  split
  · exact hx
  · exact hx'

theorem Alike.ite_bind {c : Prop} [Decidable c] {x x' : Parser α} {y y' : Parser β}
    {f : α → Parser γ} {f' : β → Parser δ} (hx : Alike g x y) (hx' : Alike g x' y')
    (hf : ∀ a, Alike h (f a) (f' (g a))) :
    Alike h (if c then x >>= f else x' >>= f) (if c then y >>= f' else y' >>= f') :=
  .ite (hx.bind hf) (hx'.bind hf)

theorem alike_endless (g : α → β) : Alike g (throw .endless) (throw .endless) := fun _ => rfl

theorem alike_refuse (g : α → β) (pos : Pos) (e : SyntaxError) :
    Alike g (refuse pos e) (refuse {} e) := fun _ => rfl

theorem alike_current : Alike Token.bare current current := fun _ => rfl

theorem alike_sees (k : TokenKind) : Alike id (sees k) (sees k) := fun _ => rfl

theorem alike_nextKind : Alike id nextKind nextKind := by
  rintro ⟨t, rest⟩
  cases rest <;> rfl

theorem alike_advance : Alike id advance advance := by
  rintro ⟨t, rest⟩
  cases rest with
  | nil => rfl
  | cons v vs =>
    have hbare : TokenStream.bare ⟨t, v :: vs⟩ = ⟨t.bare, v.bare :: vs.map Token.bare⟩ := rfl
    rw [hbare, advance_cons, advance_cons, Token.kind_bare]
    split <;> rfl

theorem alike_accept (k : TokenKind) : Alike id (accept k) (accept k) :=
  (alike_sees k).bind fun _ => .ite (alike_advance.bind fun _ => alike_pure id _) (alike_pure id _)

theorem alike_expect (k : TokenKind) (e : SyntaxError) : Alike Token.bare (expect k e) (expect k e) :=
  alike_current.bind fun t => .ite (alike_advance.bind fun _ => alike_pure Token.bare t)
    (alike_refuse _ _ _)

theorem alike_require (f : Feature) (t : Token) :
    Alike id (require allows f t) (require allows f t.bare) :=
  .ite (alike_pure id ()) (alike_refuse _ _ _)

/-! ## Expressions -/

/-- The steps that read expressions with some fuel. -/
structure ExprAlike (fuel : Nat) : Prop where
  expr : Alike Expr.bare (expr fuel) (expr fuel)
  operators : ∀ level, Alike Expr.bare (operators fuel level) (operators fuel level)
  operatorsAfter : ∀ level left,
    Alike Expr.bare (operatorsAfter fuel level left) (operatorsAfter fuel level left.bare)
  unary : Alike Expr.bare (unary fuel) (unary fuel)
  primary : Alike Expr.bare (primary fuel) (primary fuel)
  arguments : Alike (List.map Expr.bare) (arguments fuel) (arguments fuel)

theorem alike_expr (ih : ExprAlike fuel) : Alike Expr.bare (expr (fuel + 1)) (expr (fuel + 1)) := by
  rw [expr]
  refine alike_current.bind fun t => alike_nextKind.bind fun k => .ite ?_ ?_
  · refine alike_advance.bind fun _ => alike_current.bind fun sign => alike_advance.bind fun _ => ?_
    exact ih.expr.bind fun value => alike_pure _ _
  · refine (ih.operators 0).bind fun e => alike_current.bind fun t => ?_
    exact .ite (alike_refuse _ _ _) (alike_pure _ _)

theorem alike_operatorsAfter (ih : ExprAlike fuel) (level : Nat) (left : Expr) :
    Alike Expr.bare (operatorsAfter (fuel + 1) level left)
      (operatorsAfter (fuel + 1) level left.bare) := by
  rw [operatorsAfter, operatorsAfter]
  refine alike_current.bind fun t => ?_
  rw [Token.kind_bare]
  split
  · exact alike_pure _ _
  · refine .ite (alike_pure _ _) (alike_advance.bind fun _ => (ih.operators _).bind fun right => ?_)
    have hafter := ih.operatorsAfter level (.binary t.pos (.ofKind t.kind) left right)
    rwa [Expr.bare_binary] at hafter

theorem alike_unary (ih : ExprAlike fuel) : Alike Expr.bare (unary (fuel + 1)) (unary (fuel + 1)) := by
  rw [unary]
  refine alike_current.bind fun t => .ite ?_ ih.primary
  exact alike_advance.bind fun _ => ih.unary.bind fun e => alike_pure _ _

theorem alike_primary (ih : ExprAlike fuel) :
    Alike Expr.bare (primary (fuel + 1)) (primary (fuel + 1)) := by
  rw [primary]
  refine alike_current.bind fun t => ?_
  rw [Token.kind_bare]
  split
  case h_1 =>
    refine alike_advance.bind fun _ => ?_
    rw [Token.value_bare]
    split
    · exact alike_pure _ _
    · exact alike_refuse _ _ _
  case h_2 => exact alike_advance.bind fun _ => alike_pure _ _
  case h_3 => exact alike_advance.bind fun _ => alike_pure _ _
  case h_4 =>
    refine alike_advance.bind fun _ => (alike_accept _).bind fun _ => .ite ?_ (alike_pure _ _)
    refine (alike_sees _).bind fun _ => .ite_bind (alike_pure (List.map Expr.bare) []) ih.arguments
      fun args => (alike_expect _ _).bind fun _ => ?_
    have hargs : Expr.bareAll (args.map (false, ·)) = (args.map Expr.bare).map (false, ·) := by
      simp [Expr.bareAll_eq_map]
    have hpure := alike_pure Expr.bare (.call t.pos t.value (args.map (false, ·)) none)
    rwa [Expr.bare, hargs] at hpure
  case h_5 =>
    exact alike_advance.bind fun _ => ih.expr.bind fun e => (alike_expect _ _).bind fun _ =>
      alike_pure _ _
  case h_6 => exact alike_refuse _ _ _

theorem alike_arguments (ih : ExprAlike fuel) :
    Alike (List.map Expr.bare) (arguments (fuel + 1)) (arguments (fuel + 1)) := by
  rw [arguments]
  refine ih.expr.bind fun e => (alike_accept _).bind fun _ => .ite ?_ ?_
  · exact ih.arguments.bind fun es => alike_pure (List.map Expr.bare) (e :: es)
  · exact alike_pure (List.map Expr.bare) [e]

theorem exprAlike (fuel : Nat) : ExprAlike fuel := by
  induction fuel with
  | zero =>
    refine ⟨alike_endless _, fun _ => ?_, fun _ _ => ?_, alike_endless _, alike_endless _,
      alike_endless _⟩
    · rw [operators]
      exact alike_endless _
    · rw [operatorsAfter, operatorsAfter]
      exact alike_endless _
  | succ fuel ih =>
    refine ⟨alike_expr ih, fun level => ?_, alike_operatorsAfter ih, alike_unary ih,
      alike_primary ih, alike_arguments ih⟩
    rw [operators]
    exact ih.unary.bind fun left => ih.operatorsAfter _ _

/-! ## Statements -/

theorem alike_localVars (fuel : Nat) :
    Alike (List.map Local.bare) (localVars fuel) (localVars fuel) := by
  induction fuel with
  | zero => exact alike_endless _
  | succ fuel ih =>
    rw [localVars]
    refine (alike_expect _ _).bind fun name => (alike_accept _).bind fun _ => ?_
    refine .ite_bind (exprAlike fuel).expr (alike_pure Expr.bare .absent) fun init =>
      (alike_accept _).bind fun _ => .ite (ih.bind fun vs => ?_) ?_
    · exact alike_pure (List.map Local.bare) (⟨name.pos, name.value, init, none⟩ :: vs)
    · exact alike_pure (List.map Local.bare) [⟨name.pos, name.value, init, none⟩]

theorem alike_locals (fuel : Nat) : Alike Stmt.bare (locals fuel) (locals fuel) :=
  alike_current.bind fun t => alike_advance.bind fun _ => (alike_localVars fuel).bind fun vars =>
    alike_pure Stmt.bare (.locals t.pos (.ofKind t.kind) vars)

theorem alike_condition (fuel : Nat) (keyword : String) :
    Alike Expr.bare (condition fuel keyword) (condition fuel keyword) :=
  (alike_expect _ _).bind fun _ => (exprAlike fuel).expr.bind fun _ =>
    (alike_expect _ _).bind fun _ => alike_pure _ _

theorem alike_forInit (fuel : Nat) : Alike Stmt.bare (forInit fuel) (forInit fuel) :=
  alike_current.bind fun t => .ite (alike_pure Stmt.bare .absent) <|
    .ite (alike_locals fuel) <| (exprAlike fuel).expr.bind fun e =>
      alike_pure Stmt.bare (.expr t.pos e)

/-- The steps that read statements with some fuel. -/
structure StmtAlike (allows : Feature → Bool) (fuel : Nat) : Prop where
  stmt : Alike Stmt.bare (stmt allows fuel) (stmt allows fuel)
  block : Alike Stmt.bare (block allows fuel) (block allows fuel)
  blockStmts : ∀ opening,
    Alike (List.map Stmt.bare) (blockStmts allows fuel opening) (blockStmts allows fuel {})

theorem alike_stmt (ih : StmtAlike allows fuel) :
    Alike Stmt.bare (stmt allows (fuel + 1)) (stmt allows (fuel + 1)) := by
  rw [stmt]
  have hexpr := (exprAlike fuel).expr
  have habsent := alike_pure Expr.bare .absent
  have hlocals : Alike Stmt.bare
      (locals fuel >>= fun s => expect .semicolon (.missing .semicolon "declaration") >>= fun _ =>
        (pure s : Parser Stmt))
      (locals fuel >>= fun s => expect .semicolon (.missing .semicolon "declaration") >>= fun _ =>
        (pure s : Parser Stmt)) :=
    (alike_locals fuel).bind fun s => (alike_expect _ _).bind fun _ => alike_pure _ s
  refine alike_current.bind fun t => ?_
  rw [Token.kind_bare]
  split
  case h_1 => exact ih.block
  case h_2 => exact hlocals
  case h_3 => exact hlocals
  case h_4 => exact hlocals
  case h_5 => exact alike_advance.bind fun _ => alike_pure Stmt.bare (.empty t.pos)
  case h_6 =>
    exact alike_advance.bind fun _ => (alike_condition _ _).bind fun test =>
      ih.stmt.bind fun yes => (alike_accept _).bind fun _ =>
      .ite_bind ih.stmt (alike_pure Stmt.bare .absent) fun no =>
        alike_pure Stmt.bare (.cond t.pos test yes no)
  case h_7 =>
    exact alike_advance.bind fun _ => (alike_condition _ _).bind fun test =>
      ih.stmt.bind fun body => alike_pure Stmt.bare (.whileLoop t.pos test body)
  case h_8 =>
    refine (alike_require _ t).bind fun _ => alike_advance.bind fun _ => (alike_expect _ _).bind
      fun _ => (alike_forInit _).bind fun init => (alike_expect _ _).bind fun _ => ?_
    refine (alike_sees _).bind fun _ => .ite_bind habsent hexpr fun test =>
      (alike_expect _ _).bind fun _ => (alike_sees _).bind fun _ => .ite_bind habsent hexpr
      fun step => (alike_expect _ _).bind fun _ => ih.stmt.bind fun body => ?_
    exact alike_pure Stmt.bare (.forLoop t.pos init test step body)
  case h_9 =>
    exact alike_advance.bind fun _ => (alike_expect _ _).bind fun _ =>
      alike_pure Stmt.bare (.breakLoop t.pos)
  case h_10 =>
    exact (alike_require _ t).bind fun _ => alike_advance.bind fun _ => (alike_expect _ _).bind
      fun _ => alike_pure Stmt.bare (.continueLoop t.pos)
  case h_11 =>
    exact alike_advance.bind fun _ => (alike_sees _).bind fun _ => .ite_bind habsent hexpr
      fun e => (alike_expect _ _).bind fun _ => alike_pure Stmt.bare (.ret t.pos e)
  case h_12 => exact alike_refuse _ _ _
  case h_13 =>
    exact hexpr.bind fun e => (alike_expect _ _).bind fun _ => alike_pure Stmt.bare (.expr t.pos e)

theorem alike_blockStmts (ih : StmtAlike allows fuel) (opening : Pos) :
    Alike (List.map Stmt.bare) (blockStmts allows (fuel + 1) opening)
      (blockStmts allows (fuel + 1) {}) := by
  rw [blockStmts, blockStmts]
  refine alike_current.bind fun t => ?_
  rw [Token.kind_bare]
  split
  · exact alike_advance.bind fun _ => alike_pure (List.map Stmt.bare) []
  · exact alike_refuse _ _ _
  · exact ih.stmt.bind fun s => (ih.blockStmts opening).bind fun ss =>
      alike_pure (List.map Stmt.bare) (s :: ss)

theorem stmtAlike (fuel : Nat) : StmtAlike allows fuel := by
  induction fuel with
  | zero =>
    refine ⟨alike_endless _, alike_endless _, fun _ => ?_⟩
    rw [blockStmts, blockStmts]
    exact alike_endless _
  | succ fuel ih =>
    refine ⟨alike_stmt ih, ?_, alike_blockStmts ih⟩
    rw [block]
    refine alike_current.bind fun brace => alike_advance.bind fun _ =>
      (ih.blockStmts brace.pos).bind fun stmts => ?_
    have hpure := alike_pure Stmt.bare (.block brace.pos stmts)
    rwa [Stmt.bare, Stmt.bareAll_eq_map] at hpure

/-! ## Functions -/

theorem alike_param : Alike Param.bare (param allows) (param allows) := by
  refine alike_current.bind fun t => .ite ?_ (alike_refuse _ _ _)
  refine alike_advance.bind fun _ => alike_current.bind fun mark => ?_
  have hname (byRef : Bool) : Alike Param.bare
      (expect .identifier (.expected "parameter name") >>= fun name =>
        (pure ⟨name.pos, .ofKind t.kind, name.value, byRef, none⟩ : Parser Param))
      (expect .identifier (.expected "parameter name") >>= fun name =>
        (pure ⟨name.pos, .ofKind t.kind, name.value, byRef, none⟩ : Parser Param)) :=
    (alike_expect _ _).bind fun name =>
      alike_pure Param.bare ⟨name.pos, .ofKind t.kind, name.value, byRef, none⟩
  refine .ite ?_ ((alike_pure id false).bind hname)
  exact (alike_require _ mark).bind fun _ => alike_advance.bind fun _ =>
    (alike_pure id true).bind hname

theorem alike_params (fuel : Nat) :
    Alike (List.map Param.bare) (params allows fuel) (params allows fuel) := by
  induction fuel with
  | zero => exact alike_endless _
  | succ fuel ih =>
    rw [params]
    refine alike_param.bind fun p => (alike_accept _).bind fun _ => .ite ?_ ?_
    · exact ih.bind fun ps => alike_pure (List.map Param.bare) (p :: ps)
    · exact alike_pure (List.map Param.bare) [p]

theorem alike_function (fuel : Nat) :
    Alike Function.bare (function allows fuel) (function allows fuel) := by
  refine alike_current.bind fun t => .ite ?_ (alike_refuse _ _ _)
  refine alike_advance.bind fun _ => (alike_expect _ _).bind fun name =>
    (alike_expect _ _).bind fun _ => (alike_sees _).bind fun _ => ?_
  refine .ite_bind (alike_pure (List.map Param.bare) []) (alike_params fuel) fun ps =>
    (alike_expect _ _).bind fun _ => (alike_accept _).bind fun _ => .ite ?_ ?_
  · exact alike_pure Function.bare {
      pos := name.pos, name := name.value, result := .ofKind t.kind, params := ps, body := none,
      isPrototype := true }
  refine alike_current.bind fun brace => .ite ?_ (alike_refuse _ _ _)
  refine alike_advance.bind fun _ => ((stmtAlike fuel).blockStmts brace.pos).bind fun stmts => ?_
  have hpure := alike_pure Function.bare {
    pos := name.pos, name := name.value, result := .ofKind t.kind, params := ps,
    body := some ⟨brace.pos, stmts⟩, isPrototype := false }
  rwa [Function.bare, Option.map_some, Body.bare, Stmt.bareAll_eq_map] at hpure

theorem alike_functions (fuel : Nat) :
    Alike Program.bare (functions allows fuel) (functions allows fuel) := by
  induction fuel with
  | zero => exact alike_endless _
  | succ fuel ih =>
    rw [functions]
    refine (alike_sees _).bind fun _ => .ite (alike_pure Program.bare []) ?_
    exact (alike_function fuel).bind fun f => ih.bind fun fs => alike_pure Program.bare (f :: fs)

end Parser

/-! ## Programs -/

/-- What reading a program comes to, without positions. -/
def Program.bareParse : Except ParseStop Program → Except ParseStop Program
  | .error stop => .error stop.bare
  | .ok p => .ok p.bare

/-- From tokens without positions the bare program is read, or reading stops for the same reason. -/
theorem Program.parse_bare (allows : Feature → Bool) (tokens : List Token) :
    Program.parse allows (tokens.map Token.bare) =
      Program.bareParse (Program.parse allows tokens) := by
  cases tokens with
  | nil => rfl
  | cons t rest =>
    have hread := @Parser.alike_functions allows (parseFuel (rest.length + 1)) ⟨t, rest⟩
    rw [TokenStream.bare] at hread
    rw [List.map_cons, Program.parse, Program.parse, Token.kind_bare, List.length_map]
    split
    · rfl
    · simp only [StateT.run', hread]
      cases Parser.functions allows (parseFuel (rest.length + 1)) ⟨t, rest⟩ <;> rfl

/-- Tokens that differ in positions only are compiled alike. -/
theorem Compilation.run_bare_tokens (s : Settings) (allows : Feature → Bool)
    {tokens tokens' : List Token} (h : tokens'.map Token.bare = tokens.map Token.bare) :
    (Compilation.run s allows tokens').bare = (Compilation.run s allows tokens).bare := by
  have hparse : Program.bareParse (Program.parse allows tokens') =
      Program.bareParse (Program.parse allows tokens) := by
    rw [← Program.parse_bare, ← Program.parse_bare, h]
  cases hp : Program.parse allows tokens with
  | ok p =>
    cases hp' : Program.parse allows tokens' with
    | ok p' =>
      rw [hp, hp'] at hparse
      exact Compilation.run_bare hp hp' (Except.ok.inj hparse)
    | error stop' =>
      rw [hp, hp'] at hparse
      cases hparse
  | error stop =>
    cases hp' : Program.parse allows tokens' with
    | ok p' =>
      rw [hp, hp'] at hparse
      cases hparse
    | error stop' =>
      rw [hp, hp'] at hparse
      have hstop : stop'.bare = stop.bare := Except.error.inj hparse
      simp only [Compilation.run, hp, hp', Compilation.bare, hstop]

end MiniCompiler
