import MiniCompiler.Proofs.ParseComplete

/-!
# Reading a part of the tokens

The rules of `Reading` are about streams that end like a scan. Here the stream is any list of tokens.
A step of reading only looks at the tokens up to the one it stops at, unless that one is the last
(`Parser.Stable`). As reading stops at an end of the file, the tokens before it spell what was read.

Main statement: `Program.spelled_prefix_of_parse`.
-/

namespace MiniCompiler

namespace Parser

variable {α β : Type} {allows : Feature → Bool} {fuel : Nat} {k : TokenKind}

/-! ## Steps that only look at what they take -/

/-- A run of `x` that succeeds leaves a part of its stream, and if the stream goes on after the token
it stops at, then more tokens at the end of the stream make no difference. -/
def Stable (x : Parser α) : Prop :=
  ∀ st a st', Reads x st a st' → st'.current :: st'.rest <:+ st.current :: st.rest ∧
    (st'.rest ≠ [] → ∀ more,
      Reads x ⟨st.current, st.rest ++ more⟩ a ⟨st'.current, st'.rest ++ more⟩)

theorem stable_pure {a : α} : Stable (pure a) := by
  intro st b st' h
  obtain ⟨rfl, rfl⟩ := reads_pure.1 h
  exact ⟨List.suffix_rfl, fun _ _ => rfl⟩

theorem stable_throw {stop : ParseStop} : Stable (throw stop : Parser α) :=
  fun _ _ _ h => absurd h not_reads_throw

theorem stable_refuse {pos : Pos} {e : SyntaxError} : Stable (refuse pos e : Parser α) := stable_throw

theorem Stable.bind {x : Parser α} {f : α → Parser β} (hx : Stable x) (hf : ∀ a, Stable (f a)) :
    Stable (x >>= f) := by
  intro st b st' h
  obtain ⟨a, st₁, h₁, h₂⟩ := reads_bind.1 h
  obtain ⟨hsuffix₁, hmore₁⟩ := hx _ _ _ h₁
  obtain ⟨hsuffix₂, hmore₂⟩ := hf a _ _ _ h₂
  refine ⟨hsuffix₂.trans hsuffix₁, fun hrest more => ?_⟩
  have hrest₁ : st₁.rest ≠ [] := by
    intro hnil
    have hlength := hsuffix₂.length_le
    have hpos := List.length_pos_iff.2 hrest
    simp only [List.length_cons, hnil, List.length_nil] at hlength
    omega
  exact reads_bind.2 ⟨a, _, hmore₁ hrest₁ more, hmore₂ hrest more⟩

theorem Stable.ite {c : Prop} [Decidable c] {x y : Parser α} (hx : Stable x) (hy : Stable y) :
    Stable (if c then x else y) := by
  split
  · exact hx
  · exact hy

theorem stable_current : Stable current := by
  intro st t st' h
  cases h
  exact ⟨List.suffix_rfl, fun _ _ => rfl⟩

theorem stable_sees : Stable (sees k) := stable_current.bind fun _ => stable_pure

theorem stable_nextKind : Stable nextKind := by
  intro st k st' h
  cases h
  refine ⟨List.suffix_rfl, fun hrest more => ?_⟩
  obtain ⟨t, ts, hts⟩ := List.exists_cons_of_ne_nil hrest
  simp only [hts]
  rfl

theorem stable_advance : Stable advance := by
  rintro ⟨t, rest⟩ u st' h
  cases rest with
  | nil =>
    cases h
    exact ⟨List.suffix_rfl, fun hrest => absurd rfl hrest⟩
  | cons v vs =>
    have hstep {ws : List Token} (hv : v.kind ≠ .illegal) :
        Reads advance ⟨t, v :: ws⟩ () ⟨v, ws⟩ := by rw [Reads, advance_cons, if_neg hv]
    rw [Reads, advance_cons] at h
    split at h
    · cases h
    · cases h
      exact ⟨List.suffix_cons _ _, fun _ _ => hstep ‹_›⟩

theorem stable_accept : Stable (accept k) :=
  stable_sees.bind fun _ => .ite (stable_advance.bind fun _ => stable_pure) stable_pure

theorem stable_expect {e : SyntaxError} : Stable (expect k e) :=
  stable_current.bind fun _ => .ite (stable_advance.bind fun _ => stable_pure) stable_refuse

theorem stable_require {f : Feature} {t : Token} : Stable (require allows f t) :=
  .ite stable_pure stable_refuse

/-! ## Expressions -/

/-- The steps that read expressions with some fuel. -/
structure ExprStable (fuel : Nat) : Prop where
  expr : Stable (expr fuel)
  operators : ∀ level, Stable (operators fuel level)
  operatorsAfter : ∀ level left, Stable (operatorsAfter fuel level left)
  unary : Stable (unary fuel)
  primary : Stable (primary fuel)
  arguments : Stable (arguments fuel)

theorem stable_expr (ih : ExprStable fuel) : Stable (expr (fuel + 1)) := by
  rw [expr]
  refine stable_current.bind fun t => stable_nextKind.bind fun k => .ite ?_ ?_
  · exact stable_advance.bind fun _ => stable_current.bind fun _ => stable_advance.bind fun _ =>
      ih.expr.bind fun _ => stable_pure
  · exact (ih.operators 0).bind fun _ => stable_current.bind fun _ => .ite stable_refuse stable_pure

theorem stable_operatorsAfter (ih : ExprStable fuel) (level : Nat) (left : Expr) :
    Stable (operatorsAfter (fuel + 1) level left) := by
  rw [operatorsAfter]
  refine stable_current.bind fun t => ?_
  split
  · exact stable_pure
  · exact .ite stable_pure (stable_advance.bind fun _ => (ih.operators _).bind fun _ =>
      ih.operatorsAfter _ _)

theorem stable_unary (ih : ExprStable fuel) : Stable (unary (fuel + 1)) := by
  rw [unary]
  exact stable_current.bind fun t =>
    .ite (stable_advance.bind fun _ => ih.unary.bind fun _ => stable_pure) ih.primary

theorem stable_primary (ih : ExprStable fuel) : Stable (primary (fuel + 1)) := by
  rw [primary]
  refine stable_current.bind fun t => ?_
  split
  case h_1 =>
    refine stable_advance.bind fun _ => ?_
    split
    · exact stable_pure
    · exact stable_refuse
  case h_2 => exact stable_advance.bind fun _ => stable_pure
  case h_3 => exact stable_advance.bind fun _ => stable_pure
  case h_4 =>
    have hcall {args : List Expr} : Stable (expect .rightParen (.missing .rightParen
        "function arguments") >>= fun _ =>
          (pure (.call t.pos t.value (args.map (false, ·)) none) : Parser Expr)) :=
      stable_expect.bind fun _ => stable_pure
    exact stable_advance.bind fun _ => stable_accept.bind fun _ =>
      .ite (stable_sees.bind fun _ => .ite (stable_pure.bind fun _ => hcall)
        (ih.arguments.bind fun _ => hcall)) stable_pure
  case h_5 =>
    exact stable_advance.bind fun _ => ih.expr.bind fun _ => stable_expect.bind fun _ => stable_pure
  case h_6 => exact stable_refuse

theorem stable_arguments (ih : ExprStable fuel) : Stable (arguments (fuel + 1)) := by
  rw [arguments]
  exact ih.expr.bind fun _ => stable_accept.bind fun _ =>
    .ite (ih.arguments.bind fun _ => stable_pure) stable_pure

theorem exprStable (fuel : Nat) : ExprStable fuel := by
  induction fuel with
  | zero =>
    refine ⟨?_, fun _ => ?_, fun _ _ => ?_, ?_, ?_, ?_⟩
    · exact stable_throw
    · rw [operators]
      exact stable_throw
    · rw [operatorsAfter]
      exact stable_throw
    · exact stable_throw
    · exact stable_throw
    · exact stable_throw
  | succ fuel ih =>
    refine ⟨stable_expr ih, fun level => ?_, stable_operatorsAfter ih, stable_unary ih,
      stable_primary ih, stable_arguments ih⟩
    rw [operators]
    exact ih.unary.bind fun _ => ih.operatorsAfter _ _

/-! ## Statements -/

theorem stable_localVars (fuel : Nat) : Stable (localVars fuel) := by
  induction fuel with
  | zero => exact stable_throw
  | succ fuel ih =>
    rw [localVars]
    have hmore {v : Local} : Stable (accept .comma >>= fun b =>
        if b = true then localVars fuel >>= fun vs => pure (v :: vs)
        else (pure [v] : Parser (List Local))) :=
      stable_accept.bind fun _ => .ite (ih.bind fun _ => stable_pure) stable_pure
    exact stable_expect.bind fun _ => stable_accept.bind fun _ =>
      .ite ((exprStable fuel).expr.bind fun _ => hmore) (stable_pure.bind fun _ => hmore)

theorem stable_locals (fuel : Nat) : Stable (locals fuel) :=
  stable_current.bind fun _ => stable_advance.bind fun _ => (stable_localVars fuel).bind fun _ =>
    stable_pure

theorem stable_condition (fuel : Nat) (keyword : String) : Stable (condition fuel keyword) :=
  stable_expect.bind fun _ => (exprStable fuel).expr.bind fun _ => stable_expect.bind fun _ =>
    stable_pure

theorem stable_forInit (fuel : Nat) : Stable (forInit fuel) :=
  stable_current.bind fun _ => .ite stable_pure <|
    .ite (stable_locals fuel) ((exprStable fuel).expr.bind fun _ => stable_pure)

theorem stable_orAbsent {next : Expr → Parser β} (hnext : ∀ e, Stable (next e)) :
    Stable (sees k >>= fun b =>
      if b = true then pure Expr.absent >>= next else expr fuel >>= next) :=
  stable_sees.bind fun _ => .ite (stable_pure.bind hnext) ((exprStable fuel).expr.bind hnext)

/-- The steps that read statements with some fuel. -/
structure StmtStable (allows : Feature → Bool) (fuel : Nat) : Prop where
  stmt : Stable (stmt allows fuel)
  block : Stable (block allows fuel)
  blockStmts : ∀ opening, Stable (blockStmts allows fuel opening)

theorem stable_stmt (ih : StmtStable allows fuel) : Stable (stmt allows (fuel + 1)) := by
  rw [stmt]
  have hlocals : Stable (locals fuel >>= fun s =>
      expect .semicolon (.missing .semicolon "declaration") >>= fun _ =>
        (pure s : Parser Stmt)) :=
    (stable_locals fuel).bind fun _ => stable_expect.bind fun _ => stable_pure
  refine stable_current.bind fun t => ?_
  split
  case h_1 => exact ih.block
  case h_2 => exact hlocals
  case h_3 => exact hlocals
  case h_4 => exact hlocals
  case h_5 => exact stable_advance.bind fun _ => stable_pure
  case h_6 =>
    exact stable_advance.bind fun _ => (stable_condition _ _).bind fun _ => ih.stmt.bind fun _ =>
      stable_accept.bind fun _ => .ite (ih.stmt.bind fun _ => stable_pure)
        (stable_pure.bind fun _ => stable_pure)
  case h_7 =>
    exact stable_advance.bind fun _ => (stable_condition _ _).bind fun _ => ih.stmt.bind fun _ =>
      stable_pure
  case h_8 =>
    exact stable_require.bind fun _ => stable_advance.bind fun _ => stable_expect.bind fun _ =>
      (stable_forInit _).bind fun _ => stable_expect.bind fun _ => stable_orAbsent fun _ =>
      stable_expect.bind fun _ => stable_orAbsent fun _ => stable_expect.bind fun _ =>
      ih.stmt.bind fun _ => stable_pure
  case h_9 => exact stable_advance.bind fun _ => stable_expect.bind fun _ => stable_pure
  case h_10 =>
    exact stable_require.bind fun _ => stable_advance.bind fun _ => stable_expect.bind fun _ =>
      stable_pure
  case h_11 =>
    exact stable_advance.bind fun _ => stable_orAbsent fun _ => stable_expect.bind fun _ => stable_pure
  case h_12 => exact stable_refuse
  case h_13 => exact (exprStable fuel).expr.bind fun _ => stable_expect.bind fun _ => stable_pure

theorem stable_blockStmts (ih : StmtStable allows fuel) (opening : Pos) :
    Stable (blockStmts allows (fuel + 1) opening) := by
  rw [blockStmts]
  refine stable_current.bind fun t => ?_
  split
  · exact stable_advance.bind fun _ => stable_pure
  · exact stable_refuse
  · exact ih.stmt.bind fun _ => (ih.blockStmts _).bind fun _ => stable_pure

theorem stmtStable (fuel : Nat) : StmtStable allows fuel := by
  induction fuel with
  | zero =>
    refine ⟨stable_throw, stable_throw, fun _ => ?_⟩
    rw [blockStmts]
    exact stable_throw
  | succ fuel ih =>
    refine ⟨stable_stmt ih, ?_, stable_blockStmts ih⟩
    rw [block]
    exact stable_current.bind fun _ => stable_advance.bind fun _ => (ih.blockStmts _).bind fun _ =>
      stable_pure

/-! ## Functions -/

theorem stable_param : Stable (param allows) := by
  refine stable_current.bind fun t => .ite ?_ stable_refuse
  refine stable_advance.bind fun _ => stable_current.bind fun _ => .ite ?_ ?_
  · exact stable_require.bind fun _ => stable_advance.bind fun _ => stable_pure.bind fun _ =>
      stable_expect.bind fun _ => stable_pure
  · exact stable_pure.bind fun _ => stable_expect.bind fun _ => stable_pure

theorem stable_params (fuel : Nat) : Stable (params allows fuel) := by
  induction fuel with
  | zero => exact stable_throw
  | succ fuel ih =>
    rw [params]
    exact stable_param.bind fun _ => stable_accept.bind fun _ =>
      .ite (ih.bind fun _ => stable_pure) stable_pure

theorem stable_function (fuel : Nat) : Stable (function allows fuel) := by
  have hrest {t name : Token} {ps : List Param} : Stable
      (expect .rightParen (.missing .rightParen "parameter list") >>= fun _ =>
        accept .semicolon >>= fun b => if b = true then pure {
            pos := name.pos, name := name.value, result := .ofKind t.kind, params := ps,
            body := none, isPrototype := true }
          else current >>= fun brace => if brace.kind = .leftBrace then
              advance >>= fun _ => blockStmts allows fuel brace.pos >>= fun stmts => pure {
                pos := name.pos, name := name.value, result := .ofKind t.kind, params := ps,
                body := some ⟨brace.pos, stmts⟩, isPrototype := false }
            else (refuse brace.pos (.expectedBody name.value) : Parser Function)) :=
    stable_expect.bind fun _ => stable_accept.bind fun _ => .ite stable_pure <|
      stable_current.bind fun _ => .ite (stable_advance.bind fun _ =>
        ((stmtStable fuel).blockStmts _).bind fun _ => stable_pure) stable_refuse
  refine stable_current.bind fun t => .ite ?_ stable_refuse
  exact stable_advance.bind fun _ => stable_expect.bind fun _ => stable_expect.bind fun _ =>
    stable_sees.bind fun _ => .ite (stable_pure.bind fun _ => hrest)
      ((stable_params fuel).bind fun _ => hrest)

theorem stable_functions (fuel : Nat) : Stable (functions allows fuel) := by
  induction fuel with
  | zero => exact stable_throw
  | succ fuel ih =>
    rw [functions]
    exact stable_sees.bind fun _ => .ite stable_pure <|
      (stable_function fuel).bind fun _ => ih.bind fun _ => stable_pure

/-- Functions are read up to an end of the file. -/
theorem endOfFile_of_reads_functions {p : Program} {st st' : TokenStream}
    (h : Reads (functions allows fuel) st p st') : st'.current.kind = .endOfFile := by
  induction fuel generalizing st p with
  | zero => exact absurd h not_reads_throw
  | succ fuel ih =>
    rw [functions, reads_bind_of_eq (a := st.current.kind == .endOfFile) rfl, reads_ite] at h
    obtain ⟨hend, h⟩ | ⟨-, h⟩ := h
    · obtain ⟨-, rfl⟩ := reads_pure.1 h
      exact beq_iff_eq.1 hend
    · obtain ⟨f, st₁, -, h⟩ := reads_bind.1 h
      obtain ⟨fs, st₂, hfs, h⟩ := reads_bind.1 h
      obtain ⟨-, rfl⟩ := reads_pure.1 h
      exact ih hfs

end Parser

/-! ## Programs -/

variable {allows : Feature → Bool}

theorem Parser.exists_reads_of_run' {α : Type} {x : Parser α} {st : TokenStream} {a : α}
    (h : x.run' st = .ok a) : ∃ st', Parser.Reads x st a st' := by
  rw [StateT.run'] at h
  simp only [Functor.map, Except.map] at h
  split at h
  · cases h
  · cases h
    exact ⟨_, ‹_›⟩

/-- A list of tokens that is read to a program is read as one that ends the file. If reading does not
    stop at its last token, an end of the file may follow. -/
theorem Program.exists_reads_of_parse {tokens : List Token} {p : Program}
    (h : Program.parse allows tokens = .ok p) :
    ∃ eof ts more st', eof.kind = .endOfFile ∧ tokens ++ more = ts ++ [eof] ∧
      ts.length ≤ tokens.length ∧ TokenStream.peek eof ts ≠ .illegal ∧
      Parser.Reads (Parser.functions allows (parseFuel tokens.length)) (.before eof ts) p st' := by
  cases tokens with
  | nil =>
    cases h
    exact ⟨⟨.endOfFile, "", {}⟩, [], [_], _, rfl, rfl, Nat.le_refl _, by simp, rfl⟩
  | cons t rest =>
    rw [Program.parse] at h
    split at h
    · cases h
    case isFalse hlegal =>
      obtain ⟨st', hread⟩ := Parser.exists_reads_of_run' h
      have hend := Parser.endOfFile_of_reads_functions hread
      obtain ⟨hsuffix, hmore⟩ := Parser.stable_functions _ _ _ _ hread
      by_cases hrest : st'.rest = []
      · -- the last token of the list ends the file
        obtain ⟨ts, hts⟩ := hsuffix
        rw [hrest] at hts
        have hstart : (⟨t, rest⟩ : TokenStream) = .before st'.current ts := by
          cases ts <;> cases hts <;> rfl
        have hpeek : TokenStream.peek st'.current ts ≠ .illegal := by
          rw [TokenStream.peek, ← TokenStream.before_current, ← hstart]
          exact hlegal
        have hlength := congrArg List.length hts
        refine ⟨st'.current, ts, [], st', hend, by rw [List.append_nil, hts], ?_, hpeek, hstart ▸ hread⟩
        simp only [List.length_append, List.length_cons, List.length_nil] at hlength ⊢
        omega
      · exact ⟨⟨.endOfFile, "", {}⟩, t :: rest, [_], _, rfl, rfl, Nat.le_refl _, hlegal,
          hmore hrest _⟩

/-- The tokens up to an end of the file, or all of them, spell the program that was read. -/
theorem Program.spelled_prefix_of_parse {tokens : List Token} {p : Program}
    (h : Program.parse allows tokens = .ok p) :
    ∃ ts rest, tokens = ts ++ rest ∧ Program.Spelled allows ts p := by
  obtain ⟨eof, ts, more, st', heof, hsplit, hlength, -, hread⟩ := Program.exists_reads_of_parse h
  obtain ⟨us, vs, rfl, -, hp, -⟩ :=
    Parser.sound_functions (Parser.isLast_of_eof heof) _ _ _ _ hread
  have hprefix : us <+: tokens ++ more := by
    rw [hsplit, List.append_assoc]
    exact List.prefix_append _ _
  rw [List.length_append] at hlength
  obtain ⟨rest, rfl⟩ :=
    List.prefix_of_prefix_length_le hprefix (List.prefix_append _ _) (by omega)
  exact ⟨us, rest, rfl, hp⟩

end MiniCompiler
