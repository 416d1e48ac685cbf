import MiniCompiler.Proofs.ReadOutcome

/-!
# Reading ends

A list of tokens that ends with an end of the file or an illegal token is read to a program, or some
token is refused. It does not matter what stands before the last token.

Two things are behind that. What a loop does in each round passes at least one token
(`Parser.LoopsAdvance`). Each step has a rank below ten, and before it passes a token it calls only steps
of a lower rank. So where `n` tokens are left, the calls of a step nest at most `10 * n` deep, and as much
deeper as its rank says (`Parser.CallsNest`). With fuel for that many calls, more fuel changes nothing.

Main statement: `Program.parse_halts`.
-/

namespace MiniCompiler

namespace Parser

open TokenStream

variable {α : Type} {eof : Token} {allows : Feature → Bool} {fuel : Nat} {ts : List Token}

/-! ## Rounds -/

/-- The step passes at least one token if it succeeds. -/
def Advances (x : Parser α) : Prop :=
  ∀ eof ts a st, eof.kind.isLast = true → Reads x (before eof ts) a st →
    ∃ us vs, us ≠ [] ∧ ts = us ++ vs ∧ st = before eof vs

theorem Sound.advances {fits : Token → α → List Token → List Token → Prop} {x : Parser α}
    (hx : ∀ eof, eof.kind.isLast = true → Sound eof (fits eof) x)
    (hfits : ∀ eof a vs, ¬ fits eof a [] vs) : Advances x := by
  intro eof ts a st heof h
  obtain ⟨us, vs, rfl, rfl, hus⟩ := hx eof heof ts a st h
  refine ⟨us, vs, ?_, rfl, rfl⟩
  rintro rfl
  exact hfits eof a vs hus

theorem advances_expect {k : TokenKind} (hk : k.isLast = false) (e : SyntaxError) :
    Advances (expect k e) := by
  intro eof ts t st heof h
  rw [← bind_pure (expect k e), reads_expect heof hk] at h
  obtain ⟨v, vs, rfl, -, -, h⟩ := h
  obtain ⟨-, rfl⟩ := reads_pure.1 h
  exact ⟨[v], vs, by simp, rfl, rfl⟩

/-- What the loops of the reader do in each round passes a token. -/
structure LoopsAdvance (allows : Feature → Bool) : Prop where
  functions : ∀ fuel, Advances (function allows fuel)
  params : Advances (param allows)
  statements : ∀ fuel, Advances (stmt allows fuel)
  locals : Advances (expect .identifier (.expected "variable name in declaration"))
  arguments : ∀ fuel, Advances (expr fuel)
  operands : ∀ fuel, ∀ m ≤ 14, Advances (operators fuel m)

theorem loopsAdvance (allows : Feature → Bool) : LoopsAdvance allows where
  functions fuel := Sound.advances (fun _ heof => sound_function heof) fun _ _ _ h => by cases h
  params := Sound.advances (fun _ heof => sound_param heof) fun _ _ _ h => by cases h
  statements fuel := Sound.advances (fun _ heof => (stmtSound heof fuel).stmt) fun _ _ _ h => by
    obtain ⟨_, _, ⟨⟩, -⟩ := h.1.starts
  locals := advances_expect rfl _
  arguments fuel := Sound.advances (fun _ heof => (exprSound heof fuel).expr) fun _ _ _ h => by
    obtain ⟨_, _, ⟨⟩⟩ := h.exists_cons
  operands fuel m hm :=
    Sound.advances (fun _ heof => (exprSound heof fuel).operators m hm) fun _ _ _ h => by
      obtain ⟨_, _, ⟨⟩⟩ := h.1.exists_cons

/-! ## Nested calls -/

/-- The calls of a step nest at most `10 * n + rank` deep where `n` tokens are left: with fuel for as
    many, the step ends, and as it would with any more fuel. -/
def Nests (rank : Nat) (x : Nat → Parser α) : Prop :=
  ∀ eof ts fuel, eof.kind.isLast = true → peek eof ts ≠ .illegal → 10 * ts.length + rank ≤ fuel →
    x fuel (before eof ts) ≠ .error .endless ∧
      x fuel (before eof ts) = x (10 * ts.length + rank) (before eof ts)

theorem Outcome.ends {l : List TokenKind → Prop} {x : Parser α} {y : Nat → Parser α}
    (h : Outcome eof l x y ts) (heof : eof.kind.isLast = true) :
    x (before eof ts) ≠ .error .endless ∧ ∀ k, y k (before eof ts) = x (before eof ts) := by
  cases h with
  | taken us vs a split reads takes legal derived readable =>
    rw [reads]
    exact ⟨by simp, fun k => split ▸ takes k eof vs heof rfl⟩
  | refused us vs pos e split run more blames sticks opens readable =>
    rw [run]
    exact ⟨by simp, more⟩

theorem Nests.of_follows {rank : Nat} {x : Nat → Parser α} {l : List TokenKind → Prop}
    (h : ∀ eof fuel n ts, eof.kind.isLast = true → 10 * n + rank ≤ fuel →
      Follows eof n l (x fuel) (fun k => x (k + fuel)) ts) : Nests rank x := by
  intro eof ts fuel heof hlegal hfuel
  obtain ⟨hends, hmore⟩ := (h eof (10 * ts.length + rank) ts.length ts heof (Nat.le_refl _)
    (Nat.le_refl _) hlegal).ends heof
  have hsame := hmore (fuel - (10 * ts.length + rank))
  rw [Nat.sub_add_cancel hfuel] at hsame
  exact ⟨hsame ▸ hends, hsame⟩

/-- How deep the calls of each step nest. A step has a higher rank than the steps that it calls before
    it passes a token: a block calls a statement, that an expression, this its operators, and so on. -/
structure CallsNest (allows : Feature → Bool) : Prop where
  expr : Nests 4 expr
  operators : ∀ m ≤ 14, Nests 3 (operators · m)
  operatorsAfter : ∀ m ≤ 14, ∀ left, Nests 1 (operatorsAfter · m left)
  unary : Nests 2 unary
  primary : Nests 1 primary
  arguments : Nests 5 arguments
  localVars : Nests 1 localVars
  stmt : Nests 5 (stmt allows)
  blockStmts : ∀ opening, Nests 6 (blockStmts allows · opening)
  params : Nests 1 (params allows)
  functions : Nests 1 (functions allows)

theorem callsNest (allows : Feature → Bool) : CallsNest allows := by
  have hexpr {eof : Token} (heof : eof.kind.isLast = true) (fuel : Nat) :
      ExprFollows eof allows fuel := exprFollows heof fuel
  exact {
    expr := .of_follows fun _ fuel n ts heof hn => (hexpr heof fuel).expr n ts hn
    operators m hm := .of_follows fun _ fuel n ts heof hn =>
      (hexpr heof fuel).operators m n ts hm hn
    operatorsAfter m hm left := .of_follows fun _ fuel n ts heof hn =>
      (hexpr heof fuel).operatorsAfter m 14 left _ n ts hm (Derives.constant 14) nextLevel_le hn
    unary := .of_follows fun _ fuel n ts heof hn => (hexpr heof fuel).unary n ts hn
    primary := .of_follows fun _ fuel n ts heof hn => (hexpr heof fuel).primary n ts hn
    arguments := .of_follows fun _ fuel n ts heof hn => (hexpr heof fuel).arguments n ts hn
    localVars := .of_follows (l := Derives (grammar allows) (.commas .localItem))
      fun _ fuel n ts heof hn => follows_localVars heof fuel n ts hn
    stmt := .of_follows fun _ fuel n ts heof hn => (stmtFollows heof fuel).stmt n ts hn
    blockStmts opening := .of_follows fun _ fuel n ts heof hn =>
      (stmtFollows heof fuel).blockStmts opening n ts hn
    params := .of_follows fun _ fuel n ts heof hn => follows_params heof fuel n ts hn
    functions := .of_follows fun _ fuel n ts heof hn => follows_functions heof fuel n ts hn }

end Parser

/-! ## Programs -/

theorem Program.parse_of_illegal {allows : Feature → Bool} {ts : List Token} {last : Token}
    (h : TokenStream.peek last ts = .illegal) :
    Program.parse allows (ts ++ [last]) =
      .error (.refused (ts.headD last).pos (.lexical (ts.headD last).value)) := by
  cases ts with
  | nil => exact if_pos h
  | cons t ts => exact if_pos h

/-- A list of tokens up to an end of the file or an illegal token is read to a program, or a token of it
    is refused. As the fuel is no limit, reading ends by itself: a round of a loop passes a token, and
    calls do not nest deeper than the tokens that are left allow for. -/
theorem Program.parse_halts (allows : Feature → Bool) (ts : List Token) (last : Token)
    (hlast : last.kind.isLast = true) :
    ((∃ p, Program.parse allows (ts ++ [last]) = .ok p) ∨
      ∃ pos e, Program.parse allows (ts ++ [last]) = .error (.refused pos e)) ∧
    (TokenStream.peek last ts ≠ .illegal → ∀ fuel, 10 * ts.length + 1 ≤ fuel →
      (Parser.functions allows fuel).run' (.before last ts) =
        Program.parse allows (ts ++ [last])) ∧
    Parser.LoopsAdvance allows ∧ Parser.CallsNest allows := by
  have hnest := (Parser.callsNest allows).functions last ts
  refine ⟨?_, fun hlegal fuel hfuel => ?_, Parser.loopsAdvance allows, Parser.callsNest allows⟩
  · by_cases hlegal : TokenStream.peek last ts = .illegal
    · exact .inr ⟨_, _, Program.parse_of_illegal hlegal⟩
    obtain ⟨hends, -⟩ := hnest (parseFuel (ts.length + 1)) hlast hlegal (by rw [parseFuel]; omega)
    rw [Program.parse_eq hlegal, StateT.run']
    simp only [Functor.map, Except.map]
    cases hrun : Parser.functions allows (parseFuel (ts.length + 1)) (.before last ts) with
    | ok r => exact .inl ⟨r.1, rfl⟩
    | error stop =>
      cases stop with
      | refused pos e => exact .inr ⟨pos, e, rfl⟩
      | endless => exact absurd hrun hends
  · obtain ⟨-, hsame⟩ := hnest fuel hlast hlegal hfuel
    obtain ⟨-, hparse⟩ := hnest (parseFuel (ts.length + 1)) hlast hlegal (by rw [parseFuel]; omega)
    rw [Program.parse_eq hlegal, StateT.run', StateT.run', hsame, hparse]

/-- The tokens of `void f() {`, then an end of the file, an illegal token and a brace. -/
def strayEnd : List Token :=
  [.kwVoid, .identifier, .leftParen, .rightParen, .leftBrace, .endOfFile, .illegal,
    .rightBrace].map fun k => { kind := k, value := "f" }

/-- The block is not closed before the first end of the file, whatever the fuel and whatever follows. -/
theorem Program.parse_halts_strayEnd :
    Program.parse (fun _ => true) (strayEnd ++ [{ kind := .illegal }]) =
      .error (.refused {} .unclosedBlock) ∧
    ∀ fuel, 81 ≤ fuel → (Parser.functions (fun _ => true) fuel).run'
      (.before { kind := .illegal } strayEnd) = .error (.refused {} .unclosedBlock) :=
  have hhalts := Program.parse_halts (fun _ => true) strayEnd { kind := .illegal } rfl
  ⟨rfl, fun fuel hfuel => (hhalts.2.1 (by decide) fuel hfuel).trans rfl⟩

end MiniCompiler
