import MiniCompiler.Proofs.Refusal

/-!
# Every step of reading follows its rule

With enough fuel for the tokens, each step of reading takes or refuses them as its rule of the grammar
asks for (`Parser.Follows`). The proofs go by induction on the fuel, one lemma for each step, and open a
step along its own text.

An expression looks at one token more than the others, to see whether a name is assigned to. It never
refuses a name, so the token after the name is one that it takes or refuses.

Main statement: `Parser.follows_functions`.
-/

namespace MiniCompiler

/-! ## What derives what -/

/-- A variable of a declaration, with its value if it is given one. -/
abbrev Ebnf.localItem : Ebnf :=
  .all [.token .identifier, .optional (.all [.token .assign, .rule .expr])]

/-- The inside of a block after its opening brace. -/
abbrev Ebnf.blockRest : Ebnf := .all [.repeated (.rule .stmt), .token .rightBrace]

namespace Derives

variable {allows : Feature → Bool} {a b c : Ebnf} {w : List TokenKind}

theorem of_all_singleton (h : Derives (grammar allows) (.all [a]) w) :
    Derives (grammar allows) a w := by
  obtain ⟨u, _, rfl, hu, ⟨⟩⟩ := seq_iff.1 h
  rwa [List.append_nil]

theorem seq_assoc (h : Derives (grammar allows) (.seq a (.seq b c)) w) :
    Derives (grammar allows) (.seq (.all [a, b]) c) w := by
  obtain ⟨u, _, rfl, hu, h⟩ := seq_iff.1 h
  obtain ⟨v, w, rfl, hv, hw⟩ := seq_iff.1 h
  rw [← List.append_assoc]
  exact .seq (hu.append_all hv.last_all) hw

theorem primary_name (h : Derives (grammar allows) (.seq (.token .identifier)
    (.alt (.seq (.token .leftParen)
      (.all [.optional (.commas (.rule .expr)), .token .rightParen])) .empty)) w) :
    Derives (grammar allows) (.rule .primary) w := by
  obtain ⟨_, v, rfl, hname, hv⟩ := seq_iff.1 h
  cases hv with
  | left hcall => exact .rule (.right (.right (.right (.right (.left (.seq hname hcall))))))
  | right hnone =>
    cases hnone
    rw [List.append_nil]
    exact .rule (.right (.right (.right (.left hname))))

theorem block (h : Derives (grammar allows) (.seq (.token .leftBrace) (.all [.blockRest])) w) :
    Derives (grammar allows) (.rule .block) w := by
  obtain ⟨_, _, rfl, hbrace, hrest⟩ := seq_iff.1 h
  exact .rule (.seq hbrace hrest.of_all_singleton)

/-- A rule by which no tokens at all spell nothing derives no empty list. -/
theorem length_pos {r : Rule} (h : Derives (grammar allows) (.rule r) w)
    (hr : ¬ Rule.Spells allows r []) : 0 < w.length := by
  refine List.length_pos_iff.2 ?_
  rintro rfl
  exact hr (h.matches (fun r _ => Rule.closed r) [] rfl (by simp))

theorem opens_rule (r : Rule) : Opens (Derives (grammar allows) (.rule r)) [] := r.exists_derives

end Derives

namespace Parser

open TokenStream

variable {α β : Type} {eof : Token} {allows : Feature → Bool} {fuel n : Nat} {ts : List Token}

theorem before_injective {us vs : List Token} (h : before eof us = before eof vs) : us = vs := by
  cases us with
  | nil =>
    cases vs with
    | nil => rfl
    | cons v vs => simp [before] at h
  | cons u us =>
    cases vs with
    | nil => simp [before] at h
    | cons v vs => simpa [before] using h

/-! ## Expressions -/

theorem nextLevel_le : NextLevel eof (· ≤ 14) ts := by
  intro l hl
  have := (Rule.atLeast_level hl).2.2
  omega

/-- The steps of reading an expression follow their rules with this fuel. Each has the fuel for as many
    tokens as it may pass, and for the steps inside it that pass none. -/
structure ExprFollows (eof : Token) (allows : Feature → Bool) (fuel : Nat) : Prop where
  expr : ∀ n ts, 10 * n + 4 ≤ fuel →
    Follows eof n (Derives (grammar allows) (.rule .expr)) (expr fuel) (fun k => expr (k + fuel)) ts
  operators : ∀ m n ts, m ≤ 14 → 10 * n + 3 ≤ fuel →
    Follows eof n (Derives (grammar allows) (.rule (.atLeast m)))
      (operators fuel m) (fun k => operators (k + fuel) m) ts
  operatorsAfter : ∀ m k left w n ts, m ≤ k → Derives (grammar allows) (.rule (.atLeast k)) w →
    NextLevel eof (· ≤ k) ts → 10 * n + 1 ≤ fuel →
    Follows eof n (fun v => Derives (grammar allows) (.rule (.atLeast m)) (w ++ v))
      (operatorsAfter fuel m left) (fun i => operatorsAfter (i + fuel) m left) ts
  unary : ∀ n ts, 10 * n + 2 ≤ fuel →
    Follows eof n (Derives (grammar allows) (.rule .unary)) (unary fuel) (fun k => unary (k + fuel)) ts
  primary : ∀ n ts, 10 * n + 1 ≤ fuel →
    Follows eof n (Derives (grammar allows) (.rule .primary))
      (primary fuel) (fun k => primary (k + fuel)) ts
  arguments : ∀ n ts, 10 * n + 5 ≤ fuel →
    Follows eof n (Derives (grammar allows) (.commas (.rule .expr)))
      (arguments fuel) (fun k => arguments (k + fuel)) ts

/-- A number, once it is passed: its value, or that it is out of range. -/
def numberOf (t : Token) : Parser Expr := do
  advance
  match int64? t.value.toList with
  | some n => return .int t.pos n
  | none => refuse t.pos (.outOfRange t.value)

section

variable (heof : eof.kind.isLast = true)

include heof

/-- A number is passed before its range is looked at, so an illegal token after it is refused first. -/
theorem follows_number {t : Token} (ht : t.kind = .number) :
    Follows eof n (Derives (grammar allows) (.token .number)) (numberOf t)
      (fun _ => numberOf t) (t :: ts) := by
  intro _ _
  have hopens : Opens (Derives (grammar allows) (.token .number)) ([t].map Token.kind) :=
    ⟨[], by simpa [ht] using Derives.token .number⟩
  cases hn : int64? t.value.toList with
  | some k =>
    have hread : t.Readable := fun _ => by rw [hn]; rfl
    have hopen : numberOf t = advance >>= fun _ => pure (.int t.pos k) := by simp only [numberOf, hn]
    simp only [hopen]
    refine Follows.mono (l := Derives (grammar allows) (.all [.token .number])) (n := (t :: ts).length)
      ?_ (fun _ => Derives.of_all_singleton) (Nat.le_refl _) (by simp [ht])
    exact ht ▸ follows_pass heof (.token _) hread rfl fun _ _ => follows_pure .empty
  | none =>
    have hread : ¬ t.Readable := fun h => by simpa [hn] using h ht
    have hopen : numberOf t = advance >>= fun _ => refuse t.pos (.outOfRange t.value) := by
      simp only [numberOf, hn]
    have hfails (eof' : Token) (ts' : List Token) : ∀ (a : Expr) st,
        ¬ Reads (numberOf t) (before eof' (t :: ts')) a st := fun a st h =>
      not_reads_refuse (reads_advance.1 (hopen ▸ h)).2
    by_cases hnext : peek eof ts = .illegal
    · have hrun : numberOf t (before eof (t :: ts)) =
          .error (.refused (ts.headD eof).pos (.lexical (ts.headD eof).value)) := by
        rw [hopen, run_advance, if_pos hnext]
      exact .refused [t] ts _ (.lexical _) rfl hrun (fun _ => hrun) ⟨hnext, rfl, rfl⟩
        (fun _ eof' ts' _ _ => hfails eof' ts') hopens (.inr ⟨hnext, [], t, rfl, hread, by simp⟩)
    · have hrun : numberOf t (before eof (t :: ts)) =
          .error (.refused t.pos (.outOfRange t.value)) := by
        rw [hopen, run_advance, if_neg hnext]
        rfl
      refine .refused [] (t :: ts) _ (.outOfRange _) rfl hrun (fun _ => hrun) ⟨hread, rfl, rfl⟩ ?_
        hopens.nil (.inl (by simp))
      intro _ eof' ts' heof' hhead
      obtain ⟨t', us, rfl, -⟩ := exists_of_peek (k := .number) heof' rfl
        ((congrArg Token.kind hhead).trans ht)
      cases hhead
      exact hfails eof' us

theorem follows_primary (ih : ExprFollows eof allows fuel) (hn : 10 * n + 1 ≤ fuel + 1) :
    Follows eof n (Derives (grammar allows) (.rule .primary))
      (primary (fuel + 1)) (fun k => primary (k + fuel + 1)) ts := by
  simp only [primary]
  refine follows_current heof ?_
  split
  case h_1 hpeek =>
    obtain ⟨t, ts, rfl, ht⟩ := exists_of_peek heof (by decide) hpeek
    exact (follows_number heof ht).mono fun _ hw => .rule (.left hw)
  case h_2 hpeek =>
    obtain ⟨t, ts, rfl, ht⟩ := exists_of_peek heof (by decide) hpeek
    refine Follows.mono (l := Derives (grammar allows) (.all [.token .kwTrue])) ?_ fun _ hw =>
      .rule (.right (.left hw.of_all_singleton))
    exact follows_passToken heof ht (by decide) rfl fun _ _ => follows_pure .empty
  case h_3 hpeek =>
    obtain ⟨t, ts, rfl, ht⟩ := exists_of_peek heof (by decide) hpeek
    refine Follows.mono (l := Derives (grammar allows) (.all [.token .kwFalse])) ?_ fun _ hw =>
      .rule (.right (.right (.left hw.of_all_singleton)))
    exact follows_passToken heof ht (by decide) rfl fun _ _ => follows_pure .empty
  case h_4 hpeek =>
    obtain ⟨t, ts, rfl, ht⟩ := exists_of_peek heof (by decide) hpeek
    refine Follows.mono ?_ fun _ => Derives.primary_name
    refine follows_passToken heof ht (by decide) rfl fun m hm => ?_
    refine follows_accept heof rfl (by decide) rfl (fun ts m' hm' => ?_) (follows_pure .empty)
    refine follows_orAbsent heof rfl (ih.arguments m' ts (by omega)) fun args ts m'' _ => ?_
    exact follows_expect heof rfl (by decide) (fun _ h => ⟨h, rfl⟩) rfl fun _ _ _ _ =>
      follows_pure .empty
  case h_5 hpeek =>
    obtain ⟨t, ts, rfl, ht⟩ := exists_of_peek heof (by decide) hpeek
    refine Follows.mono (l := Derives (grammar allows)
      (.all [.token .leftParen, .rule .expr, .token .rightParen])) ?_ fun _ hw =>
        .rule (.right (.right (.right (.right (.right (.left hw))))))
    refine follows_passToken heof ht (by decide) rfl fun m hm => ?_
    refine follows_seq heof (ih.expr m ts (by omega)) rfl fun e ts m' _ => ?_
    exact follows_expect heof rfl (by decide) (fun _ h => ⟨h, rfl⟩) rfl fun _ _ _ _ =>
      follows_pure .empty
  case h_6 => exact follows_refuse (fun h => ⟨h, rfl⟩) (Derives.opens_rule _)

theorem follows_unary (ih : ExprFollows eof allows fuel) (hn : 10 * n + 2 ≤ fuel + 1) :
    Follows eof n (Derives (grammar allows) (.rule .unary))
      (unary (fuel + 1)) (fun k => unary (k + fuel + 1)) ts := by
  simp only [unary]
  refine follows_current heof ?_
  split
  case isTrue hsign =>
    obtain ⟨t, ts, rfl, ht⟩ : ∃ t us, ts = t :: us ∧ t.kind ∈ [TokenKind.minus, .not] := by
      obtain hk | hk := hsign
      · obtain ⟨t, ts, rfl, ht⟩ := exists_of_peek heof (by decide) hk
        exact ⟨t, ts, rfl, by simp [ht]⟩
      · obtain ⟨t, ts, rfl, ht⟩ := exists_of_peek heof (by decide) hk
        exact ⟨t, ts, rfl, by simp [ht]⟩
    have hread : t.Readable := fun hk => by simp [hk] at ht
    refine Follows.mono (l := Derives (grammar allows)
      (.all [.oneOf ([TokenKind.minus, .not].map .token), .rule .unary])) ?_ fun _ hw => .rule (.left hw)
    refine follows_pass heof (.token_oneOf ht) hread rfl fun m hm => ?_
    exact follows_seq heof (ih.unary m ts (by omega)) rfl fun _ _ _ _ => follows_pure .empty
  case isFalse =>
    exact (ih.primary n ts (by omega)).mono fun _ hw => .rule (.right (.left hw))

theorem follows_arguments (ih : ExprFollows eof allows fuel) (hn : 10 * n + 5 ≤ fuel + 1) :
    Follows eof n (Derives (grammar allows) (.commas (.rule .expr)))
      (arguments (fuel + 1)) (fun k => arguments (k + fuel + 1)) ts := by
  simp only [arguments]
  refine Follows.mono ?_ fun _ => Derives.commas_of_more
  refine follows_seq heof (ih.expr n ts (by omega)) rfl fun e ts m hm => ?_
  exact follows_more heof rfl fun ts m' hm' => ih.arguments m' ts (by omega)

theorem follows_operators (ih : ExprFollows eof allows fuel)
    {m : Nat} (hm : m ≤ 14) (hn : 10 * n + 3 ≤ fuel + 1) :
    Follows eof n (Derives (grammar allows) (.rule (.atLeast m)))
      (operators (fuel + 1) m) (fun k => operators (k + fuel + 1) m) ts := by
  have hunary {w : List TokenKind} (hw : Derives (grammar allows) (.rule .unary) w) :
      Derives (grammar allows) (.rule (.atLeast 14)) w := hw
  simp only [operators]
  refine follows_bind heof (ih.unary n ts (by omega))
    (fun w hw => ⟨[], by simpa using (hunary hw).atLeast_mono hm⟩) fun us vs left m' _ hm' hus _ => ?_
  exact ih.operatorsAfter m 14 left _ m' vs hm (hunary hus) nextLevel_le (by omega)

theorem follows_operatorsAfter (ih : ExprFollows eof allows fuel) {m k : Nat} {left : Expr}
    {w : List TokenKind} (hmk : m ≤ k) (hw : Derives (grammar allows) (.rule (.atLeast k)) w)
    (hnext : NextLevel eof (· ≤ k) ts) (hn : 10 * n + 1 ≤ fuel + 1) :
    Follows eof n (fun v => Derives (grammar allows) (.rule (.atLeast m)) (w ++ v))
      (operatorsAfter (fuel + 1) m left) (fun i => operatorsAfter (i + fuel + 1) m left) ts := by
  have hdone : Derives (grammar allows) (.rule (.atLeast m)) (w ++ []) := by
    simpa using hw.atLeast_mono hmk
  simp only [operatorsAfter]
  refine follows_current heof ?_
  split
  case h_1 => exact follows_pure hdone
  case h_2 l hlevel =>
    split
    · exact follows_pure hdone
    have hend : (peek eof ts).isLast = false := by
      cases hk : peek eof ts <;> rw [peek] at hk <;> rw [hk] at hlevel <;>
        first | rfl | cases hlevel
    obtain ⟨op, ts, rfl, -⟩ := exists_of_peek heof hend rfl
    have hleft := hw.atLeast_mono (hnext l hlevel)
    have hwhole {v : List TokenKind}
        (hv : Derives (grammar allows) (.rule (.atLeast (l + 1))) v) :
        Derives (grammar allows) (.rule (.atLeast l)) (w ++ op.kind :: v) := .operation hlevel hleft hv
    have hread : op.Readable := fun hk => by
      rw [List.headD_cons, hk] at hlevel
      cases hlevel
    refine follows_passed [op] heof (fun _ _ _ => run_advance) (fun _ _ _ _ => run_advance)
      (by simpa using hread) ⟨[.kwTrue], (hwhole (.constant (l + 1))).atLeast_mono (by omega)⟩
      fun m' hm' => ?_
    rw [List.length_singleton] at hm'
    have hl := (Rule.atLeast_level hlevel).2.2
    refine follows_bind heof (ih.operators (l + 1) m' ts (by omega) (by omega))
      (fun v hv => ⟨[], by simpa using (hwhole hv).atLeast_mono (by omega)⟩)
      fun us vs right m'' hsplit hm'' hus hreads => ?_
    -- the next operator binds no tighter than this one, or it would have been taken before
    obtain ⟨_, vs', -, hvs, -, hstop⟩ := (exprSound heof fuel).operators (l + 1) (by omega) _ _ _ hreads
    cases before_injective hvs
    refine (ih.operatorsAfter m l _ _ m'' vs (by omega) (hwhole hus)
      (fun l' hl' => Nat.le_of_lt_succ (hstop l' hl')) (by omega)).mono fun v hv => ?_
    simpa using hv

/-- An expression that is no assignment. -/
def noAssignment (fuel : Nat) : Parser Expr := do
  let e ← operators fuel 0
  let t ← current
  if t.kind = .assign then refuse t.pos .notAssignable
  else return e

omit heof in
theorem run_expr_assign {x sign : Token} (hx : x.kind = .identifier) (hsign : sign.kind = .assign) :
    expr (fuel + 1) (before eof (x :: sign :: ts)) =
      if peek eof ts = .illegal then
        .error (.refused (ts.headD eof).pos (.lexical (ts.headD eof).value))
      else (expr fuel >>= fun value => pure (.assign sign.pos ⟨x.pos, x.value, none⟩ value))
        (before eof ts) := by
  rw [expr, run_current, run_nextKind, List.headD_cons, List.tail_cons, peek_cons,
    if_pos ⟨hx, hsign⟩, run_advance, peek_cons, if_neg (by simp [hsign]), run_current, List.headD_cons,
    run_advance]

omit heof in
theorem run_expr_not (h : ¬ ((ts.headD eof).kind = .identifier ∧ peek eof ts.tail = .assign)) :
    expr (fuel + 1) (before eof ts) = noAssignment fuel (before eof ts) := by
  rw [expr, run_current, run_nextKind, if_neg h]
  rfl

theorem follows_noAssignment (ih : ExprFollows eof allows fuel) (hn : 10 * n + 3 ≤ fuel) :
    Follows eof n (Derives (grammar allows) (.rule (.atLeast 0)))
      (noAssignment fuel) (fun k => noAssignment (k + fuel)) ts := by
  refine follows_bind heof (ih.operators 0 n ts (by omega) hn) (fun w hw => ⟨[], by simpa using hw⟩)
    fun us vs e m _ _ hus _ => follows_current heof ?_
  split
  · exact follows_refuse (fun h => ⟨h, rfl⟩) ⟨[], by simpa using hus⟩
  · exact follows_pure (by simpa using hus)

omit heof in
/-- A name alone is an expression, so no name is refused. -/
theorem reads_noAssignment_name {x : Token} (hx : x.kind = .identifier) (hfuel : 13 ≤ fuel) :
    ∃ e, Reads (noAssignment fuel) (before ⟨.endOfFile, "", {}⟩ [x]) e
      (before ⟨.endOfFile, "", {}⟩ []) := by
  have hspelled : Expr.Spelled (.atLeast 14) [x] (.var ⟨x.pos, x.value, none⟩) := .atom (.var hx)
  have hcomplete := exprComplete (show (⟨.endOfFile, "", {}⟩ : Token).kind = .endOfFile from rfl)
    (hspelled.atLeast_mono (Nat.zero_le 14))
  have hnext (k : Nat) : NextLevel ⟨.endOfFile, "", {}⟩ (· < k) [] := nofun
  obtain ⟨fuel', hfuel', hread⟩ := hcomplete 0 (Nat.zero_le _) [] fuel (by simp [Legal, hx])
    (by decide) nofun hfuel
  obtain ⟨fuel', rfl⟩ : ∃ k, fuel' = k + 1 := ⟨fuel' - 1, by omega⟩
  refine ⟨.var ⟨x.pos, x.value, none⟩, reads_bind.2
    ⟨_, _, hread _ _ (reads_operatorsAfter_stop (hnext 0)), ?_⟩⟩
  rw [reads_current]
  exact reads_ite.2 (.inr ⟨by decide, reads_done⟩)

theorem follows_expr (ih : ExprFollows eof allows fuel) (hn : 10 * n + 4 ≤ fuel + 1) :
    Follows eof n (Derives (grammar allows) (.rule .expr))
      (expr (fuel + 1)) (fun k => expr (k + fuel + 1)) ts := by
  by_cases hassign : peek eof ts = .identifier ∧ peek eof ts.tail = .assign
  · obtain ⟨hname, hnext⟩ := hassign
    obtain ⟨x, ts, rfl, hx⟩ := exists_of_peek heof (by decide) hname
    obtain ⟨sign, ts, rfl, hsign⟩ := exists_of_peek heof (by decide) hnext
    have hwhole {w : List TokenKind} (hw : Derives (grammar allows) (.rule .expr) w) :
        Derives (grammar allows) (.rule .expr) ([x, sign].map Token.kind ++ w) := by
      simp only [List.map_cons, List.map_nil, hx, hsign]
      exact .rule (.left (.token_all (.token_all hw.last_all)))
    have hread : ∀ t ∈ [x, sign], t.Readable := by simp [Token.Readable, hx, hsign]
    obtain ⟨w, hw⟩ : ∃ w, Derives (grammar allows) (.rule .expr) w := Rule.exists_derives .expr
    refine follows_passed [x, sign] heof (fun _ _ _ => run_expr_assign hx hsign)
      (fun _ _ _ _ => run_expr_assign hx hsign) hread ⟨w, hwhole hw⟩ fun m hm => ?_
    rw [List.length_cons, List.length_singleton] at hm
    refine Follows.mono (l := Derives (grammar allows) (.all [.rule .expr])) ?_ fun w hw =>
      hwhole hw.of_all_singleton
    exact follows_seq heof (ih.expr m ts (by omega)) rfl fun _ _ _ _ => follows_pure .empty
  refine Follows.mono (l := Derives (grammar allows) (.rule (.atLeast 0))) ?_ fun _ hw =>
    .rule (.right (.left hw))
  have hfollows : Follows eof n (Derives (grammar allows) (.rule (.atLeast 0)))
      (noAssignment fuel) (fun k => noAssignment (k + fuel)) ts := follows_noAssignment heof ih (by omega)
  by_cases hname : peek eof ts = .identifier
  · -- the token after the name is taken or refused as well, so it decides in the same way
    obtain ⟨x, ts, rfl, hx⟩ := exists_of_peek heof (by decide) hname
    have hsame (fuel : Nat) (us vs : List Token) (hsplit : x :: ts = us ++ vs) (hus : us ≠ [])
        (eof' : Token) (ts' : List Token) (hhead : ts'.headD eof' = vs.headD eof) :
        expr (fuel + 1) (before eof' (us ++ ts')) = noAssignment fuel (before eof' (us ++ ts')) := by
      obtain ⟨u, us, rfl⟩ := List.exists_cons_of_ne_nil hus
      obtain ⟨-, rfl⟩ := List.cons.inj hsplit
      refine run_expr_not fun h => hassign ⟨hname, ?_⟩
      exact (congrArg Token.kind (headD_append hhead)).symm.trans h.2
    have hrun (fuel : Nat) : expr (fuel + 1) (before eof (x :: ts)) =
        noAssignment fuel (before eof (x :: ts)) := hsame fuel [x] ts rfl (by simp) eof ts rfl
    intro hlength hlegal
    rw [List.length_cons] at hlength
    cases hfollows hlength hlegal with
    | taken us vs a split reads takes legal derived readable =>
      have hlength := derived.length_pos (by
        rintro ⟨_, he⟩
        obtain ⟨_, _, ⟨⟩⟩ := he.exists_cons)
      have hus : us ≠ [] := List.length_pos_iff.1 (by rwa [List.length_map] at hlength)
      refine .taken us vs a split ((hrun fuel).trans reads) (fun k eof' ts' heof' hhead => ?_) legal
        derived readable
      rw [Reads, hsame _ us vs split hus eof' ts' hhead]
      exact takes k eof' ts' heof' hhead
    | refused us vs pos e split run more blames sticks opens readable =>
      have hus : us ≠ [] := by
        rintro rfl
        obtain ⟨e, hread⟩ := reads_noAssignment_name hx (show 13 ≤ 0 + fuel by omega)
        cases split
        exact sticks 0 _ [x] rfl rfl _ _ hread
      refine .refused us vs pos e split ((hrun fuel).trans run) (fun k => (hrun _).trans (more k))
        blames ?_ opens readable
      intro k eof' ts' heof' hhead a st hreads
      rw [Reads, hsame _ us vs split hus eof' ts' hhead] at hreads
      exact sticks k eof' ts' heof' hhead a st hreads
  · have hsame (fuel : Nat) (eof' : Token) (ts' : List Token) (hhead : ts'.headD eof' = ts.headD eof) :
        expr (fuel + 1) (before eof' ts') = noAssignment fuel (before eof' ts') :=
      run_expr_not fun h => hname ((congrArg Token.kind hhead).symm.trans h.1)
    exact hfollows.congr heof (hsame fuel eof ts rfl) fun k eof' ts' _ => hsame (k + fuel) eof' ts'

theorem exprFollows (fuel : Nat) :
    ExprFollows eof allows fuel := by
  -- ten units for each token: fewer than ten steps follow each other without passing one
  induction fuel with
  | zero => constructor <;> intros <;> omega
  | succ fuel ih =>
    exact {
      expr := fun _ _ => follows_expr heof ih
      operators := fun _ _ _ => follows_operators heof ih
      operatorsAfter := fun _ _ _ _ _ _ => follows_operatorsAfter heof ih
      unary := fun _ _ => follows_unary heof ih
      primary := fun _ _ => follows_primary heof ih
      arguments := fun _ _ => follows_arguments heof ih }

/-! ## Parts of statements -/

theorem follows_localVars (fuel : Nat) :
    ∀ n ts, 10 * n + 1 ≤ fuel → Follows eof n (Derives (grammar allows) (.commas .localItem))
      (localVars fuel) (fun k => localVars (k + fuel)) ts := by
  induction fuel with
  | zero =>
    intro n ts hn
    omega
  | succ fuel ih =>
    intro n ts hn
    simp only [localVars]
    refine Follows.mono ?_ fun _ hw => Derives.commas_of_more (Derives.seq_assoc hw)
    refine follows_expect heof rfl (by decide) (fun _ h => ⟨h, rfl⟩) rfl fun name ts m hm => ?_
    refine follows_optional heof rfl (by decide) rfl rfl
      (fun ts m' hm' => (exprFollows heof fuel).expr m' ts (by omega)) fun init ts m' hm' => ?_
    exact follows_more heof rfl fun ts m'' hm'' => ih m'' ts (by omega)

theorem follows_locals (htype : (peek eof ts).isType) (hn : 10 * n ≤ fuel) :
    Follows eof n (Derives (grammar allows) (.rule .declaration))
      (locals fuel) (fun k => locals (k + fuel)) ts := by
  obtain ⟨t, ts, rfl, ht⟩ := exists_of_isType heof htype
  simp only [locals]
  refine Follows.mono (follows_current heof ?_) fun _ hw => .rule hw
  refine follows_pass heof (.type ht) (.of_isType ht) rfl fun m hm => ?_
  exact follows_seq heof (follows_localVars heof fuel m ts (by omega)) rfl fun _ _ _ _ =>
    follows_pure .empty

theorem follows_condition {b : Ebnf} (hb : b.productive = true) {keyword : String}
    {f : Expr → Parser β} {g : Nat → Expr → Parser β} (hn : 10 * n ≤ fuel) (hf : ∀ test ts, ∀ m < n,
      Follows eof m (Derives (grammar allows) b) (f test) (fun k => g k test) ts) :
    Follows eof n (Derives (grammar allows)
      (.seq (.token .leftParen) (.seq (.rule .expr) (.seq (.token .rightParen) b))))
      (condition fuel keyword >>= f) (fun k => condition (k + fuel) keyword >>= g k) ts := by
  have hrest : (Ebnf.seq (.token .rightParen) b).productive = true := by simp [Ebnf.productive, hb]
  simp only [condition, bind_assoc, pure_bind]
  refine follows_expect heof rfl (by decide) (fun _ h => ⟨h, rfl⟩)
    (by simp [Ebnf.productive, hb]) fun _ ts m hm => ?_
  refine follows_seq heof ((exprFollows heof fuel).expr m ts (by omega)) hrest
    fun test ts m' hm' => ?_
  exact follows_expect heof rfl (by decide) (fun _ h => ⟨h, rfl⟩) hb fun _ ts m'' hm'' =>
    hf test ts m'' (by omega)

theorem follows_forInit (hn : 10 * n + 4 ≤ fuel) :
    Follows eof n (Derives (grammar allows) (.optional (.rule .forInit)))
      (forInit fuel) (fun k => forInit (k + fuel)) ts := by
  simp only [forInit]
  refine follows_current heof ?_
  split
  · exact follows_pure .absent
  split
  case isTrue htype =>
    exact (follows_locals heof htype (by omega)).mono fun _ hw => .present (.rule (.left hw))
  case isFalse =>
    refine Follows.mono (l := Derives (grammar allows) (.all [.rule .expr])) ?_ fun _ hw =>
      .present (.rule (.right (.left hw.of_all_singleton)))
    exact follows_seq heof ((exprFollows heof fuel).expr n ts hn) rfl fun _ _ _ _ =>
      follows_pure .empty

omit heof in
/-- A token of a feature is refused if the feature is not allowed. -/
theorem follows_require {l : List TokenKind → Prop} {feature : Feature} {f : Unit → Parser β}
    {g : Nat → Unit → Parser β} (hopens : Opens l [])
    (hf : allows feature = true → Follows eof n l (f ()) (fun k => g k ()) ts) :
    Follows eof n l (require allows feature (ts.headD eof) >>= f)
      (fun k => require allows feature (ts.headD eof) >>= g k) ts := by
  cases hfeature : allows feature with
  | true =>
    simp only [require, hfeature, ↓reduceIte, pure_bind]
    exact hf hfeature
  | false =>
    have hrefuse (f : Unit → Parser β) : (require allows feature (ts.headD eof) >>= f) =
        refuse (ts.headD eof).pos (.disabled (ts.headD eof).kind feature) := by
      rw [require, if_neg (by simp [hfeature])]
      rfl
    simp only [hrefuse]
    exact follows_refuse (fun h => ⟨h, rfl⟩) hopens

/-! ## Statements -/

/-- The steps of reading a statement follow their rules with this fuel. -/
structure StmtFollows (eof : Token) (allows : Feature → Bool) (fuel : Nat) : Prop where
  stmt : ∀ n ts, 10 * n + 5 ≤ fuel →
    Follows eof n (Derives (grammar allows) (.rule .stmt))
      (stmt allows fuel) (fun k => stmt allows (k + fuel)) ts
  block : ∀ n t ts, t.kind = .leftBrace → 10 * n + 1 ≤ fuel →
    Follows eof n (Derives (grammar allows) (.rule .block))
      (block allows fuel) (fun k => block allows (k + fuel)) (t :: ts)
  blockStmts : ∀ p n ts, 10 * n + 6 ≤ fuel →
    Follows eof n (Derives (grammar allows) .blockRest)
      (blockStmts allows fuel p) (fun k => blockStmts allows (k + fuel) p) ts

theorem follows_stmt (ih : StmtFollows eof allows fuel) (hn : 10 * n + 5 ≤ fuel + 1) :
    Follows eof n (Derives (grammar allows) (.rule .stmt))
      (stmt allows (fuel + 1)) (fun k => stmt allows (k + fuel + 1)) ts := by
  have hexpr (m : Nat) (ts : List Token) (hm : m ≤ n) :
      Follows eof m (Derives (grammar allows) (.rule .expr)) (expr fuel) (fun k => expr (k + fuel)) ts :=
    (exprFollows heof fuel).expr m ts (by omega)
  have hsemicolon {e : SyntaxError} {s : Stmt} {m : Nat} {ts : List Token}
      (he : ∀ t : Token, t.kind ≠ .illegal → e.Blames t t.pos) :
      Follows eof m (Derives (grammar allows) (.all [.token .semicolon]))
        (expect .semicolon e >>= fun _ => pure s)
        (fun _ => expect .semicolon e >>= fun _ => pure s) ts :=
    follows_expect heof rfl (by decide) he rfl fun _ _ _ _ => follows_pure .empty
  simp only [stmt]
  refine follows_current heof ?_
  split
  case h_1 hpeek =>
    obtain ⟨t, ts, rfl, ht⟩ := exists_of_peek heof (by decide) hpeek
    exact (ih.block n t ts ht (by omega)).mono fun _ hw => .rule (.left hw)
  case h_2 hpeek | h_3 hpeek | h_4 hpeek =>
    have htype : (peek eof ts).isType := by
      rw [show peek eof ts = _ from hpeek]
      rfl
    refine Follows.mono ?_ fun _ hw => .rule (.right (.right (.left (.rule hw))))
    exact follows_seq heof (follows_locals heof htype (by omega)) rfl fun _ _ _ _ =>
      hsemicolon fun _ h => ⟨h, rfl⟩
  case h_5 hpeek =>
    obtain ⟨t, ts, rfl, ht⟩ := exists_of_peek heof (by decide) hpeek
    refine Follows.mono (l := Derives (grammar allows) (.all [.token .semicolon])) ?_ fun _ hw =>
      .rule (.right (.left hw.of_all_singleton))
    exact follows_passToken heof ht (by decide) rfl fun _ _ => follows_pure .empty
  case h_6 hpeek =>
    obtain ⟨t, ts, rfl, ht⟩ := exists_of_peek heof (by decide) hpeek
    refine Follows.mono ?_ fun _ hw => .rule (.right (.right (.right (.left hw))))
    refine follows_passToken heof ht (by decide) rfl fun m hm => ?_
    refine follows_condition heof rfl (by omega) fun test ts m hm' => ?_
    refine follows_seq heof (ih.stmt m ts (by omega)) rfl fun yes ts m hm'' => ?_
    exact follows_optional heof rfl (by decide) rfl rfl (fun ts m _ => ih.stmt m ts (by omega))
      fun _ _ _ _ => follows_pure .empty
  case h_7 hpeek =>
    obtain ⟨t, ts, rfl, ht⟩ := exists_of_peek heof (by decide) hpeek
    refine Follows.mono ?_ fun _ hw => .rule (.right (.right (.right (.right (.left hw)))))
    refine follows_passToken heof ht (by decide) rfl fun m hm => ?_
    refine follows_condition heof rfl (by omega) fun test ts m hm' => ?_
    exact follows_seq heof (ih.stmt m ts (by omega)) rfl fun _ _ _ _ => follows_pure .empty
  case h_8 hpeek =>
    refine follows_require (Derives.opens_rule _) fun hallows => ?_
    obtain ⟨t, ts, rfl, ht⟩ := exists_of_peek heof (by decide) hpeek
    refine Follows.mono (l := Derives (grammar allows) (.all [.token .kwFor, .token .leftParen,
      .optional (.rule .forInit), .token .semicolon, .optional (.rule .expr), .token .semicolon,
      .optional (.rule .expr), .token .rightParen, .rule .stmt])) ?_ fun _ hw =>
        .rule (.right (.right (.right (.right (.right (.left
          (by rwa [Ebnf.when, if_pos hallows])))))))
    refine follows_passToken heof ht (by decide) rfl fun m₁ h₁ => ?_
    refine follows_expect heof rfl (by decide) (fun _ h => ⟨h, rfl⟩) rfl fun _ ts m₂ h₂ => ?_
    refine follows_seq heof (follows_forInit heof (by omega)) rfl fun init ts m₃ h₃ => ?_
    refine follows_expect heof rfl (by decide) (fun _ h => ⟨h, rfl⟩) rfl fun _ ts m₄ h₄ => ?_
    refine follows_orAbsent heof rfl (hexpr m₄ ts (by omega)) fun test ts m₅ h₅ => ?_
    refine follows_expect heof rfl (by decide) (fun _ h => ⟨h, rfl⟩) rfl fun _ ts m₆ h₆ => ?_
    refine follows_orAbsent heof rfl (hexpr m₆ ts (by omega)) fun step ts m₇ h₇ => ?_
    refine follows_expect heof rfl (by decide) (fun _ h => ⟨h, rfl⟩) rfl fun _ ts m₈ h₈ => ?_
    exact follows_seq heof (ih.stmt m₈ ts (by omega)) rfl fun _ _ _ _ => follows_pure .empty
  case h_9 hpeek =>
    obtain ⟨t, ts, rfl, ht⟩ := exists_of_peek heof (by decide) hpeek
    refine Follows.mono ?_ fun _ hw =>
      .rule (.right (.right (.right (.right (.right (.right (.left hw)))))))
    exact follows_passToken heof ht (by decide) rfl fun _ _ => hsemicolon fun _ h => ⟨h, rfl⟩
  case h_10 hpeek =>
    refine follows_require (Derives.opens_rule _) fun hallows => ?_
    obtain ⟨t, ts, rfl, ht⟩ := exists_of_peek heof (by decide) hpeek
    refine Follows.mono (l := Derives (grammar allows)
      (.all [.token .kwContinue, .token .semicolon])) ?_ fun _ hw =>
        .rule (.right (.right (.right (.right (.right (.right (.right (.left
          (by rwa [Ebnf.when, if_pos hallows])))))))))
    exact follows_passToken heof ht (by decide) rfl fun _ _ => hsemicolon fun _ h => ⟨h, rfl⟩
  case h_11 hpeek =>
    obtain ⟨t, ts, rfl, ht⟩ := exists_of_peek heof (by decide) hpeek
    refine Follows.mono ?_ fun _ hw =>
      .rule (.right (.right (.right (.right (.right (.right (.right (.right (.left hw)))))))))
    refine follows_passToken heof ht (by decide) rfl fun m hm => ?_
    exact follows_orAbsent heof rfl (hexpr m ts (by omega)) fun _ _ _ _ =>
      hsemicolon fun _ h => ⟨h, rfl⟩
  case h_12 => exact follows_refuse (fun h => ⟨h, rfl⟩) (Derives.opens_rule _)
  case h_13 =>
    refine Follows.mono ?_ fun _ hw =>
      .rule (.right (.right (.right (.right (.right (.right (.right (.right (.right
        (.left hw))))))))))
    exact follows_seq heof (hexpr n ts (Nat.le_refl n)) rfl fun _ _ _ _ =>
      hsemicolon fun _ h => ⟨h, rfl⟩

theorem follows_block (ih : StmtFollows eof allows fuel)
    {t : Token} (ht : t.kind = .leftBrace) (hn : 10 * n + 1 ≤ fuel + 1) :
    Follows eof n (Derives (grammar allows) (.rule .block))
      (block allows (fuel + 1)) (fun k => block allows (k + fuel + 1)) (t :: ts) := by
  simp only [block]
  refine Follows.mono (follows_current heof ?_) fun _ => Derives.block
  refine follows_passToken heof ht (by decide) rfl fun m hm => ?_
  exact follows_seq heof (ih.blockStmts _ m ts (by omega)) rfl fun _ _ _ _ => follows_pure .empty

theorem follows_blockStmts (ih : StmtFollows eof allows fuel) (p : Pos) (hn : 10 * n + 6 ≤ fuel + 1) :
    Follows eof n (Derives (grammar allows) .blockRest)
      (blockStmts allows (fuel + 1) p) (fun k => blockStmts allows (k + fuel + 1) p) ts := by
  have hclose : Derives (grammar allows) .blockRest [.rightBrace] :=
    Derives.done.append_all (Derives.token _).last_all
  simp only [blockStmts]
  refine follows_current heof ?_
  split
  case h_1 hpeek =>
    obtain ⟨t, ts, rfl, ht⟩ := exists_of_peek heof (by decide) hpeek
    refine Follows.mono (l := Derives (grammar allows) (.all [.token .rightBrace])) ?_ fun _ hw =>
      Derives.done.append_all hw
    exact follows_passToken heof ht (by decide) rfl fun _ _ => follows_pure .empty
  case h_2 hpeek => exact follows_refuse (fun _ => hpeek) ⟨_, hclose⟩
  case h_3 =>
    have hmore {u w : List TokenKind} (hu : Derives (grammar allows) (.rule .stmt) u)
        (hw : Derives (grammar allows) .blockRest w) :
        Derives (grammar allows) .blockRest (u ++ w) := by
      obtain ⟨v, w, rfl, hv, hw⟩ := Derives.seq_iff.1 hw
      rw [← List.append_assoc]
      exact .seq (.more hu hv) hw
    refine follows_bind heof (ih.stmt n ts (by omega)) (fun w hw => ⟨_, hmore hw hclose⟩)
      fun us vs s m _ hm hus _ => ?_
    -- a statement is not empty, so there is fuel for the rest of the block
    have hlength := hus.length_pos (by
      rintro ⟨_, hs⟩
      obtain ⟨_, _, ⟨⟩, -⟩ := hs.starts)
    rw [List.length_map] at hlength
    refine Follows.mono (l := Derives (grammar allows) (.all [.blockRest])) ?_ fun w hw =>
      hmore hus hw.of_all_singleton
    exact follows_seq heof (ih.blockStmts p m vs (by omega)) rfl fun _ _ _ _ => follows_pure .empty

theorem stmtFollows (fuel : Nat) :
    StmtFollows eof allows fuel := by
  induction fuel with
  | zero => constructor <;> intros <;> omega
  | succ fuel ih =>
    exact {
      stmt := fun _ _ => follows_stmt heof ih
      block := fun _ _ _ => follows_block heof ih
      blockStmts := fun p _ _ => follows_blockStmts heof ih p }

/-! ## Functions -/

theorem follows_param :
    Follows eof n (Derives (grammar allows) (.rule .param)) (param allows)
      (fun _ => param allows) ts := by
  have hname {e : SyntaxError} {f : Token → Param} {m : Nat} {ts : List Token}
      (he : ∀ t : Token, t.kind ≠ .illegal → e.Blames t t.pos) :
      Follows eof m (Derives (grammar allows) (.all [.token .identifier]))
        (expect .identifier e >>= fun name => pure (f name))
        (fun _ => expect .identifier e >>= fun name => pure (f name)) ts :=
    follows_expect heof rfl (by decide) he rfl fun _ _ _ _ => follows_pure .empty
  simp only [param]
  refine follows_current heof ?_
  split
  case isFalse => exact follows_refuse (fun h => ⟨h, rfl⟩) (Derives.opens_rule _)
  case isTrue htype =>
    obtain ⟨t, ts, rfl, ht⟩ := exists_of_isType heof htype
    refine Follows.mono ?_ fun _ hw => .rule hw
    refine follows_pass heof (.type ht) (.of_isType ht) rfl fun m hm => follows_current heof ?_
    split
    case isTrue hpeek =>
      refine follows_require ⟨_, Derives.absent.append_all (Derives.token _).last_all⟩ fun hallows => ?_
      obtain ⟨mark, ts, rfl, hmark⟩ := exists_of_peek heof (by decide) hpeek
      refine Follows.mono (l := Derives (grammar allows)
        (.all [.token .ampersand, .token .identifier])) ?_ fun w hw => ?_
      · refine follows_passToken heof hmark (by decide) rfl fun _ _ => ?_
        simp only [pure_bind]
        exact hname fun _ h => ⟨h, rfl⟩
      · obtain ⟨_, _, rfl, hmark, hrest⟩ := Derives.seq_iff.1 hw
        rw [Ebnf.when, if_pos hallows]
        exact .seq (.present hmark) hrest
    case isFalse =>
      simp only [pure_bind]
      refine Follows.mono ?_ fun _ hw => Derives.absent.append_all hw
      exact hname fun _ h => ⟨h, rfl⟩

theorem follows_params (fuel : Nat) :
    ∀ n ts, 10 * n + 1 ≤ fuel →
      Follows eof n (Derives (grammar allows) (.commas (.rule .param)))
        (params allows fuel) (fun k => params allows (k + fuel)) ts := by
  induction fuel with
  | zero =>
    intro n ts hn
    omega
  | succ fuel ih =>
    intro n ts hn
    simp only [params]
    refine Follows.mono ?_ fun _ => Derives.commas_of_more
    refine follows_seq heof (follows_param heof) rfl fun p ts m hm => ?_
    exact follows_more heof rfl fun ts m' hm' => ih m' ts (by omega)

theorem follows_function (hn : 10 * n ≤ fuel) :
    Follows eof n (Derives (grammar allows) (.rule .function))
      (function allows fuel) (fun k => function allows (k + fuel)) ts := by
  simp only [function]
  refine follows_current heof ?_
  split
  case isFalse => exact follows_refuse (fun h => ⟨h, rfl⟩) (Derives.opens_rule _)
  case isTrue htype =>
    obtain ⟨t, ts, rfl, ht⟩ := exists_of_isType heof htype
    refine Follows.mono ?_ fun _ hw => .rule hw
    refine follows_pass heof (.type ht) (.of_isType ht) rfl fun m₁ h₁ => ?_
    refine follows_expect heof rfl (by decide) (fun _ h => ⟨h, rfl⟩) rfl fun name ts m₂ h₂ => ?_
    refine follows_expect heof rfl (by decide) (fun _ h => ⟨h, rfl⟩) rfl fun _ ts m₃ h₃ => ?_
    refine follows_orAbsent heof rfl (follows_params heof fuel m₃ ts (by omega))
      fun ps ts m₄ h₄ => ?_
    refine follows_expect heof rfl (by decide) (fun _ h => ⟨h, rfl⟩) rfl fun _ ts m₅ h₅ => ?_
    refine Follows.mono (l := Derives (grammar allows)
      (.alt (.seq (.token .semicolon) .empty) (.rule .block))) ?_ fun w hw => ?_
    · refine follows_accept heof rfl (by decide) rfl (fun _ _ _ => ?_) ?_
      · exact follows_pure .empty
      simp only [Bool.false_eq_true, ↓reduceIte]
      refine follows_current heof ?_
      split
      case isFalse => exact follows_refuse (fun h => ⟨h, rfl⟩) (Derives.opens_rule _)
      case isTrue hpeek =>
        obtain ⟨brace, ts, rfl, hbrace⟩ := exists_of_peek heof (by decide) hpeek
        refine Follows.mono ?_ fun _ => Derives.block
        refine follows_passToken heof hbrace (by decide) rfl fun m₆ h₆ => ?_
        exact follows_seq heof ((stmtFollows heof fuel).blockStmts _ m₆ ts (by omega)) rfl
          fun _ _ _ _ => follows_pure .empty
    · cases hw with
      | left hsemi => exact Derives.last_all (.right (.left (Derives.of_all_singleton hsemi)))
      | right hblock => exact Derives.last_all (.left hblock)

/-- Functions are read up to an end of the file. The tokens are taken or refused as the grammar of
    programs asks for. -/
theorem follows_functions (fuel : Nat) :
    ∀ n ts, 10 * n + 1 ≤ fuel → Follows eof n (Derives (grammar allows) (.rule .program))
      (functions allows fuel) (fun k => functions allows (k + fuel)) ts := by
  induction fuel with
  | zero =>
    intro n ts hn
    omega
  | succ fuel ih =>
    intro n ts hn
    have hmore {u w : List TokenKind} (hu : Derives (grammar allows) (.rule .function) u)
        (hw : Derives (grammar allows) (.rule .program) w) :
        Derives (grammar allows) (.rule .program) (u ++ w) := by
      cases hw with
      | rule hw => exact .rule (.more hu hw)
    simp only [functions]
    refine follows_sees heof ?_
    split
    · exact follows_pure (.rule .done)
    refine follows_bind heof (follows_function heof (by omega))
      (fun w hw => ⟨[], hmore hw (.rule .done)⟩) fun us vs f m _ hm hus _ => ?_
    have hlength := hus.length_pos (by rintro ⟨_, ⟨⟩⟩)
    rw [List.length_map] at hlength
    refine Follows.mono (l := Derives (grammar allows) (.all [.rule .program])) ?_ fun w hw =>
      hmore hus hw.of_all_singleton
    exact follows_seq heof (ih m vs (by omega)) rfl fun _ _ _ _ => follows_pure .empty

end

end Parser
end MiniCompiler
