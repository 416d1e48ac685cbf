import MiniCompiler.Proofs.ParseComplete

/-!
# How a step of reading ends

A step of reading takes some tokens or refuses one. What it takes is derived by the rule that it
follows. The tokens before one that it refuses are the beginning of something that the rule derives,
and no tokens after the refused one would let the step succeed (`Parser.Outcome`).

That holds if the fuel is enough for the number of tokens, so it says as well that reading ends.

The rules for primitive steps and for sequences open a step along its own text. A right side of the
grammar is followed part by part, and the languages of the parts are put together in the end
(`Parser.Follows.mono`).

Main statements: `Parser.follows_passed` and `Parser.follows_bind`, from which the rules for the parts
of a right side follow.
-/

namespace MiniCompiler

variable {k : TokenKind} {w : List TokenKind}

/-! ## Beginnings of what is derived -/

/-- Some kinds can be continued to a list that `l` holds of. -/
def Opens (l : List TokenKind → Prop) (w : List TokenKind) : Prop := ∃ v, l (w ++ v)

theorem Opens.mono {l l' : List TokenKind → Prop} (hl : ∀ w, l w → l' w)
    (h : Opens l w) : Opens l' w := by
  obtain ⟨v, hv⟩ := h
  exact ⟨v, hl _ hv⟩

theorem Opens.left {l : List TokenKind → Prop} {u v : List TokenKind} (h : Opens l (u ++ v)) :
    Opens l u := by
  obtain ⟨w, hw⟩ := h
  exact ⟨v ++ w, by rwa [← List.append_assoc]⟩

theorem Opens.nil {l : List TokenKind → Prop} (h : Opens l w) : Opens l [] :=
  Opens.left (v := w) h

/-- Can a right side derive anything, given that each rule can? -/
def Ebnf.productive : Ebnf → Bool
  | .impossible => false
  | .empty | .token _ | .rule _ | .optional _ | .repeated _ => true
  | .seq a b => a.productive && b.productive
  | .alt a b => a.productive || b.productive

/-- What stands after one part of a list with commas. -/
def Ebnf.moreCommas (a : Ebnf) : Ebnf := .alt (.seq (.token .comma) (.all [.commas a])) .empty

section Productive

variable {allows : Feature → Bool}

theorem Derives.token_seq_iff {a b : Ebnf} :
    Derives (grammar allows) (.seq (.token k) (.seq a b)) w ↔ ∃ u v, w = k :: (u ++ v) ∧
      Derives (grammar allows) a u ∧ Derives (grammar allows) b v := by
  constructor
  · intro h
    cases h with
    | seq hk hw =>
      cases hk
      obtain ⟨u, v, rfl, hu, hv⟩ := Derives.seq_iff.1 hw
      exact ⟨u, v, rfl, hu, hv⟩
  · rintro ⟨u, v, rfl, hu, hv⟩
    exact .seq (.token k) (.seq hu hv)

theorem Derives.commas_of_more {a : Ebnf} (h : Derives (grammar allows) (.seq a (.moreCommas a)) w) :
    Derives (grammar allows) (.commas a) w := by
  obtain ⟨u, v, rfl, hu, hv⟩ := Derives.seq_iff.1 h
  cases hv with
  | left hv =>
    obtain ⟨v', _, rfl, hmore, ⟨⟩⟩ := Derives.token_seq_iff.1 hv
    rw [List.append_nil]
    exact hu.commas_cons hmore
  | right hv =>
    cases hv
    rw [List.append_nil]
    exact hu.first_commas

theorem Derives.atLeast_mono {m n : Nat} (hmn : m ≤ n)
    (h : Derives (grammar allows) (.rule (.atLeast n)) w) :
    Derives (grammar allows) (.rule (.atLeast m)) w := by
  exact Rule.atLeast_induction (P := fun r => Derives (grammar allows) (.rule r) w)
    (fun hoperand h => .rule (grammar_of_operand? hoperand ▸ h.first_chain)) hmn h

theorem Derives.operation {l : Nat} (hlevel : BinaryOp.level? k = some l)
    {u v : List TokenKind} (hu : Derives (grammar allows) (.rule (.atLeast l)) u)
    (hv : Derives (grammar allows) (.rule (.atLeast (l + 1))) v) :
    Derives (grammar allows) (.rule (.atLeast l)) (u ++ k :: v) := by
  obtain ⟨hmem, hoperand, -⟩ := Rule.atLeast_level hlevel
  cases hu with
  | rule hu =>
    rw [grammar_of_operand? hoperand] at hu
    exact .rule (grammar_of_operand? hoperand ▸ hu.chain_append hmem hv)

theorem Derives.constant (n : Nat) :
    Derives (grammar allows) (.rule (.atLeast n)) [.kwTrue] := by
  have hspelled : Expr.Spelled (.atLeast (max n 14)) [⟨.kwTrue, "", {}⟩] (.bool {} true) := by
    have hunary : Rule.atLeast (max n 14) = .unary := by grind [Rule.atLeast]
    exact hunary ▸ .atom (.true rfl)
  exact (hspelled.atLeast_mono (Nat.le_max_left n 14)).derives

theorem Rule.exists_derives (r : Rule) : ∃ w, Derives (grammar allows) (.rule r) w := by
  have htype : Derives (grammar allows) (.rule .type) [.kwInt] := .type rfl
  have hprimary : Derives (grammar allows) (.rule .primary) [.kwTrue] :=
    .rule (.right (.left (.token _)))
  have hexpr : Derives (grammar allows) (.rule .expr) [.kwTrue] :=
    .rule (.right (.left (.constant 0)))
  have hdeclaration : Derives (grammar allows) (.rule .declaration) [.kwInt, .identifier] :=
    .rule (htype.append_all (Derives.first_commas (.token_all Derives.absent.last_all)).last_all)
  have hstmt : Derives (grammar allows) (.rule .stmt) [.semicolon] :=
    .rule (.right (.left (.token _)))
  have hblock : Derives (grammar allows) (.rule .block) [.leftBrace, .rightBrace] :=
    .rule (.token_all (Derives.done.append_all (Derives.token _).last_all))
  have hparam : Derives (grammar allows) (.rule .param) [.kwInt, .identifier] :=
    .rule (htype.append_all (Derives.absent.append_all (Derives.token _).last_all))
  have hfunction : Derives (grammar allows) (.rule .function)
      [.kwInt, .identifier, .leftParen, .rightParen, .semicolon] :=
    .rule (htype.append_all (.token_all (.token_all (Derives.absent.append_all
      (.token_all (Derives.last_all (.right (.left (.token _)))))))))
  cases r with
  | program => exact ⟨[], .rule .done⟩
  | function => exact ⟨_, hfunction⟩
  | param => exact ⟨_, hparam⟩
  | type => exact ⟨_, htype⟩
  | block => exact ⟨_, hblock⟩
  | stmt => exact ⟨_, hstmt⟩
  | locals => exact ⟨_, .rule (hdeclaration.append_all (Derives.token _).last_all)⟩
  | declaration => exact ⟨_, hdeclaration⟩
  | forInit => exact ⟨_, .rule (.left hdeclaration)⟩
  | expr => exact ⟨_, hexpr⟩
  | or => exact ⟨_, .constant 0⟩
  | and => exact ⟨_, .constant 4⟩
  | equality => exact ⟨_, .constant 9⟩
  | relation => exact ⟨_, .constant 10⟩
  | sum => exact ⟨_, .constant 12⟩
  | product => exact ⟨_, .constant 13⟩
  | unary => exact ⟨_, .constant 14⟩
  | primary => exact ⟨_, hprimary⟩

theorem Ebnf.exists_derives {a : Ebnf} (h : a.productive = true) :
    ∃ w, Derives (grammar allows) a w := by
  induction a with
  | impossible => cases h
  | empty => exact ⟨[], .empty⟩
  | token k => exact ⟨[k], .token k⟩
  | rule r => exact r.exists_derives
  | seq a b iha ihb =>
    obtain ⟨ha, hb⟩ := Bool.and_eq_true_iff.1 h
    obtain ⟨u, hu⟩ := iha ha
    obtain ⟨v, hv⟩ := ihb hb
    exact ⟨u ++ v, .seq hu hv⟩
  | alt a b iha ihb =>
    obtain ha | hb := Bool.or_eq_true_iff.1 h
    · obtain ⟨w, hw⟩ := iha ha
      exact ⟨w, .left hw⟩
    · obtain ⟨w, hw⟩ := ihb hb
      exact ⟨w, .right hw⟩
  | optional a => exact ⟨[], .absent⟩
  | repeated a => exact ⟨[], .done⟩

/-- What the first part derives can be continued, if the second part derives anything. -/
theorem Opens.seq {a b : Ebnf} (hb : b.productive = true)
    (h : Derives (grammar allows) a w) : Opens (Derives (grammar allows) (.seq a b)) w := by
  obtain ⟨v, hv⟩ : ∃ v, Derives (grammar allows) b v := Ebnf.exists_derives hb
  exact ⟨v, .seq h hv⟩

end Productive

/-! ## Outcomes -/

/-- What is reported, and where, if the token `t` is refused. A block that is not closed is reported at
    its opening brace; the token that is refused then is the end of the file. -/
def SyntaxError.Blames (t : Token) (pos : Pos) : SyntaxError → Prop
  | .lexical reason => t.kind = .illegal ∧ pos = t.pos ∧ reason = t.value
  | .unclosedBlock => t.kind = .endOfFile
  | .outOfRange spelling => ¬ t.Readable ∧ pos = t.pos ∧ spelling = t.value
  | _ => t.kind ≠ .illegal ∧ pos = t.pos

/-- The numbers before a refused token can be read. Only one that stands right before an illegal token
    may be out of range. -/
def ReadableBefore (t : Token) (us : List Token) : Prop :=
  (∀ u ∈ us, u.Readable) ∨
    t.kind = .illegal ∧ ∃ vs n, us = vs ++ [n] ∧ ¬ n.Readable ∧ ∀ u ∈ vs, u.Readable

theorem ReadableBefore.append {t : Token} {us vs : List Token} (hus : ∀ u ∈ us, u.Readable)
    (h : ReadableBefore t vs) : ReadableBefore t (us ++ vs) := by
  obtain hvs | ⟨ht, vs, n, rfl, hn, hvs⟩ := h
  · exact .inl fun u hu => (List.mem_append.1 hu).elim (hus u) (hvs u)
  · refine .inr ⟨ht, us ++ vs, n, by simp, hn, ?_⟩
    exact fun u hu => (List.mem_append.1 hu).elim (hus u) (hvs u)

namespace Parser

open TokenStream

variable {α β : Type}

/-- `x` takes the tokens `us` and answers `a` on every stream where they stand before the token `t`. -/
def Takes (x : Parser α) (us : List Token) (t : Token) (a : α) : Prop :=
  ∀ eof ts, eof.kind.isLast = true → ts.headD eof = t →
    Reads x (before eof (us ++ ts)) a (before eof ts)

/-- `x` succeeds on no stream that begins with the tokens `us` and the token `t`. -/
def Sticks (x : Parser α) (us : List Token) (t : Token) : Prop :=
  ∀ eof ts, eof.kind.isLast = true → ts.headD eof = t →
    ∀ a st, ¬ Reads x (before eof (us ++ ts)) a st

/-- How the step `x` ends on some tokens, if it follows the language `l`. The steps `y k` are the same
    with more fuel. They do the same on these tokens, and what they do is decided by the tokens up to
    the one that comes next. -/
inductive Outcome (eof : Token) (l : List TokenKind → Prop) (x : Parser α) (y : Nat → Parser α)
    (ts : List Token) : Prop where
  | taken (us vs : List Token) (a : α) (split : ts = us ++ vs)
    (reads : Reads x (before eof ts) a (before eof vs)) (takes : ∀ k, Takes (y k) us (vs.headD eof) a)
    (legal : peek eof vs ≠ .illegal) (derived : l (us.map Token.kind))
    (readable : ∀ t ∈ us, t.Readable)
  | refused (us vs : List Token) (pos : Pos) (e : SyntaxError) (split : ts = us ++ vs)
    (run : x (before eof ts) = .error (.refused pos e))
    (more : ∀ k, y k (before eof ts) = .error (.refused pos e)) (blames : e.Blames (vs.headD eof) pos)
    (sticks : ∀ k, Sticks (y k) us (vs.headD eof)) (opens : Opens l (us.map Token.kind))
    (readable : ReadableBefore (vs.headD eof) us)

/-- Some tokens, up to `n` of them, are taken or refused by `x` as the language `l` asks for, and so they
    are by each `y k`. An illegal token never becomes current. -/
def Follows (eof : Token) (n : Nat) (l : List TokenKind → Prop) (x : Parser α) (y : Nat → Parser α)
    (ts : List Token) : Prop :=
  ts.length ≤ n → peek eof ts ≠ .illegal → Outcome eof l x y ts

/-! ## Steps in sequence -/

theorem headD_append {eof eof' : Token} {us vs vs' : List Token}
    (h : vs'.headD eof' = vs.headD eof) : (us ++ vs').headD eof' = (us ++ vs).headD eof := by
  cases us with
  | nil => exact h
  | cons u us => rfl

variable {eof t : Token} {ts : List Token} {n : Nat} {l l' : List TokenKind → Prop}
  {f : α → Parser β} {x : Parser α} {y : Nat → Parser α} {g : Nat → α → Parser β}

theorem run_current {f : Token → Parser β} :
    (current >>= f) (before eof ts) = f (ts.headD eof) (before eof ts) := by
  cases ts <;> rfl

theorem run_sees {f : Bool → Parser β} :
    (sees k >>= f) (before eof ts) = f (peek eof ts == k) (before eof ts) := by
  cases ts <;> rfl

theorem run_nextKind {f : TokenKind → Parser β} :
    (nextKind >>= f) (before eof ts) = f (peek eof ts.tail) (before eof ts) := by
  cases ts with
  | nil => rfl
  | cons t ts => cases ts <;> rfl

theorem run_advance {f : Unit → Parser β} : (advance >>= f) (before eof (t :: ts)) =
    if peek eof ts = .illegal then
      .error (.refused (ts.headD eof).pos (.lexical (ts.headD eof).value))
    else f () (before eof ts) := by
  rw [run_bind, advance_before]
  split <;> rfl

theorem run_bind_of_refused {st : TokenStream} {stop : ParseStop}
    (h : x st = .error stop) : (x >>= f) st = .error stop := by
  rw [run_bind, h]
  rfl

theorem run_bind_of_reads {st st' : TokenStream} {a : α}
    (h : Reads x st a st') : (x >>= f) st = f a st' := by
  rw [run_bind, h]
  rfl

/-- A larger language asks for less. -/
theorem Follows.mono (h : Follows eof n l x y ts)
    (hl : ∀ w, l w → l' w) : Follows eof n l' x y ts := by
  intro hlength hlegal
  cases h hlength hlegal with
  | taken us vs a split reads takes legal derived readable =>
    exact .taken us vs a split reads takes legal (hl _ derived) readable
  | refused us vs pos e split run more blames sticks opens readable =>
    exact .refused us vs pos e split run more blames sticks (opens.mono hl) readable

/-- Only the token that comes first decides between the texts of two steps. -/
theorem Follows.congr {x x' : Parser α} {y y' : Nat → Parser α} (h : Follows eof n l x' y' ts)
    (heof : eof.kind.isLast = true) (hx : x (before eof ts) = x' (before eof ts))
    (hy : ∀ k eof' ts', eof'.kind.isLast = true → ts'.headD eof' = ts.headD eof →
      y k (before eof' ts') = y' k (before eof' ts')) : Follows eof n l x y ts := by
  intro hlength hlegal
  have hsame (k : Nat) {us vs : List Token} (hsplit : ts = us ++ vs) (eof' : Token)
      (ts' : List Token) (heof' : eof'.kind.isLast = true) (hhead : ts'.headD eof' = vs.headD eof) :
      y k (before eof' (us ++ ts')) = y' k (before eof' (us ++ ts')) :=
    hy k eof' _ heof' (hsplit ▸ headD_append hhead)
  cases h hlength hlegal with
  | taken us vs a split reads takes legal derived readable =>
    refine .taken us vs a split (hx.trans reads) (fun k eof' ts' heof' hhead => ?_) legal derived
      readable
    rw [Reads, hsame k split eof' ts' heof' hhead]
    exact takes k eof' ts' heof' hhead
  | refused us vs pos e split run more blames sticks opens readable =>
    refine .refused us vs pos e split (hx.trans run) (fun k => (hy k eof ts heof rfl).trans (more k))
      blames ?_ opens readable
    intro k eof' ts' heof' hhead a st hread
    rw [Reads, hsame k split eof' ts' heof' hhead] at hread
    exact sticks k eof' ts' heof' hhead a st hread

theorem follows_pure {a : α} (hl : l []) : Follows eof n l (pure a) (fun _ => pure a) ts := by
  intro _ hlegal
  exact .taken [] ts a rfl reads_done (fun _ _ _ _ _ => reads_done) hlegal hl (by simp)

/-- A rule that fits no token like the current one refuses it. -/
theorem follows_refuse {pos : Pos} {e : SyntaxError}
    (hblames : peek eof ts ≠ .illegal → e.Blames (ts.headD eof) pos) (hopens : Opens l []) :
    Follows eof n l (refuse pos e : Parser α) (fun _ => refuse pos e) ts := by
  intro _ hlegal
  exact .refused [] ts pos e rfl rfl (fun _ => rfl) (hblames hlegal)
    (fun _ _ _ _ _ _ _ => not_reads_refuse) hopens (.inl (by simp))

theorem follows_current {f : Token → Parser β} {g : Nat → Token → Parser β}
    (heof : eof.kind.isLast = true)
    (h : Follows eof n l (f (ts.headD eof)) (fun k => g k (ts.headD eof)) ts) :
    Follows eof n l (current >>= f) (fun k => current >>= g k) ts :=
  h.congr heof run_current fun _ _ _ _ hhead => by rw [run_current, hhead]

theorem follows_sees {f : Bool → Parser β} {g : Nat → Bool → Parser β}
    (heof : eof.kind.isLast = true)
    (h : Follows eof n l (f (peek eof ts == k)) (fun i => g i (peek eof ts == k)) ts) :
    Follows eof n l (sees k >>= f) (fun i => sees k >>= g i) ts :=
  h.congr heof run_sees fun _ _ _ _ hhead => by rw [run_sees, peek, peek, hhead]

/-- `x` passes the tokens `us` and goes on as `x'`, unless an illegal token comes next. -/
def PassesThen (us : List Token) (x x' : Parser α) : Prop :=
  ∀ eof ts, eof.kind.isLast = true → x (before eof (us ++ ts)) =
    if peek eof ts = .illegal then
      .error (.refused (ts.headD eof).pos (.lexical (ts.headD eof).value))
    else x' (before eof ts)

theorem follows_passed {x x' : Parser α} {y y' : Nat → Parser α} (us : List Token)
    (heof : eof.kind.isLast = true) (hx : PassesThen us x x') (hy : ∀ k, PassesThen us (y k) (y' k))
    (hread : ∀ t ∈ us, t.Readable) (hopens : Opens l (us.map Token.kind))
    (h : ∀ m, m + us.length = n → Follows eof m (fun w => l (us.map Token.kind ++ w)) x' y' ts) :
    Follows eof n l x y (us ++ ts) := by
  intro hlength _
  by_cases hnext : peek eof ts = .illegal
  · refine .refused us ts _ (.lexical _) rfl (by rw [hx eof ts heof, if_pos hnext])
      (fun k => by rw [hy k eof ts heof, if_pos hnext]) ⟨hnext, rfl, rfl⟩ ?_ hopens (.inl hread)
    intro k eof' ts' heof' hhead a st hreads
    have hnext' : peek eof' ts' = .illegal := (congrArg Token.kind hhead).trans hnext
    rw [Reads, hy k eof' ts' heof', if_pos hnext'] at hreads
    cases hreads
  rw [List.length_append] at hlength
  -- what comes after the passed tokens decides as before, since it begins with the same token
  have hpass (k : Nat) {vs ws : List Token} (hsplit : ts = vs ++ ws) (eof' : Token)
      (ts' : List Token) (heof' : eof'.kind.isLast = true) (hhead : ts'.headD eof' = ws.headD eof) :
      y k (before eof' (us ++ (vs ++ ts'))) = y' k (before eof' (vs ++ ts')) := by
    have hlegal : peek eof' (vs ++ ts') ≠ .illegal := by
      rwa [peek, headD_append hhead, ← hsplit]
    rw [hy k eof' _ heof', if_neg hlegal]
  cases h (n - us.length) (by omega) (by omega) hnext with
  | taken vs ws a split reads takes legal derived readable =>
    refine .taken (us ++ vs) ws a (by rw [split, List.append_assoc]) ?_ ?_ legal
      (by rwa [List.map_append])
      (fun t ht => (List.mem_append.1 ht).elim (hread t) (readable t))
    · rw [Reads, hx eof ts heof, if_neg hnext]
      exact reads
    · intro k eof' ts' heof' hhead
      rw [List.append_assoc, Reads, hpass k split eof' ts' heof' hhead]
      exact takes k eof' ts' heof' hhead
  | refused vs ws pos e split run more blames sticks opens readable =>
    refine .refused (us ++ vs) ws pos e (by rw [split, List.append_assoc])
      (by rw [hx eof ts heof, if_neg hnext, run])
      (fun k => by rw [hy k eof ts heof, if_neg hnext, more k]) blames ?_ ?_ (readable.append hread)
    · intro k eof' ts' heof' hhead a st hreads
      rw [List.append_assoc, Reads, hpass k split eof' ts' heof' hhead] at hreads
      exact sticks k eof' ts' heof' hhead a st hreads
    · obtain ⟨v, hv⟩ := opens
      exact ⟨v, by rwa [List.map_append, List.append_assoc]⟩

theorem follows_bind (heof : eof.kind.isLast = true) (hx : Follows eof n l' x y ts)
    (hopens : ∀ w, l' w → Opens l w)
    (hf : ∀ us vs a m, ts = us ++ vs → m + us.length = n → l' (us.map Token.kind) →
      Reads x (before eof ts) a (before eof vs) →
      Follows eof m (fun w => l (us.map Token.kind ++ w)) (f a) (fun k => g k a) vs) :
    Follows eof n l (x >>= f) (fun k => y k >>= g k) ts := by
  intro hlength hlegal
  cases hx hlength hlegal with
  | refused us vs pos e split run more blames sticks opens readable =>
    refine .refused us vs pos e split (run_bind_of_refused run)
      (fun k => run_bind_of_refused (more k)) blames ?_ ?_ readable
    · intro k eof' ts' heof' hhead b st hreads
      obtain ⟨a, st₁, hyreads, -⟩ := reads_bind.1 hreads
      exact sticks k eof' ts' heof' hhead a st₁ hyreads
    · obtain ⟨v, hv⟩ := opens
      exact (hopens _ hv).left
  | taken us vs a split reads takes legal derived readable =>
    have hlength' : us.length + vs.length ≤ n := by rwa [split, List.length_append] at hlength
    have hmore (k : Nat) := split ▸ takes k eof vs heof rfl
    cases hf us vs a (n - us.length) split (by omega) derived reads (by omega) legal with
    | taken vs ws b split' reads' takes' legal' derived' readable' =>
      subst split'
      refine .taken (us ++ vs) ws b (by simp [split]) (reads_bind.2 ⟨a, _, reads, reads'⟩) ?_ legal'
        (by rwa [List.map_append])
        (fun t ht => (List.mem_append.1 ht).elim (readable t) (readable' t))
      intro k eof' ts' heof' hhead
      rw [List.append_assoc]
      exact reads_bind.2
        ⟨a, _, takes k eof' _ heof' (headD_append hhead), takes' k eof' ts' heof' hhead⟩
    | refused vs ws pos e split' run more blames sticks opens readable' =>
      subst split'
      refine .refused (us ++ vs) ws pos e (by simp [split]) ((run_bind_of_reads reads).trans run)
        (fun k => (run_bind_of_reads (hmore k)).trans (more k)) blames ?_ ?_
        (readable'.append readable)
      · intro k eof' ts' heof' hhead b st hreads
        rw [List.append_assoc, Reads,
          run_bind_of_reads (takes k eof' _ heof' (headD_append hhead))] at hreads
        exact sticks k eof' ts' heof' hhead b st hreads
      · obtain ⟨v, hv⟩ := opens
        exact ⟨v, by rwa [List.map_append, List.append_assoc]⟩

/-! ## Parts of a right side -/

section Parts

variable {allows : Feature → Bool} {a b : Ebnf} (heof : eof.kind.isLast = true)

include heof

theorem follows_pass {f : Unit → Parser β} {g : Nat → Unit → Parser β}
    (ha : Derives (grammar allows) a [t.kind]) (ht : t.Readable) (hb : b.productive = true)
    (hf : ∀ m < n, Follows eof m (Derives (grammar allows) b) (f ()) (fun i => g i ()) ts) :
    Follows eof n (Derives (grammar allows) (.seq a b)) (advance >>= f)
      (fun i => advance >>= g i) (t :: ts) := by
  refine follows_passed [t] heof (fun _ _ _ => run_advance) (fun _ _ _ _ => run_advance)
    (by simpa using ht) (.seq hb ha) fun m hm => ?_
  exact (hf m (by simp at hm; omega)).mono fun w hw => .seq ha hw

theorem follows_passToken {f : Unit → Parser β} {g : Nat → Unit → Parser β}
    (ht : t.kind = k) (hnumber : k ≠ .number) (hb : b.productive = true)
    (hf : ∀ m < n, Follows eof m (Derives (grammar allows) b) (f ()) (fun i => g i ()) ts) :
    Follows eof n (Derives (grammar allows) (.seq (.token k) b)) (advance >>= f)
      (fun i => advance >>= g i) (t :: ts) := by
  subst ht
  exact follows_pass heof (.token _) (fun hn => absurd hn hnumber) hb hf

theorem follows_seq
    (hx : Follows eof n (Derives (grammar allows) a) x y ts) (hb : b.productive = true)
    (hf : ∀ v ts, ∀ m ≤ n, Follows eof m (Derives (grammar allows) b) (f v) (fun i => g i v) ts) :
    Follows eof n (Derives (grammar allows) (.seq a b)) (x >>= f) (fun i => y i >>= g i) ts := by
  refine follows_bind heof hx (fun _ => .seq hb) fun us vs v m _ hm hus _ => ?_
  exact (hf v vs m (by omega)).mono fun w hw => .seq hus hw

theorem follows_expect {e : SyntaxError} {f : Token → Parser β}
    {g : Nat → Token → Parser β} (hk : k.isLast = false) (hnumber : k ≠ .number)
    (he : ∀ t : Token, t.kind ≠ .illegal → e.Blames t t.pos) (hb : b.productive = true)
    (hf : ∀ t ts, ∀ m < n,
      Follows eof m (Derives (grammar allows) b) (f t) (fun i => g i t) ts) :
    Follows eof n (Derives (grammar allows) (.seq (.token k) b)) (expect k e >>= f)
      (fun i => expect k e >>= g i) ts := by
  have hopen (f : Token → Parser β) : (expect k e >>= f) = current >>= fun t =>
      if t.kind = k then advance >>= fun _ => f t else refuse t.pos e := by
    simp only [expect, bind_assoc]
    congr 1
    funext t
    split
    · simp
    · rfl
  simp only [hopen]
  refine follows_current heof ?_
  by_cases hpeek : (ts.headD eof).kind = k
  · obtain ⟨t, ts, rfl, ht⟩ := exists_of_peek heof hk hpeek
    simp only [List.headD_cons, ht, ↓reduceIte]
    exact follows_passToken heof ht hnumber hb (hf t ts)
  · simp only [hpeek, ↓reduceIte]
    exact follows_refuse (he _) (.nil (.seq hb (.token k)))

/-- Passing a token of a kind that may come here, and going on as it did or did not. -/
theorem follows_accept {f : Bool → Parser β} {g : Nat → Bool → Parser β} (hk : k.isLast = false)
    (hnumber : k ≠ .number) (ha : a.productive = true) (hyes : ∀ ts, ∀ m < n,
      Follows eof m (Derives (grammar allows) a) (f true) (fun i => g i true) ts)
    (hno : Follows eof n (Derives (grammar allows) b) (f false) (fun i => g i false) ts) :
    Follows eof n (Derives (grammar allows) (.alt (.seq (.token k) a) b)) (accept k >>= f)
      (fun i => accept k >>= g i) ts := by
  have hopen (f : Bool → Parser β) : (accept k >>= f) = sees k >>= fun seen =>
      if seen then advance >>= fun _ => f true else f false := by
    simp only [accept, bind_assoc]
    congr 1
    funext seen
    split <;> simp
  simp only [hopen]
  refine follows_sees heof ?_
  by_cases hpeek : peek eof ts = k
  · obtain ⟨t, ts, rfl, ht⟩ := exists_of_peek heof hk hpeek
    simp only [peek_cons, ht, beq_self_eq_true, ↓reduceIte]
    exact (follows_passToken heof ht hnumber ha (hyes ts)).mono fun _ hw => .left hw
  · simp only [beq_eq_false_iff_ne.2 hpeek, Bool.false_eq_true, ↓reduceIte]
    exact hno.mono fun _ hw => .right hw

/-- A part that is there just if a token of kind `k` begins it. -/
theorem follows_optional {d : α} (hk : k.isLast = false) (hnumber : k ≠ .number)
    (ha : a.productive = true) (hb : b.productive = true)
    (hx : ∀ ts, ∀ m < n, Follows eof m (Derives (grammar allows) a) x y ts)
    (hf : ∀ v ts, ∀ m ≤ n, Follows eof m (Derives (grammar allows) b) (f v) (fun i => g i v) ts) :
    Follows eof n (Derives (grammar allows) (.seq (.optional (.all [.token k, a])) b))
      (accept k >>= fun seen => if seen = true then x >>= f else pure d >>= f)
      (fun i => accept k >>= fun seen => if seen = true then y i >>= g i else pure d >>= g i)
      ts := by
  refine Follows.mono (l := Derives (grammar allows) (.alt (.seq (.token k) (.seq a b)) b))
    (follows_accept heof hk hnumber (by simp [Ebnf.productive, ha, hb]) (fun ts m hm => ?_) ?_) ?_
  · exact follows_seq heof (hx ts m hm) hb fun v ts m' hm' => hf v ts m' (by omega)
  · exact hf d ts n (Nat.le_refl n)
  · intro w hw
    cases hw with
    | left hw =>
      obtain ⟨u, v, rfl, hu, hv⟩ := Derives.token_seq_iff.1 hw
      exact .seq (.present (.token_all hu.last_all)) hv
    | right hw => exact .seq .absent hw

/-- A part that is left out just if a token of kind `k` comes next. -/
theorem follows_orAbsent {d : α} (hb : b.productive = true)
    (hx : Follows eof n (Derives (grammar allows) a) x y ts)
    (hf : ∀ v ts, ∀ m ≤ n, Follows eof m (Derives (grammar allows) b) (f v) (fun i => g i v) ts) :
    Follows eof n (Derives (grammar allows) (.seq (.optional a) b))
      (sees k >>= fun seen => if seen = true then pure d >>= f else x >>= f)
      (fun i => sees k >>= fun seen => if seen = true then pure d >>= g i else y i >>= g i)
      ts := by
  refine follows_sees heof ?_
  split
  · simp only [pure_bind]
    exact (hf d ts n (Nat.le_refl n)).mono fun w hw => .seq .absent hw
  · exact follows_seq heof (hx.mono fun _ hw => .present hw) hb hf

/-- After one part of a list: a comma and more parts, or the end of the list. -/
theorem follows_more {v : α} {x : Parser (List α)} {y : Nat → Parser (List α)}
    (ha : a.productive = true)
    (hmore : ∀ ts, ∀ m < n, Follows eof m (Derives (grammar allows) (.commas a)) x y ts) :
    Follows eof n (Derives (grammar allows) (.moreCommas a))
      (accept .comma >>= fun seen =>
        if seen = true then x >>= fun vs => pure (v :: vs) else pure [v])
      (fun i => accept .comma >>= fun seen =>
        if seen = true then y i >>= fun vs => pure (v :: vs) else pure [v]) ts := by
  have hlist : (Ebnf.commas a).productive = true := by simp [Ebnf.commas, Ebnf.productive, ha]
  refine follows_accept heof rfl (by decide) (by simp [Ebnf.all, Ebnf.productive, hlist])
    (fun ts m hm => ?_) ?_
  · exact follows_seq heof (hmore ts m hm) rfl fun _ _ _ _ => follows_pure .empty
  · exact follows_pure .empty

end Parts

end Parser
end MiniCompiler
