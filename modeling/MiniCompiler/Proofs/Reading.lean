import MiniCompiler.Proofs.Derivation

/-!
# Runs of the reader

`Reads` says that a step of reading succeeds. Its rules open a step along its own text, one primitive
step after the other. They are stated for streams as a scan gives them, with an end of the file or
an illegal token at their end (`TokenStream.before`).
-/

namespace MiniCompiler

/-! ## Streams up to the end of a scan -/

namespace TokenStream

/-- The stream of some tokens and one that ends the scan after them. -/
def before (eof : Token) : List Token → TokenStream
  | [] => ⟨eof, []⟩
  | t :: ts => ⟨t, ts ++ [eof]⟩

/-- The kind of the token that comes next. -/
def peek (eof : Token) (ts : List Token) : TokenKind := (ts.headD eof).kind

variable {eof t : Token} {ts : List Token} {k : TokenKind}

theorem before_current : (before eof ts).current = ts.headD eof := by
  cases ts <;> rfl

@[simp] theorem peek_nil : peek eof [] = eof.kind := rfl

@[simp] theorem peek_cons : peek eof (t :: ts) = t.kind := rfl

/-- A kind that ends no scan is seen only where a token of it stands. -/
theorem exists_of_peek (heof : eof.kind.isLast = true) (hk : k.isLast = false)
    (h : peek eof ts = k) : ∃ t us, ts = t :: us ∧ t.kind = k := by
  cases ts with
  | nil =>
    rw [← h, peek_nil, heof] at hk
    cases hk
  | cons t us => exact ⟨t, us, rfl, h⟩

end TokenStream

/-! ## Steps that succeed -/

namespace Parser

open TokenStream

variable {α β : Type} {st st' : TokenStream} {eof t : Token} {ts : List Token} {b : β}

/-- From `st`, the step `x` succeeds with `a` and leaves `st'`. -/
def Reads (x : Parser α) (st : TokenStream) (a : α) (st' : TokenStream) : Prop :=
  x st = .ok (a, st')

theorem reads_pure {a b : α} : Reads (pure a) st b st' ↔ b = a ∧ st' = st := by
  constructor
  · intro h
    cases h
    exact ⟨rfl, rfl⟩
  · rintro ⟨rfl, rfl⟩
    rfl

theorem run_bind {x : Parser α} {f : α → Parser β} :
    (x >>= f) st = (x st).bind fun r => f r.1 r.2 := rfl

theorem reads_bind {x : Parser α} {f : α → Parser β} :
    Reads (x >>= f) st b st' ↔ ∃ a st₁, Reads x st a st₁ ∧ Reads (f a) st₁ b st' := by
  constructor
  · intro h
    cases hx : x st with
    | error stop =>
      simp only [Reads, bind, StateT.bind, Except.bind, hx] at h
      cases h
    | ok r =>
      refine ⟨r.1, r.2, hx, ?_⟩
      simpa only [Reads, bind, StateT.bind, Except.bind, hx] using h
  · rintro ⟨a, st₁, hx, hf⟩
    simp only [Reads] at hx hf
    simp only [Reads, bind, StateT.bind, Except.bind, hx, hf]

theorem reads_bind_of_eq {x : Parser α} {a : α} (hx : x st = .ok (a, st)) {f : α → Parser β} :
    Reads (x >>= f) st b st' ↔ Reads (f a) st b st' := by
  rw [reads_bind]
  constructor
  · rintro ⟨a', st₁, hx', hf⟩
    cases hx.symm.trans hx'
    exact hf
  · exact fun hf => ⟨a, st, hx, hf⟩

theorem reads_ite {c : Prop} [Decidable c] {x y : Parser α} {a : α} :
    Reads (if c then x else y) st a st' ↔ (c ∧ Reads x st a st') ∨ (¬ c ∧ Reads y st a st') := by
  by_cases hc : c <;> simp [hc]

theorem not_reads_throw {stop : ParseStop} {a : α} : ¬ Reads (throw stop) st a st' := by
  intro h
  cases h

theorem not_reads_refuse {pos : Pos} {e : SyntaxError} {a : α} :
    ¬ Reads (refuse pos e) st a st' := not_reads_throw

theorem reads_require {allows : Feature → Bool} {f : Feature} {g : Unit → Parser β} :
    Reads (require allows f t >>= g) st b st' ↔ allows f = true ∧ Reads (g ()) st b st' := by
  cases h : allows f with
  | true =>
    rw [reads_bind_of_eq (a := ()) (by simp [require, h]; rfl)]
    simp
  | false =>
    rw [reads_bind]
    simp [require, h, not_reads_refuse]

theorem reads_current {f : Token → Parser β} :
    Reads (current >>= f) (before eof ts) b st' ↔
      Reads (f (ts.headD eof)) (before eof ts) b st' := by
  rw [reads_bind_of_eq (a := (before eof ts).current) rfl, before_current]

theorem reads_sees {f : Bool → Parser β} :
    Reads (sees k >>= f) (before eof ts) b st' ↔
      Reads (f (peek eof ts == k)) (before eof ts) b st' := by
  rw [reads_bind_of_eq (a := (before eof ts).current.kind == k) rfl, before_current]
  rfl

theorem reads_nextKind {f : TokenKind → Parser β} :
    Reads (nextKind >>= f) (before eof ts) b st' ↔
      Reads (f (peek eof ts.tail)) (before eof ts) b st' := by
  refine reads_bind_of_eq ?_
  cases ts with
  | nil => rfl
  | cons t us => cases us <;> rfl

theorem advance_cons {v : Token} {vs : List Token} : advance ⟨t, v :: vs⟩ =
    if v.kind = .illegal then .error (.refused v.pos (.lexical v.value))
    else .ok ((), ⟨v, vs⟩) := by
  change (if v.kind = .illegal then refuse v.pos (.lexical v.value) else
    set (⟨v, vs⟩ : TokenStream) : Parser Unit) ⟨t, v :: vs⟩ = _
  split <;> rfl

theorem advance_before : advance (before eof (t :: ts)) =
    if peek eof ts = .illegal then
      .error (.refused (ts.headD eof).pos (.lexical (ts.headD eof).value))
    else .ok ((), before eof ts) := by
  cases ts <;> exact advance_cons

theorem reads_advance {f : Unit → Parser β} :
    Reads (advance >>= f) (before eof (t :: ts)) b st' ↔
      peek eof ts ≠ .illegal ∧ Reads (f ()) (before eof ts) b st' := by
  rw [reads_bind]
  constructor
  · rintro ⟨u, st₁, hadvance, hf⟩
    rw [Reads, advance_before] at hadvance
    split at hadvance
    · cases hadvance
    · cases hadvance
      exact ⟨‹_›, hf⟩
  · rintro ⟨hlegal, hf⟩
    exact ⟨(), _, by rw [Reads, advance_before, if_neg hlegal], hf⟩

theorem reads_expect {e : SyntaxError} (heof : eof.kind.isLast = true)
    (hk : k.isLast = false) {f : Token → Parser β} :
    Reads (expect k e >>= f) (before eof ts) b st' ↔
      ∃ t us, ts = t :: us ∧ t.kind = k ∧ peek eof us ≠ .illegal ∧
        Reads (f t) (before eof us) b st' := by
  have hopen : (expect k e >>= f) = current >>= fun t =>
      if t.kind = k then advance >>= fun _ => f t else refuse t.pos e >>= f := by
    simp only [expect, bind_assoc]
    congr 1
    funext t
    split <;> simp
  rw [hopen, reads_current]
  cases ts with
  | nil =>
    have hne : eof.kind ≠ k := fun h => by simp [← h, heof] at hk
    simp [hne, reads_bind, not_reads_refuse]
  | cons v vs =>
    by_cases h : v.kind = k
    · rw [List.headD_cons, if_pos h, reads_advance]
      constructor
      · rintro ⟨hlegal, hf⟩
        exact ⟨v, vs, rfl, h, hlegal, hf⟩
      · rintro ⟨_, _, ⟨⟩, _, hlegal, hf⟩
        exact ⟨hlegal, hf⟩
    · simp [h, reads_bind, not_reads_refuse]

theorem reads_accept (heof : eof.kind.isLast = true) (hk : k.isLast = false) {f : Bool → Parser β} :
    Reads (accept k >>= f) (before eof ts) b st' ↔
      (∃ t us, ts = t :: us ∧ t.kind = k ∧ peek eof us ≠ .illegal ∧
        Reads (f true) (before eof us) b st') ∨
      (peek eof ts ≠ k ∧ Reads (f false) (before eof ts) b st') := by
  have hopen : (accept k >>= f) = sees k >>= fun b =>
      if b then advance >>= fun _ => f true else f false := by
    simp only [accept, bind_assoc]
    congr 1
    funext b
    split <;> simp
  rw [hopen, reads_sees]
  cases ts with
  | nil =>
    have hne : eof.kind ≠ k := fun h => by simp [← h, heof] at hk
    simp [hne]
  | cons v vs =>
    by_cases h : v.kind = k
    · simp only [peek_cons, h, beq_self_eq_true, ↓reduceIte, reads_advance]
      grind
    · simp [h]

end Parser
end MiniCompiler
