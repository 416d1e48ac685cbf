import Mathlib.Data.List.Forall2
import MiniCompiler.Proofs.Elaboration

/-!
# The checker follows the rules

A step of checking that works on a tree without gaps never faults, and unless it reports an error
its result is the one that the rules of elaboration give. `Inference.Yields` and `Check.Yields` say
so of the search for a type and of a step of checking; each has a rule for every way in which the
checker puts steps together.
-/

namespace MiniCompiler

variable {e : Expr} {P : Expr → Ty → Prop} {f : Function} {i : Inference} {pos : Pos} {p : Problem}
  {rs : List Report}

/-! ## Reports -/

/-- Reports without an error. -/
def NoErrors (rs : List Report) : Prop := ∀ r ∈ rs, r.isError = false

@[simp]
theorem noErrors_nil : NoErrors [] := by simp [NoErrors]

@[simp]
theorem noErrors_append {rs qs : List Report} :
    NoErrors (rs ++ qs) ↔ NoErrors rs ∧ NoErrors qs := by
  simp only [NoErrors, List.mem_append]
  grind

/-- A problem that belongs to no group of warnings is always reported. -/
theorem Settings.not_noErrors_note {s : Settings}
    (hp : p.warning? = none) : ¬ NoErrors (s.note pos p) := by
  simp [Settings.note, NoErrors, Report.isError, hp]

theorem ProgramCheck.noErrors_of_accepted {r : ProgramCheck} (h : r.accepted = true) :
    NoErrors r.reports := by
  simpa [ProgramCheck.accepted, NoErrors] using h

/-! ## Types of expressions -/

/-- A reason to stop that is an error in the program and no fault. -/
def Halt.IsError : Halt → Prop
  | .refused r => r.isError = true
  | .fault _ => False

/-- The search for a type does not fault, and the expression and the type that it finds are related
    by `P` unless it reports an error. -/
structure Inference.Yields (i : Inference) (P : Expr → Ty → Prop) : Prop where
  isError : ∀ h, i.verdict = .error h → h.IsError
  holds : ∀ t, i.verdict = .ok t → NoErrors i.reports → P i.expr t

/-- The same for the arguments of a call. -/
structure ArgsInference.Yields (i : ArgsInference) (P : List (Bool × Expr) → Prop) : Prop where
  isError : ∀ h, i.verdict = .error h → h.IsError
  holds : i.verdict = .ok () → NoErrors i.reports → P i.args

theorem Problem.isError_refuse {α : Type} {h : Halt}
    (hp : p.warning? = none) (hr : (refuse pos p : Except Halt α) = .error h) : h.IsError := by
  cases hr
  simp [Halt.IsError, Report.isError, hp]

namespace Inference

theorem yields_ok {t : Ty} (h : NoErrors rs → P e t) : Yields ⟨e, rs, .ok t⟩ P := by
  refine ⟨by simp, ?_⟩
  intro t' ht hrs
  cases ht
  exact h hrs

theorem yields_error {h : Halt} (hh : h.IsError) : Yields ⟨e, rs, .error h⟩ P := by
  refine ⟨?_, by simp⟩
  intro h' heq
  cases heq
  exact hh

theorem yields_refuse (hp : p.warning? = none) : Yields ⟨e, rs, refuse pos p⟩ P :=
  yields_error (Problem.isError_refuse (α := Ty) hp rfl)

theorem Yields.mono {P Q : Expr → Ty → Prop} (hi : i.Yields P)
    (h : ∀ e t, P e t → Q e t) : i.Yields Q :=
  ⟨hi.isError, fun t ht hrs => h _ _ (hi.holds t ht hrs)⟩

/-- The expression that was looked at becomes part of a larger one. -/
theorem Yields.map {P Q : Expr → Ty → Prop} (hi : i.Yields P)
    (node : Expr → Expr) (h : ∀ e t, P e t → Q (node e) t) :
    Yields ⟨node i.expr, i.reports, i.verdict⟩ Q :=
  ⟨hi.isError, fun t ht hrs => h _ _ (hi.holds t ht hrs)⟩

theorem Yields.expecting (hi : i.Yields P) (want : Ty)
    (pos : Pos) {p : Ty → Problem} (hp : ∀ t, (p t).warning? = none) :
    (i.expecting want pos p).Yields fun e t => t = want ∧ P e want := by
  unfold Inference.expecting
  cases hv : i.verdict with
  | error h => exact yields_error (hi.isError h hv)
  | ok t =>
    by_cases ht : t = want
    · subst ht
      simpa [bind, Except.bind, pure, Except.pure] using
        yields_ok fun hrs => ⟨rfl, hi.holds t hv hrs⟩
    · simpa [bind, Except.bind, ht] using yields_refuse (hp t)

theorem Yields.pair {l r : Inference} {P Q R : Expr → Ty → Prop} (hl : l.Yields P) (hr : r.Yields Q)
    {before : Expr} {node : Expr → Expr → Expr} {result : Ty → Ty → Except Halt Ty} (h : ∀ e e' t u,
      Yields ⟨node e e', [], result t u⟩ fun e'' v => P e t → Q e' u → R e'' v) :
    (l.pair r before node result).Yields R := by
  unfold Inference.pair
  cases hlv : l.verdict with
  | error x => exact yields_error (hl.isError x hlv)
  | ok t =>
    cases hrv : r.verdict with
    | error x => exact yields_error (hr.isError x hrv)
    | ok u =>
      have hres := h l.expr r.expr t u
      refine ⟨hres.isError, ?_⟩
      intro v hv hrs
      have ⟨hlrs, hrrs⟩ := noErrors_append.1 hrs
      exact hres.holds v hv noErrors_nil (hl.holds t hlv hlrs) (hr.holds u hrv hrrs)

end Inference

namespace TypingContext

open Inference

variable {c : TypingContext} {env : Env}

/-- A variable that was looked up is bound, or its name is refused. -/
theorem resolve_verdict_cases (v : Variable) (env : Env) :
    (∃ b, env.find? v.name = some b ∧ v.resolve env = { v with binding := some b } ∧
      (v.resolve env).verdict = .ok b.type) ∨
    (v.resolve env).verdict = refuse v.pos (.notInScope v.name) := by
  cases hb : env.find? v.name with
  | none => exact .inr (by simp [Variable.resolve, Variable.verdict, hb])
  | some b => exact .inl ⟨b, rfl, by simp [Variable.resolve, hb],
      by simp [Variable.resolve, Variable.verdict, hb]⟩

theorem inferCall_yields {allowVoid : Bool} {name : String}
    {args : List (Bool × Expr)} {callee : Option Nat} {look : Function → ArgsInference}
    (hlook : ∀ f : Function, args.length = f.params.length →
      (look f).Yields (Expr.ElabArgs c env f.params args)) :
    (c.inferCall allowVoid pos name args callee look).Yields fun e' t =>
      ∃ i f args', c.declared.find? name = some (i, f) ∧ e' = .call pos name args' (some i) ∧
        t = f.result ∧ (allowVoid = false → t.isValue = true) ∧
        Expr.ElabArgs c env f.params args args' := by
  unfold inferCall
  split
  · exact yields_refuse rfl
  · rename_i i f hf
    split
    · exact yields_refuse rfl
    · rename_i hlen
      have hargs := hlook f (by omega)
      dsimp only
      cases hv : (look f).verdict with
      | error h => exact yields_error (hargs.isError h hv)
      | ok =>
        by_cases hvoid : (!allowVoid && !f.result.isValue) = true
        · rw [if_pos hvoid]
          exact yields_refuse rfl
        · rw [if_neg hvoid]
          refine yields_ok fun hrs => ?_
          refine ⟨i, f, _, hf, rfl, rfl, ?_, hargs.holds hv hrs⟩
          intro hallow
          simpa [hallow] using hvoid

/-- Arguments that are as many as the parameters. -/
theorem inferArgs_yields {args : List (Bool × Expr)} (name : String) :
    ∀ {ps : List Param} (i : Nat), args.length = ps.length →
      (∀ a ∈ args, (c.infer env a.2).Yields (Expr.Elab c env a.2)) →
      (c.inferArgs env name i ps args).Yields (Expr.ElabArgs c env ps args) := by
  induction args with
  | nil =>
    intro ps i hlen _
    cases List.length_eq_zero_iff.1 hlen.symm
    rw [inferArgs.eq_def]
    exact ⟨by simp, fun _ _ => .nil⟩
  | cons a args ih =>
    intro ps i hlen hall
    obtain ⟨p, ps, rfl⟩ := List.exists_cons_of_length_eq_add_one hlen.symm
    obtain ⟨mark, e⟩ := a
    have he := hall (mark, e) (by simp)
    have hrest := @ih ps (i + 1) (by simpa using hlen) fun a ha => hall a (by simp [ha])
    rw [inferArgs]
    dsimp only
    cases hv : (c.infer env e).verdict with
    | error h => exact ⟨fun h' hh => by cases hh; exact he.isError h hv, by simp⟩
    | ok t =>
      by_cases ht : t = p.type
      · subst ht
        simp only [ne_eq, not_true, if_false]
        refine ⟨hrest.isError, ?_⟩
        intro hok hrs
        have ⟨hfirst, hmore⟩ := noErrors_append.1 hrs
        have ⟨hers, _⟩ := noErrors_append.1 hfirst
        exact .cons (he.holds _ hv hers) (hrest.holds hok hmore)
      · simp only [ne_eq, ht, not_false_eq_true, if_true]
        exact ⟨fun h hh => Problem.isError_refuse rfl hh, by simp [refuse]⟩

/-- An expression without gaps has a type that the rules give it, or an error is found in it. -/
theorem infer_yields (h : e.Whole) : (c.infer env e).Yields (Expr.Elab c env e) := by
  induction h with
  | int p n => exact yields_ok fun _ => .int p n
  | bool p b => exact yields_ok fun _ => .bool p b
  | var v =>
    rw [infer]
    obtain ⟨b, hb, hv, hok⟩ | hno := resolve_verdict_cases v env
    · rw [hok, hv]
      exact yields_ok fun _ => .var hb
    · rw [hno]
      exact yields_refuse rfl
  | @assign p v e _ ih =>
    rw [infer]
    obtain ⟨b, hb, hv, hok⟩ | hno := resolve_verdict_cases v env
    · rw [hok, hv]
      dsimp only
      cases hr : (c.infer env e).verdict with
      | error h => exact yields_error (ih.isError h hr)
      | ok t =>
        refine yields_ok fun hrs => ?_
        have ⟨hers, hmismatch⟩ := noErrors_append.1 hrs
        by_cases ht : b.type = t
        · subst ht
          exact .assign hb (ih.holds _ hr hers)
        · simp only [if_neg ht] at hmismatch
          exact absurd hmismatch (Settings.not_noErrors_note rfl)
    · rw [hno]
      exact yields_refuse rfl
  | @call p name args callee _ ih =>
    rw [infer]
    refine (inferCall_yields fun f hlen => inferArgs_yields name 1 hlen ih).mono ?_
    rintro e' t ⟨i, f, args', hf, rfl, rfl, hvalue, hargs⟩
    exact .call hf (hvalue rfl) hargs
  | @unary p op e hop _ ih =>
    -- the sign of a literal is looked at before the rule for signs
    by_cases hint : op = .neg ∧ ∃ q n, e = .int q n
    · obtain ⟨rfl, q, n, rfl⟩ := hint
      exact yields_ok fun _ => .neg (.int q n)
    · rw [infer]
      · cases op with
        | neg =>
          refine (ih.expecting .int p fun _ => rfl).map _ ?_
          rintro e' t ⟨rfl, he⟩
          exact .neg he
        | not =>
          refine (ih.expecting .boolean p fun _ => rfl).map _ ?_
          rintro e' t ⟨rfl, he⟩
          exact .not he
        | other k => exact absurd rfl (hop k)
      · rintro q n rfl rfl
        exact hint ⟨rfl, q, n, rfl⟩
  | @arith p op l r hop _ _ ihl ihr =>
    rw [infer]
    refine (ihl.expecting _ _ fun _ => rfl).pair (ihr.expecting _ _ fun _ => rfl) ?_
    intro l' r' t u
    exact yields_ok fun _ hl hr => .arith hop hl.2 hr.2
  | @comp p op l r _ _ ihl ihr =>
    rw [infer]
    by_cases heq : op = .eq ∨ op = .ne
    · rw [if_pos heq]
      refine ihl.pair ihr ?_
      intro l' r' t u
      by_cases htu : t = u
      · subst htu
        rw [if_pos rfl]
        exact yields_ok fun _ hl hr => .equality heq hl hr
      · rw [if_neg htu]
        exact yields_refuse rfl
    · rw [if_neg heq]
      refine (ihl.expecting _ _ fun _ => rfl).pair (ihr.expecting _ _ fun _ => rfl) ?_
      intro l' r' t u
      exact yields_ok fun _ hl hr => .order (fun h => heq (.inl h)) (fun h => heq (.inr h)) hl.2 hr.2
  | @logic p op l r _ _ ihl ihr =>
    rw [infer]
    refine (ihl.expecting _ _ fun _ => rfl).pair (ihr.expecting _ _ fun _ => rfl) ?_
    intro l' r' t u
    exact yields_ok fun _ hl hr => .logic hl.2 hr.2

theorem inferStatement_yields (h : e.Whole) :
    (c.inferStatement env e).Yields fun e' _ => Expr.ElabEffect c env e e' := by
  by_cases hcall : ∃ p name args callee, e = .call p name args callee
  · obtain ⟨p, name, args, callee, rfl⟩ := hcall
    cases h with
    | call hwhole =>
      refine (inferCall_yields fun f hlen =>
        inferArgs_yields name 1 hlen fun a ha => infer_yields (hwhole a ha)).mono ?_
      rintro e' t ⟨i, f, args', hf, rfl, -, -, hargs⟩
      exact .call hf hargs
  · rw [inferStatement]
    · exact (infer_yields h).mono fun _ _ => .value
    · rintro p name args callee rfl
      exact hcall ⟨p, name, args, callee, rfl⟩

end TypingContext

/-! ## Steps of checking -/

@[simp]
theorem Frame.release_release (fr : Frame) (m n : Int) :
    (fr.release m).release n = fr.release n := rfl

/-- A step that does not fault, and that relates the frame before it, its value and the frame after
    it by `P` unless it reports an error. -/
def Check.Yields {α : Type} (x : Check α) (P : Frame → α → Frame → Prop) : Prop :=
  ∀ st : CheckState, st.fault = none → (x st).state.fault = none ∧
    (NoErrors (x st).reports → P st.frame (x st).value (x st).state.frame)

/-- A step that does not change the frame. -/
def Check.Keeps {α : Type} (x : Check α) (P : α → Prop) : Prop :=
  x.Yields fun fr a fr' => fr' = fr ∧ P a

namespace Check

variable {α β : Type} {P : Frame → α → Frame → Prop} {f : β → Check α} {b : Prop}

theorem yields_pure {a : α} (h : ∀ fr, P fr a fr) : (pure a : Check α).Yields P :=
  fun st hst => ⟨hst, fun _ => h st.frame⟩

theorem Yields.mono {x : Check α} {Q : Frame → α → Frame → Prop} (hx : x.Yields Q)
    (h : ∀ fr a fr', Q fr a fr' → P fr a fr') : x.Yields P :=
  fun st hst => ⟨(hx st hst).1, fun hrs => h _ _ _ ((hx st hst).2 hrs)⟩

/-- Of the second step it is shown that it reaches `P` from any frame that the first step can be
    entered with. -/
theorem Yields.bind {x : Check β} {Q : Frame → β → Frame → Prop}
    (hx : x.Yields Q) (hf : ∀ b, (f b).Yields fun fr a fr' => ∀ fr₀, Q fr₀ b fr → P fr₀ a fr') :
    (x >>= f).Yields P := by
  intro st hst
  have ⟨hfault, hQ⟩ := hx st hst
  have ⟨hfault', hP⟩ := hf (x st).value (x st).state hfault
  refine ⟨hfault', ?_⟩
  intro hrs
  have ⟨hfirst, hsecond⟩ := noErrors_append.1 hrs
  exact hP hsecond st.frame (hQ hfirst)

theorem Keeps.bind {x : Check β} {Q : β → Prop} (hx : x.Keeps Q)
    (hf : ∀ b, (f b).Yields fun fr a fr' => Q b → P fr a fr') : (x >>= f).Yields P := by
  refine Yields.bind hx fun b => (hf b).mono ?_
  rintro fr a fr' h fr₀ ⟨rfl, hb⟩
  exact h hb

theorem Yields.ite [Decidable b] {x y : Check α} (hx : b → x.Yields P)
    (hy : ¬ b → y.Yields P) : (if b then x else y).Yields P := by
  by_cases hb : b
  · rw [if_pos hb]
    exact hx hb
  · rw [if_neg hb]
    exact hy hb

theorem Yields.ite_bind [Decidable b] {x y : Check β}
    {Q : Frame → β → Frame → Prop} (h : (if b then x else y).Yields Q)
    (hf : ∀ b, (f b).Yields fun fr a fr' => ∀ fr₀, Q fr₀ b fr → P fr₀ a fr') :
    (if b then x >>= f else y >>= f).Yields P := by
  have heq : (if b then x >>= f else y >>= f) = (if b then x else y) >>= f := by
    by_cases hb : b <;> simp [hb]
  rw [heq]
  exact Yields.bind h hf

theorem Keeps.ite_bind [Decidable b] {x y : Check β} {Q : β → Prop}
    (h : (if b then x else y).Keeps Q) (hf : ∀ b, (f b).Yields fun fr a fr' => Q b → P fr a fr') :
    (if b then x >>= f else y >>= f).Yields P := by
  refine Yields.ite_bind h fun b => (hf b).mono ?_
  rintro fr a fr' h fr₀ ⟨rfl, hb⟩
  exact h hb

theorem Yields.unlessFault {x : Check α} (hx : x.Yields P) (a : α) :
    (Check.unlessFault a x).Yields P := by
  intro st hst
  rw [Check.unlessFault, if_neg (by simp [hst])]
  exact hx st hst

theorem Yields.releasing {x : Check α} (hx : x.Yields P) :
    x.releasing.Yields fun fr a fr' => ∃ fr₁, P fr a fr₁ ∧ fr' = fr₁.release fr.live :=
  fun st hst => ⟨(hx st hst).1, fun hrs => ⟨_, (hx st hst).2 hrs, rfl⟩⟩

theorem keeps_pure {Q : α → Prop} {a : α} (h : Q a) : (pure a : Check α).Keeps Q :=
  yields_pure fun _ => ⟨rfl, h⟩

theorem keeps_report (rs : List Report) : (report rs).Keeps fun _ => NoErrors rs :=
  Yields.unlessFault (fun _ hst => ⟨hst, fun hrs => ⟨rfl, hrs⟩⟩) ()

theorem keeps_setReturns (b : Bool) : (setReturns b).Keeps fun _ => True :=
  fun _ hst => ⟨hst, fun _ => ⟨rfl, trivial⟩⟩

theorem keeps_getReturns : getReturns.Keeps fun _ => True :=
  fun _ hst => ⟨hst, fun _ => ⟨rfl, trivial⟩⟩

theorem yields_newLocal (wordSize : Int) :
    (newLocal wordSize).Yields fun fr offset fr' => fr' = fr.push ∧ offset = fr'.offset wordSize :=
  fun _ hst => ⟨hst, fun _ => ⟨rfl, rfl⟩⟩

/-- A refusal is reported, so without an error there is a type. -/
theorem keeps_ofInference {Q : Expr → Ty → Prop} (hi : i.Yields Q)
    (before : Expr) : (ofInference before i).Keeps fun r => ∃ t, r.2 = some t ∧ Q r.1 t := by
  refine Yields.unlessFault (Keeps.bind (keeps_report _) fun _ => ?_) _
  cases hv : i.verdict with
  | ok t => exact yields_pure fun fr hrs => ⟨rfl, t, rfl, hi.holds t hv hrs⟩
  | error h =>
    have hh := hi.isError h hv
    cases h with
    | fault f => exact hh.elim
    | refused r =>
      refine Keeps.bind (keeps_report _) fun _ => yields_pure fun fr hr => ?_
      have hno : r.isError = false := hr r (by simp)
      exact absurd hh (by simp [Halt.IsError, hno])

end Check

namespace TypingContext

open Check

variable {c : TypingContext} {env : Env}

/-! ## Parts of statements -/

theorem keeps_note (c : TypingContext) (pos : Pos) (p : Problem) :
    (c.note pos p).Keeps fun _ => p.warning? ≠ none :=
  (keeps_report _).mono fun _ _ _ ⟨hfr, hrs⟩ =>
    ⟨hfr, fun hp => Settings.not_noErrors_note hp hrs⟩

/-- A step after the note of an error, which is made if `b` holds. -/
theorem yields_unless {α : Type} {P : Frame → α → Frame → Prop} [Decidable b] {x : Check α}
    (hp : p.warning? = none) (hx : x.Yields fun fr a fr' => ¬ b → P fr a fr') :
    (if b then (c.note pos p >>= fun _ => x) else x).Yields P := by
  refine Yields.ite (fun _ => ?_) (fun hb => hx.mono fun _ _ _ h => h hb)
  exact Keeps.bind (keeps_note c pos p) fun _ => hx.mono fun _ _ _ _ hno => absurd hp hno

theorem keeps_orAbsent {ok : Ty → Prop} {x : Check Expr}
    (hx : e ≠ .absent → x.Keeps (Expr.ElabOrAbsent c env ok e)) :
    (if e.isAbsent then pure e else x).Keeps (Expr.ElabOrAbsent c env ok e) := by
  refine Yields.ite (fun habs => ?_) (fun habs => hx (by rintro rfl; exact habs rfl))
  cases e with
  | absent => exact keeps_pure .absent
  | _ => cases habs

theorem yields_orAbsent {s : Stmt} {x : Check (Stmt × Env)} {Q : Frame → Stmt × Env → Frame → Prop}
    (hx : s ≠ .absent → x.Yields Q) :
    (if s.isAbsent then pure (s, env) else x).Yields fun fr r fr' =>
      (s = .absent ∧ r = (.absent, env) ∧ fr' = fr) ∨ Q fr r fr' := by
  refine Yields.ite (fun habs => ?_) (fun habs => ?_)
  · cases s with
    | absent => exact yields_pure fun _ => .inl ⟨rfl, rfl, rfl⟩
    | _ => cases habs
  · exact (hx (by rintro rfl; exact habs rfl)).mono fun _ _ _ => .inr

theorem checkExpr_keeps (h : e.Whole) :
    (c.checkExpr env e).Keeps fun r => ∃ t, r.2 = some t ∧ Expr.Elab c env e r.1 t :=
  keeps_ofInference (infer_yields h) e

theorem checkTest_keeps (h : e.Whole) (kind : TestKind) :
    (c.checkTest env kind e).Keeps fun e' => Expr.Elab c env e e' .boolean := by
  refine Keeps.bind (checkExpr_keeps h) ?_
  rintro ⟨e', t⟩
  dsimp only
  split
  · exact yields_pure fun _ ⟨_, ht, _⟩ => nomatch ht
  · exact yields_pure fun _ ⟨_, ht, he⟩ => ⟨rfl, by cases ht; exact he⟩
  · exact Keeps.bind (keeps_note c _ _) fun _ => yields_pure fun _ hp => absurd rfl hp

theorem checkExprStmt_keeps (h : e.Whole) (pos : Pos) :
    (c.checkExprStmt env pos e).Keeps (Expr.ElabEffect c env e) := by
  refine Keeps.bind (keeps_ofInference (inferStatement_yields h) e) ?_
  rintro ⟨e', t⟩
  dsimp only
  split
  · exact yields_pure fun _ ⟨_, _, he⟩ => ⟨rfl, he⟩
  · exact yields_pure fun _ ⟨_, _, he⟩ => ⟨rfl, he⟩
  · exact yields_pure fun _ ⟨_, ht, _⟩ => nomatch ht
  · exact Keeps.bind (keeps_note c _ _) fun _ => yields_pure fun _ _ ⟨_, _, he⟩ => ⟨rfl, he⟩

theorem checkInit_keeps (h : e ≠ .absent → e.Whole) (type : Ty) (name : String) :
    (c.checkInit env type name e).Keeps (Expr.ElabOrAbsent c env (· = type) e) := by
  refine keeps_orAbsent fun hne => Keeps.bind (checkExpr_keeps (h hne)) ?_
  rintro ⟨e', _ | t⟩
  · exact yields_pure fun _ ⟨_, ht, _⟩ => nomatch ht
  · refine yields_unless rfl (yields_pure ?_)
    rintro _ htype ⟨_, ht, he⟩
    cases ht
    exact ⟨rfl, .present (Decidable.not_not.1 htype) he⟩

theorem checkTest_keeps_orAbsent (h : e ≠ .absent → e.Whole) (kind : TestKind) :
    (if e.isAbsent then pure e else c.checkTest env kind e).Keeps
      (Expr.ElabOrAbsent c env (· = .boolean) e) :=
  keeps_orAbsent fun hne =>
    (checkTest_keeps (h hne) kind).mono fun _ _ _ ⟨hfr, he⟩ => ⟨hfr, .present rfl he⟩

theorem checkStep_keeps_orAbsent (h : e ≠ .absent → e.Whole) :
    (if e.isAbsent then pure e else Prod.fst <$> c.checkExpr env e).Keeps
      (Expr.ElabOrAbsent c env (fun _ => True) e) :=
  keeps_orAbsent fun hne => Keeps.bind (checkExpr_keeps (h hne)) fun _ =>
    yields_pure fun _ ⟨_, _, he⟩ => ⟨rfl, .present trivial he⟩

/-- The variables of a declaration take places one after the other. -/
theorem checkLocals_yields (scope : Nat) (type : Ty) : ∀ {vars : List Local} {env : Env},
    (∀ v ∈ vars, v.init ≠ .absent → v.init.Whole) →
    (c.checkLocals scope type env vars).Yields fun fr r fr' =>
      Local.ElabAll c type env fr vars r.1 r.2 fr' := by
  intro vars
  induction vars with
  | nil => exact fun {env} _ => yields_pure fun _ => .nil
  | cons v vars ih =>
    intro env hvars
    rw [checkLocals]
    refine Keeps.bind (checkInit_keeps (hvars v (by simp)) type v.name) fun init => ?_
    -- What follows the checks of the name is the same whether the name was bound before or not.
    have hrest : ∀ otherwise, (Check.unlessFault otherwise
        (Check.newLocal c.settings.wordSize >>= fun offset =>
          c.checkLocals scope type (⟨v.name, type, offset, false⟩ :: env) vars >>= fun r =>
            pure ({ v with init, binding := some ⟨v.name, type, offset, false⟩ } :: r.1,
              r.2))).Yields fun fr r fr' =>
          Expr.ElabOrAbsent c env (· = type) v.init init →
            Local.ElabAll c type env fr (v :: vars) r.1 r.2 fr' := by
      intro otherwise
      refine Yields.unlessFault (Yields.bind (yields_newLocal _) fun offset => ?_) _
      refine Yields.bind (ih fun w hw => hvars w (by simp [hw])) ?_
      rintro ⟨rest, env'⟩
      refine yields_pure ?_
      rintro fr fr₁ hall fr₀ ⟨rfl, rfl⟩ hinit
      exact .cons hinit rfl hall
    refine Yields.ite (fun _ => ?_) (fun _ => Yields.ite (fun _ => ?_) (fun _ => hrest _))
    · exact Keeps.bind (keeps_note c _ _) fun _ => (hrest _).mono fun _ _ _ h _ => h
    · exact Keeps.bind (keeps_note c _ _) fun _ => (hrest _).mono fun _ _ _ h _ => h

theorem checkReturn_keeps (h : e ≠ .absent → e.Whole) (f : Function) (pos : Pos) :
    (c.checkReturn f env pos e).Keeps fun e' =>
      Expr.ElabOrAbsent c env (fun t => f.result = t ∧ t ≠ .void) e e' ∧
        (e = .absent → f.result = .void) := by
  unfold checkReturn
  refine Yields.ite (fun habs => ?_) (fun habs => ?_)
  · cases e with
    | absent =>
      exact yields_unless rfl
        (yields_pure fun _ hvoid => ⟨rfl, .absent, fun _ => Decidable.not_not.1 hvoid⟩)
    | _ => cases habs
  · have hne : e ≠ .absent := by rintro rfl; exact habs rfl
    refine Keeps.bind (checkExpr_keeps (h hne)) ?_
    rintro ⟨e', _ | t⟩
    · exact yields_pure fun _ ⟨_, ht, _⟩ => nomatch ht
    · refine Yields.ite (fun _ => ?_) (fun hvoid => yields_unless rfl (yields_pure ?_))
      · exact Keeps.bind (keeps_note c _ _) fun _ => yields_pure fun _ hp => absurd rfl hp
      · rintro _ htype ⟨_, ht, he⟩
        cases ht
        have htype : t = f.result := Decidable.not_not.1 htype
        exact ⟨rfl, .present ⟨htype.symm, htype ▸ hvoid⟩ he, fun habs => absurd habs hne⟩

theorem checkLoopBody_yields {body : Stmt} (kind : LoopKind) {env : Env} {step : Check (Stmt × Env)}
    (h : step.Yields fun fr r fr' => Stmt.Elab c f true env fr body r.1 r.2 fr') :
    (c.checkLoopBody kind body step).Yields fun fr body' fr' => ∃ env' fr₁,
      Stmt.Elab c f true env fr body body' env' fr₁ ∧ fr' = fr₁.release fr.live := by
  have hrest : (step.releasing >>= fun r => Check.setReturns false >>= fun _ => pure r.1).Yields
      fun fr body' fr' => ∃ env' fr₁,
        Stmt.Elab c f true env fr body body' env' fr₁ ∧ fr' = fr₁.release fr.live := by
    refine Yields.bind (Yields.releasing h) ?_
    rintro ⟨body', env'⟩
    refine Keeps.bind (keeps_setReturns false) fun _ => yields_pure ?_
    rintro fr - fr₀ ⟨fr₁, he, rfl⟩
    exact ⟨env', fr₁, he, rfl⟩
  unfold checkLoopBody
  split
  · exact Keeps.bind (keeps_note c _ _) fun _ => hrest.mono fun _ _ _ he _ => he
  · exact hrest

theorem checkReach_keeps {s : Stmt} (h : s.Whole) (r : Reach) :
    (c.checkReach r s).Keeps fun _ => True := by
  unfold checkReach
  split
  · cases h
  · exact (keeps_note c _ _).mono fun _ _ _ ⟨hfr, _⟩ => ⟨hfr, trivial⟩
  · exact keeps_pure trivial

/-! ## Statements -/

theorem checkStmts_yields {inLoop : Bool} (scope : Nat) {stmts : List Stmt}
    (hwhole : ∀ s ∈ stmts, s.Whole)
    (h : ∀ s ∈ stmts, ∀ env, (c.checkStmt f inLoop scope env s).Yields fun fr r fr' =>
      Stmt.Elab c f inLoop env fr s r.1 r.2 fr') :
    ∀ env reach, (c.checkStmts f inLoop scope env reach stmts).Yields fun fr stmts' fr' =>
      ∃ env', Stmt.ElabAll c f inLoop env fr stmts stmts' env' fr' := by
  induction stmts with
  | nil => exact fun env reach => yields_pure fun _ => ⟨env, .nil⟩
  | cons s stmts ih =>
    intro env reach
    rw [checkStmts]
    refine Keeps.bind (checkReach_keeps (hwhole s (by simp)) reach) fun _ => ?_
    refine Yields.bind (h s (by simp) env) ?_
    rintro ⟨s', env₁⟩
    refine Yields.bind (ih (fun q hq => hwhole q (by simp [hq])) (fun q hq => h q (by simp [hq]))
      env₁ _) fun stmts' => yields_pure ?_
    rintro fr fr₁ ⟨env', hall⟩ fr₀ hs -
    exact ⟨env', .cons hs hall⟩

/-- A statement without gaps becomes what the rules make of it, or an error is reported. -/
theorem checkStmt_yields {s : Stmt} (h : s.Whole) :
    ∀ (inLoop : Bool) (scope : Nat) (env : Env),
      (c.checkStmt f inLoop scope env s).Yields fun fr r fr' =>
        Stmt.Elab c f inLoop env fr s r.1 r.2 fr' := by
  -- on the tree; each case follows the steps of the checker and hands the frame along
  induction h with
  | block hwhole ih =>
    intro inLoop scope env
    rw [checkStmt]
    refine Yields.bind (Yields.releasing (checkStmts_yields env.length hwhole
      (fun s hs env' => ih s hs inLoop env.length env') env .reachable)) fun stmts' => yields_pure ?_
    rintro fr fr₀ ⟨fr₁, ⟨env', hall⟩, rfl⟩
    exact .block hall
  | empty p => exact fun _ _ _ => yields_pure fun _ => .empty p
  | @expr p e he =>
    intro inLoop scope env
    rw [checkStmt]
    exact Keeps.bind (checkExprStmt_keeps he p) fun e' => yields_pure fun _ he' => .expr he'
  | @locals p type vars hvars =>
    intro inLoop scope env
    rw [checkStmt]
    refine yields_unless rfl (Yields.bind (checkLocals_yields scope type hvars) ?_)
    rintro ⟨vars', env'⟩
    exact yields_pure fun _ _ hall htype => .locals (by simpa using htype) hall
  | @cond p test yes no htest _ _ ihyes ihno =>
    intro inLoop scope env
    rw [checkStmt]
    refine Keeps.bind (checkTest_keeps htest _) fun test' => ?_
    refine Keeps.bind (keeps_setReturns false) fun _ => ?_
    refine Yields.bind (ihyes inLoop scope env) ?_
    rintro ⟨yes', env₁⟩
    refine Keeps.bind keeps_getReturns fun _ => Keeps.bind (keeps_setReturns false) fun _ => ?_
    refine Yields.ite_bind (yields_orAbsent fun hne => ihno hne inLoop scope env) ?_
    rintro ⟨no', env₂⟩
    refine Keeps.bind keeps_getReturns fun _ => Keeps.bind (keeps_setReturns _) fun _ => ?_
    refine yields_pure ?_
    rintro fr - - fr₁ hno - - fr₀ hyes - htest'
    obtain ⟨rfl, hno', rfl⟩ | hno := hno
    · cases hno'
      exact .cond htest' hyes
    · exact .condElse htest' hyes hno
  | @whileLoop p test body htest _ ih =>
    intro inLoop scope env
    rw [checkStmt]
    refine Keeps.bind (checkTest_keeps htest _) fun test' => ?_
    refine Yields.bind (checkLoopBody_yields _ (ih true scope env)) fun body' => yields_pure ?_
    rintro fr fr₀ ⟨env', fr₁, hbody, rfl⟩ htest'
    exact .whileLoop htest' hbody
  | @forLoop p init test step body _ htest hstep _ ihinit ihbody =>
    intro inLoop scope env
    rw [checkStmt]
    refine Yields.mono (Yields.releasing (P := fun fr r fr₁ => Stmt.Elab c f inLoop env fr
      (.forLoop p init test step body) r.1 r.2 (fr₁.release fr.live)) ?_) ?_
    · refine Yields.ite_bind (yields_orAbsent fun hne => ihinit hne inLoop env.length env) ?_
      rintro ⟨init', inner⟩
      refine Keeps.ite_bind (checkTest_keeps_orAbsent htest _) fun test' => ?_
      refine Keeps.ite_bind (checkStep_keeps_orAbsent hstep) fun step' => ?_
      refine Yields.bind (checkLoopBody_yields _ (ihbody true env.length inner)) fun body' => ?_
      refine yields_pure ?_
      rintro fr fr₁ ⟨env₂, fr₂, hbody, rfl⟩ hstep' htest' fr₀ hinit
      rw [Frame.release_release]
      obtain ⟨rfl, hinit', rfl⟩ | hinit := hinit
      · cases hinit'
        exact .forLoop htest' hstep' hbody
      · exact .forLoopInit hinit htest' hstep' hbody
    · rintro fr r _ ⟨fr₁, h, rfl⟩
      exact h
  | breakLoop p | continueLoop p =>
    intro inLoop scope env
    rw [checkStmt]
    refine yields_unless rfl (Keeps.bind (keeps_setReturns false) fun _ => yields_pure ?_)
    rintro fr - hloop
    cases inLoop with
    | false => exact absurd rfl hloop
    | true => constructor
  | @ret p e he =>
    intro inLoop scope env
    rw [checkStmt]
    refine Keeps.bind (checkReturn_keeps he f p) fun e' => ?_
    refine Keeps.bind (keeps_setReturns true) fun _ => yields_pure ?_
    rintro fr - ⟨he', habs⟩
    exact .ret he' habs

/-! ## Functions and programs -/

theorem checkBody_yields {stmts : List Stmt} (h : ∀ s ∈ stmts, s.Whole) (env : Env) :
    (c.checkStmts f false env.length env .reachable stmts).Yields fun fr stmts' fr' =>
      ∃ env', Stmt.ElabAll c f false env fr stmts stmts' env' fr' :=
  checkStmts_yields env.length h
    (fun s hs env' => checkStmt_yields (h s hs) false env.length env') env .reachable

theorem checkFunction_elaborates (h : f.Whole) (hdef : f.isPrototype = false) :
    (c.checkFunction f).fault = none ∧
      (NoErrors (c.checkFunction f).reports → Function.Elab c f (c.checkFunction f).function) := by
  obtain hproto | ⟨b, hbody, hwhole⟩ := h
  · simp [hdef] at hproto
  unfold checkFunction
  rw [hbody]
  generalize hparams : bindParams c.settings 0 [] [] f.params = bound
  obtain ⟨params, env, reports⟩ := bound
  have ⟨hfault, hrules⟩ := checkBody_yields (c := c) (f := f) hwhole env {} rfl
  simp only [hfault, noErrors_append]
  refine ⟨trivial, ?_⟩
  rintro ⟨⟨-, hrs⟩, -⟩
  obtain ⟨env', hall⟩ := hrules hrs
  exact .definition hdef hbody hparams hall

/-- Functions without gaps become what the rules make of them, or an error is reported. -/
theorem checkFunctions_elaborates {fs : List Function} (h : ∀ f ∈ fs, f.Whole) :
    (c.checkFunctions fs).fault = none ∧
      (NoErrors (c.checkFunctions fs).reports →
        List.Forall₂ (Function.Elab c) fs (c.checkFunctions fs).program) := by
  induction fs with
  | nil => exact ⟨rfl, fun _ => .nil⟩
  | cons f fs ih =>
    have ⟨hfault, hrules⟩ := ih fun g hg => h g (by simp [hg])
    rw [checkFunctions]
    by_cases hproto : f.isPrototype = true
    · rw [if_pos hproto]
      exact ⟨hfault, fun hrs => .cons (.prototype hproto) (hrules hrs)⟩
    · rw [if_neg hproto]
      have ⟨hfirst, hf⟩ := checkFunction_elaborates (c := c) (h f (by simp)) (by simpa using hproto)
      simp only [hfirst, noErrors_append]
      exact ⟨hfault, fun hrs => .cons (hf hrs.1) (hrules hrs.2)⟩

end TypingContext

/-- Checking a program without gaps does not fault, and an accepted program becomes what the rules
    make of it. -/
theorem Program.check_elaborates {s : Settings} {p : Program} (h : ∀ f ∈ p, f.Whole) :
    (p.check s).fault = none ∧ ((p.check s).accepted = true →
      List.Forall₂ (Function.Elab (p.declare s).1) p (p.check s).program) := by
  have ⟨hfault, hrules⟩ := TypingContext.checkFunctions_elaborates (c := (p.declare s).1) h
  refine ⟨hfault, ?_⟩
  intro hacc
  have hrs := ProgramCheck.noErrors_of_accepted hacc
  exact hrules (noErrors_append.1 hrs).2

end MiniCompiler
