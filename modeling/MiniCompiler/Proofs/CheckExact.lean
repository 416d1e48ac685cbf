import MiniCompiler.Proofs.Declarations
import MiniCompiler.Proofs.ReadPrefix
import MiniCompiler.Proofs.ReturnFlag

/-!
# The checker decides the static rules

For each step of the checker there is a condition, from the static rules, that holds exactly if the step
reports no error: `Inference.Finds` for the search for a type, `Check.Decides` for a step of checking.
Both have one rule for every way in which the checker puts steps together, so that the induction over
the tree compares the two accounts of a statement part by part.

An environment shows scopes (`Env.Shows`) if it has their variables with their types in the same order.
That is kept by declarations with errors as well, as a redeclared variable is bound all the same.
-/

namespace MiniCompiler

variable {e : Expr} {args : List (Bool × Expr)} {pos : Pos} {t : Ty} {i : Inference}

/-! ## Environments and scopes -/

/-- The variables of the environment are those of the scopes. -/
def Env.Shows (env : Env) (Γ : Scopes) : Prop :=
  env.map (fun b => (b.name, b.type)) = Γ.flatten

/-- The number of variables that are declared outside of the innermost scope. -/
def Scopes.outer (Γ : Scopes) : Nat := Γ.tail.flatten.length

namespace Env.Shows

variable {env : Env} {Γ : Scopes} {before : Expr}

theorem type?_eq (h : env.Shows Γ) (name : String) :
    Γ.type? name = (env.find? name).map Binding.type := by
  rw [Scopes.type?, ← h]
  clear h
  induction env with
  | nil => rfl
  | cons b env ih =>
    rw [List.map_cons, List.lookup_cons, Env.find?_cons, ih]
    by_cases hname : b.name = name
    · simp [hname]
    · have hbeq : (name == b.name) = false := by simpa using Ne.symm hname
      simp [hname, hbeq]

theorem length_eq (h : env.Shows Γ) : env.length = Γ.flatten.length := by
  rw [← h, List.length_map]

theorem bindsSince_iff (h : env.Shows Γ) (name : String) :
    env.bindsSince Γ.outer name = true ↔ Γ.Declares name := by
  have hinner : (env.take (env.length - Γ.outer)).map (fun b => (b.name, b.type)) =
      Γ.headD [] := by
    rw [List.map_take, h, h.length_eq]
    cases Γ with
    | nil => rfl
    | cons S Γ => simp [Scopes.outer]
  rw [Env.bindsSince, Scopes.Declares, ← hinner, List.map_map, List.any_eq_true]
  simp only [List.mem_map, Function.comp, beq_iff_eq]

theorem declare (h : env.Shows Γ) (b : Binding) :
    Env.Shows (b :: env) (Γ.declare b.name b.type) := by
  rw [Env.Shows, List.map_cons, h]
  cases Γ <;> rfl

end Env.Shows

@[simp]
theorem Scopes.outer_declare (Γ : Scopes) (name : String) (type : Ty) :
    (Γ.declare name type).outer = Γ.outer := rfl

@[simp]
theorem Scopes.outer_after (Γ : Scopes) (s : Stmt) : (Γ.after s).outer = Γ.outer := by
  unfold Scopes.after
  split
  · rename_i vars
    induction vars generalizing Γ with
    | nil => rfl
    | cons v vars ih => rw [List.foldl_cons, ih, Scopes.outer_declare]
  · rfl

theorem Scopes.outer_open {Γ : Scopes} {env : Env} (h : env.Shows Γ) :
    Scopes.outer ([] :: Γ) = env.length := h.length_eq.symm

theorem Env.Shows.open {env : Env} {Γ : Scopes} (h : env.Shows Γ) : env.Shows ([] :: Γ) := h

/-! ## Types of expressions -/

/-- The functions that calls refer to are those of `p`, up to their signatures. -/
structure TypingContext.Knows (c : TypingContext) (p : Program) : Prop where
  wordSize : c.settings.wordSize = 4 ∨ c.settings.wordSize = 8
  mem : ∀ {name i f}, c.declared.find? name = some (i, f) → f ∈ p
  find : ∀ f ∈ p, ∃ i g, c.declared.find? f.name = some (i, g) ∧ g.signature = f.signature

/-- The search ends with type `t`, and no error is reported. -/
def Inference.Finds (i : Inference) (t : Ty) : Prop := i.verdict = .ok t ∧ NoErrors i.reports

/-- The arguments fit, and no error is reported. -/
def ArgsInference.Fits (i : ArgsInference) : Prop := i.verdict = .ok () ∧ NoErrors i.reports

namespace Inference

theorem finds_expecting {want : Ty} {p : Ty → Problem} :
    (i.expecting want pos p).Finds t ↔ t = want ∧ i.Finds want := by
  unfold Inference.expecting Finds
  cases i.verdict with
  | error h => simp [bind, Except.bind]
  | ok u =>
    by_cases hu : u = want
    · simp [bind, Except.bind, pure, Except.pure, hu, eq_comm]
    · simp [bind, Except.bind, refuse, hu]

theorem finds_pair {l r : Inference} {node : Expr → Expr → Expr} {result : Ty → Ty → Except Halt Ty} :
    (l.pair r before node result).Finds t ↔
      ∃ u v, l.Finds u ∧ r.Finds v ∧ result u v = .ok t := by
  unfold Inference.pair Finds
  cases l.verdict with
  | error h => simp
  | ok u =>
    cases r.verdict with
    | error h => simp [bind, Except.bind]
    | ok v =>
      simp [bind, Except.bind]
      tauto

/-- Two operands of type `want`, whatever is said of one that has another type. -/
theorem finds_operands {l r : Inference} {want result t : Ty}
    {node : Expr → Expr → Expr} {pos pos' : Pos} {q q' : Ty → Problem} :
    ((l.expecting want pos q).pair (r.expecting want pos' q') before node fun _ _ =>
        pure result).Finds t ↔ t = result ∧ l.Finds want ∧ r.Finds want := by
  simp only [finds_pair, finds_expecting]
  constructor
  · rintro ⟨_, _, ⟨rfl, hl⟩, ⟨rfl, hr⟩, ht⟩
    cases ht
    exact ⟨rfl, hl, hr⟩
  · rintro ⟨rfl, hl, hr⟩
    exact ⟨_, _, ⟨rfl, hl⟩, ⟨rfl, hr⟩, rfl⟩

end Inference

/-- Only a warning is noted without an error. -/
theorem Settings.noErrors_note {s : Settings} {q : Problem} :
    NoErrors (s.note pos q) ↔ q.warning? ≠ none := by
  constructor
  · exact fun h hq => Settings.not_noErrors_note hq h
  · intro hq
    obtain ⟨w, hw⟩ := Option.ne_none_iff_exists'.1 hq
    unfold Settings.note
    split
    · exact absurd ‹_› hq
    · split
      · simp [NoErrors, Report.isError, hw]
      · exact noErrors_nil

namespace TypingContext

open Inference

variable {c : TypingContext} {p : Program} {env : Env} {Γ : Scopes}

theorem noErrors_intReports (hc : c.Knows p) {n : Int} {negated : Bool} :
    NoErrors (c.intReports pos n negated) ↔
      (c.settings.wordSize = 4 → n ≤ intLimit negated) := by
  have hsize := hc.wordSize
  unfold intReports
  split
  · rw [Settings.noErrors_note]
    constructor
    · exact fun h => absurd rfl h
    · omega
  · simp only [noErrors_nil, true_iff]
    omega

theorem finds_resolve (hΓ : env.Shows Γ) (v : Variable) :
    Inference.Finds ⟨e, [], (v.resolve env).verdict⟩ t ↔ Γ.type? v.name = some t := by
  rw [hΓ.type?_eq]
  unfold Inference.Finds Variable.verdict Variable.resolve
  cases env.find? v.name <;> simp [refuse]

theorem argsFit_congr {W : Int} {ps qs : List Param}
    (h : ps.map Param.type = qs.map Param.type) (hargs : Expr.ArgsFit W p Γ ps args) :
    Expr.ArgsFit W p Γ qs args := by
  induction ps generalizing qs args with
  | nil =>
    cases List.map_eq_nil_iff.1 h.symm
    exact hargs
  | cons q ps ih =>
    cases qs with
    | nil => cases h
    | cons q' qs =>
      cases hargs with
      | cons he hargs =>
        simp only [List.map_cons, List.cons.injEq] at h
        exact .cons (h.1 ▸ he) (ih h.2 hargs)

theorem argsFit_length {W : Int} {ps : List Param}
    (hargs : Expr.ArgsFit W p Γ ps args) : args.length = ps.length := by
  induction args generalizing ps with
  | nil => cases hargs; rfl
  | cons a args ih =>
    cases hargs with
    | cons _ hargs => simp [ih hargs]

/-- As many arguments as parameters fit if they have their types. -/
theorem fits_inferArgs {W : Int} (name : String)
    (ih : ∀ a ∈ args, ∀ t, (c.infer env a.2).Finds t ↔ a.2.HasType W p Γ t) :
    ∀ {ps : List Param} (i : Nat), args.length = ps.length →
      ((c.inferArgs env name i ps args).Fits ↔ Expr.ArgsFit W p Γ ps args) := by
  induction args with
  | nil =>
    intro ps i hlength
    cases List.length_eq_zero_iff.1 hlength.symm
    rw [inferArgs.eq_def]
    simp [ArgsInference.Fits, Expr.ArgsFit.nil]
  | cons a args ihargs =>
    intro ps i hlength
    obtain ⟨q, ps, rfl⟩ := List.exists_cons_of_length_eq_add_one hlength.symm
    obtain ⟨mark, e⟩ := a
    have hrest := @ihargs (fun a ha => ih a (by simp [ha])) ps (i + 1) (by simpa using hlength)
    have hsplit : Expr.ArgsFit W p Γ (q :: ps) ((mark, e) :: args) ↔
        (c.infer env e).Finds q.type ∧ (c.inferArgs env name (i + 1) ps args).Fits := by
      rw [hrest, ih (mark, e) (by simp)]
      constructor
      · intro hfit
        cases hfit with
        | cons he hargs => exact ⟨he, hargs⟩
      · rintro ⟨he, hargs⟩
        exact .cons he hargs
    rw [hsplit, inferArgs]
    dsimp only [ArgsInference.Fits, Inference.Finds]
    cases (c.infer env e).verdict with
    | error h => simp
    | ok t =>
      by_cases ht : t = q.type
      · have hdiscarded : NoErrors (if q.byRef && !e.isVariable then
            c.settings.note e.pos (.discardedUpdate i name) else []) := by
          split
          · exact Settings.noErrors_note.2 nofun
          · exact noErrors_nil
        simp only [ht, ne_eq, not_true, if_false, noErrors_append, hdiscarded, and_true, true_and]
        tauto
      · simp [ht, refuse]

theorem finds_inferCall {W : Int} (hc : c.Knows p) {allowVoid : Bool} {name : String}
    {callee : Option Nat} (ih : ∀ a ∈ args, ∀ t, (c.infer env a.2).Finds t ↔ a.2.HasType W p Γ t) :
    (c.inferCall allowVoid pos name args callee fun f =>
        c.inferArgs env name 1 f.params args).Finds t ↔
      ∃ f ∈ p, f.name = name ∧ t = f.result ∧ (allowVoid = false → f.result.isValue = true) ∧
        Expr.ArgsFit W p Γ f.params args := by
  unfold inferCall
  split
  · -- a function of that name would be declared
    rename_i hnone
    constructor
    · rintro ⟨hverdict, -⟩
      cases hverdict
    · rintro ⟨f, hf, rfl, -⟩
      obtain ⟨i, g, hfind, -⟩ := hc.find f hf
      rw [hnone] at hfind
      cases hfind
  · rename_i i g hfind
    have hmem := hc.mem hfind
    have hname := Declared.name_of_find? hfind
    -- all functions of that name have the signature of `g`
    have hothers : (∃ f ∈ p, f.name = name ∧ t = f.result ∧
        (allowVoid = false → f.result.isValue = true) ∧ Expr.ArgsFit W p Γ f.params args) ↔
        t = g.result ∧ (allowVoid = false → g.result.isValue = true) ∧
          Expr.ArgsFit W p Γ g.params args := by
      constructor
      · rintro ⟨f, hf, rfl, rfl, hvalue, hargs⟩
        obtain ⟨j, g', hfind', hsignature⟩ := hc.find f hf
        cases hfind.symm.trans hfind'
        simp only [Function.signature, Signature.mk.injEq] at hsignature
        have htypes := congrArg (List.map Prod.fst) hsignature.2
        simp only [List.map_map, Function.comp_def] at htypes
        exact ⟨hsignature.1.symm, hsignature.1 ▸ hvalue, argsFit_congr htypes.symm hargs⟩
      · rintro ⟨ht, hvalue, hargs⟩
        exact ⟨g, hmem, hname, ht, hvalue, hargs⟩
    rw [hothers]
    split
    · rename_i hlength
      constructor
      · rintro ⟨hverdict, -⟩
        cases hverdict
      · rintro ⟨-, -, hargs⟩
        exact absurd (argsFit_length hargs) hlength
    · rename_i hlength
      rw [← fits_inferArgs name ih 1 (Decidable.not_not.1 hlength)]
      dsimp only [Inference.Finds, ArgsInference.Fits]
      cases (c.inferArgs env name 1 g.params args).verdict with
      | error h => simp [bind, Except.bind]
      | ok =>
        cases allowVoid <;> cases g.result.isValue <;>
          simp [bind, Except.bind, refuse, pure, Except.pure, eq_comm]

theorem finds_int (hc : c.Knows p) {n : Int} {negated : Bool} :
    Finds ⟨e, c.intReports pos n negated, .ok .int⟩ t ↔
      t = .int ∧ (c.settings.wordSize = 4 → n ≤ intLimit negated) := by
  rw [Finds, noErrors_intReports hc]
  simp [eq_comm]

theorem finds_assign (hΓ : env.Shows Γ) {v : Variable} :
    (c.infer env (.assign pos v e)).Finds t ↔
      Γ.type? v.name = some t ∧ (c.infer env e).Finds t := by
  have hv := finds_resolve hΓ v (e := .absent) (t := t)
  rw [← hv, infer]
  cases (v.resolve env).verdict with
  | error h => simp [Finds]
  | ok u =>
    cases hr : (c.infer env e).verdict with
    | error h => simp [Finds, hr]
    | ok w =>
      by_cases huw : u = w
      · simp [Finds, hr, huw]
      · -- the search goes on with the type of the value, but the mismatch is an error
        simp only [Finds, hr, huw, if_false, noErrors_append, Settings.noErrors_note,
          Problem.warning?, ne_eq, not_true, and_false, Except.ok.injEq, false_iff]
        rintro ⟨⟨rfl, -⟩, rfl, -⟩
        exact huw rfl

/-- A sign with an operand, where the two are not one negated constant. -/
theorem finds_unary {op : UnaryOp} (h : ¬ (op = .neg ∧ ∃ q n, e = .int q n)) :
    (c.infer env (.unary pos op e)).Finds t ↔ t = (if op = .not then .boolean else .int) ∧
      (c.infer env e).Finds (if op = .not then .boolean else .int) := by
  rw [infer]
  · exact finds_expecting
  · rintro q n rfl rfl
    exact h ⟨rfl, q, n, rfl⟩

/-- Values of any one type can be compared for being equal. -/
theorem finds_equality {op : CompOp} (hop : op = .eq ∨ op = .ne) {l r : Expr} :
    (c.infer env (.comp pos op l r)).Finds t ↔
      t = .boolean ∧ ∃ u, (c.infer env l).Finds u ∧ (c.infer env r).Finds u := by
  rw [infer, if_pos hop, finds_pair]
  constructor
  · rintro ⟨u, w, hl, hr, ht⟩
    by_cases huw : u = w
    · rw [if_pos huw] at ht
      cases ht
      exact ⟨rfl, u, hl, huw ▸ hr⟩
    · rw [if_neg huw] at ht
      cases ht
  · rintro ⟨rfl, u, hl, hr⟩
    exact ⟨u, u, hl, hr, by rw [if_pos rfl]; rfl⟩

/-- The search for a type follows the typing rules. -/
theorem finds_infer (hc : c.Knows p) (hΓ : env.Shows Γ) (h : e.Whole) : ∀ (t : Ty),
    (c.infer env e).Finds t ↔ e.HasType c.settings.wordSize p Γ t := by
  induction h with
  | int pos n =>
    intro t
    rw [infer, finds_int hc]
    constructor
    · rintro ⟨rfl, hn⟩
      exact .int hn
    · intro ht
      cases ht with
      | int hn => exact ⟨rfl, hn⟩
  | bool pos b =>
    intro t
    rw [infer, Finds]
    constructor
    · rintro ⟨ht, -⟩
      cases ht
      exact .bool
    · intro ht
      cases ht
      exact ⟨rfl, noErrors_nil⟩
  | var v =>
    intro t
    rw [infer, finds_resolve hΓ]
    constructor
    · exact .var
    · intro ht
      cases ht with
      | var hv => exact hv
  | @assign pos v e _ ih =>
    intro t
    rw [finds_assign hΓ, ih]
    constructor
    · rintro ⟨hv, he⟩
      exact .assign hv he
    · intro ht
      cases ht with
      | assign hv he => exact ⟨hv, he⟩
  | @call pos name args callee _ ih =>
    intro t
    rw [infer, finds_inferCall hc ih]
    constructor
    · rintro ⟨f, hf, rfl, rfl, hvalue, hargs⟩
      exact .call hf (hvalue rfl) hargs
    · intro ht
      cases ht with
      | call hf hvalue hargs => exact ⟨_, hf, rfl, rfl, fun _ => hvalue, hargs⟩
  | @unary pos op e hop _ ih =>
    intro t
    -- a negated constant is one number, whose bound is larger by one
    by_cases hint : op = .neg ∧ ∃ q n, e = .int q n
    · obtain ⟨rfl, q, n, rfl⟩ := hint
      rw [infer, finds_int hc]
      constructor
      · rintro ⟨rfl, hn⟩
        exact .negated hn
      · intro ht
        cases ht with
        | negated hn => exact ⟨rfl, hn⟩
        | neg he =>
          cases he with
          | int hn => exact ⟨rfl, fun h4 => Int.le_trans (hn h4) (by decide)⟩
    · rw [finds_unary hint, ih]
      constructor
      · rintro ⟨rfl, he⟩
        cases op with
        | neg => exact .neg he
        | not => exact .not he
        | other k => exact absurd rfl (hop k)
      · intro ht
        cases ht with
        | negated => exact absurd ⟨rfl, _, _, rfl⟩ hint
        | neg he => exact ⟨rfl, he⟩
        | not he => exact ⟨rfl, he⟩
  | @arith pos op l r _ _ _ ihl ihr =>
    intro t
    rw [infer, finds_operands, ihl, ihr]
    constructor
    · rintro ⟨rfl, hl, hr⟩
      exact .arith hl hr
    · intro ht
      cases ht with
      | arith hl hr => exact ⟨rfl, hl, hr⟩
  | @comp pos op l r _ _ ihl ihr =>
    intro t
    by_cases heq : op = .eq ∨ op = .ne
    · simp only [finds_equality heq, ihl, ihr]
      constructor
      · rintro ⟨rfl, u, hl, hr⟩
        exact .equality heq hl hr
      · intro ht
        cases ht with
        | order hne hne' => exact absurd heq (by simp [hne, hne'])
        | equality _ hl hr => exact ⟨rfl, _, hl, hr⟩
    · rw [infer, if_neg heq, finds_operands, ihl, ihr]
      constructor
      · rintro ⟨rfl, hl, hr⟩
        exact .order (fun h => heq (.inl h)) (fun h => heq (.inr h)) hl hr
      · intro ht
        cases ht with
        | order _ _ hl hr => exact ⟨rfl, hl, hr⟩
        | equality h => exact absurd h heq
  | @logic pos op l r _ _ ihl ihr =>
    intro t
    rw [infer, finds_operands, ihl, ihr]
    constructor
    · rintro ⟨rfl, hl, hr⟩
      exact .logic hl hr
    · intro ht
      cases ht with
      | logic hl hr => exact ⟨rfl, hl, hr⟩

theorem finds_inferStatement (hc : c.Knows p) (hΓ : env.Shows Γ) (h : e.Whole) :
    (∃ t, (c.inferStatement env e).Finds t) ↔ e.Performs c.settings.wordSize p Γ := by
  by_cases hcall : ∃ pos name args callee, e = .call pos name args callee
  · obtain ⟨pos, name, args, callee, rfl⟩ := hcall
    cases h with
    | call hwhole =>
      rw [inferStatement]
      simp only [finds_inferCall hc fun a ha => finds_infer hc hΓ (hwhole a ha)]
      constructor
      · rintro ⟨t, f, hf, rfl, -, -, hargs⟩
        exact .call hf hargs
      · intro he
        cases he with
        | value ht =>
          cases ht with
          | call hf _ hargs => exact ⟨_, _, hf, rfl, rfl, by rintro ⟨⟩, hargs⟩
        | call hf hargs => exact ⟨_, _, hf, rfl, rfl, by rintro ⟨⟩, hargs⟩
  · rw [inferStatement]
    · simp only [finds_infer hc hΓ h]
      constructor
      · rintro ⟨t, ht⟩
        exact .value ht
      · intro he
        cases he with
        | value ht => exact ⟨_, ht⟩
        | call => exact absurd ⟨_, _, _, _, rfl⟩ hcall
    · rintro pos name args callee rfl
      exact hcall ⟨pos, name, args, callee, rfl⟩

end TypingContext

/-! ## Steps of checking -/

/-- A step that does not fault and has a value that satisfies `Q`, and that reports no error exactly if
    `P` holds. -/
def Check.Decides {α : Type} (x : Check α) (P : Prop) (Q : α → Prop) : Prop :=
  ∀ st : CheckState, st.fault = none →
    (x st).state.fault = none ∧ Q (x st).value ∧ (NoErrors (x st).reports ↔ P)

namespace Check

variable {α β : Type} {P P' : Prop} {Q : α → Prop} {x : Check α}

theorem decides_pure {a : α} (h : Q a) : (pure a : Check α).Decides True Q :=
  fun _ hst => ⟨hst, h, by simp [pure, Check.pure]⟩

theorem Decides.congr (hx : x.Decides P Q) (h : P ↔ P') : x.Decides P' Q :=
  fun st hst => ⟨(hx st hst).1, (hx st hst).2.1, (hx st hst).2.2.trans h⟩

theorem Decides.mono {R : α → Prop} (hx : x.Decides P R) (h : ∀ a, R a → Q a) :
    x.Decides P Q :=
  fun st hst => ⟨(hx st hst).1, h _ (hx st hst).2.1, (hx st hst).2.2⟩

theorem Decides.bind {x : Check β} {f : β → Check α} {R : β → Prop} (hx : x.Decides P R)
    (hf : ∀ b, R b → (f b).Decides P' Q) : (x >>= f).Decides (P ∧ P') Q := by
  intro st hst
  obtain ⟨hfault, hR, hP⟩ := hx st hst
  obtain ⟨hfault', hQ, hP'⟩ := hf _ hR (x st).state hfault
  exact ⟨hfault', hQ, noErrors_append.trans (and_congr hP hP')⟩

theorem Decides.then {x : Check β} {f : β → Check α} {R : β → Prop} (hx : x.Decides True R)
    (hf : ∀ b, R b → (f b).Decides P Q) : (x >>= f).Decides P Q :=
  (hx.bind hf).congr (by simp)

theorem Decides.last {x : Check β} {f : β → Check α} {R : β → Prop} (hx : x.Decides P R)
    (hf : ∀ b, R b → (f b).Decides True Q) : (x >>= f).Decides P Q :=
  (hx.bind hf).congr (by simp)

theorem Decides.unlessFault (hx : x.Decides P Q) (a : α) :
    (Check.unlessFault a x).Decides P Q := by
  intro st hst
  rw [Check.unlessFault, if_neg (by simp [hst])]
  exact hx st hst

theorem Decides.releasing (hx : x.Decides P Q) : x.releasing.Decides P Q := hx

theorem decides_report (rs : List Report) : (report rs).Decides (NoErrors rs) fun _ => True :=
  Decides.unlessFault (x := fun st => ⟨(), rs, st⟩) (fun _ hst => ⟨hst, trivial, .rfl⟩) ()

theorem decides_setReturns (b : Bool) : (setReturns b).Decides True fun _ => True :=
  fun _ hst => ⟨hst, trivial, by simp [setReturns]⟩

theorem decides_getReturns : getReturns.Decides True fun _ => True :=
  fun _ hst => ⟨hst, trivial, by simp [getReturns]⟩

theorem decides_newLocal (wordSize : Int) : (newLocal wordSize).Decides True fun _ => True :=
  fun _ hst => ⟨hst, trivial, by simp [newLocal]⟩

theorem ofInference_ok (hi : i.verdict = .ok t) (before : Expr)
    {st : CheckState} (hst : st.fault = none) :
    ofInference before i st = ⟨(i.expr, some t), i.reports, st⟩ := by
  simp [ofInference, Check.unlessFault, report, bind, Check.bind, pure, Check.pure, hst, hi]

theorem ofInference_refused {r : Report} (hi : i.verdict = .error (.refused r))
    (before : Expr) {st : CheckState} (hst : st.fault = none) :
    ofInference before i st = ⟨(i.expr, none), i.reports ++ [r], st⟩ := by
  simp [ofInference, Check.unlessFault, report, bind, Check.bind, pure, Check.pure, hst, hi]

/-- What follows the search for a type decides `R t` if a type `t` is found. -/
theorem decides_ofInference (hi : ∀ h, i.verdict = .error h → h.IsError)
    {f : Expr × Option Ty → Check α} {R : Ty → Prop}
    (hsome : ∀ e t, (f (e, some t)).Decides (R t) Q) (hnone : ∀ e, (f (e, none)).Decides True Q) :
    (ofInference before i >>= f).Decides (∃ t, i.Finds t ∧ R t) Q := by
  intro st hst
  change (f _ _).state.fault = none ∧ Q (f _ _).value ∧ (NoErrors (_ ++ (f _ _).reports) ↔ _)
  cases hverdict : i.verdict with
  | ok t =>
    rw [ofInference_ok hverdict before hst]
    obtain ⟨hfault, hQ, hR⟩ := hsome i.expr t st hst
    exact ⟨hfault, hQ, by simp [Inference.Finds, hverdict, hR]⟩
  | error h =>
    cases h with
    | fault f => exact (hi _ hverdict).elim
    | refused r =>
      have herror : r.isError = true := hi _ hverdict
      rw [ofInference_refused hverdict before hst]
      obtain ⟨hfault, hQ, -⟩ := hnone i.expr st hst
      refine ⟨hfault, hQ, ?_⟩
      constructor
      · intro hrs
        have hno := hrs r (by simp)
        simp [herror] at hno
      · rintro ⟨t, ⟨ht, -⟩, -⟩
        simp [hverdict] at ht

end Check

namespace TypingContext

open Check

variable {c : TypingContext} {p : Program} {env : Env} {Γ : Scopes}

/-! ## Parts of statements -/

theorem decides_note (c : TypingContext) (pos : Pos) (q : Problem) :
    (c.note pos q).Decides (q.warning? ≠ none) fun _ => True :=
  (decides_report _).congr Settings.noErrors_note

section Notes

variable {α : Type} {P : Prop} {Q : α → Prop} {b : Prop} [Decidable b] {pos : Pos} {q : Problem}
  {x : Check α}

/-- A step after the note of an error, which is made if `b` holds. -/
theorem decides_unless (hq : q.warning? = none) (hx : x.Decides P Q) :
    (if b then (c.note pos q >>= fun _ => x) else x).Decides (¬ b ∧ P) Q := by
  split
  · exact ((decides_note c pos q).bind fun _ _ => hx).congr (by simp [*])
  · exact hx.congr (by simp [*])

theorem decides_warned (hq : q.warning? ≠ none) (hx : x.Decides P Q) :
    (if b then (c.note pos q >>= fun _ => x) else x).Decides P Q := by
  split
  · exact ((decides_note c pos q).bind fun _ _ => hx).congr (by simp [hq])
  · exact hx

end Notes

section

variable (hc : c.Knows p)

include hc

theorem decides_checkTest (hΓ : env.Shows Γ) (h : e.Whole)
    (kind : TestKind) : (c.checkTest env kind e).Decides
      (e.HasType c.settings.wordSize p Γ .boolean) fun _ => True := by
  refine (decides_ofInference (R := (· = .boolean)) (infer_yields h).isError ?_ ?_).congr ?_
  · intro e' t
    cases t with
    | boolean => exact (decides_pure trivial).congr (by simp)
    | int | void | unknown =>
      exact ((decides_note c _ _).bind fun _ _ => decides_pure trivial).congr
        (by simp [Problem.warning?])
  · exact fun e' => decides_pure trivial
  · simp [finds_infer hc hΓ h]

theorem decides_checkStep (hΓ : env.Shows Γ) (h : e.Whole) :
    (Prod.fst <$> c.checkExpr env e).Decides
      (∃ type, e.HasType c.settings.wordSize p Γ type) fun _ => True := by
  refine (decides_ofInference (R := fun _ => True) (f := fun r => pure r.1)
    (infer_yields h).isError ?_ ?_).congr ?_
  · exact fun e' t => decides_pure trivial
  · exact fun e' => decides_pure trivial
  · simp [finds_infer hc hΓ h]

theorem decides_checkExprStmt (hΓ : env.Shows Γ) (h : e.Whole)
    (pos : Pos) : (c.checkExprStmt env pos e).Decides
      (e.Performs c.settings.wordSize p Γ) fun _ => True := by
  refine (decides_ofInference (R := fun _ => True) (inferStatement_yields h).isError ?_ ?_).congr ?_
  · intro e' t
    dsimp only
    split
    · exact decides_pure trivial
    · exact decides_pure trivial
    · exact decides_pure trivial
    · exact ((decides_note c _ _).bind fun _ _ => decides_pure trivial).congr
        (by simp [Problem.warning?])
  · intro e'
    dsimp only
    split
    · exact decides_pure trivial
    · exact decides_pure trivial
    · exact decides_pure trivial
    · rename_i heq
      cases heq
  · simp only [and_true]
    exact finds_inferStatement hc hΓ h

theorem decides_checkInit (hΓ : env.Shows Γ) (h : e ≠ .absent → e.Whole) (type : Ty) (name : String) :
    (c.checkInit env type name e).Decides
      (e ≠ .absent → e.HasType c.settings.wordSize p Γ type) fun _ => True := by
  unfold checkInit
  cases habs : e.isAbsent with
  | true =>
    cases e with
    | absent => exact (decides_pure trivial).congr (by simp)
    | _ => cases habs
  | false =>
    have hne : e ≠ .absent := by
      rintro rfl
      cases habs
    refine (decides_ofInference (R := (· = type)) (infer_yields (h hne)).isError ?_ ?_).congr ?_
    · intro e' t
      exact (decides_unless rfl (decides_pure trivial)).congr (by simp)
    · exact fun e' => decides_pure trivial
    · simp [finds_infer hc hΓ (h hne), hne]

theorem decides_checkLocals (type : Ty) : ∀ {vars : List Local} {env : Env}
    {Γ : Scopes}, env.Shows Γ → (∀ v ∈ vars, v.init ≠ .absent → v.init.Whole) →
    (c.checkLocals Γ.outer type env vars).Decides
      (Local.WellFormedAll c.settings.wordSize p type Γ vars)
      fun r => r.2.Shows (vars.foldl (fun Γ v => Γ.declare v.name type) Γ) := by
  intro vars
  induction vars with
  | nil =>
    intro env Γ hΓ _
    exact (decides_pure hΓ).congr (by simp [Local.WellFormedAll.nil])
  | cons v vars ih =>
    intro env Γ hΓ hvars
    rw [checkLocals]
    -- what is found out about the name changes nothing for the variables after it
    have hrest : ∀ init otherwise, (Check.unlessFault otherwise
        (Check.newLocal c.settings.wordSize >>= fun offset =>
          c.checkLocals Γ.outer type (⟨v.name, type, offset, false⟩ :: env) vars >>= fun r =>
            pure ({ v with init, binding := some ⟨v.name, type, offset, false⟩ } :: r.1,
              r.2))).Decides
        (Local.WellFormedAll c.settings.wordSize p type (Γ.declare v.name type) vars)
        fun r => r.2.Shows (vars.foldl (fun Γ v => Γ.declare v.name type)
          (Γ.declare v.name type)) := by
      intro init otherwise
      refine Decides.unlessFault ((decides_newLocal _).then fun offset _ => ?_) _
      exact (ih (hΓ.declare ⟨v.name, type, offset, false⟩)
        fun w hw => hvars w (by simp [hw])).last fun r hr => decides_pure hr
    rw [Local.wellFormedAll_cons]
    refine (decides_checkInit hc hΓ (hvars v (by simp)) type v.name).bind fun init _ => ?_
    rw [← hΓ.bindsSince_iff]
    by_cases hname : env.bindsSince Γ.outer v.name = true
    · rw [if_pos hname]
      exact ((decides_note c _ _).bind fun _ _ => hrest init _).congr
        (by simp [Problem.warning?, hname])
    · rw [if_neg hname]
      exact (decides_warned (by simp [Problem.warning?]) (hrest init _)).congr (by simp [hname])

theorem decides_checkReturn (hΓ : env.Shows Γ)
    (h : e ≠ .absent → e.Whole) (f : Function) (pos : Pos) :
    (c.checkReturn f env pos e).Decides
      ((e = .absent → f.result = .void) ∧
        (e ≠ .absent → f.result ≠ .void ∧ e.HasType c.settings.wordSize p Γ f.result))
      fun _ => True := by
  unfold checkReturn
  cases habs : e.isAbsent with
  | true =>
    cases e with
    | absent => exact (decides_unless rfl (decides_pure trivial)).congr (by simp)
    | _ => cases habs
  | false =>
    have hne : e ≠ .absent := by
      rintro rfl
      cases habs
    refine (decides_ofInference (R := fun t => f.result ≠ .void ∧ t = f.result)
      (infer_yields (h hne)).isError ?_ ?_).congr ?_
    · intro e' t
      dsimp only
      by_cases hvoid : f.result = .void
      · rw [if_pos hvoid]
        exact ((decides_note c _ _).bind fun _ _ => decides_pure trivial).congr
          (by simp [Problem.warning?, hvoid])
      · rw [if_neg hvoid]
        exact (decides_unless rfl (decides_pure trivial)).congr (by simp [hvoid])
    · exact fun e' => decides_pure trivial
    · simp only [finds_infer hc hΓ (h hne), hne, false_imp_iff, true_and, ne_eq, not_false_eq_true,
        true_imp_iff]
      constructor
      · rintro ⟨t, ht, hvoid, rfl⟩
        exact ⟨hvoid, ht⟩
      · rintro ⟨hvoid, ht⟩
        exact ⟨_, ht, hvoid, rfl⟩

end

theorem decides_checkLoopBody {P : Prop} {Q : Stmt × Env → Prop} (kind : LoopKind) (body : Stmt)
    {step : Check (Stmt × Env)} (h : step.Decides P Q) :
    (c.checkLoopBody kind body step).Decides P fun _ => True := by
  have hrest : (step.releasing >>= fun r => Check.setReturns false >>= fun _ => pure r.1).Decides P
      fun _ => True :=
    ((Decides.releasing h).bind fun _ _ => (decides_setReturns false).then fun _ _ =>
      decides_pure trivial).congr (by simp)
  unfold checkLoopBody
  split
  · exact ((decides_note c _ _).bind fun _ _ => hrest).congr (by simp [Problem.warning?])
  · exact hrest

theorem decides_checkReach {s : Stmt} (h : s.Whole) (r : Reach) :
    (c.checkReach r s).Decides True fun _ => True := by
  unfold checkReach
  split
  · cases h
  · exact (decides_note c _ _).congr (by simp [Problem.warning?])
  · exact decides_pure trivial

theorem isAbsent_iff : e.isAbsent = true ↔ ¬ e ≠ .absent := by
  cases e <;> simp [Expr.isAbsent]

theorem isAbsent_iff' {s : Stmt} : s.isAbsent = true ↔ ¬ s ≠ .absent := by
  cases s <;> simp [Stmt.isAbsent]

theorem decides_optional {α β : Type} {A P C : Prop} {Q : α → Prop} {R : β → Prop} {b : Bool}
    (hb : b = true ↔ ¬ A) {a : β} {x : Check β} {f : β → Check α} (ha : ¬ A → R a)
    (hx : A → x.Decides P R) (hf : ∀ r, R r → (f r).Decides C Q) :
    (if b then pure a >>= f else x >>= f).Decides ((A → P) ∧ C) Q := by
  by_cases hA : A
  · rw [if_neg (fun h => hb.1 h hA)]
    exact ((hx hA).bind hf).congr (by simp [hA])
  · rw [if_pos (hb.2 hA)]
    exact ((decides_pure (ha hA)).then hf).congr (by simp [hA])

/-! ## Statements -/

theorem decides_checkStmts {f : Function} {inLoop : Bool} {scope : Nat} {stmts : List Stmt}
    (hwhole : ∀ s ∈ stmts, s.Whole)
    (h : ∀ s ∈ stmts, ∀ env (Γ : Scopes), env.Shows Γ → Γ.outer = scope →
      (c.checkStmt f inLoop scope env s).Decides
        (Stmt.WellFormed c.settings.wordSize p f.result inLoop Γ s) fun r => r.2.Shows (Γ.after s)) :
    ∀ env (Γ : Scopes) reach, env.Shows Γ → Γ.outer = scope →
      (c.checkStmts f inLoop scope env reach stmts).Decides
        (Stmt.WellFormedAll c.settings.wordSize p f.result inLoop Γ stmts) fun _ => True := by
  induction stmts with
  | nil =>
    intro env Γ reach _ _
    exact (decides_pure trivial).congr (by simp [Stmt.WellFormedAll.nil])
  | cons s stmts ih =>
    intro env Γ reach hΓ houter
    rw [checkStmts]
    refine (decides_checkReach (hwhole s (by simp)) reach).then fun _ _ => ?_
    rw [Stmt.wellFormedAll_cons]
    refine (h s (by simp) env Γ hΓ houter).bind fun r hr => ?_
    exact (ih (fun q hq => hwhole q (by simp [hq])) (fun q hq => h q (by simp [hq])) r.2 _ _ hr
      (by simpa using houter)).last fun _ _ => decides_pure trivial

/-- Checking a statement reports no error exactly if the statement is well-formed. -/
theorem decides_checkStmt (hc : c.Knows p) {f : Function} {s : Stmt} (h : s.Whole) :
    ∀ (inLoop : Bool) (env : Env) (Γ : Scopes), env.Shows Γ →
      (c.checkStmt f inLoop Γ.outer env s).Decides
        (Stmt.WellFormed c.settings.wordSize p f.result inLoop Γ s)
        fun r => r.2.Shows (Γ.after s) := by
  -- on the tree, with the scopes of the rules beside the environment of the checker
  induction h with
  | @block pos stmts hwhole ih =>
    intro inLoop env Γ hΓ
    rw [checkStmt, Stmt.wellFormed_block]
    refine (Decides.releasing (decides_checkStmts hwhole ?_ env ([] :: Γ) .reachable hΓ.open
      (Scopes.outer_open hΓ))).last fun _ _ => decides_pure hΓ
    rintro s hs env' Γ' hΓ' houter
    exact houter ▸ ih s hs inLoop env' Γ' hΓ'
  | empty pos => exact fun inLoop env Γ hΓ => (decides_pure hΓ).congr (by simp [Stmt.WellFormed.empty])
  | @expr pos e he =>
    intro inLoop env Γ hΓ
    rw [checkStmt, Stmt.wellFormed_expr]
    exact (decides_checkExprStmt hc hΓ he pos).last fun _ _ => decides_pure hΓ
  | @locals pos type vars hvars =>
    intro inLoop env Γ hΓ
    rw [checkStmt, Stmt.wellFormed_locals]
    exact (decides_unless rfl ((decides_checkLocals hc type hΓ hvars).last fun r hr =>
      decides_pure hr)).congr (by simp)
  | @cond pos test yes no htest _ _ ihyes ihno =>
    intro inLoop env Γ hΓ
    rw [checkStmt, Stmt.wellFormed_cond]
    refine (decides_checkTest hc hΓ htest _).bind fun _ _ => ?_
    refine (decides_setReturns false).then fun _ _ => (ihyes inLoop env Γ hΓ).bind fun _ _ => ?_
    refine decides_getReturns.then fun _ _ => (decides_setReturns false).then fun _ _ => ?_
    refine Decides.congr (decides_optional (R := fun _ => True) (C := True) isAbsent_iff'
      (fun _ => trivial) (fun hne => (ihno hne inLoop env Γ hΓ).mono fun _ _ => trivial) ?_) ?_
    · exact fun _ _ => decides_getReturns.then fun _ _ => (decides_setReturns _).then fun _ _ =>
        decides_pure hΓ
    · simp
  | @whileLoop pos test body htest _ ih =>
    intro inLoop env Γ hΓ
    rw [checkStmt, Stmt.wellFormed_whileLoop]
    refine (decides_checkTest hc hΓ htest _).bind fun _ _ => ?_
    exact (decides_checkLoopBody _ body (ih true env Γ hΓ)).last fun _ _ => decides_pure hΓ
  | @forLoop pos init test step body _ htest hstep _ ihinit ihbody =>
    intro inLoop env Γ hΓ
    rw [checkStmt, Stmt.wellFormed_forLoop]
    have houter := Scopes.outer_open hΓ
    refine Decides.releasing (decides_optional
      (R := fun r => r.2.Shows (Scopes.after ([] :: Γ) init)) isAbsent_iff' ?_ ?_ ?_)
    · intro habs
      cases Classical.not_not.1 habs
      exact hΓ
    · exact fun hne => houter ▸ ihinit hne inLoop env _ hΓ.open
    · rintro ⟨init', inner⟩ hinner
      refine decides_optional (R := fun _ => True) isAbsent_iff (fun _ => trivial)
        (fun hne => decides_checkTest hc hinner (htest hne) _) fun _ _ => ?_
      refine decides_optional (R := fun _ => True) isAbsent_iff (fun _ => trivial)
        (fun hne => decides_checkStep hc hinner (hstep hne)) fun _ _ => ?_
      have hbody := ihbody true inner _ hinner
      rw [Scopes.outer_after, houter] at hbody
      exact (decides_checkLoopBody _ body hbody).last fun _ _ => decides_pure hΓ
  | breakLoop pos =>
    intro inLoop env Γ hΓ
    rw [checkStmt, Stmt.wellFormed_breakLoop]
    refine Decides.congr (decides_unless rfl ((decides_setReturns false).then fun _ _ =>
      decides_pure hΓ)) ?_
    simp
  | continueLoop pos =>
    intro inLoop env Γ hΓ
    rw [checkStmt, Stmt.wellFormed_continueLoop]
    refine Decides.congr (decides_unless rfl ((decides_setReturns false).then fun _ _ =>
      decides_pure hΓ)) ?_
    simp
  | @ret pos e he =>
    intro inLoop env Γ hΓ
    rw [checkStmt, Stmt.wellFormed_ret]
    exact (decides_checkReturn hc hΓ he f pos).last fun _ _ =>
      (decides_setReturns true).then fun _ _ => decides_pure hΓ

/-! ## Functions -/

theorem shows_bindParams (s : Settings) : ∀ (ps : List Param) (i : Nat) (before : List String)
    (env : Env), (bindParams s i before env ps).2.1.map (fun b => (b.name, b.type)) =
      (ps.map fun q => (q.name, q.type)).reverse ++ env.map (fun b => (b.name, b.type)) := by
  intro ps
  induction ps with
  | nil => exact fun _ _ _ => rfl
  | cons q ps ih =>
    intro i before env
    rw [bindParams]
    simp [ih]

theorem noErrors_bindParams (s : Settings) : ∀ (ps : List Param) (i : Nat) (before : List String)
    (env : Env), NoErrors (bindParams s i before env ps).2.2 ↔
      (∀ q ∈ ps, q.type.isValue = true) ∧ (ps.map Param.name).Nodup ∧
        ∀ q ∈ ps, q.name ∉ before := by
  intro ps
  induction ps with
  | nil => simp [bindParams]
  | cons q ps ih =>
    intro i before env
    have hvoid : NoErrors (if q.type.isValue then [] else s.note q.pos (.voidParam q.name)) ↔
        q.type.isValue = true := by
      cases q.type.isValue <;> simp [Settings.noErrors_note, Problem.warning?]
    have htwice : NoErrors (if before.contains q.name then
        s.note q.pos (.duplicateParam q.name) else []) ↔ q.name ∉ before := by
      by_cases h : q.name ∈ before <;> simp [Settings.noErrors_note, Problem.warning?, h]
    rw [bindParams]
    simp only [noErrors_append, hvoid, htwice, ih, List.map_cons, List.nodup_cons, List.mem_map,
      List.mem_cons]
    grind

/-- Checking a function reports no error exactly if its parameters and its body obey the rules. -/
theorem noErrors_checkFunction (hc : c.Knows p) {f : Function} {b : Body} (hb : f.body = some b)
    (hwhole : ∀ s ∈ b.stmts, s.Whole) :
    NoErrors (c.checkFunction f).reports ↔ f.WellFormed c.settings.wordSize p b := by
  have hΓ : (bindParams c.settings 0 [] [] f.params).2.1.Shows [f.scope] := by
    simp [Env.Shows, shows_bindParams, Function.scope]
  obtain ⟨hfault, -, hbody⟩ := decides_checkStmts (f := f) hwhole
    (fun s hs env Γ hΓ houter => houter ▸ decides_checkStmt hc (hwhole s hs) false env Γ hΓ)
    _ ([] :: [f.scope]) .reachable hΓ.open (Scopes.outer_open hΓ) {} rfl
  have hflag := flags_checkStmts (c := c) f false
    (bindParams c.settings 0 [] [] f.params).2.1.length (bindParams c.settings 0 [] [] f.params).2.1
    .reachable b.stmts {}
  have hparams := noErrors_bindParams c.settings f.params 0 [] []
  unfold checkFunction
  rw [hb]
  simp only [hfault, hflag, noErrors_append, hbody, hparams]
  have hopen : NoErrors (if (!Stmt.returnsAfterAll false b.stmts && f.result != .void) = true
      then c.settings.note f.pos (.noReturn f.name) else []) ↔
      (f.result ≠ .void → Stmt.returnsAfterAll false b.stmts = true) := by
    cases Stmt.returnsAfterAll false b.stmts <;>
      by_cases hvoid : f.result = .void <;> simp [Settings.noErrors_note, Problem.warning?, hvoid]
  rw [hopen]
  constructor
  · rintro ⟨⟨⟨hvalues, hnodup, -⟩, hstmts⟩, hreturns⟩
    exact ⟨hvalues, hnodup, hstmts, hreturns⟩
  · rintro ⟨hvalues, hnodup, hstmts, hreturns⟩
    exact ⟨⟨⟨hvalues, hnodup, by simp⟩, hstmts⟩, hreturns⟩

end TypingContext

end MiniCompiler
