import MiniCompiler.Proofs.CheckExact

/-!
# What the checker writes into a tree

The rules of elaboration say what becomes of a program without errors. The rules here say what becomes
of any program: which expressions are looked up in which environment, and which place each local takes.
They have no conditions, as neither the environment nor the frame depends on what is reported.

Main statement: `Program.check_annotates`.
-/

namespace MiniCompiler

/-- A prototype is a function without a body. -/
def Function.Regular (f : Function) : Prop := f.isPrototype = f.body.isNone

theorem Program.Spelled.regular {allows : Feature → Bool} {ts : List Token} {p : Program}
    (h : Program.Spelled allows ts p) : ∀ f ∈ p, f.Regular := by
  intro f hf
  obtain ⟨_, -, hf⟩ := h.exists_function f hf
  cases hf <;> rfl

/-! ## Rules -/

/-- The variables of a declaration. -/
inductive Local.AnnotatesAll (c : TypingContext) (type : Ty) :
    Env → Frame → List Local → List Local → Env → Frame → Prop where
  | nil {env : Env} {fr : Frame} : AnnotatesAll c type env fr [] [] env fr
  | cons {env env' : Env} {fr fr' : Frame} {v : Local} {vars vars' : List Local} {b : Binding} :
    b = ⟨v.name, type, fr.push.offset c.settings.wordSize, false⟩ →
    AnnotatesAll c type (b :: env) fr.push vars vars' env' fr' →
    AnnotatesAll c type env fr (v :: vars)
      ({ v with init := (c.infer env v.init).expr, binding := some b } :: vars') env' fr'

mutual

/-- The tree that the checker makes of a statement. The environment and the frame go in and come
    out. -/
inductive Stmt.Annotates (c : TypingContext) :
    Env → Frame → Stmt → Stmt → Env → Frame → Prop where
  | absent {env : Env} {fr : Frame} : Annotates c env fr .absent .absent env fr
  | block {env env' : Env} {fr fr' : Frame} {p : Pos} {stmts stmts' : List Stmt} :
    Stmt.AnnotatesAll c env fr stmts stmts' env' fr' →
    Annotates c env fr (.block p stmts) (.block p stmts') env (fr'.release fr.live)
  | empty {env : Env} {fr : Frame} (p : Pos) : Annotates c env fr (.empty p) (.empty p) env fr
  | expr {env : Env} {fr : Frame} {p : Pos} {e : Expr} :
    Annotates c env fr (.expr p e) (.expr p (c.inferStatement env e).expr) env fr
  | locals {env env' : Env} {fr fr' : Frame} {p : Pos} {type : Ty} {vars vars' : List Local} :
    Local.AnnotatesAll c type env fr vars vars' env' fr' →
    Annotates c env fr (.locals p type vars) (.locals p type vars') env' fr'
  | cond {env env₁ env₂ : Env} {fr fr₁ fr₂ : Frame} {p : Pos} {test : Expr}
      {yes yes' no no' : Stmt} :
    Annotates c env fr yes yes' env₁ fr₁ → Annotates c env fr₁ no no' env₂ fr₂ →
    Annotates c env fr (.cond p test yes no) (.cond p (c.infer env test).expr yes' no') env fr₂
  | whileLoop {env env' : Env} {fr fr' : Frame} {p : Pos} {test : Expr} {body body' : Stmt} :
    Annotates c env fr body body' env' fr' →
    Annotates c env fr (.whileLoop p test body) (.whileLoop p (c.infer env test).expr body') env
      (fr'.release fr.live)
  | forLoop {env env₁ env₂ : Env} {fr fr₁ fr₂ : Frame} {p : Pos} {init init' : Stmt}
      {test step : Expr} {body body' : Stmt} :
    Annotates c env fr init init' env₁ fr₁ → Annotates c env₁ fr₁ body body' env₂ fr₂ →
    Annotates c env fr (.forLoop p init test step body)
      (.forLoop p init' (c.infer env₁ test).expr (c.infer env₁ step).expr body') env
      (fr₂.release fr.live)
  | breakLoop {env : Env} {fr : Frame} (p : Pos) :
    Annotates c env fr (.breakLoop p) (.breakLoop p) env fr
  | continueLoop {env : Env} {fr : Frame} (p : Pos) :
    Annotates c env fr (.continueLoop p) (.continueLoop p) env fr
  | ret {env : Env} {fr : Frame} {p : Pos} {e : Expr} :
    Annotates c env fr (.ret p e) (.ret p (c.infer env e).expr) env fr

/-- Statements one after the other. -/
inductive Stmt.AnnotatesAll (c : TypingContext) :
    Env → Frame → List Stmt → List Stmt → Env → Frame → Prop where
  | nil {env : Env} {fr : Frame} : AnnotatesAll c env fr [] [] env fr
  | cons {env env₁ env₂ : Env} {fr fr₁ fr₂ : Frame} {s s' : Stmt} {stmts stmts' : List Stmt} :
    Stmt.Annotates c env fr s s' env₁ fr₁ → AnnotatesAll c env₁ fr₁ stmts stmts' env₂ fr₂ →
    AnnotatesAll c env fr (s :: stmts) (s' :: stmts') env₂ fr₂

end

/-- The function that the checker makes of a function. A prototype stays as it is. -/
inductive Function.Annotates (c : TypingContext) : Function → Function → Prop where
  | prototype {f : Function} : f.isPrototype = true → Annotates c f f
  | definition {f : Function} {b : Body} {params : List Param} {env env' : Env}
      {reports : List Report} {stmts : List Stmt} {fr : Frame} :
    f.isPrototype = false → f.body = some b →
    bindParams c.settings 0 [] [] f.params = (params, env, reports) →
    Stmt.AnnotatesAll c env {} b.stmts stmts env' fr →
    Annotates c f { f with
      params
      body := some { b with stmts }
      frameBytes := fr.bytes c.settings.wordSize
      returns := Stmt.returnsAfterAll false b.stmts }

/-- The flag that is recorded is computed from the body. -/
theorem Function.Annotates.returns_eq {c : TypingContext} {f f' : Function}
    (h : Function.Annotates c f f') (hf : f.Regular) {b : Body} (hb : f.body = some b) :
    f'.returns = Stmt.returnsAfterAll false b.stmts := by
  cases h with
  | prototype hproto =>
    rw [hf, hb] at hproto
    cases hproto
  | definition _ hb' =>
    cases hb.symm.trans hb'
    rfl

/-! ## Steps of checking -/

/-- A step that does not fault, and that relates the frame before it, its value and the frame after
    it by `P`, whatever it reports. -/
def Check.Lays {α : Type} (x : Check α) (P : Frame → α → Frame → Prop) : Prop :=
  ∀ st : CheckState, st.fault = none →
    (x st).state.fault = none ∧ P st.frame (x st).value (x st).state.frame

/-- A step that does not change the frame. -/
def Check.Stays {α : Type} (x : Check α) (P : α → Prop) : Prop :=
  x.Lays fun fr a fr' => fr' = fr ∧ P a

/-- A step that returns `a` and leaves the state as it is, with reports that do not depend on it. -/
def Check.Leaves {α : Type} (x : Check α) (a : α) : Prop :=
  ∃ rs, ∀ st : CheckState, st.fault = none → x st = ⟨a, rs, st⟩

namespace Check

variable {α β : Type} {P : Frame → α → Frame → Prop} {f : β → Check α} {x : Check β} {b : Prop}

theorem lays_pure {a : α} (h : ∀ fr, P fr a fr) : (pure a : Check α).Lays P :=
  fun st hst => ⟨hst, h st.frame⟩

theorem Lays.mono {x : Check α} {Q : Frame → α → Frame → Prop} (hx : x.Lays Q)
    (h : ∀ fr a fr', Q fr a fr' → P fr a fr') : x.Lays P :=
  fun st hst => ⟨(hx st hst).1, h _ _ _ (hx st hst).2⟩

/-- Of the second step it is shown that it reaches `P` from any frame that the first step can be
    entered with. -/
theorem Lays.bind {Q : Frame → β → Frame → Prop}
    (hx : x.Lays Q) (hf : ∀ b, (f b).Lays fun fr a fr' => ∀ fr₀, Q fr₀ b fr → P fr₀ a fr') :
    (x >>= f).Lays P := by
  intro st hst
  have ⟨hfault, hQ⟩ := hx st hst
  have ⟨hfault', hP⟩ := hf (x st).value (x st).state hfault
  exact ⟨hfault', hP st.frame hQ⟩

theorem Stays.bind {Q : β → Prop} (hx : x.Stays Q)
    (hf : ∀ b, Q b → (f b).Lays P) : (x >>= f).Lays P := by
  intro st hst
  have ⟨hfault, hframe, hQ⟩ := hx st hst
  have ⟨hfault', hP⟩ := hf _ hQ (x st).state hfault
  exact ⟨hfault', hframe ▸ hP⟩

theorem Lays.ite [Decidable b] {x y : Check α} (hx : b → x.Lays P)
    (hy : ¬ b → y.Lays P) : (if b then x else y).Lays P := by
  by_cases hb : b
  · rw [if_pos hb]
    exact hx hb
  · rw [if_neg hb]
    exact hy hb

theorem lays_optional {b : Bool} {a : β}
    {Q : Frame → β → Frame → Prop} (ha : b = true → ∀ fr, Q fr a fr) (hx : b = false → x.Lays Q)
    (hf : ∀ b, (f b).Lays fun fr a fr' => ∀ fr₀, Q fr₀ b fr → P fr₀ a fr') :
    (if b then pure a >>= f else x >>= f).Lays P := by
  cases b with
  | true => exact Lays.bind (lays_pure (ha rfl)) hf
  | false => exact Lays.bind (hx rfl) hf

theorem Stays.ite_bind [Decidable b] {x y : Check β} {Q : β → Prop}
    (h : (if b then x else y).Stays Q) (hf : ∀ b, Q b → (f b).Lays P) :
    (if b then x >>= f else y >>= f).Lays P := by
  have heq : (if b then x >>= f else y >>= f) = (if b then x else y) >>= f := by
    by_cases hb : b <;> simp [hb]
  rw [heq]
  exact h.bind hf

theorem Lays.unlessFault {x : Check α} (hx : x.Lays P) (a : α) :
    (Check.unlessFault a x).Lays P := by
  intro st hst
  rw [Check.unlessFault, if_neg (by simp [hst])]
  exact hx st hst

theorem Lays.releasing {x : Check α} (hx : x.Lays P) :
    x.releasing.Lays fun fr a fr' => ∃ fr₁, P fr a fr₁ ∧ fr' = fr₁.release fr.live :=
  fun st hst => ⟨(hx st hst).1, _, (hx st hst).2, rfl⟩

theorem stays_setReturns (b : Bool) : (setReturns b).Stays fun _ => True :=
  fun _ hst => ⟨hst, rfl, trivial⟩

theorem stays_getReturns : getReturns.Stays fun _ => True :=
  fun _ hst => ⟨hst, rfl, trivial⟩

theorem lays_newLocal (wordSize : Int) :
    (newLocal wordSize).Lays fun fr offset fr' => fr' = fr.push ∧ offset = fr'.offset wordSize :=
  fun _ hst => ⟨hst, rfl, rfl⟩

theorem Leaves.stays {x : Check α} {a : α} (h : x.Leaves a) : x.Stays fun b => b = a := by
  obtain ⟨rs, hx⟩ := h
  intro st hst
  rw [hx st hst]
  exact ⟨hst, rfl, rfl⟩

theorem leaves_pure (a : α) : (pure a : Check α).Leaves a := ⟨[], fun _ _ => rfl⟩

theorem Leaves.bind {a : α} {b : β} (hx : x.Leaves b)
    (hf : (f b).Leaves a) : (x >>= f).Leaves a := by
  obtain ⟨rs, hx⟩ := hx
  obtain ⟨rs', hf⟩ := hf
  refine ⟨rs ++ rs', fun st hst => ?_⟩
  change Check.bind x f st = _
  rw [Check.bind, hx st hst, hf st hst]

theorem leaves_report (rs : List Report) : (report rs).Leaves () :=
  ⟨rs, fun st hst => by simp [report, Check.unlessFault, hst]⟩

theorem leaves_ofInference {i : Inference} (hi : ∀ h, i.verdict = .error h → h.IsError)
    (before : Expr) : ∃ t, (ofInference before i).Leaves (i.expr, t) := by
  cases hverdict : i.verdict with
  | ok t => exact ⟨some t, _, fun st hst => ofInference_ok hverdict before hst⟩
  | error h =>
    cases h with
    | fault f => exact (hi _ hverdict).elim
    | refused r => exact ⟨none, _, fun st hst => ofInference_refused hverdict before hst⟩

end Check

namespace TypingContext

open Check

variable {c : TypingContext} {env : Env} {e : Expr}

/-! ## Parts of statements -/

theorem leaves_note (c : TypingContext) (pos : Pos) (q : Problem) : (c.note pos q).Leaves () :=
  leaves_report _

theorem lays_noted {α : Type} {P : Frame → α → Frame → Prop} [Decidable b] {pos : Pos}
    {q : Problem} {x : Check α} (hx : x.Lays P) :
    (if b then (c.note pos q >>= fun _ => x) else x).Lays P :=
  .ite (fun _ => (leaves_note c pos q).stays.bind fun _ _ => hx) fun _ => hx

theorem leaves_noted {α : Type} {a : α} [Decidable b] {pos : Pos} {q : Problem}
    {x : Check α} (hx : x.Leaves a) :
    (if b then (c.note pos q >>= fun _ => x) else x).Leaves a := by
  split
  · exact (leaves_note c _ _).bind hx
  · exact hx

theorem leaves_checkExpr (env : Env) (h : e.Whole) :
    ∃ t, (c.checkExpr env e).Leaves ((c.infer env e).expr, t) :=
  leaves_ofInference (infer_yields h).isError e

theorem leaves_checkTest (h : e.Whole) (kind : TestKind) :
    (c.checkTest env kind e).Leaves (c.infer env e).expr := by
  obtain ⟨t, ht⟩ := leaves_checkExpr (c := c) env h
  refine ht.bind ?_
  dsimp only
  split
  · exact leaves_pure _
  · exact leaves_pure _
  · exact (leaves_note c _ _).bind (leaves_pure _)

theorem leaves_checkStep (h : e.Whole) :
    (Prod.fst <$> c.checkExpr env e).Leaves (c.infer env e).expr := by
  obtain ⟨t, ht⟩ := leaves_checkExpr (c := c) env h
  exact ht.bind (leaves_pure _)

theorem leaves_checkExprStmt (h : e.Whole) (pos : Pos) :
    (c.checkExprStmt env pos e).Leaves (c.inferStatement env e).expr := by
  have herror : ∀ h, (c.inferStatement env e).verdict = .error h → h.IsError :=
    (inferStatement_yields h).isError
  obtain ⟨t, ht⟩ := leaves_ofInference herror e
  refine ht.bind ?_
  dsimp only
  split
  · exact leaves_pure _
  · exact leaves_pure _
  · exact leaves_pure _
  · exact (leaves_note c _ _).bind (leaves_pure _)

theorem leaves_orAbsent {x : Check Expr} (hx : e ≠ .absent → x.Leaves (c.infer env e).expr) :
    (if e.isAbsent then pure e else x).Leaves (c.infer env e).expr := by
  cases e with
  | absent => exact leaves_pure _
  | _ => exact hx nofun

theorem leaves_checkInit (h : e ≠ .absent → e.Whole) (type : Ty) (name : String) :
    (c.checkInit env type name e).Leaves (c.infer env e).expr := by
  refine leaves_orAbsent fun hne => ?_
  obtain ⟨t, ht⟩ := leaves_checkExpr (c := c) env (h hne)
  refine ht.bind ?_
  cases t with
  | none => exact leaves_pure _
  | some t => exact leaves_noted (leaves_pure _)

/-- The variables of a declaration take places one after the other. -/
theorem lays_checkLocals (scope : Nat) (type : Ty) : ∀ {vars : List Local} {env : Env},
    (∀ v ∈ vars, v.init ≠ .absent → v.init.Whole) →
    (c.checkLocals scope type env vars).Lays fun fr r fr' =>
      Local.AnnotatesAll c type env fr vars r.1 r.2 fr' := by
  intro vars
  induction vars with
  | nil => exact fun {env} _ => lays_pure fun _ => .nil
  | cons v vars ih =>
    intro env hvars
    -- a name that is bound already is only reported: the variable takes its place all the same
    have hrest : ∀ otherwise, (Check.unlessFault otherwise
        (Check.newLocal c.settings.wordSize >>= fun offset =>
          c.checkLocals scope type (⟨v.name, type, offset, false⟩ :: env) vars >>= fun r =>
            pure ({ v with
                init := (c.infer env v.init).expr
                binding := some ⟨v.name, type, offset, false⟩ } :: r.1, r.2))).Lays
        fun fr r fr' => Local.AnnotatesAll c type env fr (v :: vars) r.1 r.2 fr' := by
      intro otherwise
      refine Lays.unlessFault (Lays.bind (lays_newLocal _) fun offset => ?_) _
      refine Lays.bind (ih fun w hw => hvars w (by simp [hw])) ?_
      rintro ⟨rest, env'⟩
      refine lays_pure ?_
      rintro fr fr₁ hall fr₀ ⟨rfl, rfl⟩
      exact .cons rfl hall
    rw [checkLocals]
    refine (leaves_checkInit (hvars v (by simp)) type v.name).stays.bind ?_
    rintro init rfl
    refine .ite (fun _ => ?_) fun _ => lays_noted (hrest _)
    exact (leaves_note c _ _).stays.bind fun _ _ => hrest _

theorem leaves_checkReturn (h : e ≠ .absent → e.Whole) (f : Function) (pos : Pos) :
    (c.checkReturn f env pos e).Leaves (c.infer env e).expr := by
  unfold checkReturn
  cases habs : e.isAbsent with
  | true =>
    cases e with
    | absent => exact leaves_noted (leaves_pure _)
    | _ => cases habs
  | false =>
    have hne : e ≠ .absent := by
      rintro rfl
      cases habs
    obtain ⟨t, ht⟩ := leaves_checkExpr (c := c) env (h hne)
    refine ht.bind ?_
    cases t with
    | none => exact leaves_pure _
    | some t =>
      dsimp only
      split
      · exact (leaves_note c _ _).bind (leaves_pure _)
      · exact leaves_noted (leaves_pure _)

theorem lays_checkLoopBody {P : Frame → Stmt × Env → Frame → Prop} (kind : LoopKind) (body : Stmt)
    {step : Check (Stmt × Env)} (h : step.Lays P) :
    (c.checkLoopBody kind body step).Lays fun fr body' fr' => ∃ env' fr₁,
      P fr (body', env') fr₁ ∧ fr' = fr₁.release fr.live := by
  have hrest : (step.releasing >>= fun r => Check.setReturns false >>= fun _ => pure r.1).Lays
      fun fr body' fr' => ∃ env' fr₁, P fr (body', env') fr₁ ∧ fr' = fr₁.release fr.live := by
    refine Lays.bind (Lays.releasing h) ?_
    rintro ⟨body', env'⟩
    refine (stays_setReturns false).bind fun _ _ => lays_pure ?_
    rintro fr fr₀ ⟨fr₁, hP, rfl⟩
    exact ⟨env', fr₁, hP, rfl⟩
  unfold checkLoopBody
  split
  · exact (leaves_note c _ _).stays.bind fun _ _ => hrest
  · exact hrest

theorem leaves_checkReach {s : Stmt} (h : s.Whole) (r : Reach) :
    (c.checkReach r s).Leaves () := by
  unfold checkReach
  split
  · cases h
  · exact leaves_note c _ _
  · exact leaves_pure ()

/-! ## Statements -/

theorem lays_checkStmts {f : Function} {inLoop : Bool} (scope : Nat) {stmts : List Stmt}
    (hwhole : ∀ s ∈ stmts, s.Whole)
    (h : ∀ s ∈ stmts, ∀ env, (c.checkStmt f inLoop scope env s).Lays fun fr r fr' =>
      Stmt.Annotates c env fr s r.1 r.2 fr') :
    ∀ env reach, (c.checkStmts f inLoop scope env reach stmts).Lays fun fr stmts' fr' =>
      ∃ env', Stmt.AnnotatesAll c env fr stmts stmts' env' fr' := by
  induction stmts with
  | nil => exact fun env reach => lays_pure fun _ => ⟨env, .nil⟩
  | cons s stmts ih =>
    intro env reach
    rw [checkStmts]
    refine (leaves_checkReach (hwhole s (by simp)) reach).stays.bind fun _ _ => ?_
    refine Lays.bind (h s (by simp) env) ?_
    rintro ⟨s', env₁⟩
    refine Lays.bind (ih (fun q hq => hwhole q (by simp [hq])) (fun q hq => h q (by simp [hq]))
      env₁ _) fun stmts' => lays_pure ?_
    rintro fr fr₁ ⟨env', hall⟩ fr₀ hs
    exact ⟨env', .cons hs hall⟩

/-- A statement without gaps becomes what the rules make of it. -/
theorem lays_checkStmt {f : Function} {s : Stmt} (h : s.Whole) :
    ∀ (inLoop : Bool) (scope : Nat) (env : Env),
      (c.checkStmt f inLoop scope env s).Lays fun fr r fr' =>
        Stmt.Annotates c env fr s r.1 r.2 fr' := by
  induction h with
  | block hwhole ih =>
    intro inLoop scope env
    rw [checkStmt]
    refine Lays.bind (Lays.releasing (lays_checkStmts env.length hwhole
      (fun s hs env' => ih s hs inLoop env.length env') env .reachable)) fun stmts' => lays_pure ?_
    rintro fr fr₀ ⟨fr₁, ⟨env', hall⟩, rfl⟩
    exact .block hall
  | empty p => exact fun _ _ _ => lays_pure fun _ => .empty p
  | @expr p e he =>
    intro inLoop scope env
    rw [checkStmt]
    refine (leaves_checkExprStmt he p).stays.bind ?_
    rintro e' rfl
    exact lays_pure fun _ => .expr
  | @locals p type vars hvars =>
    intro inLoop scope env
    rw [checkStmt]
    refine lays_noted (Lays.bind (lays_checkLocals scope type hvars) ?_)
    rintro ⟨vars', env'⟩
    exact lays_pure fun _ _ hall => .locals hall
  | @cond p test yes no htest _ _ ihyes ihno =>
    intro inLoop scope env
    rw [checkStmt]
    refine (leaves_checkTest htest _).stays.bind ?_
    rintro test' rfl
    refine (stays_setReturns false).bind fun _ _ => Lays.bind (ihyes inLoop scope env) ?_
    rintro ⟨yes', env₁⟩
    refine stays_getReturns.bind fun _ _ => (stays_setReturns false).bind fun _ _ => ?_
    refine lays_optional (Q := fun fr r fr' => Stmt.Annotates c env fr no r.1 r.2 fr') ?_ ?_ ?_
    · intro habs fr
      cases no <;> cases habs
      exact .absent
    · intro habs
      refine ihno ?_ inLoop scope env
      rintro rfl
      cases habs
    · rintro ⟨no', env₂⟩
      refine stays_getReturns.bind fun _ _ => (stays_setReturns _).bind fun _ _ => lays_pure ?_
      exact fun fr fr₁ hno fr₀ hyes => .cond hyes hno
  | @whileLoop p test body htest _ ih =>
    intro inLoop scope env
    rw [checkStmt]
    refine (leaves_checkTest htest _).stays.bind ?_
    rintro test' rfl
    refine Lays.bind (lays_checkLoopBody _ body (ih true scope env)) fun body' => lays_pure ?_
    rintro fr fr₀ ⟨env', fr₁, hbody, rfl⟩
    exact .whileLoop hbody
  | @forLoop p init test step body _ htest hstep _ ihinit ihbody =>
    intro inLoop scope env
    rw [checkStmt]
    refine Lays.mono (Lays.releasing (P := fun fr r fr₁ => Stmt.Annotates c env fr
      (.forLoop p init test step body) r.1 r.2 (fr₁.release fr.live)) ?_) ?_
    · refine lays_optional (Q := fun fr r fr' => Stmt.Annotates c env fr init r.1 r.2 fr') ?_ ?_ ?_
      · intro habs fr
        cases init <;> cases habs
        exact .absent
      · intro habs
        refine ihinit ?_ inLoop env.length env
        rintro rfl
        cases habs
      · rintro ⟨init', inner⟩
        refine Stays.ite_bind (leaves_orAbsent fun hne => leaves_checkTest (htest hne) _).stays ?_
        rintro test' rfl
        refine Stays.ite_bind (leaves_orAbsent fun hne => leaves_checkStep (hstep hne)).stays ?_
        rintro step' rfl
        refine Lays.bind (lays_checkLoopBody _ body (ihbody true env.length inner)) fun body' =>
          lays_pure ?_
        rintro fr fr₁ ⟨env₂, fr₂, hbody, rfl⟩ fr₀ hinit
        rw [Frame.release_release]
        exact .forLoop hinit hbody
    · rintro fr r _ ⟨fr₁, h, rfl⟩
      exact h
  | breakLoop p =>
    intro inLoop scope env
    rw [checkStmt]
    exact lays_noted ((stays_setReturns false).bind fun _ _ => lays_pure fun _ => .breakLoop p)
  | continueLoop p =>
    intro inLoop scope env
    rw [checkStmt]
    exact lays_noted ((stays_setReturns false).bind fun _ _ => lays_pure fun _ => .continueLoop p)
  | @ret p e he =>
    intro inLoop scope env
    rw [checkStmt]
    refine (leaves_checkReturn he f p).stays.bind ?_
    rintro e' rfl
    exact (stays_setReturns true).bind fun _ _ => lays_pure fun _ => .ret

/-! ## Functions and programs -/

theorem checkFunction_annotates {f : Function} (h : f.Whole) (hdef : f.isPrototype = false) :
    Function.Annotates c f (c.checkFunction f).function := by
  obtain hproto | ⟨b, hbody, hwhole⟩ := h
  · simp [hdef] at hproto
  unfold checkFunction
  rw [hbody]
  generalize hparams : bindParams c.settings 0 [] [] f.params = bound
  obtain ⟨params, env, reports⟩ := bound
  have hflag := flags_checkStmts (c := c) f false env.length env .reachable b.stmts {}
  obtain ⟨hfault, env', hall⟩ := lays_checkStmts (c := c) (f := f) env.length
    hwhole (fun s hs env' => lays_checkStmt (hwhole s hs) false _ env') env .reachable {} rfl
  simp only [hfault, hflag]
  exact .definition hdef hbody hparams hall

theorem checkFunctions_annotates {fs : List Function} (h : ∀ f ∈ fs, f.Whole) :
    List.Forall₂ (Function.Annotates c) fs (c.checkFunctions fs).program := by
  induction fs with
  | nil => exact .nil
  | cons f fs ih =>
    have hrest := ih fun g hg => h g (by simp [hg])
    rw [checkFunctions]
    by_cases hproto : f.isPrototype = true
    · rw [if_pos hproto]
      exact .cons (.prototype hproto) hrest
    · rw [if_neg hproto]
      have hdef : f.isPrototype = false := by simpa using hproto
      obtain ⟨hfault, -⟩ := checkFunction_elaborates (c := c) (h f (by simp)) hdef
      simp only [hfault]
      exact .cons (checkFunction_annotates (h f (by simp)) hdef) hrest

end TypingContext

/-- Every function of a program without gaps becomes what the rules make of it. -/
theorem Program.check_annotates {s : Settings} {p : Program} (h : ∀ f ∈ p, f.Whole) :
    List.Forall₂ (Function.Annotates (p.declare s).1) p (p.check s).program :=
  TypingContext.checkFunctions_annotates h

end MiniCompiler
