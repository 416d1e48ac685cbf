import MiniCompiler.Proofs.FrameLayout
import MiniCompiler.Proofs.Positions
import MiniCompiler.Proofs.SeparateCompilation

/-!
# Errors stay in their statement

A program with one of its expressions left open is a function from expressions to programs. Checking
what fills the opening has no effect outside it: the reports before it and after it, the other
annotations, the places of the variables and the return flags are those of any other filling.

Main statement: `Program.check_around`.
-/

namespace MiniCompiler

variable {e : Expr}

/-! ## Openings -/

/-- The parts of statements in which expressions stand. -/
inductive Slot where
  | statement (pos : Pos)
  | initial (type : Ty) (name : String)
  | test (kind : TestKind)
  | forTest
  | forStep
  | result (pos : Pos)

/-- May `e` stand in a slot? Some may be left empty. -/
def Slot.Admits : Slot → Expr → Prop
  | .statement _, e | .test _, e => e.Whole
  | .initial _ _, e | .forTest, e | .forStep, e | .result _, e => e ≠ .absent → e.Whole

/-- `K e` is a statement in which `e` stands in the slot, directly or in a statement inside it. -/
inductive Stmt.Around : Slot → (Expr → Stmt) → Prop where
  | statement (pos : Pos) : Around (.statement pos) fun e => .expr pos e
  | initial (pos : Pos) (type : Ty) (before : List Local) (v : Local) (after : List Local) :
    Around (.initial type v.name) fun e =>
      .locals pos type (before ++ { v with init := e } :: after)
  | condTest (pos : Pos) (yes no : Stmt) : Around (.test .cond) fun e => .cond pos e yes no
  | whileTest (pos : Pos) (body : Stmt) :
    Around (.test (.loop .whileLoop)) fun e => .whileLoop pos e body
  | forTest (pos : Pos) (init : Stmt) (step : Expr) (body : Stmt) :
    Around .forTest fun e => .forLoop pos init e step body
  | forStep (pos : Pos) (init : Stmt) (test : Expr) (body : Stmt) :
    Around .forStep fun e => .forLoop pos init test e body
  | result (pos : Pos) : Around (.result pos) fun e => .ret pos e
  | block {slot : Slot} {K : Expr → Stmt} (pos : Pos) (before after : List Stmt) :
    Around slot K → Around slot fun e => .block pos (before ++ K e :: after)
  | condYes {slot : Slot} {K : Expr → Stmt} (pos : Pos) (test : Expr) (no : Stmt) :
    Around slot K → Around slot fun e => .cond pos test (K e) no
  | condNo {slot : Slot} {K : Expr → Stmt} (pos : Pos) (test : Expr) (yes : Stmt) :
    Around slot K → Around slot fun e => .cond pos test yes (K e)
  | whileBody {slot : Slot} {K : Expr → Stmt} (pos : Pos) (test : Expr) :
    Around slot K → Around slot fun e => .whileLoop pos test (K e)
  | forInit {slot : Slot} {K : Expr → Stmt} (pos : Pos) (test step : Expr) (body : Stmt) :
    Around slot K → Around slot fun e => .forLoop pos (K e) test step body
  | forBody {slot : Slot} {K : Expr → Stmt} (pos : Pos) (init : Stmt) (test step : Expr) :
    Around slot K → Around slot fun e => .forLoop pos init test step (K e)

/-- The statements of a body with an opening. -/
inductive Stmt.AroundAll (slot : Slot) : (Expr → List Stmt) → Prop where
  | mk {K : Expr → Stmt} (before after : List Stmt) :
    Stmt.Around slot K → AroundAll slot fun e => before ++ K e :: after

/-- A definition with an opening in its body. -/
inductive Function.Around (slot : Slot) : (Expr → Function) → Prop where
  | mk {stmts : Expr → List Stmt} (f : Function) (pos : Pos) :
    f.isPrototype = false → Stmt.AroundAll slot stmts →
    Around slot fun e => { f with body := some ⟨pos, stmts e⟩ }

/-- A program with an opening in one of its definitions. -/
inductive Program.Around (slot : Slot) : (Expr → Program) → Prop where
  | mk {F : Expr → Function} (before after : List Function) :
    Function.Around slot F → Around slot fun e => before ++ F e :: after

namespace Stmt.Around

variable {slot : Slot} {K : Expr → Stmt}

section

variable (hK : Stmt.Around slot K)

include hK

theorem isAbsent (e : Expr) : (K e).isAbsent = false := by
  cases hK <;> rfl

theorem ne_absent (e : Expr) : K e ≠ .absent := by
  cases hK <;> nofun

theorem ne_empty (e : Expr) (p : Pos) : K e ≠ .empty p := by
  cases hK <;> nofun

theorem after_eq (r : Reach) (e : Expr) :
    r.after (K e) = r.after (K .absent) := by
  cases hK <;> rfl

theorem checkReach_eq (c : TypingContext) (r : Reach) (e : Expr) :
    c.checkReach r (K e) = c.checkReach r (K .absent) := by
  cases r with
  | reachable | reported => rfl
  | ended => cases hK <;> rfl

/-- What fills an opening has no gaps either. -/
theorem admits (h : (K e).Whole) : slot.Admits e := by
  induction hK with
  | statement => cases h with | expr he => exact he
  | initial pos type before v after =>
    cases h with | locals hvars => exact hvars { v with init := e } (by simp)
  | condTest => cases h with | cond he => exact he
  | whileTest => cases h with | whileLoop he => exact he
  | forTest => cases h with | forLoop _ he => exact he
  | forStep => cases h with | forLoop _ _ he => exact he
  | result => cases h with | ret he => exact he
  | block _ _ _ _ ih => cases h with | block hstmts => exact ih (hstmts _ (by simp))
  | condYes _ _ _ _ ih => cases h with | cond _ hyes => exact ih hyes
  | condNo _ _ _ hK ih => cases h with | cond _ _ hno => exact ih (hno (hK.ne_absent e))
  | whileBody _ _ _ ih => cases h with | whileLoop _ hbody => exact ih hbody
  | forInit _ _ _ _ hK ih => cases h with | forLoop hinit => exact ih (hinit (hK.ne_absent e))
  | forBody _ _ _ _ _ ih => cases h with | forLoop _ _ _ hbody => exact ih hbody

end

end Stmt.Around

/-! ## What is found in an opening -/

/-- Checks an expression in its slot. -/
def TypingContext.checkAt (c : TypingContext) (f : Function) (env : Env) : Slot → Expr → Check Expr
  | .statement pos, e => c.checkExprStmt env pos e
  | .initial type name, e => c.checkInit env type name e
  | .test kind, e => c.checkTest env kind e
  | .forTest, e => if e.isAbsent then pure e else c.checkTest env (.loop .forLoop) e
  | .forStep, e => if e.isAbsent then pure e else Prod.fst <$> c.checkExpr env e
  | .result pos, e => c.checkReturn f env pos e

namespace TypingContext

open Check

variable {c : TypingContext} {f : Function} {slot : Slot}

theorem leaves_checkAt (slot : Slot) (env : Env) (h : slot.Admits e) :
    ∃ a, (c.checkAt f env slot e).Leaves a := by
  cases slot with
  | statement pos => exact ⟨_, leaves_checkExprStmt h pos⟩
  | initial type name => exact ⟨_, leaves_checkInit h type name⟩
  | test kind => exact ⟨_, leaves_checkTest h kind⟩
  | forTest => exact ⟨_, leaves_orAbsent fun hne => leaves_checkTest (h hne) _⟩
  | forStep => exact ⟨_, leaves_orAbsent fun hne => leaves_checkStep (h hne)⟩
  | result pos => exact ⟨_, leaves_checkReturn h f pos⟩

theorem lays_checkAt (slot : Slot) (env : Env) (h : slot.Admits e) :
    (c.checkAt f env slot e).Lays fun _ _ _ => True := by
  obtain ⟨a, ha⟩ := leaves_checkAt (c := c) (f := f) slot env h
  exact ha.stays.mono fun _ _ _ _ => trivial

/-- What is found in an opening does not depend on the state. -/
theorem checkAt_eq {env : Env} (h : slot.Admits e) {st : CheckState} (hst : st.fault = none) :
    c.checkAt f env slot e st =
      ⟨(c.checkAt f env slot e {}).value, (c.checkAt f env slot e {}).reports, st⟩ := by
  obtain ⟨a, rs, hx⟩ := leaves_checkAt (c := c) (f := f) slot env h
  rw [hx st hst, hx {} rfl]

end TypingContext

/-! ## Steps with an opening -/

/-- Steps that differ in what is found in the slot only. The environment there, what is reported before
    and after it, and the state in the end are the same for all `e`, and the expression that `e`
    becomes is passed on by `v`. -/
def Check.Around (c : TypingContext) (f : Function) (slot : Slot) {α : Type} (x : Expr → Check α)
    (V : (Expr → α) → Prop) : Prop :=
  ∀ st : CheckState, st.fault = none → ∃ env first last v st', V v ∧ st'.fault = none ∧
    ∀ e, slot.Admits e → x e st = ⟨v (c.checkAt f env slot e {}).value,
      first ++ (c.checkAt f env slot e {}).reports ++ last, st'⟩

/-- Steps that pass an expression on without looking at it. -/
def Check.Passes {α : Type} (x : Expr → Check α) (V : (Expr → α) → Prop) : Prop :=
  ∀ st : CheckState, st.fault = none → ∃ v rs st', V v ∧ st'.fault = none ∧
    ∀ a, x a st = ⟨v a, rs, st'⟩

namespace Check

variable {c : TypingContext} {f : Function} {slot : Slot} {α β : Type}
  {V : (Expr → α) → Prop} {W : (Expr → β) → Prop} {P : Frame → β → Frame → Prop}
  {x : Expr → Check α}

theorem passes_pure {v : Expr → α} (h : V v) : Passes (fun a => pure (v a)) V :=
  fun st hst => ⟨v, [], st, h, hst, fun _ => rfl⟩

theorem passes_bind {y : Check β} {x : β → Expr → Check α} (hy : y.Lays P)
    (hx : ∀ b, Passes (x b) V) : Passes (fun a => y >>= fun b => x b a) V := by
  intro st hst
  obtain ⟨v, rs, st', hv, hst', heq⟩ := hx (y st).value (y st).state (hy st hst).1
  refine ⟨v, (y st).reports ++ rs, st', hv, hst', fun a => ?_⟩
  change Check.bind y (fun b => x b a) st = _
  rw [Check.bind, heq]

theorem around_checkAt (env : Env) :
    Around c f slot (fun e => c.checkAt f env slot e) fun v => v = id := by
  intro st hst
  refine ⟨env, [], [], id, st, rfl, hst, fun e he => ?_⟩
  rw [List.nil_append, List.append_nil]
  exact TypingContext.checkAt_eq he hst

theorem around_bind {y : Check β} {x : β → Expr → Check α} (hy : y.Lays P)
    (hx : ∀ b, Around c f slot (x b) V) : Around c f slot (fun e => y >>= fun b => x b e) V := by
  intro st hst
  obtain ⟨env, first, last, v, st', hv, hst', heq⟩ := hx (y st).value (y st).state (hy st hst).1
  refine ⟨env, (y st).reports ++ first, last, v, st', hv, hst', fun e he => ?_⟩
  change Check.bind y (fun b => x b e) st = _
  rw [Check.bind, heq e he, List.append_assoc, List.append_assoc, List.append_assoc]

theorem Around.bind {x : Expr → Check β} {k : β → Check α} (hx : Around c f slot x W)
    (hk : ∀ w, W w → Passes (fun a => k (w a)) V) : Around c f slot (fun e => x e >>= k) V := by
  intro st hst
  obtain ⟨env, first, last, w, st₁, hw, hst₁, heq⟩ := hx st hst
  obtain ⟨v, rs, st', hv, hst', heq'⟩ := hk w hw st₁ hst₁
  refine ⟨env, first, last ++ rs, v, st', hv, hst', fun e he => ?_⟩
  change Check.bind (x e) k st = _
  dsimp only at heq'
  rw [Check.bind, heq e he]
  dsimp only
  rw [heq', List.append_assoc]

theorem Around.releasing (hx : Around c f slot x V) :
    Around c f slot (fun e => releasing (x e)) V := by
  intro st hst
  obtain ⟨env, first, last, v, st', hv, hst', heq⟩ := hx st hst
  refine ⟨env, first, last, v, { st' with frame := st'.frame.release st.frame.live }, hv, hst', ?_⟩
  intro e he
  simp only [Check.releasing, heq e he]

theorem Passes.unlessFault (hx : Passes x V) (otherwise : Expr → α) :
    Passes (fun a => unlessFault (otherwise a) (x a)) V := by
  intro st hst
  obtain ⟨v, rs, st', hv, hst', heq⟩ := hx st hst
  refine ⟨v, rs, st', hv, hst', fun a => ?_⟩
  simp only [Check.unlessFault, hst, Option.isSome_none, Bool.false_eq_true, if_false, heq]

theorem Around.unlessFault (hx : Around c f slot x V) (otherwise : Expr → α) :
    Around c f slot (fun e => unlessFault (otherwise e) (x e)) V := by
  intro st hst
  obtain ⟨env, first, last, v, st', hv, hst', heq⟩ := hx st hst
  refine ⟨env, first, last, v, st', hv, hst', fun e he => ?_⟩
  simp only [Check.unlessFault, hst, Option.isSome_none, Bool.false_eq_true, if_false, heq e he]

end Check

/-! ## Statements -/

namespace TypingContext

open Check

variable {c : TypingContext} {f : Function} {slot : Slot} {K : Expr → Stmt} {e₀ : Expr}

/-- Notes that the name of a variable is in use. -/
def noteLocal (c : TypingContext) (scope : Nat) (env : Env) (pos : Pos) (name : String) :
    Check Unit :=
  if env.bindsSince scope name then c.note pos (.redeclared name)
  else if (env.find? name).isSome then c.note pos (.shadowing name)
  else pure ()

theorem leaves_noteLocal (scope : Nat) (env : Env) (pos : Pos) (name : String) :
    (c.noteLocal scope env pos name).Leaves () := by
  unfold noteLocal
  split
  · exact leaves_note c _ _
  · split
    · exact leaves_note c _ _
    · exact leaves_pure ()

theorem checkLocals_cons (scope : Nat) (type : Ty) (env : Env) (v : Local) (vars : List Local) :
    c.checkLocals scope type env (v :: vars) = (do
      let init ← c.checkInit env type v.name v.init
      c.noteLocal scope env v.pos v.name
      unlessFault ({ v with init } :: vars, env) do
        let offset ← newLocal c.settings.wordSize
        let r ← c.checkLocals scope type (⟨v.name, type, offset, false⟩ :: env) vars
        pure ({ v with init, binding := some ⟨v.name, type, offset, false⟩ } :: r.1, r.2)) := by
  rw [checkLocals]
  unfold noteLocal
  cases env.bindsSince scope v.name <;> cases (env.find? v.name).isSome <;> rfl

theorem checkStmt_locals (inLoop : Bool) (scope : Nat) (env : Env) (p : Pos) (type : Ty)
    (vars : List Local) :
    c.checkStmt f inLoop scope env (.locals p type vars) = (do
      (if !type.isValue then c.note p (.voidVariable type) else pure ())
      let r ← c.checkLocals scope type env vars
      pure (.locals p type r.1, r.2)) := by
  rw [checkStmt]
  cases type.isValue <;> rfl

theorem checkStmt_cond (inLoop : Bool) (scope : Nat) (env : Env) (p : Pos) (test : Expr)
    (yes no : Stmt) :
    c.checkStmt f inLoop scope env (.cond p test yes no) = (do
      let test ← c.checkTest env .cond test
      setReturns false
      let r ← c.checkStmt f inLoop scope env yes
      let yesReturns ← getReturns
      setReturns false
      let r' ← (if no.isAbsent then pure (no, env) else c.checkStmt f inLoop scope env no)
      let noReturns ← getReturns
      setReturns (yesReturns && noReturns)
      pure (.cond p test r.1 r'.1, env)) := by
  rw [checkStmt]
  cases no.isAbsent <;> rfl

theorem checkStmt_forLoop (inLoop : Bool) (scope : Nat) (env : Env) (p : Pos) (init : Stmt)
    (test step : Expr) (body : Stmt) :
    c.checkStmt f inLoop scope env (.forLoop p init test step body) = releasing (do
      let r ← (if init.isAbsent then pure (init, env) else c.checkStmt f inLoop env.length env init)
      let test ← c.checkAt f r.2 .forTest test
      let step ← c.checkAt f r.2 .forStep step
      let body ← c.checkLoopBody .forLoop body (c.checkStmt f true env.length r.2 body)
      pure (.forLoop p r.1 test step body, env)) := by
  rw [checkStmt]
  simp only [checkAt]
  cases init.isAbsent <;> cases test.isAbsent <;> cases step.isAbsent <;> rfl

theorem checkLoopBody_eq {body : Stmt} (h : ∀ p, body ≠ .empty p) (kind : LoopKind)
    (step : Check (Stmt × Env)) :
    c.checkLoopBody kind body step =
      (releasing step >>= fun r => setReturns false >>= fun _ => pure r.1) := by
  unfold checkLoopBody
  split
  · exact absurd rfl (h _)
  · rfl

/-- The variables of a declaration, one of which has an opening, and the environment after them. -/
def AroundLocals (name : String) (v : Expr → List Local × Env) : Prop :=
  ∃ (before : List Local) (w : Local) (after : List Local) (env : Env), w.name = name ∧
    v = fun a => (before ++ { w with init := a } :: after, env)

theorem around_checkLocals (scope : Nat) (type : Ty) (v : Local) {after : List Local}
    (hafter : ∀ w ∈ after, w.init ≠ .absent → w.init.Whole) {before : List Local} :
    (∀ w ∈ before, w.init ≠ .absent → w.init.Whole) → ∀ env,
      Around c f (.initial type v.name)
        (fun e => c.checkLocals scope type env (before ++ { v with init := e } :: after))
        (AroundLocals v.name) := by
  induction before with
  | nil =>
    intro _ env
    simp only [List.nil_append, checkLocals_cons]
    refine Around.bind (around_checkAt env) ?_
    rintro _ rfl
    refine passes_bind (leaves_noteLocal scope env _ _).stays fun _ => Passes.unlessFault ?_ _
    refine passes_bind (lays_newLocal _) fun offset => ?_
    refine passes_bind (lays_checkLocals scope type hafter) fun r => passes_pure ?_
    exact ⟨[], { v with binding := some ⟨v.name, type, offset, false⟩ }, r.1, r.2, rfl, rfl⟩
  | cons w before ih =>
    intro hbefore env
    simp only [List.cons_append, checkLocals_cons]
    refine around_bind (leaves_checkInit (hbefore w (by simp)) type w.name).stays fun init => ?_
    refine around_bind (leaves_noteLocal scope env _ _).stays fun _ => Around.unlessFault ?_ _
    refine around_bind (lays_newLocal _) fun offset => ?_
    refine Around.bind (ih (fun u hu => hbefore u (by simp [hu])) _) ?_
    rintro _ ⟨before', v', after', env', hname, rfl⟩
    exact passes_pure ⟨_ :: before', v', after', env', hname, rfl⟩

theorem leaves_noteVoid (pos : Pos) (type : Ty) :
    (if !type.isValue then c.note pos (.voidVariable type) else pure ()).Leaves () := by
  split
  · exact leaves_note c _ _
  · exact leaves_pure ()

theorem lays_optionalStmt {s : Stmt} (h : s ≠ .absent → s.Whole) (inLoop : Bool) (scope : Nat)
    (env : Env) :
    (if s.isAbsent then pure (s, env) else c.checkStmt f inLoop scope env s).Lays
      fun _ _ _ => True := by
  refine Lays.ite (fun _ => lays_pure fun _ => trivial) fun habs => ?_
  have hs : s.Whole := h (by rintro rfl; exact habs rfl)
  exact (lays_checkStmt hs inLoop scope env).mono fun _ _ _ _ => trivial

/-- A statement with an opening, and the environment after it. -/
def AroundStmt (slot : Slot) (v : Expr → Stmt × Env) : Prop :=
  ∃ (K : Expr → Stmt) (env : Env), Stmt.Around slot K ∧ v = fun a => (K a, env)

theorem around_checkLoopBody (hK : Stmt.Around slot K) (kind : LoopKind)
    {x : Expr → Check (Stmt × Env)} (hx : Around c f slot x (AroundStmt slot)) :
    Around c f slot (fun e => c.checkLoopBody kind (K e) (x e)) (Stmt.Around slot) := by
  simp only [checkLoopBody_eq (hK.ne_empty _)]
  refine Around.bind hx.releasing ?_
  rintro _ ⟨K', env', hK', rfl⟩
  exact passes_bind (stays_setReturns false) fun _ => passes_pure hK'

/-- The statements before the one with the opening, that one, and those after it. -/
theorem around_checkStmts (hK : Stmt.Around slot K) {inLoop : Bool} {scope : Nat}
    (hx : ∀ env, Around c f slot (fun e => c.checkStmt f inLoop scope env (K e)) (AroundStmt slot))
    (h : (K e₀).Whole) {after : List Stmt} (hafter : ∀ s ∈ after, s.Whole) {before : List Stmt} :
    (∀ s ∈ before, s.Whole) → ∀ env reach, Around c f slot
      (fun e => c.checkStmts f inLoop scope env reach (before ++ K e :: after))
      (Stmt.AroundAll slot) := by
  have hrest {stmts : List Stmt} (hstmts : ∀ s ∈ stmts, s.Whole) (env : Env) (reach : Reach) :=
    lays_checkStmts (c := c) (f := f) scope hstmts
      (fun s hs env => lays_checkStmt (hstmts s hs) inLoop scope env) env reach
  induction before with
  | nil =>
    intro _ env reach
    have hreach := (leaves_checkReach (c := c) h reach).stays
    rw [hK.checkReach_eq] at hreach
    simp only [List.nil_append, checkStmts, hK.checkReach_eq, hK.after_eq]
    refine around_bind hreach fun _ => Around.bind (hx env) ?_
    rintro _ ⟨K', env', hK', rfl⟩
    refine passes_bind (hrest hafter env' _) fun after' => passes_pure ?_
    exact .mk [] after' hK'
  | cons s before ih =>
    intro hbefore env reach
    have hs : s.Whole := hbefore s (by simp)
    simp only [List.cons_append, checkStmts]
    refine around_bind (leaves_checkReach hs reach).stays fun _ => ?_
    refine around_bind (lays_checkStmt hs inLoop scope env) fun r => ?_
    refine Around.bind (ih (fun q hq => hbefore q (by simp [hq])) r.2 _) ?_
    rintro _ ⟨before', after', hK'⟩
    exact passes_pure (.mk (r.1 :: before') after' hK')

/-- Checking a statement with an opening gives one with the same opening. -/
theorem around_checkStmt (hK : Stmt.Around slot K) :
    ∀ {e₀ : Expr}, (K e₀).Whole → ∀ (inLoop : Bool) (scope : Nat) (env : Env),
      Around c f slot (fun e => c.checkStmt f inLoop scope env (K e)) (AroundStmt slot) := by
  -- on where the opening is: the steps before it do not depend on `e`, those after it pass it on
  induction hK with
  | statement pos =>
    intro e₀ _ inLoop scope env
    simp only [checkStmt]
    refine Around.bind (around_checkAt env) ?_
    rintro _ rfl
    exact passes_pure ⟨_, env, .statement pos, rfl⟩
  | initial pos type before v after =>
    intro e₀ h inLoop scope env
    cases h with | locals hvars => ?_
    simp only [checkStmt_locals]
    refine around_bind (leaves_noteVoid pos type).stays fun _ => ?_
    refine Around.bind (around_checkLocals scope type v (fun w hw => hvars w (by simp [hw]))
      (fun w hw => hvars w (by simp [hw])) env) ?_
    rintro _ ⟨before', v', after', env', hname, rfl⟩
    rw [← hname]
    exact passes_pure ⟨_, env', .initial pos type before' v' after', rfl⟩
  | condTest pos yes no =>
    intro e₀ h inLoop scope env
    cases h with | cond _ hyes hno => ?_
    simp only [checkStmt_cond]
    refine Around.bind (around_checkAt env) ?_
    rintro _ rfl
    refine passes_bind (stays_setReturns false) fun _ => ?_
    refine passes_bind (lays_checkStmt hyes inLoop scope env) fun r => ?_
    refine passes_bind stays_getReturns fun _ => passes_bind (stays_setReturns false) fun _ => ?_
    refine passes_bind (lays_optionalStmt hno inLoop scope env) fun r' => ?_
    refine passes_bind stays_getReturns fun _ => passes_bind (stays_setReturns _) fun _ => ?_
    exact passes_pure ⟨_, env, .condTest pos r.1 r'.1, rfl⟩
  | whileTest pos body =>
    intro e₀ h inLoop scope env
    cases h with | whileLoop _ hbody => ?_
    simp only [checkStmt]
    refine Around.bind (around_checkAt env) ?_
    rintro _ rfl
    refine passes_bind (lays_checkLoopBody _ body (lays_checkStmt hbody true scope env)) fun r => ?_
    exact passes_pure ⟨_, env, .whileTest pos r, rfl⟩
  | forTest pos init step body =>
    intro e₀ h inLoop scope env
    cases h with | forLoop hinit _ hstep hbody => ?_
    simp only [checkStmt_forLoop]
    refine Around.releasing (around_bind (lays_optionalStmt hinit inLoop _ env) fun r => ?_)
    refine Around.bind (around_checkAt r.2) ?_
    rintro _ rfl
    refine passes_bind (lays_checkAt .forStep _ hstep) fun step' => ?_
    refine passes_bind (lays_checkLoopBody _ body (lays_checkStmt hbody true _ r.2)) fun body' => ?_
    exact passes_pure ⟨_, env, .forTest pos r.1 step' body', rfl⟩
  | forStep pos init test body =>
    intro e₀ h inLoop scope env
    cases h with | forLoop hinit htest _ hbody => ?_
    simp only [checkStmt_forLoop]
    refine Around.releasing (around_bind (lays_optionalStmt hinit inLoop _ env) fun r => ?_)
    refine around_bind (lays_checkAt .forTest _ htest) fun test' => Around.bind (around_checkAt r.2) ?_
    rintro _ rfl
    refine passes_bind (lays_checkLoopBody _ body (lays_checkStmt hbody true _ r.2)) fun body' => ?_
    exact passes_pure ⟨_, env, .forStep pos r.1 test' body', rfl⟩
  | result pos =>
    intro e₀ _ inLoop scope env
    simp only [checkStmt]
    refine Around.bind (around_checkAt env) ?_
    rintro _ rfl
    exact passes_bind (stays_setReturns true) fun _ => passes_pure ⟨_, env, .result pos, rfl⟩
  | block pos before after hK ih =>
    intro e₀ h inLoop scope env
    cases h with | block hstmts => ?_
    have hopen := hstmts _ (List.mem_append_right before List.mem_cons_self)
    simp only [checkStmt]
    refine Around.bind (Around.releasing (around_checkStmts hK (ih hopen inLoop env.length) hopen
      (fun s hs => hstmts s (by simp [hs])) (fun s hs => hstmts s (by simp [hs])) env _)) ?_
    rintro _ ⟨before', after', hK'⟩
    exact passes_pure ⟨_, env, .block pos before' after' hK', rfl⟩
  | condYes pos test no hK ih =>
    intro e₀ h inLoop scope env
    cases h with | cond htest hyes hno => ?_
    simp only [checkStmt_cond]
    refine around_bind (leaves_checkTest htest _).stays fun test' => ?_
    refine around_bind (stays_setReturns false) fun _ => ?_
    refine Around.bind (ih hyes inLoop scope env) ?_
    rintro _ ⟨K', env', hK', rfl⟩
    refine passes_bind stays_getReturns fun _ => passes_bind (stays_setReturns false) fun _ => ?_
    refine passes_bind (lays_optionalStmt hno inLoop scope env) fun r => ?_
    refine passes_bind stays_getReturns fun _ => passes_bind (stays_setReturns _) fun _ => ?_
    exact passes_pure ⟨_, env, .condYes pos test' r.1 hK', rfl⟩
  | condNo pos test yes hK ih =>
    intro e₀ h inLoop scope env
    cases h with | cond htest hyes hno => ?_
    simp only [checkStmt_cond, hK.isAbsent, Bool.false_eq_true, if_false]
    refine around_bind (leaves_checkTest htest _).stays fun test' => ?_
    refine around_bind (stays_setReturns false) fun _ => ?_
    refine around_bind (lays_checkStmt hyes inLoop scope env) fun r => ?_
    refine around_bind stays_getReturns fun _ => around_bind (stays_setReturns false) fun _ => ?_
    refine Around.bind (ih (hno (hK.ne_absent e₀)) inLoop scope env) ?_
    rintro _ ⟨K', env', hK', rfl⟩
    refine passes_bind stays_getReturns fun _ => passes_bind (stays_setReturns _) fun _ => ?_
    exact passes_pure ⟨_, env, .condNo pos test' r.1 hK', rfl⟩
  | whileBody pos test hK ih =>
    intro e₀ h inLoop scope env
    cases h with | whileLoop htest hbody => ?_
    simp only [checkStmt]
    refine around_bind (leaves_checkTest htest _).stays fun test' => ?_
    refine Around.bind (around_checkLoopBody hK _ (ih hbody true scope env)) fun K' hK' => ?_
    exact passes_pure ⟨_, env, .whileBody pos test' hK', rfl⟩
  | forInit pos test step body hK ih =>
    intro e₀ h inLoop scope env
    cases h with | forLoop hinit htest hstep hbody => ?_
    simp only [checkStmt_forLoop, hK.isAbsent, Bool.false_eq_true, if_false]
    refine Around.releasing (Around.bind (ih (hinit (hK.ne_absent e₀)) inLoop _ env) ?_)
    rintro _ ⟨K', env', hK', rfl⟩
    refine passes_bind (lays_checkAt .forTest _ htest) fun test' => ?_
    refine passes_bind (lays_checkAt .forStep _ hstep) fun step' => ?_
    refine passes_bind (lays_checkLoopBody _ body (lays_checkStmt hbody true _ env')) fun body' => ?_
    exact passes_pure ⟨_, env, .forInit pos test' step' body' hK', rfl⟩
  | forBody pos init test step hK ih =>
    intro e₀ h inLoop scope env
    cases h with | forLoop hinit htest hstep hbody => ?_
    simp only [checkStmt_forLoop]
    refine Around.releasing (around_bind (lays_optionalStmt hinit inLoop _ env) fun r => ?_)
    refine around_bind (lays_checkAt .forTest _ htest) fun test' => ?_
    refine around_bind (lays_checkAt .forStep _ hstep) fun step' => ?_
    refine Around.bind (around_checkLoopBody hK _ (ih hbody true _ r.2)) fun K' hK' => ?_
    exact passes_pure ⟨_, env, .forBody pos r.1 test' step' hK', rfl⟩

theorem around_checkAll {stmts : Expr → List Stmt} (h : Stmt.AroundAll slot stmts)
    (hwhole : ∀ s ∈ stmts e₀, s.Whole) (inLoop : Bool) (scope : Nat) (env : Env) (reach : Reach) :
    Around c f slot (fun e => c.checkStmts f inLoop scope env reach (stmts e))
      (Stmt.AroundAll slot) := by
  obtain ⟨before, after, hK⟩ := h
  have hopen := hwhole _ (List.mem_append_right before List.mem_cons_self)
  have hbefore : ∀ s ∈ before, s.Whole := fun s hs => hwhole s (by simp [hs])
  have hafter : ∀ s ∈ after, s.Whole := fun s hs => hwhole s (by simp [hs])
  exact around_checkStmts hK (around_checkStmt hK hopen inLoop scope) hopen hafter hbefore env reach

/-! ## Functions and programs -/

theorem retold_same (c : TypingContext) : c.Retold .same c := by
  refine ⟨c.settings.retold_same, fun name => ?_⟩
  cases c.declared.find? name with
  | none => exact .none
  | some e => exact .some ⟨rfl, rfl⟩

/-- Of the function that they belong to, only its head matters to statements. -/
theorem checkStmts_sameHead {f f' : Function} (h : f.SameHead .same f') (inLoop : Bool) (scope : Nat)
    (env : Env) (reach : Reach) (stmts : List Stmt) (st : CheckState) :
    c.checkStmts f' inLoop scope env reach stmts st =
      c.checkStmts f inLoop scope env reach stmts st := by
  -- checking alike under a retelling, taken for the one that changes nothing
  have hcheck := c.retold_same.alike_checkStmts h inLoop scope env reach stmts st
  rw [Stmt.retellAll_eq_self Retelling.still_same, Stmt.retellAll_eq_self Retelling.still_same,
    Retelling.reports_same] at hcheck
  exact hcheck

/-- Checking a function with an opening gives one with the same opening, and the size of its frame and
    its return flag do not depend on what fills it. -/
theorem around_checkFunction {F : Expr → Function} (hF : Function.Around slot F) (h : (F e₀).Whole) :
    ∃ (env : Env) (first last : List Report) (F' : Expr → Function), Function.Around slot F' ∧
      ∀ e, slot.Admits e → c.checkFunction (F e) =
        ⟨F' (c.checkAt (F .absent) env slot e {}).value,
          first ++ (c.checkAt (F .absent) env slot e {}).reports ++ last, none⟩ := by
  obtain @⟨stmts, f, pos, hdef, hstmts⟩ := hF
  obtain hproto | ⟨_, hbody, hwhole⟩ := h
  · simp [hdef] at hproto
  cases hbody
  generalize hbound : bindParams c.settings 0 [] [] f.params = bound
  obtain ⟨params, env, reports⟩ := bound
  have haround := around_checkAll (c := c) (f := { f with body := some ⟨pos, stmts .absent⟩ }) hstmts
    hwhole false env.length env .reachable
  obtain ⟨inner, first, last, stmts', st, hstmts', hst, hcheck⟩ := haround {} rfl
  let f' : Function :=
    { f with params, frameBytes := st.frame.bytes c.settings.wordSize, returns := st.returns }
  let missing := if !st.returns && f.result != .void
    then c.settings.note f.pos (.noReturn f.name) else []
  refine ⟨inner, reports ++ first, last ++ missing, _, .mk f' pos hdef hstmts', fun e he => ?_⟩
  have hhead : Function.SameHead .same { f with body := some ⟨pos, stmts .absent⟩ }
      { f with body := some ⟨pos, stmts e⟩ } := ⟨rfl, rfl, rfl, rfl⟩
  simp only [checkFunction, hbound, checkStmts_sameHead hhead, hcheck e he, hst]
  simp [f', missing]

end TypingContext

namespace Program.Around

variable {slot : Slot} {P : Expr → Program}

theorem admits (hP : Program.Around slot P) (h : ∀ f ∈ P e, f.Whole) :
    slot.Admits e := by
  obtain ⟨before, after, hF⟩ := hP
  obtain ⟨f, pos, hdef, before', after', hK⟩ := hF
  obtain hproto | ⟨_, hbody, hwhole⟩ := h _ (List.mem_append_right before List.mem_cons_self)
  · simp [hdef] at hproto
  cases hbody
  exact hK.admits (hwhole _ (List.mem_append_right before' List.mem_cons_self))

theorem exists_mem (hP : Program.Around slot P) : ∃ f, f ∈ P .absent := by
  obtain @⟨F, before, after, hF⟩ := hP
  exact ⟨F .absent, by simp⟩

/-- The declarations of a program do not depend on what fills an opening. -/
theorem declare (hP : Program.Around slot P) (s : Settings) (e : Expr) :
    ((P .absent).declare s).1.Retold .same ((P e).declare s).1 ∧
      ((P e).declare s).2 = ((P .absent).declare s).2 := by
  refine Program.declare_sameHead ?_ s
  obtain ⟨before, after, ⟨f, pos, hdef, hstmts⟩⟩ := hP
  have hself (fs : List Function) : List.Forall₂ (Function.SameHead .same) fs fs :=
    List.forall₂_same.2 fun f _ => ⟨rfl, rfl, rfl, rfl⟩
  exact List.rel_append (hself before) (.cons ⟨rfl, rfl, rfl, rfl⟩ (hself after))

theorem check (hP : Program.Around slot P) (s : Settings) (h : ∀ f ∈ P e₀, f.Whole) :
    ∃ f ∈ P .absent, ∃ (env : Env) (first last : List Report) (P' : Expr → Program),
      Program.Around slot P' ∧ ∀ e, (∀ f ∈ P e, f.Whole) →
        (P e).check s = ⟨P' (((P .absent).declare s).1.checkAt f env slot e {}).value,
          first ++ (((P .absent).declare s).1.checkAt f env slot e {}).reports ++ last, none⟩ := by
  have hdeclare := hP.declare s
  have hadmits (e : Expr) := hP.admits (e := e)
  generalize (P .absent).declare s = declared at hdeclare
  obtain ⟨c, reports⟩ := declared
  obtain @⟨F, before, after, hF⟩ := hP
  obtain ⟨env, first, last, F', hF', hcheck⟩ := TypingContext.around_checkFunction (c := c) hF
    (h _ (List.mem_append_right before List.mem_cons_self))
  have hdef (e : Expr) : (F e).isPrototype = false := by
    cases hF with | mk f pos hdef => exact hdef
  refine ⟨F .absent, by simp, env, reports ++ (before.map c.reportsFor).flatten ++ first,
    last ++ (after.map c.reportsFor).flatten, _, .mk (before.map c.checked) (after.map c.checked) hF',
    fun e he => ?_⟩
  obtain ⟨hc, hreports⟩ := hdeclare e
  rw [Program.check_eq he, hreports, Program.reportsByFunction, hc.checked_same, hc.reportsFor_same]
  simp [TypingContext.checked, TypingContext.reportsFor, hdef, hcheck e (hadmits e he)]

end Program.Around

/-! ## Layouts -/

/-- What is recorded about the frame of a function. -/
structure Function.Layout where
  params : List (Option Binding)
  locals : Option (List (Option Binding))
  frameBytes : Int
  returns : Bool

/-- The binding of a variable that is declared. -/
def Local.place (d : Ty × Local) : Option Binding := d.2.binding

def Function.layout (f : Function) : Function.Layout where
  params := f.params.map Param.binding
  locals := f.body.map fun b => (Stmt.declaredAll b.stmts).map Local.place
  frameBytes := f.frameBytes
  returns := f.returns

theorem Stmt.declaredAll_append (stmts stmts' : List Stmt) :
    Stmt.declaredAll (stmts ++ stmts') = Stmt.declaredAll stmts ++ Stmt.declaredAll stmts' := by
  induction stmts with
  | nil => rfl
  | cons s stmts ih => rw [List.cons_append, declaredAll, declaredAll, ih, List.append_assoc]

theorem Stmt.Around.places_eq {slot : Slot} (hK : Stmt.Around slot K) (e : Expr) :
    (K e).declared.map Local.place = (K .absent).declared.map Local.place := by
  induction hK with
  | statement | condTest | whileTest | forTest | forStep | result => rfl
  | initial => simp [Stmt.declared, Local.place]
  | block _ _ _ _ ih => simp [Stmt.declared, Stmt.declaredAll, Stmt.declaredAll_append, ih]
  | condYes _ _ _ _ ih | condNo _ _ _ _ ih | whileBody _ _ _ ih | forInit _ _ _ _ _ ih
  | forBody _ _ _ _ _ ih => simp [Stmt.declared, ih]

theorem Program.Around.layouts_eq {slot : Slot} {P : Expr → Program} (hP : Program.Around slot P)
    (e : Expr) : (P e).map Function.layout = (P .absent).map Function.layout := by
  obtain ⟨before, after, ⟨f, pos, -, ⟨before', after', hK⟩⟩⟩ := hP
  simp [Function.layout, Stmt.declaredAll, Stmt.declaredAll_append, hK.places_eq e]

mutual

theorem Stmt.places_bare (s : Stmt) :
    s.bare.declared.map Local.place = s.declared.map Local.place := by
  cases s with
  | block p stmts => exact Stmt.placesAll_bare stmts
  | locals p type vars => simp [Stmt.bare, Stmt.declared, Local.place, Local.bare]
  | cond p test yes no =>
    simp [Stmt.bare, Stmt.declared, Stmt.places_bare yes, Stmt.places_bare no]
  | whileLoop p test body => exact Stmt.places_bare body
  | forLoop p init test step body =>
    simp [Stmt.bare, Stmt.declared, Stmt.places_bare init, Stmt.places_bare body]
  | absent | empty | expr | breakLoop | continueLoop | ret => rfl

theorem Stmt.placesAll_bare (stmts : List Stmt) :
    (Stmt.declaredAll (Stmt.bareAll stmts)).map Local.place =
      (Stmt.declaredAll stmts).map Local.place := by
  cases stmts with
  | nil => rfl
  | cons s stmts =>
    simp [Stmt.bareAll, Stmt.declaredAll, Stmt.places_bare s, Stmt.placesAll_bare stmts]

end

theorem Function.layout_bare (f : Function) : f.bare.layout = f.layout := by
  cases hbody : f.body with
  | none => simp [Function.layout, Function.bare, hbody, Param.bare]
  | some b => simp [Function.layout, Function.bare, hbody, Param.bare, Body.bare, Stmt.placesAll_bare]

theorem Program.layouts_bare (p : Program) : p.bare.map Function.layout = p.map Function.layout := by
  simp [Program.bare, Function.layout_bare]

/-! ## Parsed programs -/

theorem Expr.Whole.bare (h : e.Whole) : e.bare.Whole := by
  induction h with
  | int => exact .int ..
  | bool => exact .bool ..
  | var => exact .var _
  | assign _ ih => exact .assign ih
  | call _ ih =>
    refine .call ?_
    rw [Expr.bareAll_eq_map]
    intro a ha
    obtain ⟨b, hb, rfl⟩ := List.mem_map.1 ha
    exact ih b hb
  | unary hop _ ih => exact .unary hop ih
  | arith hop _ _ ihl ihr => exact .arith hop ihl ihr
  | comp _ _ ihl ihr => exact .comp ihl ihr
  | logic _ _ ihl ihr => exact .logic ihl ihr

theorem Expr.bare_whole_or_absent (h : e ≠ .absent → e.Whole) :
    e.bare ≠ .absent → e.bare.Whole :=
  fun hne => (h fun habs => hne (Expr.bare_eq_absent.2 habs)).bare

theorem Stmt.Whole.bare {s : Stmt} (h : s.Whole) : s.bare.Whole := by
  induction h with
  | block _ ih =>
    refine .block ?_
    rw [Stmt.bareAll_eq_map]
    intro s hs
    obtain ⟨t, ht, rfl⟩ := List.mem_map.1 hs
    exact ih t ht
  | empty => exact .empty _
  | expr he => exact .expr he.bare
  | locals hvars =>
    refine .locals ?_
    intro v hv
    obtain ⟨w, hw, rfl⟩ := List.mem_map.1 hv
    exact Expr.bare_whole_or_absent (hvars w hw)
  | cond htest _ _ ihyes ihno =>
    exact .cond htest.bare ihyes fun hne => ihno fun habs => hne (Stmt.bare_eq_absent.2 habs)
  | whileLoop htest _ ih => exact .whileLoop htest.bare ih
  | forLoop _ htest hstep _ ihinit ihbody =>
    exact .forLoop (fun hne => ihinit fun habs => hne (Stmt.bare_eq_absent.2 habs))
      (Expr.bare_whole_or_absent htest) (Expr.bare_whole_or_absent hstep) ihbody
  | breakLoop => exact .breakLoop _
  | continueLoop => exact .continueLoop _
  | ret he => exact .ret (Expr.bare_whole_or_absent he)

theorem Function.Whole.bare {f : Function} (h : f.Whole) : f.bare.Whole := by
  obtain hproto | ⟨b, hbody, hwhole⟩ := h
  · exact .inl hproto
  · refine .inr ⟨b.bare, by simp [Function.bare, hbody], fun s hs => ?_⟩
    rw [Body.bare, Stmt.bareAll_eq_map] at hs
    obtain ⟨t, ht, rfl⟩ := List.mem_map.1 hs
    exact (hwhole t ht).bare

theorem Program.whole_bare_of_parse {allows : Feature → Bool} {tokens : List Token} {p : Program}
    (h : Program.parse allows tokens = .ok p) : ∀ f ∈ p.bare, f.Whole := by
  obtain ⟨ts, rest, -, hspelled⟩ := Program.spelled_prefix_of_parse h
  intro f hf
  obtain ⟨g, hg, rfl⟩ := List.mem_map.1 hf
  exact (hspelled.whole g hg).bare

/-- An error stays in its statement. For all programs that fill the same opening, positions aside, there
    are one environment for the opening, one list of reports before and one after those for the
    expression in it, and one annotated program with an opening, which the annotated expression
    fills. So all of them have the same layouts. -/
theorem Program.check_around (s : Settings) {slot : Slot} {P : Expr → Program}
    (hP : Program.Around slot P) :
    ∃ f ∈ P .absent, ∃ (env : Env) (first last : List Report) (P' : Expr → Program)
      (layouts : List Function.Layout), Program.Around slot P' ∧
      ∀ (allows : Feature → Bool) (tokens : List Token) (p : Program) (e : Expr),
        Program.parse allows tokens = .ok p → p.bare = P e →
        (p.check s).bare = ⟨P' (((P .absent).declare s).1.checkAt f env slot e {}).value,
          first ++ (((P .absent).declare s).1.checkAt f env slot e {}).reports ++ last, none⟩ ∧
        (p.check s).program.map Function.layout = layouts := by
  by_cases hfill : ∃ e, ∀ f ∈ P e, f.Whole
  · obtain ⟨e₀, he₀⟩ := hfill
    obtain ⟨f, hf, env, first, last, P', hP', hcheck⟩ := hP.check s he₀
    refine ⟨f, hf, env, first, last, P', (P' .absent).map Function.layout, hP', ?_⟩
    intro allows tokens p e hparse hbare
    have heq := hcheck e (hbare ▸ Program.whole_bare_of_parse hparse)
    rw [← hbare, Program.check_bare] at heq
    refine ⟨heq, ?_⟩
    rw [← Program.layouts_bare, ← hP'.layouts_eq]
    exact congrArg (fun r => r.program.map Function.layout) heq
  · -- No program fills the opening.
    obtain ⟨f, hf⟩ := hP.exists_mem
    refine ⟨f, hf, [], [], [], P, [], hP, fun allows tokens p e hparse hbare => ?_⟩
    exact absurd ⟨e, hbare ▸ Program.whole_bare_of_parse hparse⟩ hfill

/-- The tokens of `int f() { break; if (…) return; }`, all at one place, with errors around the test. -/
def testTokens (test : Token) : List Token :=
  [.kwInt, .identifier, .leftParen, .rightParen, .leftBrace, .kwBreak, .semicolon, .kwIf,
    .leftParen].map (fun k => { kind := k, value := "f" }) ++ test ::
  [.rightParen, .kwReturn, .semicolon, .rightBrace, .endOfFile].map fun k => { kind := k }

def testProgram (test : Expr) : Program :=
  let head : Function :=
    { pos := {}, name := "f", result := .int, params := [], body := none, isPrototype := false }
  [{ head with body := some ⟨{}, [.breakLoop {}, .cond {} test (.ret {} .absent) .absent]⟩ }]

theorem around_testProgram : Program.Around (.test .cond) testProgram := by
  refine .mk [] [] (.mk _ {} ?_ (.mk [.breakLoop {}] [] (.condTest {} _ .absent)))
  rfl

/-- A test that is a number is one more error. -/
theorem Program.check_around_testProgram :
    Program.parse (fun _ => true) (testTokens { kind := .number, value := "1" }) =
      .ok (testProgram (.int {} 1)) ∧
    Program.parse (fun _ => true) (testTokens { kind := .kwTrue }) =
      .ok (testProgram (.bool {} true)) ∧
    ∃ first last : List Report,
      ((testProgram (.int {} 1)).check {}).bare.reports = first ++ [⟨{}, .test .cond⟩] ++ last ∧
      ((testProgram (.bool {} true)).check {}).bare.reports = first ++ last ∧
      ((testProgram (.bool {} true)).check {}).accepted = false ∧
      ((testProgram (.int {} 1)).check {}).program.map Function.layout =
        ((testProgram (.bool {} true)).check {}).program.map Function.layout := by
  obtain ⟨f, -, env, first, last, P', layouts, -, hall⟩ :=
    Program.check_around {} around_testProgram
  have hone : Program.parse (fun _ => true) (testTokens { kind := .number, value := "1" }) =
    .ok (testProgram (.int {} 1)) := rfl
  have htrue : Program.parse (fun _ => true) (testTokens { kind := .kwTrue }) =
    .ok (testProgram (.bool {} true)) := rfl
  obtain ⟨hcheck, hlayouts⟩ := hall _ _ _ (.int {} 1) hone rfl
  obtain ⟨hcheck', hlayouts'⟩ := hall _ _ _ (.bool {} true) htrue rfl
  refine ⟨hone, htrue, first, last, congrArg ProgramCheck.reports hcheck, ?_, by decide,
    hlayouts.trans hlayouts'.symm⟩
  exact (congrArg ProgramCheck.reports hcheck').trans (congrArg (· ++ last) (List.append_nil first))

end MiniCompiler
