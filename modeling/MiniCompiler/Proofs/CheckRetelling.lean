import Mathlib.Data.List.Forall2
import MiniCompiler.Proofs.Retelling

/-!
# Checks that go alike

The steps of the checker on statements, functions and programs in two contexts that a retelling
relates. Each step has one lemma: on the retold tree it returns the retold tree, reports what is not
left out, and leaves the same state. `Program.check_retell` puts them together for programs in which
functions keep their numbers.
-/

namespace MiniCompiler

/-! ## Steps of checking -/

/-- `y` does what `x` does, retold: its value is that of `x` under `g`. -/
def Check.Alike (m : Retelling) {α β : Type} (g : α → β) (x : Check α) (y : Check β) : Prop :=
  ∀ st, y st = ⟨g (x st).value, m.reports (x st).reports, (x st).state⟩

namespace Check

variable {m : Retelling} {α β γ δ : Type} {g : α → β} {h : γ → δ}

theorem alike_pure (m : Retelling) (g : α → β) (a : α) : Alike m g (pure a) (pure (g a)) :=
  fun _ => rfl

theorem Alike.bind {x : Check α} {y : Check β} {f : α → Check γ} {f' : β → Check δ}
    (hx : Alike m g x y) (hf : ∀ a, Alike m h (f a) (f' (g a))) :
    Alike m h (x >>= f) (y >>= f') := by
  intro st
  have hbind : (y >>= f') st = Check.bind y f' st := rfl
  have hbind' : (x >>= f) st = Check.bind x f st := rfl
  rw [hbind, hbind', Check.bind, Check.bind, hx st]
  simp only [hf _ _, m.reports_append]

theorem Alike.map {x : Check α} {y : Check β} {f : α → γ} {f' : β → δ} (hx : Alike m g x y)
    (hf : ∀ a, f' (g a) = h (f a)) : Alike m h (f <$> x) (f' <$> y) := by
  have hpure : ∀ a, Alike m h (pure (f a)) (pure (f' (g a))) := by
    intro a
    rw [hf]
    exact alike_pure m h (f a)
  exact hx.bind hpure

theorem Alike.ite {b : Prop} [Decidable b] {x x' : Check α} {y y' : Check β} (hx : Alike m g x y)
    (hx' : Alike m g x' y') : Alike m g (if b then x else x') (if b then y else y') := by
  split
  · exact hx
  · exact hx'

theorem Alike.ite_bind {b : Prop} [Decidable b] {a : α} {x : Check α} {y : Check β}
    {f : α → Check γ} {f' : β → Check δ} (hx : Alike m g x y) (hf : ∀ a, Alike m h (f a) (f' (g a))) :
    Alike m h (if b then pure a >>= f else x >>= f) (if b then pure (g a) >>= f' else y >>= f') :=
  Alike.ite ((alike_pure m g a).bind hf) (hx.bind hf)

theorem Alike.unlessFault {x : Check α} {y : Check β} (hx : Alike m g x y) (a : α) :
    Alike m g (unlessFault a x) (unlessFault (g a) y) := by
  intro st
  unfold Check.unlessFault
  split
  · rfl
  · exact hx st

theorem Alike.releasing {x : Check α} {y : Check β} (hx : Alike m g x y) :
    Alike m g (releasing x) (releasing y) := by
  intro st
  unfold Check.releasing
  rw [hx st]

theorem alike_report (m : Retelling) (rs : List Report) :
    Alike m id (report rs) (report (m.reports rs)) :=
  Alike.unlessFault (fun _ => rfl) ()

theorem alike_halt (m : Retelling) (f : Fault) : Alike m id (halt f) (halt f) :=
  Alike.unlessFault (fun _ => rfl) ()

theorem alike_getReturns : Alike m id getReturns getReturns := fun _ => rfl

theorem alike_setReturns (b : Bool) : Alike m id (setReturns b) (setReturns b) := fun _ => rfl

theorem alike_newLocal (wordSize : Int) : Alike m id (newLocal wordSize) (newLocal wordSize) :=
  fun _ => rfl

/-- The expression and the type that were found. -/
def retellFound (m : Retelling) (found : Expr × Option Ty) : Expr × Option Ty :=
  (found.1.retell m, found.2)

theorem alike_ofInference (e : Expr) {i i' : Inference} (hi : Inference.Alike m i i') :
    Alike m (retellFound m) (ofInference e i) (ofInference (e.retell m) i') := by
  obtain ⟨ie, reports, verdict⟩ := i
  obtain ⟨ie', reports', verdict'⟩ := i'
  obtain ⟨rfl, rfl, hverdict⟩ := hi
  refine Alike.unlessFault ?_ (e, none)
  refine Alike.bind (alike_report m reports) fun _ => ?_
  dsimp only at hverdict ⊢
  cases hverdict with
  | ok t => exact alike_pure m (retellFound m) _
  | @refuse pos q hq =>
    have hreport := alike_report m [⟨pos, q⟩]
    rw [m.reports_error pos hq] at hreport
    exact hreport.bind fun _ => alike_pure m (retellFound m) _
  | fault f => exact (alike_halt m f).bind fun _ => alike_pure m (retellFound m) _

end Check

/-! ## Statements -/

/-- Functions that are declared alike: they may differ in their bodies and in the names of their
    parameters. -/
structure Function.SameHead (m : Retelling) (f f' : Function) : Prop where
  pos : f'.pos = m.pos f.pos
  name : f'.name = f.name
  isPrototype : f'.isPrototype = f.isPrototype
  signature : f'.signature = f.signature

theorem Function.SameHead.result {f f' : Function} (h : f.SameHead m f') :
    f'.result = f.result :=
  congrArg Signature.result h.signature

theorem Function.sameHead_retell (m : Retelling) (f : Function) : f.SameHead m (f.retell m) :=
  ⟨rfl, rfl, rfl, f.signature_retell m⟩

namespace TypingContext

open Check

variable {m : Retelling} {c c' : TypingContext} {f f' : Function} {s s' : Settings}

section

variable (h : c.Retold m c')

include h

theorem Retold.alike_note (pos : Pos) (q : Problem) :
    Alike m id (c.note pos q) (c'.note (m.pos pos) q) := by
  unfold TypingContext.note
  rw [h.settings.note]
  exact alike_report m _

theorem Retold.alike_noted {α β : Type} {g : α → β} {b : Prop} [Decidable b]
    (pos : Pos) (q : Problem) {x : Check α} {y : Check β} (hx : Alike m g x y) :
    Alike m g (if b then c.note pos q >>= fun _ => x else x)
      (if b then c'.note (m.pos pos) q >>= fun _ => y else y) :=
  Alike.ite ((h.alike_note pos q).bind fun _ => hx) hx

theorem Retold.alike_checkExpr (env : Env) (e : Expr) :
    Alike m (retellFound m) (c.checkExpr env e) (c'.checkExpr env (e.retell m)) :=
  alike_ofInference e (h.infer env e)

theorem Retold.alike_checkTest (env : Env) (kind : TestKind) (e : Expr) :
    Alike m (Expr.retell m) (c.checkTest env kind e) (c'.checkTest env kind (e.retell m)) := by
  refine Alike.bind (h.alike_checkExpr env e) fun found => ?_
  obtain ⟨e', t⟩ := found
  have hnote : Alike m (Expr.retell m) (c.note e.pos (.test kind) >>= fun _ => pure e')
      (c'.note (m.pos e.pos) (.test kind) >>= fun _ => pure (e'.retell m)) :=
    (h.alike_note _ _).bind fun _ => alike_pure m _ _
  rw [Expr.pos_retell]
  rcases t with _ | (_ | _ | _ | _)
  · exact alike_pure m (Expr.retell m) _
  · exact hnote
  · exact alike_pure m (Expr.retell m) _
  · exact hnote
  · exact hnote

theorem Retold.alike_checkExprStmt (env : Env) (pos : Pos) (e : Expr) :
    Alike m (Expr.retell m) (c.checkExprStmt env pos e)
      (c'.checkExprStmt env (m.pos pos) (e.retell m)) := by
  refine Alike.bind (alike_ofInference e (h.inferStatement env e)) fun found => ?_
  obtain ⟨e', t⟩ := found
  have hnote : Alike m (Expr.retell m) (c.note pos .unusedResult >>= fun _ => pure e')
      (c'.note (m.pos pos) .unusedResult >>= fun _ => pure (e'.retell m)) :=
    (h.alike_note _ _).bind fun _ => alike_pure m _ _
  cases e with
  | call | assign => exact alike_pure m (Expr.retell m) _
  | _ =>
    cases t with
    | none => exact alike_pure m (Expr.retell m) _
    | some t => exact hnote

theorem Retold.alike_checkInit (env : Env) (type : Ty) (name : String) (e : Expr) :
    Alike m (Expr.retell m) (c.checkInit env type name e)
      (c'.checkInit env type name (e.retell m)) := by
  unfold checkInit
  rw [Expr.isAbsent_retell, Expr.pos_retell]
  refine Alike.ite (alike_pure m (Expr.retell m) _) ?_
  refine Alike.bind (h.alike_checkExpr env e) fun found => ?_
  obtain ⟨e', t⟩ := found
  cases t with
  | none => exact alike_pure m (Expr.retell m) _
  | some t => exact h.alike_noted e.pos _ (alike_pure m (Expr.retell m) _)

/-- The variables of a declaration and the environment after them. -/
def retellLocals (m : Retelling) (r : List Local × Env) : List Local × Env :=
  (r.1.map (Local.retell m), r.2)

theorem Retold.alike_checkLocals (scope : Nat) (type : Ty) (vars : List Local) :
    ∀ env : Env, Alike m (retellLocals m) (c.checkLocals scope type env vars)
      (c'.checkLocals scope type env (vars.map (Local.retell m))) := by
  induction vars with
  | nil => exact fun env => alike_pure m (retellLocals m) _
  | cons v vars ih =>
    intro env
    refine Alike.bind (h.alike_checkInit env type v.name v.init) fun init => ?_
    have hrest : Alike m (retellLocals m)
        (unlessFault ({ v with init } :: vars, env) do
          let offset ← newLocal c.settings.wordSize
          let b : Binding := ⟨v.name, type, offset, false⟩
          let r ← c.checkLocals scope type (b :: env) vars
          pure ({ v with init, binding := some b } :: r.1, r.2))
        (unlessFault ({ v.retell m with init := init.retell m } :: vars.map (Local.retell m), env) do
          let offset ← newLocal c'.settings.wordSize
          let b : Binding := ⟨v.name, type, offset, false⟩
          let r ← c'.checkLocals scope type (b :: env) (vars.map (Local.retell m))
          pure ({ v.retell m with init := init.retell m, binding := some b } :: r.1, r.2)) := by
      rw [h.settings.wordSize]
      refine Alike.unlessFault ?_ _
      refine Alike.bind (alike_newLocal _) fun offset => Alike.bind (ih _) fun r => ?_
      exact alike_pure m (retellLocals m) _
    refine Alike.ite ?_ ?_
    · exact Alike.bind (h.alike_note v.pos _) fun _ => hrest
    · exact h.alike_noted v.pos _ hrest

theorem Retold.alike_checkReturn (hf : f.SameHead m f') (env : Env) (pos : Pos) (e : Expr) :
    Alike m (Expr.retell m) (c.checkReturn f env pos e)
      (c'.checkReturn f' env (m.pos pos) (e.retell m)) := by
  unfold checkReturn
  rw [Expr.isAbsent_retell, Expr.pos_retell, hf.name, hf.result]
  refine Alike.ite (h.alike_noted pos _ (alike_pure m (Expr.retell m) _)) ?_
  refine Alike.bind (h.alike_checkExpr env e) fun found => ?_
  obtain ⟨e', t⟩ := found
  cases t with
  | none => exact alike_pure m (Expr.retell m) _
  | some t =>
    refine Alike.ite ?_ (h.alike_noted e.pos _ (alike_pure m (Expr.retell m) _))
    exact Alike.bind (h.alike_note pos _) fun _ => alike_pure m (Expr.retell m) _

/-- A statement and the environment after it. -/
def retellStmt (m : Retelling) (r : Stmt × Env) : Stmt × Env := (r.1.retell m, r.2)

theorem Retold.alike_checkLoopBody (kind : LoopKind) (body : Stmt)
    {x y : Check (Stmt × Env)} (hx : Alike m (retellStmt m) x y) :
    Alike m (Stmt.retell m) (c.checkLoopBody kind body x)
      (c'.checkLoopBody kind (body.retell m) y) := by
  have hrest : Alike m (Stmt.retell m)
      (releasing x >>= fun r => setReturns false >>= fun _ => pure r.1)
      (releasing y >>= fun r => setReturns false >>= fun _ => pure r.1) :=
    Alike.bind hx.releasing fun r => Alike.bind (alike_setReturns false) fun _ =>
      alike_pure m (Stmt.retell m) _
  cases body with
  | empty p => exact Alike.bind (h.alike_note p _) fun _ => hrest
  | _ => exact hrest

theorem Retold.alike_checkReach (r : Reach) (s : Stmt) :
    Alike m id (c.checkReach r s) (c'.checkReach r (s.retell m)) := by
  cases r with
  | reachable | reported => exact alike_pure m id ()
  | ended =>
    cases s with
    | absent => exact alike_halt m _
    | _ => exact h.alike_note _ _

omit h in
theorem after_retell (r : Reach) (s : Stmt) : r.after (s.retell m) = r.after s := by
  cases s <;> rfl

/-- A `for` loop. `first` checks its first part and `inside` its body. -/
theorem Retold.alike_checkFor (p : Pos) (env : Env) (init body : Stmt)
    (test step : Expr) {first first' : Check (Stmt × Env)} {inside inside' : Env → Check (Stmt × Env)}
    (hfirst : Alike m (retellStmt m) first first')
    (hinside : ∀ inner, Alike m (retellStmt m) (inside inner) (inside' inner)) :
    Alike m (retellStmt m)
      (do
        let (init, inner) ← if init.isAbsent then pure (init, env) else first
        let test ← if test.isAbsent then pure test else c.checkTest inner (.loop .forLoop) test
        let step ← if step.isAbsent then pure step else Prod.fst <$> c.checkExpr inner step
        let body ← c.checkLoopBody .forLoop body (inside inner)
        return (.forLoop p init test step body, env))
      (do
        let (init, inner) ← if init.isAbsent then pure (init.retell m, env) else first'
        let test ← if test.isAbsent then pure (test.retell m)
          else c'.checkTest inner (.loop .forLoop) (test.retell m)
        let step ← if step.isAbsent then pure (step.retell m)
          else Prod.fst <$> c'.checkExpr inner (step.retell m)
        let body ← c'.checkLoopBody .forLoop (body.retell m) (inside' inner)
        return (.forLoop (m.pos p) init test step body, env)) := by
  have hbody (r : Stmt × Env) (test step : Expr) : Alike m (retellStmt m)
      (c.checkLoopBody .forLoop body (inside r.2) >>= fun body =>
        pure (.forLoop p r.1 test step body, env))
      (c'.checkLoopBody .forLoop (body.retell m) (inside' r.2) >>= fun body =>
        pure (.forLoop (m.pos p) (r.1.retell m) (test.retell m) (step.retell m) body, env)) :=
    Alike.bind (h.alike_checkLoopBody _ body (hinside r.2)) fun _ => alike_pure m (retellStmt m) _
  refine Alike.ite_bind (g := retellStmt m) hfirst fun r => ?_
  refine Alike.ite_bind (g := Expr.retell m) (h.alike_checkTest r.2 _ test) fun test => ?_
  refine Alike.ite_bind (g := Expr.retell m) ((h.alike_checkExpr r.2 step).map fun _ => rfl)
    fun step => ?_
  exact hbody r test step

end

mutual

theorem Retold.alike_checkStmt (h : c.Retold m c') (hf : f.SameHead m f') (inLoop : Bool)
    (scope : Nat) (env : Env) (s : Stmt) :
    Alike m (retellStmt m) (c.checkStmt f inLoop scope env s)
      (c'.checkStmt f' inLoop scope env (s.retell m)) := by
  cases s with
  | absent => exact Alike.bind (alike_halt m _) fun _ => alike_pure m (retellStmt m) _
  | block p stmts =>
    refine Alike.bind (Retold.alike_checkStmts h hf inLoop env.length env .reachable stmts).releasing ?_
    exact fun _ => alike_pure m (retellStmt m) _
  | empty p => exact alike_pure m (retellStmt m) _
  | expr p e =>
    exact Alike.bind (h.alike_checkExprStmt env p e) fun _ => alike_pure m (retellStmt m) _
  | locals p type vars =>
    refine h.alike_noted p _ (Alike.bind (h.alike_checkLocals scope type vars env) fun r => ?_)
    exact alike_pure m (retellStmt m) _
  | cond p test yes no =>
    rw [Stmt.retell, checkStmt, checkStmt, Stmt.isAbsent_retell]
    refine Alike.bind (h.alike_checkTest env .cond test) fun _ => ?_
    refine Alike.bind (alike_setReturns false) fun _ => ?_
    refine Alike.bind (Retold.alike_checkStmt h hf inLoop scope env yes) fun _ => ?_
    refine Alike.bind alike_getReturns fun _ => Alike.bind (alike_setReturns false) fun _ => ?_
    refine Alike.ite_bind (Retold.alike_checkStmt h hf inLoop scope env no) fun _ => ?_
    refine Alike.bind alike_getReturns fun _ => Alike.bind (alike_setReturns _) fun _ => ?_
    exact alike_pure m (retellStmt m) _
  | whileLoop p test body =>
    have hbody := Retold.alike_checkStmt h hf true scope env body
    refine Alike.bind (h.alike_checkTest env _ test) fun _ => ?_
    refine Alike.bind (h.alike_checkLoopBody _ body hbody) ?_
    exact fun _ => alike_pure m (retellStmt m) _
  | forLoop p init test step body =>
    rw [Stmt.retell, checkStmt, checkStmt, Stmt.isAbsent_retell, Expr.isAbsent_retell,
      Expr.isAbsent_retell]
    refine Alike.releasing ?_
    have hfirst := Retold.alike_checkStmt h hf inLoop env.length env init
    have hinside (inner : Env) := Retold.alike_checkStmt h hf true env.length inner body
    have hloop := h.alike_checkFor p env init body test step hfirst hinside
    exact hloop
  | breakLoop p =>
    exact h.alike_noted p _
      (Alike.bind (alike_setReturns _) fun _ => alike_pure m (retellStmt m) _)
  | continueLoop p =>
    exact h.alike_noted p _
      (Alike.bind (alike_setReturns _) fun _ => alike_pure m (retellStmt m) _)
  | ret p e =>
    refine Alike.bind (h.alike_checkReturn hf env p e) fun _ => ?_
    exact Alike.bind (alike_setReturns _) fun _ => alike_pure m (retellStmt m) _

theorem Retold.alike_checkStmts (h : c.Retold m c') (hf : f.SameHead m f') (inLoop : Bool)
    (scope : Nat) (env : Env) (reach : Reach) (stmts : List Stmt) :
    Alike m (Stmt.retellAll m) (c.checkStmts f inLoop scope env reach stmts)
      (c'.checkStmts f' inLoop scope env reach (Stmt.retellAll m stmts)) := by
  cases stmts with
  | nil => exact alike_pure m (Stmt.retellAll m) []
  | cons s stmts =>
    rw [Stmt.retellAll, checkStmts, checkStmts, after_retell]
    refine Alike.bind (h.alike_checkReach reach s) fun _ => ?_
    refine Alike.bind (Retold.alike_checkStmt h hf inLoop scope env s) fun r => ?_
    refine Alike.bind (Retold.alike_checkStmts h hf inLoop scope r.2 _ stmts) fun _ => ?_
    exact alike_pure m (Stmt.retellAll m) (_ :: _)

end

end TypingContext

/-! ## Functions -/

theorem Settings.Retold.bindParams (h : s.Retold m s')
    (ps : List Param) : ∀ (i : Nat) (before : List String) (env : Env),
    bindParams s' i before env (ps.map (Param.retell m)) =
      ((bindParams s i before env ps).1.map (Param.retell m), (bindParams s i before env ps).2.1,
        m.reports (bindParams s i before env ps).2.2) := by
  induction ps with
  | nil => intro i before env; rfl
  | cons p ps ih =>
    intro i before env
    have hname : (p.retell m).name = p.name := rfl
    have htype : (p.retell m).type = p.type := rfl
    have hbyRef : (p.retell m).byRef = p.byRef := rfl
    have hpos : (p.retell m).pos = m.pos p.pos := rfl
    simp only [List.map_cons, MiniCompiler.bindParams, hname, htype, hbyRef, hpos, ih,
      m.reports_append, h.note, h.wordSize, apply_ite m.reports, m.reports_nil]
    rfl

def FunctionCheck.retell (m : Retelling) (r : FunctionCheck) : FunctionCheck :=
  ⟨r.function.retell m, m.reports r.reports, r.fault⟩

def ProgramCheck.retell (m : Retelling) (r : ProgramCheck) : ProgramCheck :=
  ⟨r.program.map (Function.retell m), m.reports r.reports, r.fault⟩

namespace TypingContext

variable {m : Retelling} {c c' : TypingContext}

theorem Retold.checkFunction (h : c.Retold m c') (f : Function) :
    c'.checkFunction (f.retell m) = (c.checkFunction f).retell m := by
  have hparams : (f.retell m).params = f.params.map (Param.retell m) := rfl
  unfold TypingContext.checkFunction
  rw [hparams, h.settings.bindParams]
  generalize MiniCompiler.bindParams c.settings 0 [] [] f.params = bound
  obtain ⟨params, env, reports⟩ := bound
  cases hb : f.body with
  | none => simp [Function.retell, hb, FunctionCheck.retell]
  | some b =>
    have hbody : (f.retell m).body = some (b.retell m) := by simp [Function.retell, hb]
    have hstmts : (b.retell m).stmts = Stmt.retellAll m b.stmts := rfl
    simp only [hbody, hstmts, h.alike_checkStmts (f.sameHead_retell m) false env.length env .reachable
      b.stmts {}]
    generalize c.checkStmts f false env.length env .reachable b.stmts {} = r
    obtain ⟨stmts, stmtReports, frame, returns, fault⟩ := r
    have hnote := h.settings.note f.pos (.noReturn f.name)
    cases fault with
    | some fault => simp [FunctionCheck.retell, Function.retell, Body.retell]
    | none =>
      by_cases hopen : (!returns && f.result != .void) = true <;>
        simp [FunctionCheck.retell, Function.retell, Body.retell, hopen, hnote, h.settings.wordSize]

theorem Retold.checkFunctions (h : c.Retold m c') (fs : List Function) :
    c'.checkFunctions (fs.map (Function.retell m)) = (c.checkFunctions fs).retell m := by
  induction fs with
  | nil => rfl
  | cons f fs ih =>
    have hproto : (f.retell m).isPrototype = f.isPrototype := rfl
    simp only [List.map_cons, TypingContext.checkFunctions, hproto, ih, h.checkFunction]
    split
    · rfl
    · generalize c.checkFunction f = r
      obtain ⟨function, reports, fault⟩ := r
      cases fault with
      | some fault => rfl
      | none => simp [FunctionCheck.retell, ProgramCheck.retell]

end TypingContext

/-! ## Declarations -/

theorem Function.sameSignature_congr {f f' g g' : Function} (hf : f'.signature = f.signature)
    (hg : g'.signature = g.signature) : f'.sameSignature g' = f.sameSignature g := by
  simp only [Function.signature, Signature.mk.injEq] at hf hg
  simp only [Function.sameSignature, hf, hg]

namespace Declared

variable {m : Retelling} {s s' : Settings}

/-- Declarations of the same numbers and heads. -/
def Alike (m : Retelling) (d d' : Declared) : Prop :=
  List.Forall₂ (fun e e' => e'.1 = e.1 ∧ e.2.SameHead m e'.2) d d'

theorem Alike.find? {d d' : Declared} (h : d.Alike m d') (name : String) :
    Option.Rel (fun e e' => e'.1 = e.1 ∧ e.2.SameHead m e'.2) (d.find? name) (d'.find? name) := by
  induction h with
  | nil => exact .none
  | @cons e e' d d' he _ ih =>
    unfold Declared.find? at ih ⊢
    rw [List.find?_cons, List.find?_cons, he.2.name]
    split
    · exact .some he
    · exact ih

theorem Alike.declare {d d' : Declared} (hs : s.Retold m s') (h : d.Alike m d') (i : Nat)
    {f f' : Function} (hf : f.SameHead m f') :
    (d.declare s i f).1.Alike m (d'.declare s' i f').1 ∧
      (d'.declare s' i f').2 = m.reports (d.declare s i f).2 := by
  have hfind := h.find? f.name
  unfold Declared.declare
  rw [hf.name, hf.pos, hs.note, hs.note]
  generalize d.find? f.name = found at hfind
  generalize d'.find? f.name = found' at hfind
  cases hfind with
  | none => exact ⟨List.rel_append h (.cons ⟨rfl, hf⟩ .nil), rfl⟩
  | @some e e' he =>
    obtain ⟨-, hg⟩ := he
    have hsame := Function.sameSignature_congr hg.signature hf.signature
    dsimp only
    rw [hg.isPrototype, hf.isPrototype, hsame]
    split
    · exact ⟨h, rfl⟩
    · split
      · exact ⟨h, rfl⟩
      · split
        · exact ⟨h, rfl⟩
        · refine ⟨List.rel_map (fun e e' he => ?_) h, rfl⟩
          rw [he.2.name]
          split
          · exact ⟨rfl, hf⟩
          · exact he

theorem Alike.declareAll (hs : s.Retold m s') {fs fs' : List Function}
    (hfs : List.Forall₂ (Function.SameHead m) fs fs') : ∀ {d d' : Declared} (i : Nat),
    d.Alike m d' → (d.declareAll s i fs).1.Alike m (d'.declareAll s' i fs').1 ∧
      (d'.declareAll s' i fs').2 = m.reports (d.declareAll s i fs).2 := by
  induction hfs with
  | nil => exact fun i hd => ⟨hd, rfl⟩
  | cons hf _ ih =>
    intro d d' i hd
    obtain ⟨hfirst, hreports⟩ := hd.declare hs i hf
    obtain ⟨hrest, hreports'⟩ := ih (i + 1) hfirst
    refine ⟨hrest, ?_⟩
    simp only [Declared.declareAll, hreports, hreports', m.reports_append]

end Declared

/-- Programs of the same heads are checked in contexts of the same signatures, and their declarations
    report the same. -/
theorem Program.declare_retold (hcallee : ∀ name i, m.callee name i = i) (hs : s.Retold m s')
    {p p' : Program} (hp : List.Forall₂ (Function.SameHead m) p p') :
    (p.declare s).1.Retold m (p'.declare s').1 ∧ (p'.declare s').2 = m.reports (p.declare s).2 := by
  have hnil : Declared.Alike m [] [] := .nil
  obtain ⟨hdeclared, hreports⟩ := Declared.Alike.declareAll hs hp 0 hnil
  refine ⟨⟨hs, fun name => ?_⟩, hreports⟩
  have hfind := hdeclared.find? name
  change Option.Rel _ ((Declared.declareAll s [] 0 p).1.find? name)
    ((Declared.declareAll s' [] 0 p').1.find? name)
  generalize (Declared.declareAll s [] 0 p).1.find? name = found at hfind ⊢
  generalize (Declared.declareAll s' [] 0 p').1.find? name = found' at hfind ⊢
  cases hfind with
  | none => exact .none
  | some he => exact .some ⟨by rw [hcallee, he.1], he.2.signature⟩

theorem Program.check_retell (hcallee : ∀ name i, m.callee name i = i) (hs : s.Retold m s')
    (p : Program) : Program.check s' (p.map (Function.retell m)) = (p.check s).retell m := by
  have hheads : List.Forall₂ (Function.SameHead m) p (p.map (Function.retell m)) :=
    List.forall₂_map_right_iff.2 (List.forall₂_same.2 fun f _ => f.sameHead_retell m)
  obtain ⟨hc, hreports⟩ := Program.declare_retold hcallee hs hheads
  simp only [Program.check, hreports, hc.checkFunctions, ProgramCheck.retell, m.reports_append]

end MiniCompiler
