import MiniCompiler.Proofs.StaticRules
import MiniCompiler.Typing.Program

/-!
# Runs of the checker that go alike

Two runs of the checker are compared. A `Retelling` says in what the second one may differ from the
first: in the positions of what it looks at, in the numbers of the functions that are called, and in
the warnings that it leaves out. If the two contexts hold functions of the same signatures under each
name (`TypingContext.Retold`), the second run finds of the retold expression what the first one finds
of the expression.
-/

namespace MiniCompiler

/-- In what a second run of the checker differs from a first one: positions, the number of the function
    that a name stands for, and which problems are reported. An error is never left out. -/
structure Retelling where
  pos : Pos → Pos
  callee : String → Option Nat → Option Nat
  keeps : Problem → Bool
  pos_default : pos {} = {}
  keeps_error : ∀ q : Problem, q.warning? = none → keeps q = true

/-! ## Trees -/

section

variable (m : Retelling)

def Variable.retell (v : Variable) : Variable := { v with pos := m.pos v.pos }

mutual

/-- An expression with other positions and numbers. -/
def Expr.retell : Expr → Expr
  | .absent => .absent
  | .int p n => .int (m.pos p) n
  | .bool p b => .bool (m.pos p) b
  | .var v => .var (v.retell m)
  | .assign p v e => .assign (m.pos p) (v.retell m) e.retell
  | .call p name args callee => .call (m.pos p) name (Expr.retellAll args) (m.callee name callee)
  | .unary p op e => .unary (m.pos p) op e.retell
  | .arith p op l r => .arith (m.pos p) op l.retell r.retell
  | .comp p op l r => .comp (m.pos p) op l.retell r.retell
  | .logic p op l r => .logic (m.pos p) op l.retell r.retell

def Expr.retellAll : List (Bool × Expr) → List (Bool × Expr)
  | [] => []
  | (byRef, e) :: args => (byRef, e.retell) :: Expr.retellAll args

end

def Local.retell (v : Local) : Local := { v with pos := m.pos v.pos, init := v.init.retell m }

mutual

/-- A statement with other positions and numbers. -/
def Stmt.retell : Stmt → Stmt
  | .absent => .absent
  | .block p stmts => .block (m.pos p) (Stmt.retellAll stmts)
  | .empty p => .empty (m.pos p)
  | .expr p e => .expr (m.pos p) (e.retell m)
  | .locals p type vars => .locals (m.pos p) type (vars.map (Local.retell m))
  | .cond p test yes no => .cond (m.pos p) (test.retell m) yes.retell no.retell
  | .whileLoop p test body => .whileLoop (m.pos p) (test.retell m) body.retell
  | .forLoop p init test step body =>
    .forLoop (m.pos p) init.retell (test.retell m) (step.retell m) body.retell
  | .breakLoop p => .breakLoop (m.pos p)
  | .continueLoop p => .continueLoop (m.pos p)
  | .ret p e => .ret (m.pos p) (e.retell m)

def Stmt.retellAll : List Stmt → List Stmt
  | [] => []
  | s :: stmts => s.retell :: Stmt.retellAll stmts

end

def Param.retell (p : Param) : Param := { p with pos := m.pos p.pos }

def Body.retell (b : Body) : Body := ⟨m.pos b.pos, Stmt.retellAll m b.stmts⟩

/-- A function with other positions and numbers. -/
def Function.retell (f : Function) : Function :=
  { f with
    pos := m.pos f.pos
    params := f.params.map (Param.retell m)
    body := f.body.map (Body.retell m) }

def Report.retell (r : Report) : Report := { r with pos := m.pos r.pos }

/-- The reports that are not left out. -/
def Retelling.reports (rs : List Report) : List Report :=
  (rs.filter fun r => m.keeps r.problem).map (Report.retell m)

@[simp]
theorem Retelling.reports_nil : m.reports [] = [] := rfl

@[simp]
theorem Retelling.reports_append (rs rs' : List Report) :
    m.reports (rs ++ rs') = m.reports rs ++ m.reports rs' := by
  simp [Retelling.reports]

theorem Retelling.reports_error (pos : Pos) {q : Problem} (hq : q.warning? = none) :
    m.reports [⟨pos, q⟩] = [⟨m.pos pos, q⟩] := by
  simp [Retelling.reports, m.keeps_error q hq, Report.retell]

theorem Expr.length_retellAll (args : List (Bool × Expr)) :
    (Expr.retellAll m args).length = args.length := by
  induction args with
  | nil => rfl
  | cons a args ih => simp [Expr.retellAll, ih]

@[simp]
theorem Expr.isAbsent_retell (e : Expr) : (e.retell m).isAbsent = e.isAbsent := by
  cases e <;> rfl

@[simp]
theorem Expr.isVariable_retell (e : Expr) : (e.retell m).isVariable = e.isVariable := by
  cases e <;> rfl

@[simp]
theorem Expr.pos_retell (e : Expr) : (e.retell m).pos = m.pos e.pos := by
  cases e with
  | absent => exact m.pos_default.symm
  | _ => rfl

@[simp]
theorem Stmt.isAbsent_retell (s : Stmt) : (s.retell m).isAbsent = s.isAbsent := by
  cases s <;> rfl

theorem Function.signature_retell (f : Function) : (f.retell m).signature = f.signature := by
  simp [Function.signature, Function.retell, Param.retell, Function.comp_def]

end

/-! ## Trees that stay as they are -/

/-- Positions and numbers stay as they are. -/
structure Retelling.Still (m : Retelling) : Prop where
  pos : ∀ p, m.pos p = p
  callee : ∀ name i, m.callee name i = i

section

variable {m : Retelling}

theorem Variable.retell_eq_self (hpos : ∀ p, m.pos p = p) (v : Variable) : v.retell m = v := by
  rw [Variable.retell, hpos]

theorem Param.retell_eq_self (hpos : ∀ p, m.pos p = p) (p : Param) : p.retell m = p := by
  rw [Param.retell, hpos]

theorem Retelling.reports_eq_filter (hpos : ∀ p, m.pos p = p) (rs : List Report) :
    m.reports rs = rs.filter fun r => m.keeps r.problem := by
  have hself : Report.retell m = id := by
    funext r
    rw [Report.retell, hpos]
    rfl
  rw [Retelling.reports, hself, List.map_id]

mutual

theorem Expr.retell_eq_self (h : m.Still) : (e : Expr) → e.retell m = e
  | .absent => rfl
  | .int p n => by rw [Expr.retell, h.pos]
  | .bool p b => by rw [Expr.retell, h.pos]
  | .var v => by rw [Expr.retell, v.retell_eq_self h.pos]
  | .assign p v e => by rw [Expr.retell, h.pos, v.retell_eq_self h.pos, Expr.retell_eq_self h e]
  | .call p name args callee => by
    rw [Expr.retell, h.pos, Expr.retellAll_eq_self h args, h.callee]
  | .unary p op e => by rw [Expr.retell, h.pos, Expr.retell_eq_self h e]
  | .arith p op l r => by
    rw [Expr.retell, h.pos, Expr.retell_eq_self h l, Expr.retell_eq_self h r]
  | .comp p op l r => by
    rw [Expr.retell, h.pos, Expr.retell_eq_self h l, Expr.retell_eq_self h r]
  | .logic p op l r => by
    rw [Expr.retell, h.pos, Expr.retell_eq_self h l, Expr.retell_eq_self h r]

theorem Expr.retellAll_eq_self (h : m.Still) :
    (args : List (Bool × Expr)) → Expr.retellAll m args = args
  | [] => rfl
  | (_, e) :: args => by
    rw [Expr.retellAll, Expr.retell_eq_self h e, Expr.retellAll_eq_self h args]

end

theorem Local.retell_eq_self (h : m.Still) (v : Local) : v.retell m = v := by
  rw [Local.retell, h.pos, v.init.retell_eq_self h]

mutual

theorem Stmt.retell_eq_self (h : m.Still) : (s : Stmt) → s.retell m = s
  | .absent => rfl
  | .block p stmts => by rw [Stmt.retell, h.pos, Stmt.retellAll_eq_self h stmts]
  | .empty p => by rw [Stmt.retell, h.pos]
  | .expr p e => by rw [Stmt.retell, h.pos, e.retell_eq_self h]
  | .locals p type vars => by
    have hvars : vars.map (Local.retell m) = vars := List.map_id'' (Local.retell_eq_self h) vars
    rw [Stmt.retell, h.pos, hvars]
  | .cond p test yes no => by
    rw [Stmt.retell, h.pos, test.retell_eq_self h, Stmt.retell_eq_self h yes,
      Stmt.retell_eq_self h no]
  | .whileLoop p test body => by
    rw [Stmt.retell, h.pos, test.retell_eq_self h, Stmt.retell_eq_self h body]
  | .forLoop p init test step body => by
    rw [Stmt.retell, h.pos, test.retell_eq_self h, step.retell_eq_self h,
      Stmt.retell_eq_self h init, Stmt.retell_eq_self h body]
  | .breakLoop p => by rw [Stmt.retell, h.pos]
  | .continueLoop p => by rw [Stmt.retell, h.pos]
  | .ret p e => by rw [Stmt.retell, h.pos, e.retell_eq_self h]

theorem Stmt.retellAll_eq_self (h : m.Still) :
    (stmts : List Stmt) → Stmt.retellAll m stmts = stmts
  | [] => rfl
  | s :: stmts => by rw [Stmt.retellAll, Stmt.retell_eq_self h s, Stmt.retellAll_eq_self h stmts]

end

theorem Function.retell_eq_self (h : m.Still) (f : Function) : f.retell m = f := by
  have hparams : f.params.map (Param.retell m) = f.params :=
    List.map_id'' (Param.retell_eq_self h.pos) f.params
  have hbody : f.body.map (Body.retell m) = f.body := by
    cases f.body with
    | none => rfl
    | some b => rw [Option.map_some, Body.retell, h.pos, Stmt.retellAll_eq_self h]
  rw [Function.retell, h.pos, hparams, hbody]

end

/-- A retelling that changes nothing. -/
def Retelling.same : Retelling where
  pos := id
  callee _ := id
  keeps _ := true
  pos_default := rfl
  keeps_error _ _ := rfl

theorem Retelling.still_same : Retelling.same.Still := ⟨fun _ => rfl, fun _ _ => rfl⟩

theorem Retelling.reports_same (rs : List Report) : Retelling.same.reports rs = rs := by
  rw [Retelling.reports_eq_filter still_same.pos, List.filter_eq_self]
  exact fun _ _ => rfl

/-! ## Contexts -/

/-- Settings under which a check is retold. -/
structure Settings.Retold (m : Retelling) (s s' : Settings) : Prop where
  wordSize : s'.wordSize = s.wordSize
  warning : ∀ {q w}, Problem.warning? q = some w → s'.reports w = (s.reports w && m.keeps q)

/-- Contexts under which a check is retold: a name stands for functions of one signature in both. -/
structure TypingContext.Retold (m : Retelling) (c c' : TypingContext) : Prop where
  settings : c.settings.Retold m c'.settings
  find : ∀ name, Option.Rel
    (fun e e' => m.callee name (some e.1) = some e'.1 ∧ e'.2.signature = e.2.signature)
    (c.declared.find? name) (c'.declared.find? name)

theorem Settings.retold_same (s : Settings) : s.Retold .same s :=
  ⟨rfl, fun _ => (Bool.and_true _).symm⟩

theorem Settings.Retold.note {m : Retelling} {s s' : Settings} (h : s.Retold m s') (pos : Pos)
    (q : Problem) : s'.note (m.pos pos) q = m.reports (s.note pos q) := by
  unfold Settings.note
  cases hq : q.warning? with
  | none => exact (m.reports_error pos hq).symm
  | some w =>
    simp only [h.warning hq]
    cases hkeep : m.keeps q <;> cases s.reports w <;>
      simp [Retelling.reports, hkeep, Report.retell]

/-! ## Types of expressions -/

/-- The outcomes of a search and of the retold one. What is refused is an error. -/
inductive Verdict.Alike (m : Retelling) {α : Type} : Except Halt α → Except Halt α → Prop where
  | ok (a : α) : Alike m (.ok a) (.ok a)
  | refuse (pos : Pos) {q : Problem} : q.warning? = none →
    Alike m (refuse pos q) (refuse (m.pos pos) q)
  | fault (f : Fault) : Alike m (.error (.fault f)) (.error (.fault f))

theorem Verdict.Alike.bind {m : Retelling} {α β : Type} {v v' : Except Halt α}
    {f f' : α → Except Halt β} (hv : Verdict.Alike m v v')
    (hf : ∀ a, Verdict.Alike m (f a) (f' a)) : Verdict.Alike m (v >>= f) (v' >>= f') := by
  cases hv with
  | ok a => exact hf a
  | refuse pos hq => exact .refuse pos hq
  | fault f => exact .fault f

/-- The search for a type and the retold one. -/
structure Inference.Alike (m : Retelling) (i i' : Inference) : Prop where
  expr : i'.expr = i.expr.retell m
  reports : i'.reports = m.reports i.reports
  verdict : Verdict.Alike m i.verdict i'.verdict

/-- The same for the arguments of a call. -/
structure ArgsInference.Alike (m : Retelling) (i i' : ArgsInference) : Prop where
  args : i'.args = Expr.retellAll m i.args
  reports : i'.reports = m.reports i.reports
  verdict : Verdict.Alike m i.verdict i'.verdict

namespace Inference

variable {m : Retelling} {i i' l l' r r' : Inference}

theorem Alike.expecting (h : Alike m i i') (want : Ty) (pos : Pos) {q : Ty → Problem}
    (hq : ∀ t, (q t).warning? = none) :
    Alike m (i.expecting want pos q) (i'.expecting want (m.pos pos) q) := by
  refine ⟨h.expr, h.reports, h.verdict.bind fun t => ?_⟩
  split
  · exact .ok t
  · exact .refuse pos (hq t)

theorem Alike.pair (hl : Alike m l l') (hr : Alike m r r') (e : Expr)
    {node node' : Expr → Expr → Expr} {result result' : Ty → Ty → Except Halt Ty}
    (hnode : ∀ a b, node' (a.retell m) (b.retell m) = (node a b).retell m)
    (hresult : ∀ t u, Verdict.Alike m (result t u) (result' t u)) :
    Alike m (l.pair r e node result) (l'.pair r' (e.retell m) node' result') := by
  obtain ⟨le, lreports, lverdict⟩ := l
  obtain ⟨le', lreports', lverdict'⟩ := l'
  obtain ⟨rfl, rfl, hlv⟩ := hl
  obtain ⟨re, rreports, rverdict⟩ := r
  obtain ⟨re', rreports', rverdict'⟩ := r'
  obtain ⟨rfl, rfl, hrv⟩ := hr
  dsimp only at hlv hrv
  unfold Inference.pair
  cases hlv with
  | ok t => exact ⟨hnode _ _, (m.reports_append _ _).symm, hrv.bind (hresult t)⟩
  | refuse pos hq => exact ⟨hnode _ _, rfl, .refuse pos hq⟩
  | fault f => exact ⟨hnode _ _, rfl, .fault f⟩

end Inference

namespace Variable

variable {m : Retelling}

theorem alike_verdict (m : Retelling) (v : Variable) (env : Env) :
    Verdict.Alike m (v.resolve env).verdict ((v.retell m).resolve env).verdict := by
  unfold Variable.verdict Variable.resolve Variable.retell
  dsimp only
  split
  · exact .ok _
  · exact .refuse _ rfl

theorem resolve_retell (v : Variable) (env : Env) :
    (v.retell m).resolve env = (v.resolve env).retell m := rfl

end Variable

namespace TypingContext

open Inference

variable {m : Retelling} {c c' : TypingContext}

theorem Retold.intReports (h : c.Retold m c') (pos : Pos) (value : Int) (negated : Bool) :
    c'.intReports (m.pos pos) value negated = m.reports (c.intReports pos value negated) := by
  unfold TypingContext.intReports
  rw [h.settings.wordSize, h.settings.note]
  split <;> rfl

/-- A call. `inferArgs` looks at the arguments, for functions of one signature alike. -/
theorem Retold.inferCall (h : c.Retold m c') (allowVoid : Bool) (pos : Pos) (name : String)
    (args : List (Bool × Expr)) (callee : Option Nat) {inferArgs inferArgs' : Function → ArgsInference}
    (hargs : ∀ f f', f'.signature = f.signature →
      ArgsInference.Alike m (inferArgs f) (inferArgs' f')) :
    Inference.Alike m (c.inferCall allowVoid pos name args callee inferArgs)
      (c'.inferCall allowVoid (m.pos pos) name (Expr.retellAll m args) (m.callee name callee)
        inferArgs') := by
  have hfind := h.find name
  unfold TypingContext.inferCall
  generalize c.declared.find? name = found at hfind
  generalize c'.declared.find? name = found' at hfind
  cases hfind with
  | none => exact ⟨rfl, rfl, .refuse pos rfl⟩
  | @some e e' he =>
    obtain ⟨i, f⟩ := e
    obtain ⟨i', f'⟩ := e'
    obtain ⟨hcallee, hsignature⟩ := he
    dsimp only at hcallee hsignature
    have hresult : f'.result = f.result := congrArg Signature.result hsignature
    have hparams : f'.params.length = f.params.length := by
      simpa [Function.signature] using congrArg (fun t => t.params.length) hsignature
    simp only [Expr.length_retellAll, hparams, hresult, ← hcallee]
    split
    · exact ⟨rfl, rfl, .refuse pos rfl⟩
    · have hr := hargs f f' hsignature
      refine ⟨?_, hr.reports, hr.verdict.bind fun _ => ?_⟩
      · rw [hr.args]
        rfl
      · split
        · exact .refuse pos rfl
        · exact .ok _

mutual

/-- The search for the type of an expression is retold. -/
theorem Retold.infer (h : c.Retold m c') (env : Env) (e : Expr) :
    Inference.Alike m (c.infer env e) (c'.infer env (e.retell m)) := by
  cases e with
  | absent => exact ⟨rfl, rfl, .fault _⟩
  | bool p b => exact ⟨rfl, rfl, .ok _⟩
  | int p n => exact ⟨rfl, h.intReports p n false, .ok _⟩
  | var v => exact ⟨rfl, rfl, v.alike_verdict m env⟩
  | assign p v e =>
    have hr := Retold.infer h env e
    have hv := v.alike_verdict m env
    rw [Expr.retell, TypingContext.infer, TypingContext.infer, Variable.resolve_retell]
    rw [Variable.resolve_retell] at hv
    generalize (v.resolve env).verdict = verdict at hv
    generalize ((v.resolve env).retell m).verdict = verdict' at hv
    cases hv with
    | refuse pos hq => exact ⟨rfl, rfl, .refuse pos hq⟩
    | fault f => exact ⟨rfl, rfl, .fault f⟩
    | ok t =>
      generalize c.infer env e = i at hr
      generalize c'.infer env (e.retell m) = i' at hr
      obtain ⟨e', reports, verdict⟩ := i
      obtain ⟨e'', reports', verdict'⟩ := i'
      obtain ⟨rfl, rfl, hverdict⟩ := hr
      refine ⟨rfl, ?_, hverdict⟩
      dsimp only at hverdict ⊢
      rw [m.reports_append]
      cases hverdict with
      | ok u =>
        dsimp only
        split
        · rfl
        · rw [h.settings.note]
      | refuse | fault => rfl
  | call p name args callee =>
    exact h.inferCall false p name args callee fun f f' hsignature =>
      Retold.inferArgs h env name 1 (congrArg Signature.params hsignature) args
  | unary p op e =>
    by_cases hlit : op = .neg ∧ ∃ q n, e = .int q n
    · obtain ⟨rfl, q, n, rfl⟩ := hlit
      exact ⟨rfl, h.intReports q n true, .ok _⟩
    · have hlit' : ∀ q n, op = .neg → e.retell m = .int q n → False := by
        intro q n hop he
        cases e <;> simp_all [Expr.retell]
      have hr := (Retold.infer h env e).expecting (if op = .not then .boolean else .int) p
        (q := .unaryOperand op.kind (if op = .not then .boolean else .int)) fun _ => rfl
      rw [Expr.retell, TypingContext.infer, TypingContext.infer]
      · exact ⟨congrArg (Expr.unary (m.pos p) op) hr.expr, hr.reports, hr.verdict⟩
      · exact hlit'
      · exact fun q n hop he => hlit ⟨hop, q, n, he⟩
  | arith p op l r =>
    have hl := (Retold.infer h env l).expecting .int p (q := .operand .left op.kind .int) fun _ => rfl
    have hr := (Retold.infer h env r).expecting .int p (q := .operand .right op.kind .int) fun _ => rfl
    exact hl.pair hr r (fun _ _ => rfl) fun _ _ => .ok _
  | comp p op l r =>
    rw [Expr.retell, TypingContext.infer, TypingContext.infer]
    split
    · refine (Retold.infer h env l).pair (Retold.infer h env r) r (fun _ _ => rfl) fun t u => ?_
      split
      · exact .ok _
      · exact .refuse p rfl
    · have hl := (Retold.infer h env l).expecting .int p (q := .operand .left op.kind .int)
        fun _ => rfl
      have hr := (Retold.infer h env r).expecting .int p (q := .operand .right op.kind .int)
        fun _ => rfl
      exact hl.pair hr r (fun _ _ => rfl) fun _ _ => .ok _
  | logic p op l r =>
    have hl := (Retold.infer h env l).expecting .boolean p (q := .operand .left op.kind .boolean)
      fun _ => rfl
    have hr := (Retold.infer h env r).expecting .boolean p (q := .operand .right op.kind .boolean)
      fun _ => rfl
    exact hl.pair hr r (fun _ _ => rfl) fun _ _ => .ok _

theorem Retold.inferArgs (h : c.Retold m c') (env : Env) (function : String) (i : Nat)
    {ps ps' : List Param} (hps : ps'.map (fun p => (p.type, p.byRef)) = ps.map fun p => (p.type, p.byRef))
    (args : List (Bool × Expr)) :
    ArgsInference.Alike m (c.inferArgs env function i ps args)
      (c'.inferArgs env function i ps' (Expr.retellAll m args)) := by
  cases args with
  | nil =>
    cases ps <;> cases ps' <;> exact ⟨rfl, rfl, .ok ()⟩
  | cons a args =>
    obtain ⟨byRef, e⟩ := a
    cases ps with
    | nil =>
      cases List.map_eq_nil_iff.1 hps
      exact ⟨rfl, rfl, .ok ()⟩
    | cons q ps =>
      obtain ⟨q', ps', rfl, hq, hrest⟩ := List.map_eq_cons_iff.1 hps
      obtain ⟨htype, hbyRef⟩ := Prod.mk.inj hq
      have hargs := Retold.inferArgs h env function (i + 1) hrest args
      have hr := Retold.infer h env e
      rw [Expr.retellAll, TypingContext.inferArgs, TypingContext.inferArgs, htype, hbyRef,
        Expr.pos_retell, Expr.isVariable_retell]
      generalize c.infer env e = r at hr
      generalize c'.infer env (e.retell m) = r' at hr
      obtain ⟨e', reports, verdict⟩ := r
      obtain ⟨e'', reports', verdict'⟩ := r'
      obtain ⟨rfl, rfl, hverdict⟩ := hr
      dsimp only at hverdict ⊢
      cases hverdict with
      | refuse pos hq => exact ⟨rfl, rfl, .refuse pos hq⟩
      | fault f => exact ⟨rfl, rfl, .fault f⟩
      | ok t =>
        dsimp only
        split
        · exact ⟨rfl, rfl, .refuse e.pos rfl⟩
        · refine ⟨by rw [hargs.args]; rfl, ?_, hargs.verdict⟩
          rw [hargs.reports, h.settings.note, m.reports_append, m.reports_append]
          split <;> rfl

end

theorem Retold.inferStatement (h : c.Retold m c') (env : Env) (e : Expr) :
    Inference.Alike m (c.inferStatement env e) (c'.inferStatement env (e.retell m)) := by
  cases e with
  | call p name args callee =>
    exact h.inferCall true p name args callee fun f f' hsignature =>
      h.inferArgs env name 1 (congrArg Signature.params hsignature) args
  | _ => exact h.infer env _

end TypingContext

end MiniCompiler
