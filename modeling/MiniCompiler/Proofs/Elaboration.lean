import MiniCompiler.Proofs.Spelling
import MiniCompiler.Typing.Program

/-!
# What the checker makes of a program

The rules of the language as relations between a tree and the tree that the checker makes of it. A
name is bound by the environment, an argument takes the by-reference mark of its parameter, and a
local takes the next place of the frame. `Expr.Elab` gives expressions their types; `Stmt.Elab`
carries the environment and the frame through the statements of a function.

A tree that was read from tokens has no gaps (`Program.Spelled.whole`). The checker does not fault on
such a tree, and if it reports no error the rules relate the tree to its result
(`Program.check_elaborates`).
-/

namespace MiniCompiler

variable {ts : List Token}

/-! ## Trees without gaps -/

/-- An expression that lacks no operand and no operator. -/
inductive Expr.Whole : Expr → Prop where
  | int (p : Pos) (n : Int) : Whole (.int p n)
  | bool (p : Pos) (b : Bool) : Whole (.bool p b)
  | var (v : Variable) : Whole (.var v)
  | assign {p : Pos} {v : Variable} {e : Expr} : Whole e → Whole (.assign p v e)
  | call {p : Pos} {name : String} {args : List (Bool × Expr)} {callee : Option Nat} :
    (∀ a ∈ args, Whole a.2) → Whole (.call p name args callee)
  | unary {p : Pos} {op : UnaryOp} {e : Expr} :
    (∀ k, op ≠ .other k) → Whole e → Whole (.unary p op e)
  | arith {p : Pos} {op : ArithOp} {l r : Expr} :
    (∀ k, op ≠ .other k) → Whole l → Whole r → Whole (.arith p op l r)
  | comp {p : Pos} {op : CompOp} {l r : Expr} : Whole l → Whole r → Whole (.comp p op l r)
  | logic {p : Pos} {op : LogicOp} {l r : Expr} : Whole l → Whole r → Whole (.logic p op l r)

/-- A statement that lacks nothing but what may be left out. -/
inductive Stmt.Whole : Stmt → Prop where
  | block {p : Pos} {stmts : List Stmt} : (∀ s ∈ stmts, Whole s) → Whole (.block p stmts)
  | empty (p : Pos) : Whole (.empty p)
  | expr {p : Pos} {e : Expr} : e.Whole → Whole (.expr p e)
  | locals {p : Pos} {type : Ty} {vars : List Local} :
    (∀ v ∈ vars, v.init ≠ .absent → v.init.Whole) → Whole (.locals p type vars)
  | cond {p : Pos} {test : Expr} {yes no : Stmt} :
    test.Whole → Whole yes → (no ≠ .absent → Whole no) → Whole (.cond p test yes no)
  | whileLoop {p : Pos} {test : Expr} {body : Stmt} :
    test.Whole → Whole body → Whole (.whileLoop p test body)
  | forLoop {p : Pos} {init : Stmt} {test step : Expr} {body : Stmt} :
    (init ≠ .absent → Whole init) → (test ≠ .absent → test.Whole) →
    (step ≠ .absent → step.Whole) → Whole body → Whole (.forLoop p init test step body)
  | breakLoop (p : Pos) : Whole (.breakLoop p)
  | continueLoop (p : Pos) : Whole (.continueLoop p)
  | ret {p : Pos} {e : Expr} : (e ≠ .absent → e.Whole) → Whole (.ret p e)

/-- A prototype, or a function with a body that has no gaps. -/
def Function.Whole (f : Function) : Prop :=
  f.isPrototype = true ∨ ∃ b, f.body = some b ∧ ∀ s ∈ b.stmts, s.Whole

theorem Rule.ofKind_ne_other {r : Rule} {k : TokenKind} (h : k ∈ r.operators) (k' : TokenKind) :
    BinaryOp.ofKind k ≠ .arith (.other k') := by
  cases r <;> simp [Rule.operators] at h <;> grind [BinaryOp.ofKind]

theorem Expr.Whole.binary {p : Pos} {op : BinaryOp} {l r : Expr}
    (hop : ∀ k, op ≠ .arith (.other k)) (hl : l.Whole) (hr : r.Whole) :
    (Expr.binary p op l r).Whole := by
  cases op with
  | arith op => exact .arith (fun k hk => hop k (by rw [hk])) hl hr
  | comp op => exact .comp hl hr
  | logic op => exact .logic hl hr

theorem Expr.Spelled.whole {r : Rule} {e : Expr} (h : Expr.Spelled r ts e) :
    e.Whole := by
  induction h with
  | assign _ _ _ ih => exact .assign ih
  | operators _ ih | operand _ _ ih | atom _ ih | parens _ _ _ ih => exact ih
  | operation _ hop _ _ ihl ihr => exact .binary (Rule.ofKind_ne_other hop) ihl ihr
  | sign ht _ ih => obtain ht | ht := ht <;> rw [ht] <;> exact .unary nofun ih
  | number => exact .int ..
  | true | false => exact .bool ..
  | var => exact .var _
  | callEmpty => exact .call (by simp)
  | call _ _ _ _ _ _ ih ihmore =>
    refine .call ?_
    intro a ha
    simp only [List.map_cons, List.map_map, List.mem_cons, List.mem_map, Function.comp] at ha
    obtain rfl | ⟨m, hm, rfl⟩ := ha
    · exact ih
    · exact ihmore m hm

theorem Expr.SpelledOrAbsent.whole {e : Expr}
    (h : Expr.SpelledOrAbsent ts e) : e ≠ .absent → e.Whole := by
  cases h with
  | absent => exact fun h => absurd rfl h
  | present he => exact fun _ => he.whole

theorem Stmt.Declares.whole {s : Stmt} (h : Stmt.Declares ts s) : s.Whole := by
  obtain ⟨-, hvars⟩ := h
  refine .locals ?_
  induction hvars with
  | last hv =>
    intro v hmem
    cases List.mem_singleton.1 hmem
    cases hv with
    | bare => exact fun h => absurd rfl h
    | init _ _ he => exact fun _ => he.whole
  | next hv _ _ ih =>
    intro v hmem
    cases hmem with
    | head =>
      cases hv with
      | bare => exact fun h => absurd rfl h
      | init _ _ he => exact fun _ => he.whole
    | tail _ htail => exact ih v htail

theorem Stmt.SpelledInit.whole {s : Stmt} (h : Stmt.SpelledInit ts s) :
    s ≠ .absent → s.Whole := by
  cases h with
  | absent => exact fun h => absurd rfl h
  | declares hs => exact fun _ => hs.whole
  | expr he => exact fun _ => .expr he.whole

theorem Stmt.Spelled.whole {allows : Feature → Bool} {s : Stmt}
    (h : Stmt.Spelled allows ts s) : s.Whole := by
  induction h with
  | block _ _ _ ih =>
    refine .block ?_
    intro s hs
    obtain ⟨i, hi, rfl⟩ := List.mem_map.1 hs
    exact ih i hi
  | empty => exact .empty _
  | locals hs => exact hs.whole
  | cond _ _ htest _ _ ih => exact .cond htest.whole ih fun h => absurd rfl h
  | condElse _ _ htest _ _ _ _ _ ihyes ihno => exact .cond htest.whole ihyes fun _ => ihno
  | whileLoop _ _ htest _ _ ih => exact .whileLoop htest.whole ih
  | forLoop _ _ _ hinit _ htest _ hstep _ _ ih =>
    exact .forLoop hinit.whole htest.whole hstep.whole ih
  | breakLoop => exact .breakLoop _
  | continueLoop => exact .continueLoop _
  | ret _ he => exact .ret he.whole
  | expr he => exact .expr he.whole

theorem Program.Spelled.whole {allows : Feature → Bool} {p : Program}
    (h : Program.Spelled allows ts p) : ∀ f ∈ p, f.Whole := by
  intro f hf
  obtain ⟨_, -, hf⟩ := h.exists_function f hf
  cases hf with
  | prototype => exact .inl rfl
  | definition _ _ _ _ _ hbody =>
    cases hbody.whole with
    | block hstmts => exact .inr ⟨_, rfl, hstmts⟩

/-! ## Expressions -/

mutual

/-- The tree that the checker makes of an expression, and the type of the expression. -/
inductive Expr.Elab (c : TypingContext) (env : Env) : Expr → Expr → Ty → Prop where
  | int (p : Pos) (n : Int) : Elab c env (.int p n) (.int p n) .int
  | bool (p : Pos) (b : Bool) : Elab c env (.bool p b) (.bool p b) .boolean
  | var {v : Variable} {b : Binding} : env.find? v.name = some b →
    Elab c env (.var v) (.var { v with binding := some b }) b.type
  | assign {p : Pos} {v : Variable} {b : Binding} {e e' : Expr} : env.find? v.name = some b →
    Elab c env e e' b.type → Elab c env (.assign p v e) (.assign p { v with binding := some b } e')
      b.type
  | call {p : Pos} {name : String} {args args' : List (Bool × Expr)} {callee : Option Nat} {i : Nat}
      {f : Function} : c.declared.find? name = some (i, f) → f.result.isValue = true →
    Expr.ElabArgs c env f.params args args' →
    Elab c env (.call p name args callee) (.call p name args' (some i)) f.result
  | neg {p : Pos} {e e' : Expr} : Elab c env e e' .int →
    Elab c env (.unary p .neg e) (.unary p .neg e') .int
  | not {p : Pos} {e e' : Expr} : Elab c env e e' .boolean →
    Elab c env (.unary p .not e) (.unary p .not e') .boolean
  | arith {p : Pos} {op : ArithOp} {l l' r r' : Expr} : (∀ k, op ≠ .other k) →
    Elab c env l l' .int → Elab c env r r' .int →
    Elab c env (.arith p op l r) (.arith p op l' r') .int
  | order {p : Pos} {op : CompOp} {l l' r r' : Expr} : op ≠ .eq → op ≠ .ne →
    Elab c env l l' .int → Elab c env r r' .int →
    Elab c env (.comp p op l r) (.comp p op l' r') .boolean
  | equality {p : Pos} {op : CompOp} {l l' r r' : Expr} {type : Ty} : op = .eq ∨ op = .ne →
    Elab c env l l' type → Elab c env r r' type →
    Elab c env (.comp p op l r) (.comp p op l' r') .boolean
  | logic {p : Pos} {op : LogicOp} {l l' r r' : Expr} :
    Elab c env l l' .boolean → Elab c env r r' .boolean →
    Elab c env (.logic p op l r) (.logic p op l' r') .boolean

/-- The arguments of a call for the parameters of the function. -/
inductive Expr.ElabArgs (c : TypingContext) (env : Env) :
    List Param → List (Bool × Expr) → List (Bool × Expr) → Prop where
  | nil : ElabArgs c env [] [] []
  | cons {p : Param} {ps : List Param} {mark : Bool} {e e' : Expr} {args args' : List (Bool × Expr)} :
    Expr.Elab c env e e' p.type → ElabArgs c env ps args args' →
    ElabArgs c env (p :: ps) ((mark, e) :: args) ((p.byRef, e') :: args')

end

/-- An expression that may be left out, else of a type that satisfies `ok`. -/
inductive Expr.ElabOrAbsent (c : TypingContext) (env : Env) (ok : Ty → Prop) :
    Expr → Expr → Prop where
  | absent : ElabOrAbsent c env ok .absent .absent
  | present {e e' : Expr} {type : Ty} : ok type → Expr.Elab c env e e' type →
    ElabOrAbsent c env ok e e'

/-- An expression that is a statement: a call may then return nothing. -/
inductive Expr.ElabEffect (c : TypingContext) (env : Env) : Expr → Expr → Prop where
  | value {e e' : Expr} {type : Ty} : Expr.Elab c env e e' type → ElabEffect c env e e'
  | call {p : Pos} {name : String} {args args' : List (Bool × Expr)} {callee : Option Nat} {i : Nat}
      {f : Function} : c.declared.find? name = some (i, f) →
    Expr.ElabArgs c env f.params args args' →
    ElabEffect c env (.call p name args callee) (.call p name args' (some i))

/-! ## Statements -/

/-- The variables of a declaration. Each is in scope after its initial value. -/
inductive Local.ElabAll (c : TypingContext) (type : Ty) :
    Env → Frame → List Local → List Local → Env → Frame → Prop where
  | nil {env : Env} {fr : Frame} : ElabAll c type env fr [] [] env fr
  | cons {env env' : Env} {fr fr' : Frame} {v : Local} {vars vars' : List Local} {init : Expr}
      {b : Binding} :
    Expr.ElabOrAbsent c env (· = type) v.init init →
    b = ⟨v.name, type, fr.push.offset c.settings.wordSize, false⟩ →
    ElabAll c type (b :: env) fr.push vars vars' env' fr' →
    ElabAll c type env fr (v :: vars) ({ v with init, binding := some b } :: vars') env' fr'

mutual

/-- The tree that the checker makes of a statement of function `f`. The environment and the frame
    go in and come out. -/
inductive Stmt.Elab (c : TypingContext) (f : Function) :
    Bool → Env → Frame → Stmt → Stmt → Env → Frame → Prop where
  | block {inLoop : Bool} {env env' : Env} {fr fr' : Frame} {p : Pos} {stmts stmts' : List Stmt} :
    Stmt.ElabAll c f inLoop env fr stmts stmts' env' fr' →
    Elab c f inLoop env fr (.block p stmts) (.block p stmts') env (fr'.release fr.live)
  | empty {inLoop : Bool} {env : Env} {fr : Frame} (p : Pos) :
    Elab c f inLoop env fr (.empty p) (.empty p) env fr
  | expr {inLoop : Bool} {env : Env} {fr : Frame} {p : Pos} {e e' : Expr} :
    Expr.ElabEffect c env e e' → Elab c f inLoop env fr (.expr p e) (.expr p e') env fr
  | locals {inLoop : Bool} {env env' : Env} {fr fr' : Frame} {p : Pos} {type : Ty}
      {vars vars' : List Local} : type.isValue = true →
    Local.ElabAll c type env fr vars vars' env' fr' →
    Elab c f inLoop env fr (.locals p type vars) (.locals p type vars') env' fr'
  | cond {inLoop : Bool} {env env' : Env} {fr fr' : Frame} {p : Pos} {test test' : Expr}
      {yes yes' : Stmt} : Expr.Elab c env test test' .boolean →
    Elab c f inLoop env fr yes yes' env' fr' →
    Elab c f inLoop env fr (.cond p test yes .absent) (.cond p test' yes' .absent) env fr'
  | condElse {inLoop : Bool} {env env₁ env₂ : Env} {fr fr₁ fr₂ : Frame} {p : Pos}
      {test test' : Expr} {yes yes' no no' : Stmt} : Expr.Elab c env test test' .boolean →
    Elab c f inLoop env fr yes yes' env₁ fr₁ → Elab c f inLoop env fr₁ no no' env₂ fr₂ →
    Elab c f inLoop env fr (.cond p test yes no) (.cond p test' yes' no') env fr₂
  | whileLoop {inLoop : Bool} {env env' : Env} {fr fr' : Frame} {p : Pos} {test test' : Expr}
      {body body' : Stmt} : Expr.Elab c env test test' .boolean →
    Elab c f true env fr body body' env' fr' →
    Elab c f inLoop env fr (.whileLoop p test body) (.whileLoop p test' body') env
      (fr'.release fr.live)
  | forLoop {inLoop : Bool} {env env' : Env} {fr fr' : Frame} {p : Pos}
      {test test' step step' : Expr} {body body' : Stmt} :
    Expr.ElabOrAbsent c env (· = .boolean) test test' →
    Expr.ElabOrAbsent c env (fun _ => True) step step' →
    Elab c f true env fr body body' env' fr' →
    Elab c f inLoop env fr (.forLoop p .absent test step body) (.forLoop p .absent test' step' body')
      env (fr'.release fr.live)
  | forLoopInit {inLoop : Bool} {env env₁ env₂ : Env} {fr fr₁ fr₂ : Frame} {p : Pos}
      {init init' : Stmt} {test test' step step' : Expr} {body body' : Stmt} :
    Elab c f inLoop env fr init init' env₁ fr₁ →
    Expr.ElabOrAbsent c env₁ (· = .boolean) test test' →
    Expr.ElabOrAbsent c env₁ (fun _ => True) step step' →
    Elab c f true env₁ fr₁ body body' env₂ fr₂ →
    Elab c f inLoop env fr (.forLoop p init test step body) (.forLoop p init' test' step' body') env
      (fr₂.release fr.live)
  | breakLoop {env : Env} {fr : Frame} (p : Pos) :
    Elab c f true env fr (.breakLoop p) (.breakLoop p) env fr
  | continueLoop {env : Env} {fr : Frame} (p : Pos) :
    Elab c f true env fr (.continueLoop p) (.continueLoop p) env fr
  | ret {inLoop : Bool} {env : Env} {fr : Frame} {p : Pos} {e e' : Expr} :
    Expr.ElabOrAbsent c env (fun type => f.result = type ∧ type ≠ .void) e e' →
    (e = .absent → f.result = .void) →
    Elab c f inLoop env fr (.ret p e) (.ret p e') env fr

/-- Statements one after the other. -/
inductive Stmt.ElabAll (c : TypingContext) (f : Function) :
    Bool → Env → Frame → List Stmt → List Stmt → Env → Frame → Prop where
  | nil {inLoop : Bool} {env : Env} {fr : Frame} : ElabAll c f inLoop env fr [] [] env fr
  | cons {inLoop : Bool} {env env₁ env₂ : Env} {fr fr₁ fr₂ : Frame} {s s' : Stmt}
      {stmts stmts' : List Stmt} : Stmt.Elab c f inLoop env fr s s' env₁ fr₁ →
    ElabAll c f inLoop env₁ fr₁ stmts stmts' env₂ fr₂ →
    ElabAll c f inLoop env fr (s :: stmts) (s' :: stmts') env₂ fr₂

end

/-! ## Functions -/

/-- The function that the checker makes of a function. A prototype stays as it is. -/
inductive Function.Elab (c : TypingContext) : Function → Function → Prop where
  | prototype {f : Function} : f.isPrototype = true → Elab c f f
  | definition {f : Function} {b : Body} {params : List Param} {env env' : Env}
      {reports : List Report} {stmts : List Stmt} {fr : Frame} {returns : Bool} :
    f.isPrototype = false → f.body = some b →
    bindParams c.settings 0 [] [] f.params = (params, env, reports) →
    Stmt.ElabAll c f false env {} b.stmts stmts env' fr →
    Elab c f { f with
      params
      body := some { b with stmts }
      frameBytes := fr.bytes c.settings.wordSize
      returns }

end MiniCompiler
