import MiniCompiler.Typing.Stmt

/-!
# The meaning of programs

What a program does, as a function on its trees. Variables live in a store, where each has a number,
its cell; a scope gives names their cells. An argument is passed as a cell: a variable that is passed
by reference lends its own, anything else gets a fresh one. Expressions are evaluated from left to
right.

Integers have `w` bits and wrap around. A division traps if its divisor is zero or if its quotient is
no integer of `w` bits. `Stop.stuck` is for what the checker rules out. A limit bounds the depth of
calls and the rounds of each loop; with a larger limit, what ended goes on to end the same way.
-/

namespace MiniCompiler

/-! ## Values and the store -/

/-- A value of the language. -/
inductive Value (w : Nat) where
  | int (n : BitVec w)
  | bool (b : Bool)
  deriving DecidableEq, Repr

/-- Why an evaluation has no result. -/
inductive Stop where
  | trap
  | stuck
  | limit
  deriving DecidableEq, Repr

/-- The values of all variables so far, in the order of their cells. -/
abbrev Store (w : Nat) := List (Value w)

/-- The cells of the names in scope, the innermost first. -/
abbrev Naming := List (String × Nat)

/-- A step of evaluation, from a store to a value and the store after it. -/
def Eval (w : Nat) (α : Type) : Type := Store w → Except Stop (α × Store w)

namespace Eval

variable {w : Nat} {α β : Type}

protected def pure (a : α) : Eval w α := fun σ => .ok (a, σ)

protected def bind (x : Eval w α) (f : α → Eval w β) : Eval w β := fun σ =>
  match x σ with
  | .error e => .error e
  | .ok (a, σ) => f a σ

instance : Monad (Eval w) where
  pure := Eval.pure
  bind := Eval.bind

def stop (e : Stop) : Eval w α := fun _ => .error e

def ofExcept (r : Except Stop α) : Eval w α := fun σ => r.map (·, σ)

def load (cell : Nat) : Eval w (Value w) := fun σ =>
  match σ[cell]? with
  | some v => .ok (v, σ)
  | none => .error .stuck

def store (cell : Nat) (v : Value w) : Eval w Unit := fun σ =>
  if cell < σ.length then .ok ((), σ.set cell v) else .error .stuck

/-- Makes a new variable. -/
def alloc (v : Value w) : Eval w Nat := fun σ => .ok (σ.length, σ ++ [v])

/-- The cell of a name. -/
def cellOf (scope : Naming) (name : String) : Eval w Nat :=
  match scope.lookup name with
  | some cell => pure cell
  | none => stop .stuck

end Eval

/-! ## Operators -/

section

variable {w : Nat}

/-- The value of a variable that is declared without one. -/
def Ty.zero : Ty → Value w
  | .boolean => .bool false
  | _ => .int 0

def Value.toInt? : Value w → Except Stop (BitVec w)
  | .int n => .ok n
  | .bool _ => .error .stuck

def Value.toBool? : Value w → Except Stop Bool
  | .bool b => .ok b
  | .int _ => .error .stuck

/-- Does the quotient exist? -/
def divides (a b : BitVec w) : Bool := b ≠ 0 && !(a == BitVec.intMin w && b == -1)

def ArithOp.apply (op : ArithOp) (a b : BitVec w) : Except Stop (BitVec w) :=
  match op with
  | .add => .ok (a + b)
  | .sub => .ok (a - b)
  | .mul => .ok (a * b)
  | .div => if divides a b then .ok (a.sdiv b) else .error .trap
  | .rem => if divides a b then .ok (a.srem b) else .error .trap
  | .other _ => .error .stuck

/-- Compares integers by their order, and booleans only for being equal. -/
def CompOp.apply (op : CompOp) : Value w → Value w → Except Stop Bool
  | .int a, .int b => .ok <| match op with
    | .lt => a.slt b
    | .le => a.sle b
    | .gt => b.slt a
    | .ge => b.sle a
    | .eq => a == b
    | .ne => a != b
  | .bool a, .bool b =>
    match op with
    | .eq => .ok (a == b)
    | .ne => .ok (a != b)
    | _ => .error .stuck
  | _, _ => .error .stuck

end

/-! ## Expressions -/

def Program.definition? (p : Program) (name : String) : Option Function :=
  List.find? (fun f => !f.isPrototype && f.name == name) p

open Eval

section

variable {w : Nat} (p : Program) (call : String → List Nat → Eval w (Option (Value w)))

mutual

/-- The value of an expression. `call` says what a call does. -/
def Expr.eval (scope : Naming) : Expr → Eval w (Value w)
  | .absent => stop .stuck
  | .int _ n => pure (.int (BitVec.ofInt w n))
  | .bool _ b => pure (.bool b)
  | .var v => do load (← cellOf scope v.name)
  | .assign _ v e => do
    let x ← e.eval scope
    store (← cellOf scope v.name) x
    return x
  | .call _ name args _ =>
    match p.definition? name with
    | none => stop .stuck
    | some f => do
      match ← call name (← Expr.evalArgs scope args f.params) with
      | some v => return v
      | none => stop .stuck
  | .unary _ op e => do
    let x ← e.eval scope
    match op with
    | .neg => return .int (-(← ofExcept x.toInt?))
    | .not => return .bool (!(← ofExcept x.toBool?))
    | .other _ => stop .stuck
  | .arith _ op l r => do
    let a ← ofExcept (← l.eval scope).toInt?
    let b ← ofExcept (← r.eval scope).toInt?
    return .int (← ofExcept (op.apply a b))
  | .comp _ op l r => do
    let a ← l.eval scope
    let b ← r.eval scope
    return .bool (← ofExcept (op.apply a b))
  | .logic _ op l r => do
    let a ← ofExcept (← l.eval scope).toBool?
    if a = (op == .or) then return .bool a
    else return .bool (← ofExcept (← r.eval scope).toBool?)

/-- The cells of the arguments of a call. -/
def Expr.evalArgs (scope : Naming) : List (Bool × Expr) → List Param → Eval w (List Nat)
  | [], [] => return []
  | (_, .var v) :: args, q :: ps => do
    let cell ← if q.byRef then cellOf scope v.name
      else do alloc (← load (← cellOf scope v.name))
    return cell :: (← Expr.evalArgs scope args ps)
  | (_, e) :: args, _ :: ps => do
    let cell ← alloc (← e.eval scope)
    return cell :: (← Expr.evalArgs scope args ps)
  | _, _ => stop .stuck

end

/-- An expression whose value is not used: a call then need not return one. -/
def Expr.run (scope : Naming) (e : Expr) : Eval w Unit :=
  match e with
  | .call _ name args _ =>
    match p.definition? name with
    | none => stop .stuck
    | some f => do
      let _ ← call name (← Expr.evalArgs p call scope args f.params)
      return ()
  | e => do
    let _ ← e.eval p call scope
    return ()

/-- The value of the test of a conditional or a loop. A test that was left out is true. -/
def Expr.holds (scope : Naming) (e : Expr) : Eval w Bool :=
  if e.isAbsent then pure true else do ofExcept (← e.eval p call scope).toBool?

end

/-! ## Statements -/

/-- How a statement ends. -/
inductive Flow (w : Nat) where
  | next
  | broke
  | continued
  | returned (v : Option (Value w))
  deriving DecidableEq, Repr

/-- A loop of at most the given number of rounds. -/
def iterate {w : Nat} (test : Eval w Bool) (body : Eval w (Flow w)) (step : Eval w Unit) :
    Nat → Eval w (Flow w)
  | 0 => stop .limit
  | n + 1 => do
    if ← test then
      match ← body with
      | .broke => return .next
      | .returned v => return .returned v
      | .next | .continued => do
        step
        iterate test body step n
    else return .next

section

variable {w : Nat} (p : Program) (call : String → List Nat → Eval w (Option (Value w)))

/-- The scope after a declaration. -/
def Local.declareAll (type : Ty) : List Local → Naming → Eval w Naming
  | [], scope => return scope
  | v :: vars, scope => do
    let x ← if v.init.isAbsent then pure type.zero else v.init.eval p call scope
    let cell ← alloc x
    Local.declareAll type vars ((v.name, cell) :: scope)

mutual

/-- What a statement does: how it ends, and the scope after it. A loop makes at most `limit` rounds. -/
def Stmt.exec (limit : Nat) : Stmt → Naming → Eval w (Flow w × Naming)
  | .absent, _ => stop .stuck
  | .block _ stmts, scope => return (← Stmt.execAll limit stmts scope, scope)
  | .empty _, scope => return (.next, scope)
  | .expr _ e, scope => do
    e.run p call scope
    return (.next, scope)
  | .locals _ type vars, scope => return (.next, ← Local.declareAll p call type vars scope)
  | .cond _ test yes no, scope => do
    if ← test.holds p call scope then return ((← yes.exec limit scope).1, scope)
    else if no.isAbsent then return (.next, scope)
    else return ((← no.exec limit scope).1, scope)
  | .whileLoop _ test body, scope => do
    let flow ← iterate (test.holds p call scope) (do return (← body.exec limit scope).1) (pure ())
      limit
    return (flow, scope)
  | .forLoop _ init test step body, scope => do
    let (flow, inner) ← if init.isAbsent then pure (Flow.next, scope) else init.exec limit scope
    if flow ≠ .next then return (flow, scope)
    else
      let flow ← iterate (test.holds p call inner) (do return (← body.exec limit inner).1)
        (if step.isAbsent then pure () else do let _ ← step.eval p call inner) limit
      return (flow, scope)
  | .breakLoop _, scope => return (.broke, scope)
  | .continueLoop _, scope => return (.continued, scope)
  | .ret _ e, scope => do
    if e.isAbsent then return (.returned none, scope)
    else return (.returned (some (← e.eval p call scope)), scope)

/-- Statements one after the other, up to one that does not end with `next`. -/
def Stmt.execAll (limit : Nat) : List Stmt → Naming → Eval w (Flow w)
  | [], _ => return .next
  | st :: stmts, scope => do
    let (flow, scope) ← st.exec limit scope
    if flow = .next then Stmt.execAll limit stmts scope else return flow

end

end

/-! ## Programs -/

/-- The scope in which the body of a function starts. -/
def Function.naming (f : Function) (cells : List Nat) : Naming :=
  ((f.params.map Param.name).zip cells).reverse

/-- What a function does with the cells of its arguments: the value that it returns, if any. -/
def Program.call {w : Nat} (p : Program) : Nat → String → List Nat → Eval w (Option (Value w))
  | 0, _, _ => stop .limit
  | n + 1, name, cells =>
    match p.definition? name with
    | none => stop .stuck
    | some f =>
      match f.body with
      | none => stop .stuck
      | some b => do
        match ← Stmt.execAll p (p.call n) n b.stmts (f.naming cells) with
        | .returned v => return v
        | .next => if f.result = .void then return none else stop .stuck
        | .broke | .continued => stop .stuck

/-! ## Evaluations that end -/

/-- From the store `σ`, `x` gives `a` and leaves the store `σ'`. -/
def Ends {w : Nat} {α : Type} (x : Eval w α) (σ : Store w) (a : α) (σ' : Store w) : Prop :=
  x σ = .ok (a, σ')

section

variable {w : Nat} {α β : Type} {σ σ' : Store w} {a : α} {b : β} {name : String} {v : Value w}
  {cell : Nat}

theorem ends_pure {c : α} : Ends (pure c : Eval w α) σ a σ' ↔ c = a ∧ σ = σ' := by
  have heq : (pure c : Eval w α) σ = .ok (c, σ) := rfl
  simp [Ends, heq]

theorem ends_bind {x : Eval w α} {f : α → Eval w β} :
    Ends (x >>= f) σ b σ' ↔ ∃ a σ₁, Ends x σ a σ₁ ∧ Ends (f a) σ₁ b σ' := by
  have heq : (x >>= f) σ = Eval.bind x f σ := rfl
  rw [Ends, heq, Eval.bind]
  unfold Ends
  cases hx : x σ with
  | error e => simp
  | ok r =>
    obtain ⟨a₁, σ₁⟩ := r
    constructor
    · intro h
      exact ⟨a₁, σ₁, rfl, h⟩
    · rintro ⟨_, _, heq, h⟩
      cases heq
      exact h

theorem not_ends_stop {e : Stop} : ¬ Ends (stop e : Eval w α) σ a σ' := by
  simp [Ends, stop]

theorem ends_ofExcept {r : Except Stop α} :
    Ends (Eval.ofExcept r) σ a σ' ↔ r = .ok a ∧ σ = σ' := by
  unfold Ends Eval.ofExcept
  cases r with
  | error e => simp [Except.map]
  | ok c => simp [Except.map]

theorem ends_load :
    Ends (Eval.load cell) σ v σ' ↔ σ[cell]? = some v ∧ σ = σ' := by
  unfold Ends Eval.load
  cases σ[cell]? with
  | none => simp
  | some x => simp

theorem ends_store {u : Unit} :
    Ends (Eval.store cell v) σ u σ' ↔ cell < σ.length ∧ σ' = σ.set cell v := by
  unfold Ends Eval.store
  split
  · simp [*, eq_comm]
  · simp [*]

theorem ends_alloc :
    Ends (Eval.alloc v) σ cell σ' ↔ cell = σ.length ∧ σ' = σ ++ [v] := by
  simp [Ends, Eval.alloc, eq_comm]

theorem ends_cellOf {scope : Naming} :
    Ends (Eval.cellOf scope name) σ cell σ' ↔ scope.lookup name = some cell ∧ σ = σ' := by
  unfold Eval.cellOf
  cases scope.lookup name with
  | none => simp [not_ends_stop]
  | some c => simp [ends_pure]

theorem ends_ofExcept_bind {r : Except Stop α} {f : α → Eval w β} :
    Ends (Eval.ofExcept r >>= f) σ b σ' ↔ ∃ a, r = .ok a ∧ Ends (f a) σ b σ' := by
  simp only [ends_bind, ends_ofExcept]
  constructor
  · rintro ⟨a, _, ⟨hr, rfl⟩, h⟩
    exact ⟨a, hr, h⟩
  · rintro ⟨a, hr, h⟩
    exact ⟨a, σ, ⟨hr, rfl⟩, h⟩

theorem ends_cellOf_bind {scope : Naming} {f : Nat → Eval w β} :
    Ends (Eval.cellOf scope name >>= f) σ b σ' ↔
      ∃ cell, scope.lookup name = some cell ∧ Ends (f cell) σ b σ' := by
  simp only [ends_bind, ends_cellOf]
  constructor
  · rintro ⟨cell, _, ⟨hcell, rfl⟩, h⟩
    exact ⟨cell, hcell, h⟩
  · rintro ⟨cell, hcell, h⟩
    exact ⟨cell, σ, ⟨hcell, rfl⟩, h⟩

theorem ends_alloc_bind {f : Nat → Eval w β} :
    Ends (Eval.alloc v >>= f) σ b σ' ↔ Ends (f σ.length) (σ ++ [v]) b σ' := by
  simp only [ends_bind, ends_alloc]
  constructor
  · rintro ⟨_, _, ⟨rfl, rfl⟩, h⟩
    exact h
  · exact fun h => ⟨_, _, ⟨rfl, rfl⟩, h⟩

end

/-! ## What an expression that has a value can do -/

section

variable {w : Nat} {p : Program} {call : String → List Nat → Eval w (Option (Value w))}
  {scope : Naming} {σ σ' : Store w} {v : Value w} {pos : Pos} {e l r : Expr}

-- The equations of the evaluator are made here once; every proof of the section rewrites by them.
attribute [local simp] Expr.eval Expr.evalArgs

theorem Value.toInt?_eq_ok {x : Value w} {n : BitVec w} : x.toInt? = .ok n ↔ x = .int n := by
  cases x <;> simp [Value.toInt?]

theorem Value.toBool?_eq_ok {x : Value w} {b : Bool} : x.toBool? = .ok b ↔ x = .bool b := by
  cases x <;> simp [Value.toBool?]

namespace Expr

theorem ends_var {x : Variable} (h : Ends ((Expr.var x).eval p call scope) σ v σ') :
    ∃ cell, scope.lookup x.name = some cell ∧ σ[cell]? = some v ∧ σ' = σ := by
  rw [Expr.eval] at h
  obtain ⟨cell, hcell, hload⟩ := ends_cellOf_bind.1 h
  obtain ⟨hv, rfl⟩ := ends_load.1 hload
  exact ⟨cell, hcell, hv, rfl⟩

theorem ends_assign {x : Variable} (h : Ends ((Expr.assign pos x e).eval p call scope) σ v σ') :
    ∃ σ₁ cell, Ends (e.eval p call scope) σ v σ₁ ∧ scope.lookup x.name = some cell ∧
      σ' = σ₁.set cell v := by
  rw [Expr.eval] at h
  obtain ⟨u, σ₁, hu, h⟩ := ends_bind.1 h
  obtain ⟨cell, hcell, h⟩ := ends_cellOf_bind.1 h
  obtain ⟨_, σ₂, hstore, h⟩ := ends_bind.1 h
  obtain ⟨-, rfl⟩ := ends_store.1 hstore
  obtain ⟨rfl, rfl⟩ := ends_pure.1 h
  exact ⟨σ₁, cell, hu, hcell, rfl⟩

theorem ends_call {args : List (Bool × Expr)} {callee : Option Nat}
    (h : Ends ((Expr.call pos name args callee).eval p call scope) σ v σ') :
    ∃ f cells σ₁, p.definition? name = some f ∧
      Ends (Expr.evalArgs p call scope args f.params) σ cells σ₁ ∧
      Ends (call name cells) σ₁ (some v) σ' := by
  rw [Expr.eval] at h
  split at h
  · exact absurd h not_ends_stop
  · rename_i f hf
    obtain ⟨cells, σ₁, hargs, h⟩ := ends_bind.1 h
    obtain ⟨u, σ₂, hcall, h⟩ := ends_bind.1 h
    cases u with
    | none => exact absurd h not_ends_stop
    | some u =>
      obtain ⟨rfl, rfl⟩ := ends_pure.1 h
      exact ⟨f, cells, σ₁, hf, hargs, hcall⟩

theorem ends_neg (h : Ends ((Expr.unary pos .neg e).eval p call scope) σ v σ') :
    ∃ n, Ends (e.eval p call scope) σ (.int n) σ' ∧ v = .int (-n) := by
  rw [Expr.eval] at h
  obtain ⟨u, σ₁, hu, h⟩ := ends_bind.1 h
  obtain ⟨n, hn, h⟩ := ends_ofExcept_bind.1 h
  obtain ⟨rfl, rfl⟩ := ends_pure.1 h
  exact ⟨n, Value.toInt?_eq_ok.1 hn ▸ hu, rfl⟩

theorem ends_not (h : Ends ((Expr.unary pos .not e).eval p call scope) σ v σ') :
    ∃ b, Ends (e.eval p call scope) σ (.bool b) σ' ∧ v = .bool !b := by
  rw [Expr.eval] at h
  obtain ⟨u, σ₁, hu, h⟩ := ends_bind.1 h
  obtain ⟨b, hb, h⟩ := ends_ofExcept_bind.1 h
  obtain ⟨rfl, rfl⟩ := ends_pure.1 h
  exact ⟨b, Value.toBool?_eq_ok.1 hb ▸ hu, rfl⟩

theorem ends_arith {op : ArithOp} (h : Ends ((Expr.arith pos op l r).eval p call scope) σ v σ') :
    ∃ a b n σ₁, Ends (l.eval p call scope) σ (.int a) σ₁ ∧
      Ends (r.eval p call scope) σ₁ (.int b) σ' ∧ op.apply a b = .ok n ∧ v = .int n := by
  rw [Expr.eval] at h
  obtain ⟨x, σ₁, hx, h⟩ := ends_bind.1 h
  obtain ⟨a, ha, h⟩ := ends_ofExcept_bind.1 h
  obtain ⟨y, σ₂, hy, h⟩ := ends_bind.1 h
  obtain ⟨b, hb, h⟩ := ends_ofExcept_bind.1 h
  obtain ⟨n, hn, h⟩ := ends_ofExcept_bind.1 h
  obtain ⟨rfl, rfl⟩ := ends_pure.1 h
  exact ⟨a, b, n, σ₁, Value.toInt?_eq_ok.1 ha ▸ hx, Value.toInt?_eq_ok.1 hb ▸ hy, hn, rfl⟩

theorem ends_comp {op : CompOp} (h : Ends ((Expr.comp pos op l r).eval p call scope) σ v σ') :
    ∃ a b q σ₁, Ends (l.eval p call scope) σ a σ₁ ∧ Ends (r.eval p call scope) σ₁ b σ' ∧
      op.apply a b = .ok q ∧ v = .bool q := by
  rw [Expr.eval] at h
  obtain ⟨a, σ₁, ha, h⟩ := ends_bind.1 h
  obtain ⟨b, σ₂, hb, h⟩ := ends_bind.1 h
  obtain ⟨q, hq, h⟩ := ends_ofExcept_bind.1 h
  obtain ⟨rfl, rfl⟩ := ends_pure.1 h
  exact ⟨a, b, q, σ₁, ha, hb, hq, rfl⟩

theorem ends_logic {op : LogicOp} (h : Ends ((Expr.logic pos op l r).eval p call scope) σ v σ') :
    ∃ a q σ₁, Ends (l.eval p call scope) σ (.bool a) σ₁ ∧ v = .bool q ∧
      (a = (op == .or) ∧ q = a ∧ σ' = σ₁ ∨
        a ≠ (op == .or) ∧ Ends (r.eval p call scope) σ₁ (.bool q) σ') := by
  rw [Expr.eval] at h
  obtain ⟨x, σ₁, hx, h⟩ := ends_bind.1 h
  obtain ⟨a, ha, h⟩ := ends_ofExcept_bind.1 h
  rw [Value.toBool?_eq_ok.1 ha] at hx
  split at h
  · obtain ⟨rfl, rfl⟩ := ends_pure.1 h
    exact ⟨a, a, σ₁, hx, rfl, .inl ⟨‹_›, rfl, rfl⟩⟩
  · obtain ⟨y, σ₂, hy, h⟩ := ends_bind.1 h
    obtain ⟨q, hq, h⟩ := ends_ofExcept_bind.1 h
    obtain ⟨rfl, rfl⟩ := ends_pure.1 h
    rw [Value.toBool?_eq_ok.1 hq] at hy
    exact ⟨a, q, σ₁, hx, rfl, .inr ⟨‹_›, hy⟩⟩

/-- The first argument of a call: a new cell for its value, or the cell of a variable. -/
theorem ends_evalArgs_cons {mark : Bool} {args : List (Bool × Expr)} {q : Param} {ps : List Param}
    {cells : List Nat}
    (h : Ends (Expr.evalArgs p call scope ((mark, e) :: args) (q :: ps)) σ cells σ') :
    (∃ u σ₁ cells', (q.byRef = true → e.isVariable = false) ∧ Ends (e.eval p call scope) σ u σ₁ ∧
      Ends (Expr.evalArgs p call scope args ps) (σ₁ ++ [u]) cells' σ' ∧
      cells = σ₁.length :: cells') ∨
    (∃ x cell cells', q.byRef = true ∧ e = .var x ∧ scope.lookup x.name = some cell ∧
      Ends (Expr.evalArgs p call scope args ps) σ cells' σ' ∧ cells = cell :: cells') := by
  -- the rest of the arguments, after the first one got a cell
  have hrest {cell : Nat} {σ₁ : Store w} (h : Ends (do
      return cell :: (← Expr.evalArgs p call scope args ps)) σ₁ cells σ') :
      ∃ cells', Ends (Expr.evalArgs p call scope args ps) σ₁ cells' σ' ∧ cells = cell :: cells' := by
    obtain ⟨cells', _, hargs, h⟩ := ends_bind.1 h
    obtain ⟨rfl, rfl⟩ := ends_pure.1 h
    exact ⟨cells', hargs, rfl⟩
  have hvalue {u : Value w} {σ₁ : Store w} (hu : Ends (e.eval p call scope) σ u σ₁)
      (hkind : q.byRef = true → e.isVariable = false) (h : Ends (do
        let cell ← alloc u
        return cell :: (← Expr.evalArgs p call scope args ps)) σ₁ cells σ') :
      ∃ u σ₁ cells', (q.byRef = true → e.isVariable = false) ∧ Ends (e.eval p call scope) σ u σ₁ ∧
        Ends (Expr.evalArgs p call scope args ps) (σ₁ ++ [u]) cells' σ' ∧
        cells = σ₁.length :: cells' := by
    obtain ⟨cells', hargs, hcells⟩ := hrest (ends_alloc_bind.1 h)
    exact ⟨u, σ₁, cells', hkind, hu, hargs, hcells⟩
  cases e with
  | var x =>
    rw [Expr.evalArgs] at h
    by_cases hbyRef : q.byRef = true
    · rw [if_pos hbyRef] at h
      obtain ⟨cell, hcell, h⟩ := ends_cellOf_bind.1 h
      obtain ⟨cells', hargs, hcells⟩ := hrest h
      exact .inr ⟨x, cell, cells', hbyRef, rfl, hcell, hargs, hcells⟩
    · rw [if_neg hbyRef] at h
      obtain ⟨cell, hcell, h⟩ := ends_cellOf_bind.1 h
      obtain ⟨u, σ₁, hu, h⟩ := ends_bind.1 h
      have hvar : Ends ((Expr.var x).eval p call scope) σ u σ₁ := by
        rw [Expr.eval]
        exact ends_cellOf_bind.2 ⟨cell, hcell, hu⟩
      exact .inl (hvalue hvar (fun h => absurd h hbyRef) h)
  | _ =>
    obtain ⟨u, σ₁, hu, h⟩ := ends_bind.1 h
    exact .inl (hvalue hu (fun _ => rfl) h)

end Expr

end

/-! ## What a statement that ends can do -/

section

variable {w : Nat} {p : Program} {call : String → List Nat → Eval w (Option (Value w))} {limit : Nat}
  {scope scope' : Naming} {σ σ' : Store w} {flow : Flow w} {pos : Pos} {test : Expr}

attribute [local simp] Stmt.exec Stmt.execAll

theorem Expr.ends_holds {b : Bool} (h : Ends (test.holds p call scope) σ b σ') :
    test.isAbsent = true ∧ b = true ∧ σ' = σ ∨
      test.isAbsent = false ∧ Ends (test.eval p call scope) σ (.bool b) σ' := by
  unfold Expr.holds at h
  split at h
  · obtain ⟨rfl, rfl⟩ := ends_pure.1 h
    exact .inl ⟨‹_›, rfl, rfl⟩
  · obtain ⟨v, σ₁, hv, h⟩ := ends_bind.1 h
    obtain ⟨hb, rfl⟩ := ends_ofExcept.1 h
    rw [Value.toBool?_eq_ok.1 hb] at hv
    exact .inr ⟨by simpa using ‹¬ test.isAbsent = true›, hv⟩

theorem ends_iterate_succ {test : Eval w Bool} {body : Eval w (Flow w)} {step : Eval w Unit} {n : Nat}
    (h : Ends (iterate test body step (n + 1)) σ flow σ') : ∃ b σ₁, Ends test σ b σ₁ ∧
      (b = false ∧ flow = .next ∧ σ' = σ₁ ∨ b = true ∧ ∃ out σ₂, Ends body σ₁ out σ₂ ∧
        (out = .broke ∧ flow = .next ∧ σ' = σ₂ ∨
        (∃ v, out = .returned v ∧ flow = .returned v ∧ σ' = σ₂) ∨
        (out = .next ∨ out = .continued) ∧ ∃ u σ₃, Ends step σ₂ u σ₃ ∧
          Ends (iterate test body step n) σ₃ flow σ')) := by
  rw [iterate] at h
  obtain ⟨b, σ₁, htest, h⟩ := ends_bind.1 h
  refine ⟨b, σ₁, htest, ?_⟩
  cases b with
  | false =>
    obtain ⟨rfl, rfl⟩ := ends_pure.1 h
    exact .inl ⟨rfl, rfl, rfl⟩
  | true =>
    obtain ⟨out, σ₂, hbody, h⟩ := ends_bind.1 h
    refine .inr ⟨rfl, out, σ₂, hbody, ?_⟩
    cases out with
    | broke =>
      obtain ⟨rfl, rfl⟩ := ends_pure.1 h
      exact .inl ⟨rfl, rfl, rfl⟩
    | returned v =>
      obtain ⟨rfl, rfl⟩ := ends_pure.1 h
      exact .inr (.inl ⟨v, rfl, rfl, rfl⟩)
    | next =>
      obtain ⟨u, σ₃, hstep, h⟩ := ends_bind.1 h
      exact .inr (.inr ⟨.inl rfl, u, σ₃, hstep, h⟩)
    | continued =>
      obtain ⟨u, σ₃, hstep, h⟩ := ends_bind.1 h
      exact .inr (.inr ⟨.inr rfl, u, σ₃, hstep, h⟩)

theorem Local.ends_declareAll_cons {type : Ty} {v : Local} {vars : List Local}
    (h : Ends (Local.declareAll p call type (v :: vars) scope) σ scope' σ') : ∃ x σ₁,
      (v.init.isAbsent = true ∧ x = type.zero ∧ σ₁ = σ ∨
        v.init.isAbsent = false ∧ Ends (v.init.eval p call scope) σ x σ₁) ∧
      Ends (Local.declareAll p call type vars ((v.name, σ₁.length) :: scope)) (σ₁ ++ [x]) scope' σ' := by
  rw [Local.declareAll] at h
  split at h
  · rename_i habs
    obtain ⟨x, σ₁, hx, h⟩ := ends_bind.1 h
    obtain ⟨rfl, rfl⟩ := ends_pure.1 hx
    exact ⟨_, _, .inl ⟨habs, rfl, rfl⟩, ends_alloc_bind.1 h⟩
  · rename_i habs
    obtain ⟨x, σ₁, hx, h⟩ := ends_bind.1 h
    exact ⟨x, σ₁, .inr ⟨by simpa using habs, hx⟩, ends_alloc_bind.1 h⟩

/-- The flow of the statements of a block, and of what a conditional or a loop selects. The scope ends
    with them. -/
theorem ends_scoped {x : Eval w (Flow w)}
    (h : Ends (do return (← x, scope)) σ (flow, scope') σ') : Ends x σ flow σ' ∧ scope' = scope := by
  obtain ⟨flow₁, σ₁, hx, h⟩ := ends_bind.1 h
  obtain ⟨heq, rfl⟩ := ends_pure.1 h
  cases heq
  exact ⟨hx, rfl⟩

namespace Stmt

theorem ends_cond {yes no : Stmt}
    (h : Ends ((Stmt.cond pos test yes no).exec p call limit scope) σ (flow, scope') σ') :
    scope' = scope ∧ ∃ b σ₁, Ends (test.holds p call scope) σ b σ₁ ∧
      (b = true ∧ (∃ inner, Ends (yes.exec p call limit scope) σ₁ (flow, inner) σ') ∨
        b = false ∧ (no.isAbsent = true ∧ flow = .next ∧ σ' = σ₁ ∨
          no.isAbsent = false ∧ ∃ inner, Ends (no.exec p call limit scope) σ₁ (flow, inner) σ')) := by
  have hbranch {st : Stmt} {σ₁ : Store w} (h : Ends (do
      return ((← st.exec p call limit scope).1, scope)) σ₁ (flow, scope') σ') :
      scope' = scope ∧ ∃ inner, Ends (st.exec p call limit scope) σ₁ (flow, inner) σ' := by
    obtain ⟨⟨flow₁, inner⟩, σ₂, hst, h⟩ := ends_bind.1 h
    obtain ⟨heq, rfl⟩ := ends_pure.1 h
    cases heq
    exact ⟨rfl, inner, hst⟩
  rw [Stmt.exec] at h
  obtain ⟨b, σ₁, htest, h⟩ := ends_bind.1 h
  cases b with
  | true =>
    obtain ⟨hscope, hyes⟩ := hbranch h
    exact ⟨hscope, true, σ₁, htest, .inl ⟨rfl, hyes⟩⟩
  | false =>
    simp only [Bool.false_eq_true, if_false] at h
    split at h
    · obtain ⟨heq, rfl⟩ := ends_pure.1 h
      cases heq
      exact ⟨rfl, false, σ₁, htest, .inr ⟨rfl, .inl ⟨‹_›, rfl, rfl⟩⟩⟩
    · obtain ⟨hscope, hno⟩ := hbranch h
      exact ⟨hscope, false, σ₁, htest, .inr ⟨rfl, .inr ⟨by simpa using ‹¬ no.isAbsent = true›, hno⟩⟩⟩

/-- The body of a loop, which starts with the scope of the loop in every round. -/
abbrev round (p : Program) (call : String → List Nat → Eval w (Option (Value w))) (limit : Nat)
    (scope : Naming) (body : Stmt) : Eval w (Flow w) := do
  return (← body.exec p call limit scope).1

/-- The step of a loop, which may be left out. -/
abbrev advance (p : Program) (call : String → List Nat → Eval w (Option (Value w)))
    (scope : Naming) (step : Expr) : Eval w Unit :=
  if step.isAbsent then pure () else do let _ ← step.eval p call scope

theorem ends_round {body : Stmt} (h : Ends (round p call limit scope body) σ flow σ') :
    ∃ inner, Ends (body.exec p call limit scope) σ (flow, inner) σ' := by
  obtain ⟨⟨flow₁, inner⟩, σ₁, hbody, h⟩ := ends_bind.1 h
  obtain ⟨rfl, rfl⟩ := ends_pure.1 h
  exact ⟨inner, hbody⟩

theorem ends_forLoop {init body : Stmt} {step : Expr}
    (h : Ends ((Stmt.forLoop pos init test step body).exec p call limit scope) σ (flow, scope') σ') :
    scope' = scope ∧ ∃ first inner σ₁,
      (init.isAbsent = true ∧ first = .next ∧ inner = scope ∧ σ₁ = σ ∨
        init.isAbsent = false ∧ Ends (init.exec p call limit scope) σ (first, inner) σ₁) ∧
      (first ≠ .next ∧ flow = first ∧ σ' = σ₁ ∨ first = .next ∧
        Ends (iterate (test.holds p call inner) (round p call limit inner body)
          (advance p call inner step) limit) σ₁ flow σ') := by
  -- the loop after the first part of its header
  have hloop {first : Flow w} {inner : Naming} {σ₁ : Store w} (h : Ends (do
      if first ≠ .next then return (first, scope)
      else return (← iterate (test.holds p call inner) (round p call limit inner body)
        (advance p call inner step) limit, scope)) σ₁ (flow, scope') σ') :
      scope' = scope ∧ (first ≠ .next ∧ flow = first ∧ σ' = σ₁ ∨ first = .next ∧
        Ends (iterate (test.holds p call inner) (round p call limit inner body)
          (advance p call inner step) limit) σ₁ flow σ') := by
    split at h
    · obtain ⟨heq, rfl⟩ := ends_pure.1 h
      cases heq
      exact ⟨rfl, .inl ⟨‹_›, rfl, rfl⟩⟩
    · obtain ⟨hends, hscope⟩ := ends_scoped h
      exact ⟨hscope, .inr ⟨by simpa using ‹¬ first ≠ .next›, hends⟩⟩
  rw [Stmt.exec] at h
  split at h
  · obtain ⟨_, _, hinit, h⟩ := ends_bind.1 h
    obtain ⟨rfl, rfl⟩ := ends_pure.1 hinit
    obtain ⟨hscope, hends⟩ := hloop h
    exact ⟨hscope, .next, scope, σ, .inl ⟨‹_›, rfl, rfl, rfl⟩, hends⟩
  · obtain ⟨⟨first, inner⟩, σ₁, hinit, h⟩ := ends_bind.1 h
    obtain ⟨hscope, hends⟩ := hloop h
    exact ⟨hscope, first, inner, σ₁, .inr ⟨by simpa using ‹¬ init.isAbsent = true›, hinit⟩, hends⟩

theorem ends_ret {e : Expr}
    (h : Ends ((Stmt.ret pos e).exec p call limit scope) σ (flow, scope') σ') : scope' = scope ∧
      (e.isAbsent = true ∧ flow = .returned none ∧ σ' = σ ∨
        e.isAbsent = false ∧ ∃ v, flow = .returned (some v) ∧ Ends (e.eval p call scope) σ v σ') := by
  rw [Stmt.exec] at h
  split at h
  · obtain ⟨heq, rfl⟩ := ends_pure.1 h
    cases heq
    exact ⟨rfl, .inl ⟨‹_›, rfl, rfl⟩⟩
  · obtain ⟨v, σ₁, hv, h⟩ := ends_bind.1 h
    obtain ⟨heq, rfl⟩ := ends_pure.1 h
    cases heq
    exact ⟨rfl, .inr ⟨by simpa using ‹¬ e.isAbsent = true›, v, rfl, hv⟩⟩

/-- Statements go on as long as they end with `next`. -/
theorem ends_execAll_cons {st : Stmt} {stmts : List Stmt}
    (h : Ends (Stmt.execAll p call limit (st :: stmts) scope) σ flow σ') : ∃ first inner σ₁,
      Ends (st.exec p call limit scope) σ (first, inner) σ₁ ∧
      (first = .next ∧ Ends (Stmt.execAll p call limit stmts inner) σ₁ flow σ' ∨
        first ≠ .next ∧ flow = first ∧ σ' = σ₁) := by
  rw [Stmt.execAll] at h
  obtain ⟨⟨first, inner⟩, σ₁, hst, h⟩ := ends_bind.1 h
  refine ⟨first, inner, σ₁, hst, ?_⟩
  simp only at h
  split at h
  · exact .inl ⟨‹_›, h⟩
  · obtain ⟨rfl, rfl⟩ := ends_pure.1 h
    exact .inr ⟨‹_›, rfl, rfl⟩

end Stmt

/-- A function ends with a return, or with its body if it gives no value. -/
theorem Program.ends_call {n : Nat} {f : Function} {cells : List Nat}
    {v : Option (Value w)} (hdef : p.definition? name = some f)
    (h : Ends (p.call (n + 1) name cells) σ v σ') : ∃ b flow, f.body = some b ∧
      Ends (Stmt.execAll p (p.call n) n b.stmts (f.naming cells)) σ flow σ' ∧
      (flow = .returned v ∨ flow = .next ∧ v = none) := by
  cases hbody : f.body with
  | none =>
    simp only [Program.call, hdef, hbody] at h
    exact absurd h not_ends_stop
  | some b =>
    simp only [Program.call, hdef, hbody] at h
    obtain ⟨flow, σ₁, hexec, h⟩ := ends_bind.1 h
    refine ⟨b, flow, rfl, ?_⟩
    cases flow with
    | returned u =>
      obtain ⟨rfl, rfl⟩ := ends_pure.1 h
      exact ⟨hexec, .inl rfl⟩
    | next =>
      simp only at h
      split at h
      · obtain ⟨rfl, rfl⟩ := ends_pure.1 h
        exact ⟨hexec, .inr ⟨rfl, rfl⟩⟩
      · exact absurd h not_ends_stop
    | broke | continued => exact absurd h not_ends_stop

end

end MiniCompiler
