import MiniCompiler.Lowering.Program
import MiniCompiler.Proofs.Retelling

/-!
# Code that is written alike

What the code of a tree does not depend on: the positions and the numbers of functions that the tree
holds, the warning switches, and the labels that were taken before, but for the numbers of its own. A
step of emitting that starts with `k` more labels taken goes alike (`Emit.Alike k`) if it writes the
same lines with `k` added to the number of every label.
-/

namespace MiniCompiler

/-! ## Shifted lines -/

/-- Adds `k` to the number of a label that the compiler made. -/
def Label.shift (k : Nat) : Label → Label
  | .fresh n => .fresh (n + k)
  | .symbol name => .symbol name

/-- Adds `k` to the number of the label in a line. -/
def Line.shift (k : Nat) : Line → Line
  | .label l => .label (l.shift k)
  | .instr (.jump l) => .instr (.jump (l.shift k))
  | .instr (.jumpIf cond l) => .instr (.jumpIf cond (l.shift k))
  | line => line

theorem Label.shift_zero (l : Label) : l.shift 0 = l := by
  cases l <;> rfl

theorem Line.shift_zero (l : Line) : l.shift 0 = l := by
  cases l with
  | instr i => cases i <;> simp [Line.shift, Label.shift_zero]
  | label l => simp [Line.shift, Label.shift_zero]
  | written | comment | directive => rfl

def LoopLabels.shift (k : Nat) (l : LoopLabels) : LoopLabels :=
  ⟨l.continueLabel.map (Label.shift k), l.breakLabel.map (Label.shift k)⟩

/-! ## Steps -/

/-- With `k` more labels taken before, `y` does what `x` does: it gives the value of `x` under `g` and
    writes the lines of `x`, shifted. -/
def Emit.Alike (k : Nat) {α β : Type} (g : α → β) (x : Emit α) (y : Emit β) : Prop :=
  ∀ n, y (n + k) = ⟨(x n).result.map g, (x n).lines.map (Line.shift k), (x n).labels + k⟩

namespace Emit

variable {k : Nat} {α β γ δ : Type} {g : α → β} {h : γ → δ}

theorem alike_pure (g : α → β) (a : α) : Alike k g (pure a) (pure (g a)) := fun _ => rfl

theorem Alike.bind {x : Emit α} {y : Emit β} {f : α → Emit γ} {f' : β → Emit δ}
    (hx : Alike k g x y) (hf : ∀ a, Alike k h (f a) (f' (g a))) : Alike k h (x >>= f) (y >>= f') := by
  intro n
  have hbind : (y >>= f') (n + k) = Emit.bind y f' (n + k) := rfl
  have hbind' : (x >>= f) n = Emit.bind x f n := rfl
  rw [hbind, hbind', Emit.bind, Emit.bind, hx n]
  generalize x n = r
  obtain ⟨result, lines, n'⟩ := r
  cases result with
  | error e => rfl
  | ok a =>
    have hsecond := hf a n'
    simp only [Except.map, hsecond, List.map_append]

theorem Alike.ite {b : Prop} [Decidable b] {x x' : Emit α} {y y' : Emit β} (hx : Alike k g x y)
    (hx' : Alike k g x' y') : Alike k g (if b then x else x') (if b then y else y') := by
  split
  · exact hx
  · exact hx'

theorem Alike.ite_bind {b : Prop} [Decidable b] {x y : Emit Unit} {x' : Emit α} {y' : Emit β}
    (hx : Alike k id x y) (hx' : Alike k g x' y') :
    Alike k g (if b then x >>= fun _ => x' else x') (if b then y >>= fun _ => y' else y') :=
  Alike.ite (hx.bind fun _ => hx') hx'

theorem Alike.ensuring {x : Emit α} {y : Emit β} {after after' : Emit Unit} (hx : Alike k g x y)
    (hafter : Alike k id after after') : Alike k g (x.ensuring after) (y.ensuring after') := by
  intro n
  unfold Emit.ensuring
  have hlast := hafter (x n).labels
  simp only [hx n, hlast, List.map_append]
  generalize after (x n).labels = r
  obtain ⟨result, lines, n'⟩ := r
  cases result <;> rfl

theorem alike_fail (g : α → β) (f : Fault) : Alike k g (fail f) (fail f) := fun _ => rfl

theorem alike_ofExcept (r : Except Fault α) : Alike k id (ofExcept r) (ofExcept r) := by
  intro n
  cases r <;> rfl

theorem alike_lines {ls : List Line} (hls : ls.map (Line.shift k) = ls) :
    Alike k id (lines ls) (lines ls) := by
  intro n
  simp only [lines, hls]
  rfl

theorem alike_instrs {as : List α} {i : α → Instr}
    (hi : ∀ a, (Line.instr (i a)).shift k = .instr (i a)) :
    Alike k id (lines (as.map fun a => .instr (i a))) (lines (as.map fun a => .instr (i a))) :=
  alike_lines (by simp [Function.comp_def, hi])

theorem alike_instr {i : Instr} (hi : (Line.instr i).shift k = .instr i) :
    Alike k id (instr i) (instr i) := alike_lines (by simp [hi])

theorem alike_jump (l : Label) : Alike k id (instr (.jump l)) (instr (.jump (l.shift k))) :=
  fun _ => rfl

theorem alike_jumpIf (c : Cond) (l : Label) :
    Alike k id (instr (.jumpIf c l)) (instr (.jumpIf c (l.shift k))) := fun _ => rfl

theorem alike_label (l : Label) : Alike k id (label l) (label (l.shift k)) := fun _ => rfl

theorem alike_newLabel : Alike k (Label.shift k) newLabel newLabel := by
  intro n
  simp only [newLabel, Nat.add_right_comm n k 1]
  rfl

end Emit

open Emit

/-! ## Parts of expressions -/

/-- Code that goes alike in either form. -/
structure Code.Alike (k : Nat) (a b : Code) : Prop where
  value : ∀ pushed free, Emit.Alike k id (a.value pushed free) (b.value pushed free)
  branch : ∀ l sense pushed free,
    Emit.Alike k id (a.branch l sense pushed free) (b.branch (l.shift k) sense pushed free)

section

variable {k : Nat} {t : Target}

theorem Target.alike_reg (n : Int) : Emit.Alike k id (t.reg n) (t.reg n) := alike_ofExcept _

theorem Target.alike_withSpill {α β : Type} {g : α → β} {step : Int → Emit α} {step' : Int → Emit β}
    (r pushed : Int) (h : ∀ pushed, Emit.Alike k g (step pushed) (step' pushed)) :
    Emit.Alike k g (t.withSpill r pushed step) (t.withSpill r pushed step') := by
  have hspill : Emit.Alike k id (t.spill r pushed) (t.spill r pushed) := by
    refine Alike.ite ?_ (alike_pure id _)
    exact (t.alike_reg r).bind fun _ => (alike_instr rfl).bind fun _ => alike_pure id _
  have hunspill : Emit.Alike k id (t.unspill r) (t.unspill r) :=
    Alike.ite ((t.alike_reg r).bind fun _ => alike_instr rfl) (alike_pure id _)
  exact hspill.bind fun inner => (h inner).ensuring hunspill

theorem Code.alike_ofValue {value value' : Int → Nat → Emit Unit}
    (h : ∀ pushed free, Emit.Alike k id (value pushed free) (value' pushed free)) :
    Code.Alike k (Code.ofValue t value) (Code.ofValue t value') := by
  refine ⟨h, fun l sense pushed free => ?_⟩
  refine (h pushed free).bind fun _ => (t.alike_reg _).bind fun _ => ?_
  exact (alike_instr rfl).bind fun _ => alike_jumpIf _ l

theorem alike_bindingOf (v : Variable) : Emit.Alike k id (bindingOf v) (bindingOf v) := by
  unfold bindingOf
  split
  · exact alike_pure id _
  · exact alike_fail id _

theorem alike_withVariable (b : Binding) (pushed : Int) (free : Nat) {access : Operand → Instr}
    (haccess : ∀ word, (Line.instr (access word)).shift k = .instr (access word)) :
    Emit.Alike k id (withVariable t b pushed free access) (withVariable t b pushed free access) := by
  refine Alike.ite (t.alike_withSpill _ _ fun _ => ?_) (alike_instr (haccess _))
  refine (alike_ofExcept _).bind fun _ => (alike_instr rfl).bind fun _ => ?_
  exact alike_instr (haccess _)

theorem alike_operands {l r l' r' : Expr} (hl' : l'.depth? = l.depth?) (hr' : r'.depth? = r.depth?)
    {lcode rcode lcode' rcode' : Code} (hl : lcode.Alike k lcode') (hr : rcode.Alike k rcode')
    (pushed : Int) (free : Nat) {combine : Operand → Operand → Emit Unit}
    (hcombine : ∀ a b, Emit.Alike k id (combine a b) (combine a b)) :
    Emit.Alike k id (operands t l r lcode rcode pushed free combine)
      (operands t l' r' lcode' rcode' pushed free combine) := by
  unfold operands
  rw [hl', hr']
  refine (alike_ofExcept _).bind fun _ => (alike_ofExcept _).bind fun _ => ?_
  refine t.alike_withSpill _ _ fun pushed => Alike.ite ?_ ?_
  · refine (hl.value _ _).bind fun _ => (hr.value _ _).bind fun _ => ?_
    exact (t.alike_reg _).bind fun _ => (t.alike_reg _).bind fun _ => hcombine _ _
  · refine (hr.value _ _).bind fun _ => (hl.value _ _).bind fun _ => ?_
    exact (t.alike_reg _).bind fun _ => (t.alike_reg _).bind fun _ => hcombine _ _

theorem alike_divide (left right dst : Operand) (remainder : Bool) :
    Emit.Alike k id (divide t left right dst remainder) (divide t left right dst remainder) := by
  refine (t.alike_reg _).bind fun low => (t.alike_reg _).bind fun high => ?_
  refine (alike_instrs fun _ => rfl).bind fun _ => (alike_instr rfl).bind fun _ => ?_
  refine Alike.ite_bind (alike_instr rfl) ((alike_instr rfl).bind fun _ => ?_)
  refine (alike_instr rfl).bind fun _ => (alike_instr rfl).bind fun _ => ?_
  exact Alike.ite_bind (alike_instr rfl) (alike_instrs fun _ => rfl)

theorem alike_combineInto (dst : Operand) {instr : Operand → Operand → Instr}
    (hinstr : ∀ a b, (Line.instr (instr a b)).shift k = .instr (instr a b)) (left right : Operand) :
    Emit.Alike k id (combineInto dst instr left right) (combineInto dst instr left right) :=
  (alike_instr (hinstr _ _)).bind fun _ => Alike.ite (alike_instr rfl) (alike_pure id _)

theorem alike_branchLogic (op : LogicOp) {l r l' r' : Code} (hl : l.Alike k l') (hr : r.Alike k r')
    (label : Label) (sense : Bool) (pushed : Int) (free : Nat) :
    Emit.Alike k id (branchLogic op l r label sense pushed free)
      (branchLogic op l' r' (label.shift k) sense pushed free) := by
  refine Alike.ite ?_ (alike_newLabel.bind fun skip => ?_)
  · exact (hl.branch _ _ _ _).bind fun _ => hr.branch _ _ _ _
  · refine (hl.branch _ _ _ _).bind fun _ => (hr.branch _ _ _ _).bind fun _ => ?_
    exact alike_label skip

theorem alike_passValue {code code' : Code} (h : code.Alike k code') (pushed offset : Int) :
    Emit.Alike k id (passValue t code pushed offset) (passValue t code' pushed offset) :=
  (h.value _ _).bind fun _ => (t.alike_reg _).bind fun _ => alike_instr rfl

theorem alike_passVariable (v : Variable) (offset : Int) :
    Emit.Alike k id (passVariable t v offset) (passVariable t v offset) := by
  refine (t.alike_reg _).bind fun r => (alike_bindingOf v).bind fun b => ?_
  refine (alike_instr ?_).bind fun _ => alike_instr rfl
  split <;> rfl

theorem alike_passTemporary {code code' : Code} (h : code.Alike k code')
    (pushed offset temp : Int) :
    Emit.Alike k id (passTemporary t code pushed offset temp)
      (passTemporary t code' pushed offset temp) := by
  refine (t.alike_reg _).bind fun r => (h.value _ _).bind fun _ => ?_
  exact (alike_instr rfl).bind fun _ => (alike_instr rfl).bind fun _ => alike_instr rfl

end

/-! ## Expressions -/

/-- The settings with other warning switches. -/
def Settings.withWarnings (s : Settings) (on : Warning → Bool) : Settings :=
  { s with switches.warning := on }

section

variable (m : Retelling)

theorem Expr.depth_retell (e : Expr) :
    (e.retell m).depth = e.depth ∧ (e.retell m).hasDepth = e.hasDepth := by
  cases e with
  | absent | int | bool | var | assign | call => exact ⟨rfl, rfl⟩
  | unary _ _ e => exact e.depth_retell
  | arith _ _ l r | comp _ _ l r | logic _ _ l r =>
    obtain ⟨hl, hl'⟩ := l.depth_retell
    obtain ⟨hr, hr'⟩ := r.depth_retell
    simp only [Expr.retell, Expr.depth, Expr.hasDepth, hl, hl', hr, hr', and_self]

theorem Expr.depth?_retell (e : Expr) : (e.retell m).depth? = e.depth? := by
  rw [Expr.depth?, Expr.depth?, (e.depth_retell m).1, (e.depth_retell m).2]

theorem temporaries_retellAll (args : List (Bool × Expr)) :
    temporaries (Expr.retellAll m args) = temporaries args := by
  induction args with
  | nil => rfl
  | cons a args ih =>
    obtain ⟨byRef, e⟩ := a
    unfold temporaries at ih ⊢
    simp only [Expr.retellAll, List.countP_cons, ih, Expr.isVariable_retell]

theorem argBytes_retellAll (wordSize : Int) (args : List (Bool × Expr)) :
    argBytes wordSize (Expr.retellAll m args) = argBytes wordSize args := by
  rw [argBytes, argBytes, Expr.length_retellAll]

theorem isEmpty_retellAll (args : List (Bool × Expr)) :
    (Expr.retellAll m args).isEmpty = args.isEmpty := by
  cases args <;> rfl

variable {k : Nat} (s : Settings) (on : Warning → Bool)

theorem alike_callCode (name : String) (args : List (Bool × Expr)) {pass pass' : Int → Emit Unit}
    (hpass : ∀ pushed, Emit.Alike k id (pass pushed) (pass' pushed)) (pushed : Int) (free : Nat) :
    Emit.Alike k id (callCode s name args pass pushed free)
      (callCode (s.withWarnings on) name (Expr.retellAll m args) pass' pushed free) := by
  unfold callCode
  simp only [isEmpty_retellAll, argBytes_retellAll, temporaries_retellAll]
  refine (alike_ofExcept _).bind fun dst => (alike_ofExcept _).bind fun saved => ?_
  refine (alike_instrs fun _ => rfl).bind fun _ => Alike.ite_bind (alike_instr rfl) ?_
  refine (hpass _).bind fun _ => (alike_instr rfl).bind fun _ => ?_
  refine Alike.ite_bind (alike_instr rfl) ((alike_ofExcept _).bind fun result => ?_)
  exact Alike.ite_bind (alike_instr rfl) (alike_instrs fun _ => rfl)

mutual

/-- The code of a retold expression goes alike, whatever warnings are on. -/
theorem Expr.alike_code (e : Expr) :
    (e.code s).Alike k ((e.retell m).code (s.withWarnings on)) := by
  cases e with
  | absent =>
    exact Code.alike_ofValue fun _ _ => (alike_ofExcept _).bind fun _ => alike_fail id _
  | int p n =>
    refine Code.alike_ofValue fun _ _ => (alike_ofExcept _).bind fun _ => alike_instr ?_
    unfold Target.load
    split <;> rfl
  | bool p b =>
    refine ⟨fun _ _ => (alike_ofExcept _).bind fun _ => alike_instr rfl, fun l _ _ _ => ?_⟩
    exact Alike.ite (alike_jump l) (alike_pure id _)
  | var v =>
    refine Code.alike_ofValue fun _ _ => (alike_ofExcept _).bind fun _ => ?_
    exact (alike_bindingOf v).bind fun _ => alike_withVariable _ _ _ fun _ => rfl
  | assign p v e =>
    refine Code.alike_ofValue fun _ _ => (alike_ofExcept _).bind fun _ => ?_
    refine (e.alike_code.value _ _).bind fun _ => ?_
    exact (alike_bindingOf v).bind fun _ => alike_withVariable _ _ _ fun _ => rfl
  | call p name args callee =>
    refine Code.alike_ofValue fun _ _ => alike_callCode m s on name args (fun _ => ?_) _ _
    rw [argBytes_retellAll]
    exact alike_passArgs _ 0 0 args _
  | unary p op e =>
    have he := e.alike_code
    cases op with
    | neg =>
      refine Code.alike_ofValue fun _ _ => (alike_ofExcept _).bind fun _ => ?_
      exact (he.value _ _).bind fun _ => alike_instr rfl
    | not =>
      refine ⟨fun _ _ => (alike_ofExcept _).bind fun _ => ?_, fun _ _ _ _ => he.branch _ _ _ _⟩
      exact (he.value _ _).bind fun _ => alike_instr rfl
    | other =>
      refine Code.alike_ofValue fun _ _ => (alike_ofExcept _).bind fun _ => ?_
      exact (he.value _ _).bind fun _ => alike_fail id _
  | arith p op l r =>
    have hl := l.alike_code
    have hr := r.alike_code
    have hdepth := l.depth?_retell m
    have hdepth' := r.depth?_retell m
    refine Code.alike_ofValue fun _ _ => (alike_ofExcept _).bind fun dst => ?_
    cases op with
    | add | sub | mul =>
      exact alike_operands hdepth hdepth' hl hr _ _ (alike_combineInto dst fun _ _ => rfl)
    | div | rem =>
      exact alike_operands hdepth hdepth' hl hr _ _ fun _ _ => alike_divide _ _ dst _
    | other => exact alike_fail id _
  | comp p op l r =>
    have hcmp (l r : Operand) : Emit.Alike k id (Emit.instr (.cmp r l)) (Emit.instr (.cmp r l)) :=
      alike_instr rfl
    have hcompare (pushed : Int) (free : Nat) := alike_operands (t := s.target)
      (l.depth?_retell m) (r.depth?_retell m) l.alike_code r.alike_code pushed free hcmp
    refine ⟨fun _ _ => (alike_ofExcept _).bind fun dst => ?_, fun l _ _ _ => ?_⟩
    · refine alike_newLabel.bind fun yes => (hcompare _ _).bind fun _ => ?_
      refine (alike_instr rfl).bind fun _ => (alike_jumpIf _ yes).bind fun _ => ?_
      exact (alike_instr rfl).bind fun _ => alike_label yes
    · exact (hcompare _ _).bind fun _ => alike_jumpIf _ l
  | logic p op l r =>
    have hbranch := alike_branchLogic op l.alike_code r.alike_code
    refine ⟨fun _ _ => (alike_ofExcept _).bind fun dst => ?_, hbranch⟩
    refine alike_newLabel.bind fun no => alike_newLabel.bind fun done => ?_
    refine (hbranch _ _ _ _).bind fun _ => (alike_instr rfl).bind fun _ => ?_
    refine (alike_jump done).bind fun _ => (alike_label no).bind fun _ => ?_
    exact (alike_instr rfl).bind fun _ => alike_label done

theorem alike_passArgs (size : Int) (i j : Nat) (args : List (Bool × Expr)) (pushed : Int) :
    Emit.Alike k id (passArgs s size i j args pushed)
      (passArgs (s.withWarnings on) size i j (Expr.retellAll m args) pushed) := by
  cases args with
  | nil => exact alike_pure id _
  | cons a args =>
    obtain ⟨mark, e⟩ := a
    have hcode := e.alike_code
    have hrest := fun i j => alike_passArgs size i j args pushed
    cases mark with
    | false => exact (alike_passValue hcode _ _).bind fun _ => hrest _ _
    | true =>
      cases e with
      | var v => exact (alike_passVariable v _).bind fun _ => hrest _ _
      | _ => exact (alike_passTemporary hcode _ _ _).bind fun _ => hrest _ _

end

/-! ## Statements -/

theorem alike_labelOrNew (l : Option Label) :
    Emit.Alike k (Label.shift k) (labelOrNew l) (labelOrNew (l.map (Label.shift k))) := by
  cases l with
  | none => exact alike_newLabel
  | some l => exact alike_pure _ _

theorem alike_labelIfTaken (l : Option Label) :
    Emit.Alike k id (labelIfTaken l) (labelIfTaken (l.map (Label.shift k))) := by
  cases l with
  | none => exact alike_pure id _
  | some l => exact alike_label l

theorem LoopLabels.alike_jumps (loop : Option LoopLabels) :
    Emit.Alike k (Option.map (shift k)) (jumpContinue loop) (jumpContinue (loop.map (shift k))) ∧
    Emit.Alike k (Option.map (shift k)) (jumpBreak loop) (jumpBreak (loop.map (shift k))) := by
  cases loop with
  | none => exact ⟨alike_fail _ _, alike_fail _ _⟩
  | some labels =>
    constructor
    all_goals
      refine (alike_labelOrNew _).bind fun l => (alike_jump l).bind fun _ => ?_
      exact alike_pure (Option.map (shift k)) _

theorem alike_loopCode (test step : Expr) (pushed : Int)
    {body body' : Option LoopLabels → Emit (Option LoopLabels)}
    (hbody : Emit.Alike k (Option.map (LoopLabels.shift k)) (body (some {})) (body' (some {}))) :
    Emit.Alike k id (loopCode s test step pushed body)
      (loopCode (s.withWarnings on) (test.retell m) (step.retell m) pushed body') := by
  have hlabels (loop : Option LoopLabels) :
      (loop.map (LoopLabels.shift k)).getD {} = (loop.getD {}).shift k := by
    cases loop <;> rfl
  unfold loopCode
  rw [Expr.isAbsent_retell, Expr.isAbsent_retell]
  refine alike_newLabel.bind fun start => alike_newLabel.bind fun testLabel => ?_
  refine (alike_jump testLabel).bind fun _ => (alike_label start).bind fun _ => ?_
  refine hbody.bind fun loop => ?_
  rw [hlabels]
  refine (alike_labelIfTaken _).bind fun _ => ?_
  refine Alike.ite_bind ((step.alike_code m s on).value _ _) ?_
  refine (alike_label testLabel).bind fun _ => Alike.ite ?_ ?_
  · exact (alike_jump start).bind fun _ => alike_labelIfTaken _
  · exact ((test.alike_code m s on).branch _ _ _ _).bind fun _ => alike_labelIfTaken _

theorem alike_localsCode (pushed : Int) (vars : List Local) :
    Emit.Alike k id (localsCode s pushed vars)
      (localsCode (s.withWarnings on) pushed (vars.map (Local.retell m))) := by
  induction vars with
  | nil => exact alike_pure id _
  | cons v vars ih =>
    have hinit : (v.retell m).init = v.init.retell m := rfl
    rw [List.map_cons, localsCode, localsCode, hinit, Expr.isAbsent_retell]
    refine Alike.ite ?_ ?_
    · exact (alike_bindingOf _).bind fun _ => (alike_instr rfl).bind fun _ => ih
    · refine ((v.init.alike_code m s on).value _ _).bind fun _ => ?_
      refine (alike_ofExcept _).bind fun _ => (alike_bindingOf _).bind fun _ => ?_
      exact (alike_instr rfl).bind fun _ => ih

theorem Stmt.retell_eq_absent {st : Stmt} : st.retell m = .absent ↔ st = .absent := by
  cases st <;> simp [Stmt.retell]

variable (exit : Label) (pushed : Int)

mutual

theorem Stmt.alike_code (st : Stmt) (loop : Option LoopLabels) :
    Emit.Alike k (Option.map (LoopLabels.shift k)) (st.code s exit pushed loop)
      ((st.retell m).code (s.withWarnings on) (exit.shift k) pushed
        (loop.map (LoopLabels.shift k))) := by
  cases st with
  | absent => exact alike_fail _ _
  | block p stmts => exact Stmt.alike_codeAll stmts loop
  | empty p => exact alike_pure _ _
  | expr p e => exact ((e.alike_code m s on).value _ _).bind fun _ => alike_pure _ _
  | locals p type vars =>
    exact (alike_localsCode m s on pushed vars).bind fun _ => alike_pure _ _
  | cond p test yes no =>
    have htest := test.alike_code (k := k) m s on
    have hyes := Stmt.alike_code yes loop
    have hno := fun loop => Stmt.alike_code no loop
    -- a branch that is left out takes no label, and it stays left out when it is retold
    by_cases habs : no = .absent
    · subst habs
      refine alike_newLabel.bind fun done => (htest.branch _ _ _ _).bind fun _ => ?_
      exact hyes.bind fun _ => (alike_label done).bind fun _ => alike_pure _ _
    · rw [Stmt.retell, Stmt.code, Stmt.code]
      · refine alike_newLabel.bind fun done => alike_newLabel.bind fun otherwise => ?_
        refine (htest.branch _ _ _ _).bind fun _ => hyes.bind fun loop₁ => ?_
        refine (alike_jump done).bind fun _ => (alike_label otherwise).bind fun _ => ?_
        exact (hno loop₁).bind fun _ => (alike_label done).bind fun _ => alike_pure _ _
      · exact fun h => habs ((Stmt.retell_eq_absent m).1 h)
      · exact habs
  | whileLoop p test body =>
    have hbody := Stmt.alike_code body (some {})
    exact (alike_loopCode m s on test .absent pushed hbody).bind fun _ => alike_pure _ _
  | forLoop p init test step body =>
    have hbody := Stmt.alike_code body (some {})
    have hloop := alike_loopCode (k := k) m s on test step pushed hbody
    have hinit := Stmt.alike_code init loop
    by_cases habs : init = .absent
    · subst habs
      exact hloop.bind fun _ => alike_pure _ _
    · rw [Stmt.retell, Stmt.code, Stmt.code]
      · exact hinit.bind fun _ => hloop.bind fun _ => alike_pure _ _
      · exact fun h => habs ((Stmt.retell_eq_absent m).1 h)
      · exact habs
  | breakLoop p => exact (LoopLabels.alike_jumps loop).2
  | continueLoop p => exact (LoopLabels.alike_jumps loop).1
  | ret p e =>
    rw [Stmt.retell, Stmt.code, Stmt.code, Expr.isAbsent_retell]
    exact Alike.ite_bind ((e.alike_code m s on).value _ _)
      ((alike_jump exit).bind fun _ => alike_pure _ _)

theorem Stmt.alike_codeAll (stmts : List Stmt) (loop : Option LoopLabels) :
    Emit.Alike k (Option.map (LoopLabels.shift k)) (Stmt.codeAll s exit pushed stmts loop)
      (Stmt.codeAll (s.withWarnings on) (exit.shift k) pushed (Stmt.retellAll m stmts)
        (loop.map (LoopLabels.shift k))) := by
  cases stmts with
  | nil => exact alike_pure _ _
  | cons st stmts => exact (Stmt.alike_code st loop).bind fun loop' => Stmt.alike_codeAll stmts loop'

end

/-! ## Functions -/

theorem Target.prologue_shift (t : Target) (symbol : String) (frameBytes : Int) :
    (t.prologue symbol frameBytes).map (Line.shift k) = t.prologue symbol frameBytes := by
  have hif : (if 0 < wrap frameBytes then [Line.instr (.sub (.imm frameBytes) t.sp)] else []).map
      (Line.shift k) = if 0 < wrap frameBytes then [.instr (.sub (.imm frameBytes) t.sp)] else [] := by
    split <;> rfl
  simp only [Target.prologue, List.map_append, hif, List.map_map]
  rfl

theorem Target.epilogue_shift (t : Target) : t.epilogue.map (Line.shift k) = t.epilogue := by
  simp only [Target.epilogue, List.map_append, List.map_map]
  rfl

theorem Function.alike_code (f : Function) :
    Emit.Alike k id (f.code s) ((f.retell m).code (s.withWarnings on)) := by
  refine alike_newLabel.bind fun exit => ?_
  refine (alike_lines (s.target.prologue_shift _ _)).bind fun _ => ?_
  have hbody : (f.retell m).body = f.body.map (Body.retell m) := rfl
  rw [hbody]
  cases f.body with
  | none => exact alike_fail id _
  | some b =>
    refine (Stmt.alike_codeAll m s on exit _ b.stmts none).bind fun _ => ?_
    exact (alike_label exit).bind fun _ => alike_lines s.target.epilogue_shift

theorem Program.alike_functionsCode (fs : List Function) :
    Emit.Alike k id (Program.functionsCode s fs)
      (Program.functionsCode (s.withWarnings on) (fs.map (Function.retell m))) := by
  induction fs with
  | nil => exact alike_pure id _
  | cons f fs ih => exact Alike.ite_bind (f.alike_code m s on) ih

end

/-- Steps that go alike from the same labels on are the same. -/
theorem Emit.Alike.eq {x y : Emit Unit} (h : Emit.Alike 0 id x y) : y = x := by
  funext n
  have hshift : Line.shift 0 = id := funext Line.shift_zero
  have hrun := h n
  rw [hshift, List.map_id] at hrun
  refine hrun.trans ?_
  generalize x n = r
  obtain ⟨result, lines, n'⟩ := r
  cases result <;> rfl

/-- The assembly of a retold program is the same, whatever warnings are on. -/
theorem Program.assembly_retell (m : Retelling) (s : Settings) (on : Warning → Bool) (p : Program) :
    Program.assembly (s.withWarnings on) (p.map (Function.retell m)) = p.assembly s := by
  have hcode := (Program.alike_functionsCode m s on p).eq
  simp only [Program.assembly, Program.code, hcode]
  rfl

end MiniCompiler
