import Mathlib.Algebra.Group.Nat.Defs
import MiniCompiler.Proofs.RegisterNeed

/-!
# What the depth says of side effects

One number stands for the registers that an expression needs and for its side effects. The two readings
do not get mixed up: an expression with an assignment or a call in it is `deep`, and one without them
gets there only if it has `2 ^ (deep - 1)` leaves, since every step of depth doubles the leaves
(`Expr.depth_tells`). So the right operand of an operator comes first only where neither operand has a
side effect.

`Expr.Gauges` is what carries the induction: how a depth, a side effect and a number of leaves belong
together.
-/

namespace MiniCompiler

namespace Expr

/-- Is there an assignment or a call anywhere in an expression? -/
def hasEffect : Expr → Bool
  | .absent | .int .. | .bool .. | .var .. => false
  | .assign .. | .call .. => true
  | .unary _ _ e => e.hasEffect
  | .arith _ _ l r | .comp _ _ l r | .logic _ _ l r => l.hasEffect || r.hasEffect

mutual

/-- The number of constants and variables in an expression. -/
def leaves : Expr → Nat
  | .absent => 0
  | .int .. | .bool .. | .var .. => 1
  | .assign _ _ e => 1 + e.leaves
  | .call _ _ args _ => leavesAll args
  | .unary _ _ e => e.leaves
  | .arith _ _ l r | .comp _ _ l r | .logic _ _ l r => l.leaves + r.leaves

def leavesAll : List (Bool × Expr) → Nat
  | [] => 0
  | (_, e) :: args => e.leaves + leavesAll args

end

/-! ## Depths, effects and leaves -/

/-- The depth `n` fits an expression that has a side effect as `effect` says, and so many leaves. -/
structure Gauges (n : Nat) (effect : Bool) (leaves : Nat) : Prop where
  pos : 1 ≤ n
  le_deep : n ≤ deep
  eq_deep : effect = true → n = deep
  two_pow_le : effect = false → 2 ^ (n - 1) ≤ leaves

section

variable {a b p q : Nat} {x y : Bool}

theorem gauges_leaf : Gauges 1 false 1 :=
  ⟨Nat.le_refl 1, by decide, by simp, fun _ => Nat.le_refl 1⟩

theorem gauges_deep {p : Nat} : Gauges deep true p :=
  ⟨by decide, Nat.le_refl deep, fun _ => rfl, by simp⟩

/-- Where one operand is deep, so is the operator. -/
theorem Gauges.saturate (ha : Gauges a x p) (hb : Gauges b y q) (h : deep ≤ a ∨ deep ≤ b) :
    Gauges deep (x || y) (p + q) := by
  refine ⟨by decide, Nat.le_refl deep, fun _ => rfl, ?_⟩
  intro heffect
  rw [Bool.or_eq_false_iff] at heffect
  obtain h | h := h
  · have hpow := ha.two_pow_le heffect.1
    rw [Nat.le_antisymm ha.le_deep h] at hpow
    exact Nat.le_add_right_of_le hpow
  · have hpow := hb.two_pow_le heffect.2
    rw [Nat.le_antisymm hb.le_deep h] at hpow
    exact Nat.le_add_left_of_le hpow

/-- The deeper one of two operands that have no side effect. -/
theorem Gauges.deeper (ha : Gauges a x p) (hb : Gauges b y q) (h : ¬ (deep ≤ a ∨ deep ≤ b)) :
    Gauges (max a b) (x || y) (p + q) := by
  have hx : x = false := Bool.eq_false_iff.2 fun hx => h (.inl (Nat.le_of_eq (ha.eq_deep hx).symm))
  have hy : y = false := Bool.eq_false_iff.2 fun hy => h (.inr (Nat.le_of_eq (hb.eq_deep hy).symm))
  refine ⟨Nat.le_trans ha.pos (Nat.le_max_left a b), Nat.max_le.2 ⟨ha.le_deep, hb.le_deep⟩, ?_, ?_⟩
  · simp [hx, hy]
  · intro _
    obtain hle | hle := Nat.le_total a b
    · rw [Nat.max_eq_right hle]
      exact Nat.le_add_left_of_le (hb.two_pow_le hy)
    · rw [Nat.max_eq_left hle]
      exact Nat.le_add_right_of_le (ha.two_pow_le hx)

theorem Gauges.share (ha : Gauges a x p) (hb : Gauges b y q) :
    Gauges (shareDepth a b) (x || y) (p + q) := by
  unfold shareDepth
  split
  next h => exact ha.saturate hb h
  next h => exact ha.deeper hb h

theorem Gauges.join (ha : Gauges a x p) (hb : Gauges b y q) :
    Gauges (joinDepth a b) (x || y) (p + q) := by
  unfold joinDepth
  split
  next h => exact ha.saturate hb h
  next h =>
    split
    next heq =>
      -- Two operands of one depth: the leaves of both are needed for the next power.
      subst heq
      have hmax := ha.deeper hb h
      rw [Nat.max_self] at hmax
      refine ⟨Nat.le_add_left 1 a, by omega, fun heffect => ?_, fun heffect => ?_⟩
      · have hdeep := hmax.eq_deep heffect
        omega
      · rw [Bool.or_eq_false_iff] at heffect
        have hp := ha.two_pow_le heffect.1
        have hq := hb.two_pow_le heffect.2
        have hpos := ha.pos
        calc 2 ^ (a + 1 - 1) = 2 ^ (a - 1) + 2 ^ (a - 1) := by
              rw [← Nat.two_mul, ← Nat.pow_succ', Nat.succ_eq_add_one, Nat.sub_add_cancel hpos,
                Nat.add_sub_cancel]
          _ ≤ p + q := Nat.add_le_add hp hq
    next => exact ha.deeper hb h

end

/-- The depth of an expression fits it. -/
theorem gauges_depth {e : Expr} (h : e.hasDepth = true) : Gauges e.depth e.hasEffect e.leaves := by
  cases e with
  | absent => cases h
  | int | bool | var => exact gauges_leaf
  | assign | call => exact gauges_deep
  | unary _ _ e => exact gauges_depth (e := e) h
  | arith _ _ l r | comp _ _ l r =>
    obtain ⟨hl, hr⟩ := Bool.and_eq_true_iff.1 h
    exact (gauges_depth hl).join (gauges_depth hr)
  | logic _ _ l r =>
    obtain ⟨hl, hr⟩ := Bool.and_eq_true_iff.1 h
    exact (gauges_depth hl).share (gauges_depth hr)

theorem Whole.hasDepth {e : Expr} (h : e.Whole) : e.hasDepth = true := by
  induction h with
  | int | bool | var | assign | call => rfl
  | unary _ _ ih => exact ih
  | arith _ _ _ ihl ihr | comp _ _ ihl ihr | logic _ _ ihl ihr =>
    exact Bool.and_eq_true_iff.2 ⟨ihl, ihr⟩

theorem depth?_eq_ok {e : Expr} {n : Nat} :
    e.depth? = .ok n ↔ e.hasDepth = true ∧ e.depth = n := by
  unfold depth?
  split <;> simp_all

end Expr

/-! ## The order of operands -/

/-- Evaluates two operands in turn, `first` into register `free` and `second` into the next one, and
    gives `combine` their registers. -/
def inTurn (t : Target) (first second : Code) (pushed : Int) (free : Nat)
    (combine : (first second : Operand) → Emit Unit) : Emit Unit :=
  t.withSpill (free + 1) pushed fun pushed => do
    first.value pushed free
    second.value pushed (free + 1)
    combine (← t.reg free) (← t.reg (free + 1))


theorem Emit.ofExcept_ok_bind {α β : Type} (a : α) (f : α → Emit β) :
    (Emit.ofExcept (.ok a) >>= f) = f a := rfl

theorem Target.register_cases (t : Target) (n : Int) :
    (∃ r, t.register n = .ok r) ∨ t.register n = .error .noRegister := by
  unfold Target.register
  split
  · split <;> simp
  · simp

/-- Two registers can be asked for in either order: they are missing for the same reason. -/
theorem Target.reg_comm (t : Target) (m n : Int) (f : Operand → Operand → Emit Unit) :
    (do let a ← t.reg m; let b ← t.reg n; f a b) = (do let b ← t.reg n; let a ← t.reg m; f a b) := by
  unfold Target.reg
  obtain ⟨r, hr⟩ | hr := t.register_cases m <;> obtain ⟨q, hq⟩ | hq := t.register_cases n <;>
    rw [hr, hq] <;> rfl

/-- Which operand comes first depends on the depths alone. -/
theorem operands_eq_inTurn {l r : Expr} (hl : l.hasDepth = true) (hr : r.hasDepth = true)
    (t : Target) (lcode rcode : Code) (pushed : Int) (free : Nat)
    (combine : (left right : Operand) → Emit Unit) :
    operands t l r lcode rcode pushed free combine =
      if Expr.deep ≤ l.depth ∨ Expr.deep ≤ r.depth ∨ r.depth ≤ l.depth then
        inTurn t lcode rcode pushed free combine
      else inTurn t rcode lcode pushed free fun right left => combine left right := by
  have hdl : l.depth? = .ok l.depth := Expr.depth?_eq_ok.2 ⟨hl, rfl⟩
  have hdr : r.depth? = .ok r.depth := Expr.depth?_eq_ok.2 ⟨hr, rfl⟩
  rw [operands, hdl, hdr, Emit.ofExcept_ok_bind, Emit.ofExcept_ok_bind]
  by_cases h : Expr.deep ≤ l.depth ∨ Expr.deep ≤ r.depth ∨ r.depth ≤ l.depth
  · simp only [if_pos h]
    rfl
  · simp only [if_neg h]
    rw [t.reg_comm (free + 1) free combine]
    rfl

/-- The depth of an expression is a safe test for side effects. Every expression that lacks nothing has
    one. It lies between 1 and `deep`; it is `deep` if there is an assignment or a call anywhere, and if
    there is none then the leaves are at least `2 ^ (depth - 1)`, so that nothing with fewer than
    `2 ^ (deep - 1)` leaves is taken for a side effect by mistake. An operator has its right operand
    evaluated first only if neither operand has a side effect. -/
theorem Expr.depth_tells :
    (∀ e : Expr, e.Whole → ∃ n, e.depth? = .ok n) ∧
    (∀ (e : Expr) (n : Nat), e.depth? = .ok n →
      (1 ≤ n ∧ n ≤ deep) ∧ (e.hasEffect = true → n = deep) ∧
      (e.hasEffect = false → 2 ^ (n - 1) ≤ e.leaves ∧ (n = deep → 2 ^ (deep - 1) ≤ e.leaves))) ∧
    ∀ (l r : Expr) (m n : Nat), l.depth? = .ok m → r.depth? = .ok n →
      ∃ rightFirst : Bool, (rightFirst = true → l.hasEffect = false ∧ r.hasEffect = false) ∧
        ∀ t lcode rcode pushed free combine, operands t l r lcode rcode pushed free combine =
          if rightFirst then inTurn t rcode lcode pushed free fun right left => combine left right
          else inTurn t lcode rcode pushed free combine := by
  refine ⟨fun e he => ⟨e.depth, depth?_eq_ok.2 ⟨he.hasDepth, rfl⟩⟩, fun e n h => ?_,
    fun l r m n hm hn => ?_⟩
  · obtain ⟨hdepth, rfl⟩ := depth?_eq_ok.1 h
    have hg := gauges_depth hdepth
    refine ⟨⟨hg.pos, hg.le_deep⟩, hg.eq_deep, fun heffect => ?_⟩
    have hpow := hg.two_pow_le heffect
    exact ⟨hpow, fun hdeep => hdeep ▸ hpow⟩
  · obtain ⟨hl, rfl⟩ := depth?_eq_ok.1 hm
    obtain ⟨hr, rfl⟩ := depth?_eq_ok.1 hn
    refine ⟨!decide (deep ≤ l.depth ∨ deep ≤ r.depth ∨ r.depth ≤ l.depth), fun h => ?_, ?_⟩
    · rw [Bool.not_eq_true', decide_eq_false_iff_not, not_or, not_or] at h
      refine ⟨Bool.eq_false_iff.2 fun heffect => h.1 ?_, Bool.eq_false_iff.2 fun heffect => h.2.1 ?_⟩
      · exact Nat.le_of_eq ((gauges_depth hl).eq_deep heffect).symm
      · exact Nat.le_of_eq ((gauges_depth hr).eq_deep heffect).symm
    · intro t lcode rcode pushed free combine
      rw [operands_eq_inTurn hl hr]
      by_cases h : deep ≤ l.depth ∨ deep ≤ r.depth ∨ r.depth ≤ l.depth <;> simp [h]

/-- In `a - (b = a * a)` the left operand comes first although the right one is deeper, and `tangled`,
    which has no side effect, has leaves enough for its depth. -/
theorem Expr.depth_tells_assignedOperand :
    let a : Expr := .var ⟨{}, "a", none⟩
    let r : Expr := .assign {} ⟨{}, "b", none⟩ (.arith {} .mul a a)
    (tangled.depth? = .ok 3 ∧ tangled.hasEffect = false ∧ 2 ^ (3 - 1) ≤ tangled.leaves) ∧
      (r.Whole ∧ ∃ n, r.depth? = .ok n) ∧
      (a.depth? = .ok 1 ∧ r.depth? = .ok deep ∧ ∀ t lcode rcode pushed free combine,
        operands t a r lcode rcode pushed free combine =
          inTurn t lcode rcode pushed free combine) := by
  intro a r
  have htangled : tangled.depth? = .ok 3 := rfl
  have ha : a.depth? = .ok 1 := rfl
  have hr : r.depth? = .ok deep := rfl
  have hwhole : r.Whole := .assign (.arith (by simp) (.var _) (.var _))
  refine ⟨⟨htangled, rfl, ((depth_tells.2.1 tangled 3 htangled).2.2 rfl).1⟩,
    ⟨hwhole, depth_tells.1 r hwhole⟩, ha, hr, ?_⟩
  obtain ⟨rightFirst, heffect, heq⟩ := depth_tells.2.2 a r 1 deep ha hr
  have hleft : rightFirst = false := Bool.eq_false_iff.2 fun h => absurd (heffect h).2 (by decide)
  simpa [hleft] using heq

end MiniCompiler
