import MiniCompiler.Proofs.CodeTotal
import MiniCompiler.Proofs.Machine

/-!
# How many registers code needs

The depth of an expression is what its code takes of the register file. The code changes the registers
from its destination on, as many as the depth says, and it saves registers on the stack exactly if there
are not so many left (`Expr.depth_exact`). The expressions are those of constants, variables that are
passed by value and operators other than division.

`Instr.changes` tells from the form of an instruction which registers it changes; the machine changes no
others (`Machine.step_regs`). `Emit.Spends` keeps the account of a step of emitting.
-/

namespace MiniCompiler

variable {pos : Pos} {i : Instr} {pushed : Int}

/-! ## Registers that instructions change -/

/-- The register that is changed where this operand is written. -/
def Operand.registers : Operand → List String
  | .reg r => [r]
  | .imm _ | .mem _ _ => []

/-- The registers that an instruction changes. -/
def Instr.changes (t : Target) : Instr → List String
  | .mov _ dst | .lea _ dst | .add _ dst | .sub _ dst | .imul _ dst | .xor _ dst | .or _ dst
  | .neg dst | .loadWide _ dst => dst.registers
  | .pop dst => t.stackPointer :: dst.registers
  | .push _ | .call _ _ | .ret => [t.stackPointer]
  | .idiv _ => [t.dividend.1, t.dividend.2]
  | .widen _ => [t.dividend.2]
  | .cmp _ _ | .jump _ | .jumpIf _ _ => []

/-- Does an instruction push or pop? -/
def Instr.isStack : Instr → Bool
  | .push _ | .pop _ => true
  | _ => false

section

variable {t : Target} {c c' : Core t.bits} {r : String} {src dst : Operand} {v : Word t.bits}
  {f : BitVec t.bits → BitVec t.bits → BitVec t.bits}

theorem Core.store_regs {a : Int} (h : c.store t a v = some c') : c'.regs = c.regs := by
  unfold Core.store at h
  split at h
  · cases h
    rfl
  · cases h

theorem Core.write_regs (h : c.write t v dst = some c') (hr : r ∉ dst.registers) :
    c'.regs r = c.regs r := by
  cases dst with
  | imm => cases h
  | reg q =>
    cases h
    exact Core.regs_setReg_of_ne _ (by simpa [Operand.registers] using hr) _
  | mem offset base =>
    obtain ⟨a, -, hstore⟩ := Option.bind_eq_some_iff.1 h
    rw [Core.store_regs hstore]

theorem Core.push_regs (h : c.push t v = some c') (hr : r ≠ t.stackPointer) :
    c'.regs r = c.regs r := by
  obtain ⟨top, -, hstore⟩ := Option.bind_eq_some_iff.1 h
  rw [Core.store_regs hstore, Core.regs_setReg_of_ne _ hr]

theorem Core.pop_regs (h : c.pop t = some (v, c')) (hr : r ≠ t.stackPointer) :
    c'.regs r = c.regs r := by
  obtain ⟨top, -, h⟩ := Option.bind_eq_some_iff.1 h
  obtain ⟨u, -, h⟩ := Option.bind_eq_some_iff.1 h
  cases h
  exact Core.regs_setReg_of_ne _ hr _

theorem Core.compute_regs {n : BitVec t.bits}
    (h : c.compute t src dst f = some (n, c')) (hr : r ∉ dst.registers) : c'.regs r = c.regs r := by
  unfold Core.compute at h
  split at h
  · cases h
  · obtain ⟨a, -, h⟩ := Option.bind_eq_some_iff.1 h
    obtain ⟨b, -, h⟩ := Option.bind_eq_some_iff.1 h
    split at h
    · obtain ⟨c₁, hwrite, h⟩ := Option.bind_eq_some_iff.1 h
      cases h
      exact Core.write_regs hwrite hr
    · cases h

theorem Core.shift_regs {n : Int}
    (h : c.shift t src dst n f = some c') (hr : r ∉ dst.registers) : c'.regs r = c.regs r := by
  obtain ⟨u, -, h⟩ := Option.bind_eq_some_iff.1 h
  split at h
  · obtain ⟨c₁, hwrite, h⟩ := Option.bind_eq_some_iff.1 h
    cases h
    rw [Core.regs_setFlags, Core.write_regs hwrite hr]
  · obtain ⟨⟨m, c₁⟩, hcompute, h⟩ := Option.bind_eq_some_iff.1 h
    cases h
    rw [Core.regs_setFlags, Core.compute_regs hcompute hr]

theorem Core.divide_regs (h : c.divide t v = some c') (hlow : r ≠ t.dividend.1)
    (hhigh : r ≠ t.dividend.2) : c'.regs r = c.regs r := by
  unfold Core.divide at h
  split at h
  · dsimp only at h
    split at h
    · cases h
    · cases h
      simp [hlow, hhigh]
  · cases h

/-- A sum or another operation on two numbers, after which the flags are not known. -/
theorem Core.computed_regs
    (h : (do return (← c.compute t src dst f).2.setFlags none) = some c')
    (hr : r ∉ dst.registers) : c'.regs r = c.regs r := by
  obtain ⟨⟨n, c₁⟩, hcompute, h⟩ := Option.bind_eq_some_iff.1 h
  cases h
  rw [Core.regs_setFlags, Core.compute_regs hcompute hr]

theorem Instr.effect_regs (h : i.effect t c = some c') (hr : r ∉ i.changes t) :
    c'.regs r = c.regs r := by
  cases i with
  | mov src dst =>
    simp only [effect] at h
    split at h
    · cases h
    · obtain ⟨u, -, h⟩ := Option.bind_eq_some_iff.1 h
      exact Core.write_regs h hr
  | loadWide n dst => exact Core.write_regs h hr
  | lea src dst =>
    cases src with
    | mem offset base =>
      obtain ⟨a, -, h⟩ := Option.bind_eq_some_iff.1 h
      exact Core.write_regs h hr
    | _ => cases h
  | push src =>
    obtain ⟨u, -, h⟩ := Option.bind_eq_some_iff.1 h
    exact Core.push_regs h (by simpa [changes] using hr)
  | pop dst =>
    obtain ⟨⟨u, c₁⟩, hpop, h⟩ := Option.bind_eq_some_iff.1 h
    rw [changes, List.mem_cons, not_or] at hr
    rw [Core.write_regs h hr.2, Core.pop_regs hpop hr.1]
  | add src dst | sub src dst =>
    cases src with
    | imm => exact Core.shift_regs h hr
    | _ => exact Core.computed_regs h hr
  | imul src dst | xor src dst => exact Core.computed_regs h hr
  | or src dst =>
    obtain ⟨⟨n, c₁⟩, hcompute, h⟩ := Option.bind_eq_some_iff.1 h
    cases h
    rw [Core.regs_setFlags, Core.compute_regs hcompute hr]
  | cmp src dst =>
    simp only [effect] at h
    split at h
    · cases h
    · obtain ⟨a, -, h⟩ := Option.bind_eq_some_iff.1 h
      obtain ⟨b, -, h⟩ := Option.bind_eq_some_iff.1 h
      split at h
      · cases h
        rfl
      · cases h
  | neg dst =>
    obtain ⟨u, -, h⟩ := Option.bind_eq_some_iff.1 h
    split at h
    · obtain ⟨c₁, hwrite, h⟩ := Option.bind_eq_some_iff.1 h
      cases h
      rw [Core.regs_setFlags, Core.write_regs hwrite hr]
    · cases h
  | idiv src =>
    obtain ⟨u, -, h⟩ := Option.bind_eq_some_iff.1 h
    simp only [changes, List.mem_cons, List.not_mem_nil, or_false, not_or] at hr
    exact Core.divide_regs h hr.1 hr.2
  | widen name =>
    simp only [effect] at h
    split at h
    · split at h
      · cases h
        exact Core.regs_setReg_of_ne _ (by simpa [changes] using hr) _
      · cases h
    · cases h
  | jump | jumpIf | call | ret => cases h

/-- A step of the machine changes no registers but those that its instruction changes. -/
theorem Machine.step_regs {text rest : List Line} {m : Machine t.bits}
    (h : Machine.step t text ⟨.instr i :: rest, c⟩ = some m) (hr : r ∉ i.changes t) :
    m.core.regs r = c.regs r := by
  cases i with
  | jump l =>
    obtain ⟨dest, -, h⟩ := Option.bind_eq_some_iff.1 h
    cases h
    rfl
  | jumpIf cond l =>
    obtain ⟨o, -, h⟩ := Option.bind_eq_some_iff.1 h
    split at h
    · obtain ⟨dest, -, h⟩ := Option.bind_eq_some_iff.1 h
      cases h
      rfl
    · cases h
      rfl
  | call symbol pushed =>
    obtain ⟨dest, -, h⟩ := Option.bind_eq_some_iff.1 h
    obtain ⟨c₁, hpush, h⟩ := Option.bind_eq_some_iff.1 h
    cases h
    exact Core.push_regs hpush (by simpa [Instr.changes] using hr)
  | ret =>
    obtain ⟨⟨u, c₁⟩, hpop, h⟩ := Option.bind_eq_some_iff.1 h
    dsimp only at h
    split at h
    · cases h
      exact Core.pop_regs hpop (by simpa [Instr.changes] using hr)
    · cases h
  | _ =>
    obtain ⟨c₁, heffect, h⟩ := Option.bind_eq_some_iff.1 h
    cases h
    exact Instr.effect_regs heffect hr

end

/-! ## Accounts -/

/-- A line that is a label, or an instruction that changes only registers of `P`. -/
def Line.Spares (t : Target) (P : String → Prop) : Line → Prop
  | .label _ => True
  | .instr i => ∀ r ∈ i.changes t, P r
  | _ => False

def Line.isStack : Line → Bool
  | .instr i => i.isStack
  | _ => false

/-- The lines that a step writes change only registers of `P`, and they push and pop exactly if `stack`
    holds. -/
def Emit.Spends {α : Type} (t : Target) (P : String → Prop) (stack : Prop) (x : Emit α) : Prop :=
  ∀ n a ls n', Emits x n a ls n' →
    (∀ l ∈ ls, l.Spares t P) ∧ ((∃ l ∈ ls, l.isStack = true) ↔ stack)

namespace Emit

variable {α β : Type} {t : Target} {P P' : String → Prop} {A B : Prop} {free : Nat} {f : β → Emit α}

theorem spends_pure {a : α} : (pure a : Emit α).Spends t P False := by
  intro n b ls n' h
  obtain ⟨-, rfl, -⟩ := emits_pure.1 h
  simp

theorem Spends.bind {x : Emit β} (hx : x.Spends t P A)
    (hf : ∀ b, (f b).Spends t P B) : (x >>= f).Spends t P (A ∨ B) := by
  intro n a ls n' h
  obtain ⟨b, l₁, n₁, l₂, h₁, h₂, rfl⟩ := emits_bind.1 h
  obtain ⟨hspares₁, hstack₁⟩ := hx n b l₁ n₁ h₁
  obtain ⟨hspares₂, hstack₂⟩ := hf b n₁ a l₂ n' h₂
  refine ⟨fun l hl => (List.mem_append.1 hl).elim (hspares₁ l) (hspares₂ l), ?_⟩
  rw [← hstack₁, ← hstack₂]
  simp only [List.mem_append, or_and_right, exists_or]

theorem Spends.congr {x : Emit α} (hx : x.Spends t P A) (h : A ↔ B) : x.Spends t P B :=
  fun n a ls n' hrun => ⟨(hx n a ls n' hrun).1, (hx n a ls n' hrun).2.trans h⟩

theorem Spends.mono {x : Emit α} (hx : x.Spends t P A) (h : ∀ r, P r → P' r) :
    x.Spends t P' A := by
  intro n a ls n' hrun
  obtain ⟨hspares, hstack⟩ := hx n a ls n' hrun
  refine ⟨fun l hl => ?_, hstack⟩
  have hl := hspares l hl
  cases l with
  | instr i => exact fun r hr => h r (hl r hr)
  | _ => exact hl

theorem Spends.then {x : Emit β} (hx : x.Spends t P False)
    (hf : ∀ b, (f b).Spends t P A) : (x >>= f).Spends t P A :=
  (hx.bind hf).congr (by simp)

theorem Spends.last {x : Emit β} (hx : x.Spends t P A)
    (hf : ∀ b, (f b).Spends t P False) : (x >>= f).Spends t P A :=
  (hx.bind hf).congr (by simp)

theorem spends_instr (h : ∀ r ∈ i.changes t, P r) :
    (instr i).Spends t P (i.isStack = true) := by
  intro n a ls n' hrun
  obtain ⟨rfl, -⟩ := emits_instr.1 hrun
  refine ⟨fun l hl => ?_, by simp [Line.isStack]⟩
  cases List.mem_singleton.1 hl
  exact h

theorem spends_plain (hi : i.isStack = false) (h : ∀ r ∈ i.changes t, P r) :
    (instr i).Spends t P False :=
  (spends_instr h).congr (by simp [hi])

theorem spends_label (l : Label) : (label l).Spends t P False := by
  intro n a ls n' hrun
  obtain ⟨rfl, -⟩ := emits_label.1 hrun
  simp [Line.Spares, Line.isStack]

theorem spends_newLabel : newLabel.Spends t P False := by
  intro n a ls n' hrun
  obtain ⟨-, rfl, -⟩ := emits_newLabel.1 hrun
  simp

theorem Spends.ite {b : Prop} [Decidable b] {x y : Emit α} (hx : b → x.Spends t P A)
    (hy : ¬ b → y.Spends t P A) : (if b then x else y).Spends t P A := by
  by_cases hb : b
  · rw [if_pos hb]
    exact hx hb
  · rw [if_neg hb]
    exact hy hb

theorem Spends.ensuring {x : Emit α} {y : Emit Unit} (hx : x.Spends t P A) (hy : y.Spends t P B) :
    (x.ensuring y).Spends t P (A ∨ B) := by
  intro n a ls n' hrun
  obtain ⟨l₁, n₁, l₂, hrun₁, hrun₂, rfl⟩ := emits_ensuring.1 hrun
  obtain ⟨hspares₁, hstack₁⟩ := hx n a l₁ n₁ hrun₁
  obtain ⟨hspares₂, hstack₂⟩ := hy n₁ () l₂ n' hrun₂
  refine ⟨fun l hl => (List.mem_append.1 hl).elim (hspares₁ l) (hspares₂ l), ?_⟩
  rw [← hstack₁, ← hstack₂]
  simp only [List.mem_append, or_and_right, exists_or]

theorem Spends.reg_bind (ht : t.registers ≠ []) (n : Nat) {f : Operand → Emit α}
    (hf : (f (.reg (t.registerName n))).Spends t P A) : (t.reg n >>= f).Spends t P A := by
  intro m a ls m' hrun
  exact hf m a ls m' ((Target.emits_reg_bind ht).1 hrun)

theorem Spends.depth_bind {e : Expr} {f : Nat → Emit α} (hf : (f e.depth).Spends t P A) :
    (ofExcept e.depth? >>= f).Spends t P A := by
  intro n a ls n' hrun
  obtain ⟨d, l₁, n₁, l₂, hd, hrun, rfl⟩ := emits_bind.1 hrun
  obtain ⟨hd, rfl, rfl⟩ := emits_ofExcept.1 hd
  unfold Expr.depth? at hd
  split at hd
  · cases hd
    exact hf _ a l₂ n' hrun
  · cases hd

theorem Spends.binding_bind {v : Variable} {b : Binding} (hv : v.binding = some b)
    {f : Binding → Emit α} (hf : (f b).Spends t P A) : (bindingOf v >>= f).Spends t P A := by
  rw [bindingOf, hv]
  intro n a ls n' hrun
  obtain ⟨b', l₁, n₁, l₂, hb, hrun, rfl⟩ := emits_bind.1 hrun
  obtain ⟨rfl, rfl, rfl⟩ := emits_pure.1 hb
  exact hf _ a l₂ n' hrun

/-- A step that saves a register if it has to, and restores it after another step. -/
theorem spends_withSpill (ht : t.registers ≠ []) {step : Int → Emit α} (hsp : P t.stackPointer)
    (hnext : P (t.registerName (free + 1))) (h : ∀ pushed, (step pushed).Spends t P A) :
    (t.withSpill (free + 1) pushed step).Spends t P (t.registers.length ≤ free + 1 ∨ A) := by
  have hpush : ∀ r ∈ (Instr.push (.reg (t.registerName (free + 1)))).changes t, P r := by
    simpa [Instr.changes] using hsp
  have hpop : ∀ r ∈ (Instr.pop (.reg (t.registerName (free + 1)))).changes t, P r := by
    simpa [Instr.changes, Operand.registers] using ⟨hsp, hnext⟩
  unfold Target.withSpill Target.spill Target.unspill
  by_cases hfew : (t.registers.length : Int) ≤ free + 1
  · have hfew' : t.registers.length ≤ free + 1 := by omega
    simp only [if_pos hfew]
    have hsave : (t.reg (free + 1) >>= fun r => instr (.push r) >>= fun _ =>
        pure (pushed + t.wordSize)).Spends t P True :=
      Spends.reg_bind ht (free + 1) (((spends_instr hpush).last fun _ => spends_pure).congr
        (by simp [Instr.isStack]))
    have hrestore : (t.reg (free + 1) >>= fun r => instr (.pop r)).Spends t P True :=
      Spends.reg_bind ht (free + 1) ((spends_instr hpop).congr (by simp [Instr.isStack]))
    exact (hsave.bind fun inner => (h inner).ensuring hrestore).congr (by simp [hfew'])
  · have hmany : ¬ t.registers.length ≤ free + 1 := by omega
    simp only [if_neg hfew]
    refine (spends_pure.then fun inner => (h inner).ensuring spends_pure).congr (by simp [hmany])

end Emit

open Emit

/-! ## Depths -/

/-- The stack pointer and the `d` registers from number `free` on. -/
def Target.Among (t : Target) (free d : Nat) (r : String) : Prop :=
  r = t.stackPointer ∨ ∃ k < d, r = t.registerName (free + k)

/-- An operator needs `d` registers, and from number `free` on there are fewer. -/
def Target.Short (t : Target) (free d : Nat) : Prop := 2 ≤ d ∧ t.registers.length < free + d

section

variable {t : Target} {free free' d d' : Nat} {r : String}

theorem Target.Among.self (h : 1 ≤ d) : t.Among free d (t.registerName free) := .inr ⟨0, h, rfl⟩

theorem Target.Among.next (h : 2 ≤ d) : t.Among free d (t.registerName (free + 1)) :=
  .inr ⟨1, h, rfl⟩

theorem Target.Among.mono (h : t.Among free d r) (hle : free' ≤ free)
    (hd : free + d ≤ free' + d') : t.Among free' d' r := by
  obtain h | ⟨k, hk, rfl⟩ := h
  · exact .inl h
  · exact .inr ⟨free - free' + k, by omega, by congr 1; omega⟩

/-- A register to hold the value is always there. -/
theorem Target.not_short_one : False ↔ t.Short free 1 := by
  simp [Target.Short]

/-- Where there are no more than `d'` registers, any of them is among `d'` in a row. -/
theorem Target.Among.all (ht : t.registers ≠ []) (h : t.Among free d r)
    (hd : t.registers.length ≤ d') : t.Among free' d' r := by
  obtain h | ⟨k, -, rfl⟩ := h
  · exact .inl h
  · have hpos : 0 < t.registers.length := List.length_pos_iff.2 ht
    have hlt := Nat.mod_lt free' hpos
    generalize hN : t.registers.length = N at hpos hd hlt
    -- registers are named modulo their number, so one of the first `N` from `free'` on is the same
    refine .inr ⟨((free + k) % N + N - free' % N) % N, Nat.lt_of_lt_of_le (Nat.mod_lt _ hpos) hd, ?_⟩
    have hmod : (free' + ((free + k) % N + N - free' % N) % N) % N = (free + k) % N := by
      rw [Nat.add_mod_mod, ← Nat.mod_add_mod,
        show free' % N + ((free + k) % N + N - free' % N) = (free + k) % N + N by omega,
        Nat.add_mod_right, Nat.mod_mod]
    rw [Target.registerName, Target.registerName, hN, hmod]

end

namespace Expr

theorem two_le_joinDepth {a b : Nat} (ha : 1 ≤ a) (hb : 1 ≤ b) : 2 ≤ joinDepth a b := by
  unfold joinDepth deep
  split
  · omega
  · split <;> omega

theorem joinDepth_comm (a b : Nat) : joinDepth a b = joinDepth b a := by
  unfold joinDepth
  simp only [or_comm, eq_comm, Nat.max_comm]
  split
  · rfl
  · split <;> omega

/-- The first operand takes the registers from the destination on, the second one those after it. -/
theorem le_joinDepth (a b : Nat) : joinDepth a b = deep ∨ a ≤ joinDepth a b := by
  unfold joinDepth
  split
  · exact .inl rfl
  · split <;> omega

theorem one_le_shareDepth {a : Nat} (ha : 1 ≤ a) (b : Nat) : 1 ≤ shareDepth a b := by
  unfold shareDepth deep
  split <;> omega

theorem le_shareDepth_left (a b : Nat) : shareDepth a b = deep ∨ a ≤ shareDepth a b := by
  unfold shareDepth
  split
  · exact .inl rfl
  · omega

theorem le_shareDepth_right (a b : Nat) : shareDepth a b = deep ∨ b ≤ shareDepth a b := by
  unfold shareDepth
  split
  · exact .inl rfl
  · omega

theorem succ_le_joinDepth {a b : Nat} (h : deep ≤ a ∨ deep ≤ b ∨ b ≤ a) :
    joinDepth a b = deep ∨ b + 1 ≤ joinDepth a b := by
  unfold joinDepth
  split
  · exact .inl rfl
  · split <;> omega

end Expr

section

variable {t : Target} {free a b : Nat}

/-- Two operands in turn have too few registers exactly if their operator has. The destination of the
    second one is the next register; if it is taken, it is saved first. -/
theorem Target.short_joinDepth (hN : t.registers.length < Expr.deep) (ha : 1 ≤ a) (hb : 1 ≤ b)
    (h : Expr.deep ≤ a ∨ Expr.deep ≤ b ∨ b ≤ a) :
    t.registers.length ≤ free + 1 ∨ t.Short free a ∨ t.Short (free + 1) b ↔
      t.Short free (Expr.joinDepth a b) := by
  unfold Target.Short Expr.joinDepth
  unfold Expr.deep at *
  split
  · omega
  · split <;> omega

theorem Target.short_shareDepth (hN : t.registers.length < Expr.deep) :
    t.Short free a ∨ t.Short free b ↔ t.Short free (Expr.shareDepth a b) := by
  unfold Target.Short Expr.shareDepth
  unfold Expr.deep at *
  split <;> omega

end

/-! ## Code -/

/-- Code that keeps to `d` registers, in either form, and saves registers exactly if these are too
    many. -/
structure Code.Spends (t : Target) (code : Code) (d : Nat) : Prop where
  value : ∀ pushed free, (code.value pushed free).Spends t (t.Among free d) (t.Short free d)
  branch : ∀ label sense pushed free,
    (code.branch label sense pushed free).Spends t (t.Among free d) (t.Short free d)

theorem spends_into {t : Target} {free d : Nat} (hd : 1 ≤ d)
    (hchanges : i.changes t = [t.registerName free]) (hstack : i.isStack = false) :
    (instr i).Spends t (t.Among free d) False := by
  refine spends_plain hstack ?_
  rw [hchanges]
  simpa using Target.Among.self hd

section

variable {t : Target} (ht : t.registers ≠ [])

include ht

theorem Code.spends_ofValue {value : Int → Nat → Emit Unit} {d : Nat} (hd : 1 ≤ d)
    (h : ∀ pushed free, (value pushed free).Spends t (t.Among free d) (t.Short free d)) :
    (Code.ofValue t value).Spends t d := by
  refine ⟨h, fun label sense pushed free => (h pushed free).last fun _ => ?_⟩
  refine Spends.reg_bind ht free (.then (spends_into hd rfl rfl) fun _ => spends_plain rfl ?_)
  simp [Instr.changes]

/-- Two operands, the first of them no less deep than the second unless one is `deep`. -/
theorem spends_pair {first second : Code} {a b free : Nat} {combine : Emit Unit}
    (hN : t.registers.length < Expr.deep) (hfirst : first.Spends t a) (hsecond : second.Spends t b)
    (horder : Expr.deep ≤ a ∨ Expr.deep ≤ b ∨ b ≤ a)
    (hcombine : combine.Spends t (t.Among free (Expr.joinDepth a b)) False) :
    (first.value pushed free >>= fun _ => second.value pushed (free + 1) >>= fun _ => combine).Spends t
      (t.Among free (Expr.joinDepth a b)) (t.Short free a ∨ t.Short (free + 1) b) := by
  refine ((hfirst.value pushed free).mono fun r hr => ?_).bind fun _ =>
    ((hsecond.value pushed (free + 1)).mono fun r hr => ?_).last fun _ => hcombine
  -- with a `deep` operand all registers are among those of the pair
  · obtain h | h := Expr.le_joinDepth a b
    · exact hr.all ht (by omega)
    · exact hr.mono (Nat.le_refl _) (by omega)
  · obtain h | h := Expr.succ_le_joinDepth horder
    · exact hr.all ht (by omega)
    · exact hr.mono (by omega) (by omega)

theorem spends_operands {l r : Expr} {lcode rcode : Code}
    {combine : Operand → Operand → Emit Unit} (hN : t.registers.length < Expr.deep)
    (hl : lcode.Spends t l.depth) (hr : rcode.Spends t r.depth) (hdl : 1 ≤ l.depth)
    (hdr : 1 ≤ r.depth) (hcombine : ∀ p q, t.Among free (Expr.joinDepth l.depth r.depth) p →
      t.Among free (Expr.joinDepth l.depth r.depth) q →
      (combine (.reg p) (.reg q)).Spends t (t.Among free (Expr.joinDepth l.depth r.depth)) False) :
    (operands t l r lcode rcode pushed free combine).Spends t
      (t.Among free (Expr.joinDepth l.depth r.depth))
      (t.Short free (Expr.joinDepth l.depth r.depth)) := by
  have hd := Expr.two_le_joinDepth hdl hdr
  have hself : t.Among free (Expr.joinDepth l.depth r.depth) (t.registerName free) := .self (by omega)
  have hnext : t.Among free (Expr.joinDepth l.depth r.depth) (t.registerName (free + 1)) := .next hd
  refine Spends.depth_bind (Spends.depth_bind ?_)
  -- the deeper operand comes first, so the second one has a register less to work with
  by_cases horder : Expr.deep ≤ l.depth ∨ Expr.deep ≤ r.depth ∨ r.depth ≤ l.depth
  · simp only [if_pos horder]
    refine (spends_withSpill ht (.inl rfl) hnext fun pushed => spends_pair ht hN hl hr horder ?_).congr
      (Target.short_joinDepth hN hdl hdr horder)
    exact Spends.reg_bind ht free (Spends.reg_bind ht (free + 1) (hcombine _ _ hself hnext))
  · have hswap : Expr.deep ≤ r.depth ∨ Expr.deep ≤ l.depth ∨ l.depth ≤ r.depth := by omega
    simp only [if_neg horder]
    rw [Expr.joinDepth_comm] at hself hnext hcombine ⊢
    refine (spends_withSpill ht (.inl rfl) hnext fun pushed => spends_pair ht hN hr hl hswap ?_).congr
      (Target.short_joinDepth hN hdr hdl hswap)
    exact Spends.reg_bind ht (free + 1) (Spends.reg_bind ht free (hcombine _ _ hnext hself))

theorem spends_branchLogic (op : LogicOp) {left right : Code} {a b : Nat}
    (hN : t.registers.length < Expr.deep) (hl : left.Spends t a) (hr : right.Spends t b)
    (label : Label) (sense : Bool) (pushed : Int) (free : Nat) :
    (branchLogic op left right label sense pushed free).Spends t (t.Among free (Expr.shareDepth a b))
      (t.Short free (Expr.shareDepth a b)) := by
  have hleft : ∀ label sense, (left.branch label sense pushed free).Spends t
      (t.Among free (Expr.shareDepth a b)) (t.Short free a) := fun label sense =>
    (hl.branch label sense pushed free).mono fun r hr => by
      obtain h | h := Expr.le_shareDepth_left a b
      · exact hr.all ht (by omega)
      · exact hr.mono (Nat.le_refl _) (by omega)
  have hright : ∀ label sense, (right.branch label sense pushed free).Spends t
      (t.Among free (Expr.shareDepth a b)) (t.Short free b) := fun label sense =>
    (hr.branch label sense pushed free).mono fun r hr => by
      obtain h | h := Expr.le_shareDepth_right a b
      · exact hr.all ht (by omega)
      · exact hr.mono (Nat.le_refl _) (by omega)
  refine Spends.congr (Spends.ite (fun _ => ?_) fun _ => ?_) (Target.short_shareDepth hN)
  · exact (hleft _ _).bind fun _ => hright _ _
  · refine spends_newLabel.then fun skip => (hleft _ _).bind fun _ => (hright _ _).last fun _ => ?_
    exact spends_label _

end

namespace Expr

/-- An expression of constants, variables that are passed by value and operators other than division. -/
def isPlain : Expr → Bool
  | .int .. | .bool .. => true
  | .var v => v.binding.any (!·.byRef)
  | .unary _ .neg e | .unary _ .not e => e.isPlain
  | .arith _ .add l r | .arith _ .sub l r | .arith _ .mul l r => l.isPlain && r.isPlain
  | .comp _ _ l r | .logic _ _ l r => l.isPlain && r.isPlain
  | _ => false

section

variable {s : Settings} (hs : s.target.registers ≠ []) (hN : s.target.registers.length < deep)

include hs

theorem spends_int {n : Int} : ((Expr.int pos n).code s).Spends s.target 1 := by
  refine Code.spends_ofValue hs (Nat.le_refl 1) fun pushed free => Spends.reg_bind hs free ?_
  refine (spends_into (Nat.le_refl 1) ?_ ?_).congr Target.not_short_one
  all_goals
    unfold Target.load
    split <;> rfl

theorem spends_bool {b : Bool} : ((Expr.bool pos b).code s).Spends s.target 1 := by
  refine ⟨fun pushed free => Spends.reg_bind hs free ?_, fun label sense pushed free => ?_⟩
  · exact (spends_into (Nat.le_refl 1) rfl rfl).congr Target.not_short_one
  · refine Spends.congr (Spends.ite (fun _ => spends_plain rfl ?_) fun _ => spends_pure)
      Target.not_short_one
    simp [Instr.changes]

theorem spends_var {v : Variable} {b : Binding} (hv : v.binding = some b) (hb : b.byRef = false) :
    ((Expr.var v).code s).Spends s.target 1 := by
  refine Code.spends_ofValue hs (Nat.le_refl 1) fun pushed free => Spends.reg_bind hs free ?_
  refine Spends.congr (Spends.binding_bind hv ?_) Target.not_short_one
  rw [withVariable, hb, if_neg Bool.false_ne_true]
  exact spends_into (Nat.le_refl 1) rfl rfl

theorem spends_unary {op : UnaryOp} {e : Expr} {d : Nat} (hop : ∀ k, op ≠ .other k)
    (hd : 1 ≤ d) (he : (e.code s).Spends s.target d) :
    ((Expr.unary pos op e).code s).Spends s.target d := by
  cases op with
  | neg =>
    refine Code.spends_ofValue hs hd fun pushed free => Spends.reg_bind hs free ?_
    exact (he.value pushed free).last fun _ => spends_into hd rfl rfl
  | not =>
    refine ⟨fun pushed free => Spends.reg_bind hs free ?_, fun _ _ _ _ => he.branch _ _ _ _⟩
    exact (he.value pushed free).last fun _ => spends_into hd rfl rfl
  | other k => exact absurd rfl (hop k)

include hN

variable {l r : Expr} (hdl : 1 ≤ l.depth) (hl : (l.code s).Spends s.target l.depth)
  (hr : (r.code s).Spends s.target r.depth)

include hdl hl hr

theorem spends_logic {op : LogicOp} :
    ((Expr.logic pos op l r).code s).Spends s.target (shareDepth l.depth r.depth) := by
  have hd := one_le_shareDepth hdl r.depth
  have hbranch := spends_branchLogic hs op hN hl hr
  refine ⟨fun pushed free => Spends.reg_bind hs free ?_, hbranch⟩
  refine spends_newLabel.then fun no => spends_newLabel.then fun done => ?_
  refine (hbranch no false pushed free).last fun _ => ?_
  refine (spends_into hd rfl rfl).then fun _ => ?_
  refine (spends_plain rfl (by simp [Instr.changes])).then fun _ => (spends_label _).then fun _ => ?_
  exact (spends_into hd rfl rfl).then fun _ => spends_label _

variable (hdr : 1 ≤ r.depth)

include hdr

/-- An operator whose result is first in the register of its left operand. -/
theorem spends_combineInto {i : Operand → Operand → Instr}
    (hi : ∀ p q, (i (.reg q) (.reg p)).changes s.target = [p] ∧ (i (.reg q) (.reg p)).isStack = false) :
    (operands s.target l r (l.code s) (r.code s) pushed free
      (combineInto (.reg (s.target.registerName free)) i)).Spends s.target
      (s.target.Among free (joinDepth l.depth r.depth))
      (s.target.Short free (joinDepth l.depth r.depth)) := by
  have hd := two_le_joinDepth hdl hdr
  refine spends_operands hs hN hl hr hdl hdr fun p q hp hq => ?_
  refine Spends.then (spends_plain (hi p q).2 ?_) fun _ => ?_
  · rw [(hi p q).1]
    simpa using hp
  · exact Spends.ite (fun _ => spends_into (by omega) rfl rfl) fun _ => spends_pure

theorem spends_arith {op : ArithOp} (hop : op = .add ∨ op = .sub ∨ op = .mul) :
    ((Expr.arith pos op l r).code s).Spends s.target (joinDepth l.depth r.depth) := by
  have hd := two_le_joinDepth hdl hdr
  refine Code.spends_ofValue hs (by omega) fun pushed free => Spends.reg_bind hs free ?_
  obtain rfl | rfl | rfl := hop
  all_goals exact spends_combineInto hs hN hdl hl hr hdr fun _ _ => ⟨rfl, rfl⟩

theorem spends_comp {op : CompOp} :
    ((Expr.comp pos op l r).code s).Spends s.target (joinDepth l.depth r.depth) := by
  have hd := two_le_joinDepth hdl hdr
  have hcompare : ∀ pushed free, (operands s.target l r (l.code s) (r.code s) pushed free
      fun l r => Emit.instr (.cmp r l)).Spends s.target
      (s.target.Among free (joinDepth l.depth r.depth))
      (s.target.Short free (joinDepth l.depth r.depth)) := fun pushed free =>
    spends_operands hs hN hl hr hdl hdr fun _ _ _ _ => spends_plain rfl (by simp [Instr.changes])
  refine ⟨fun pushed free => Spends.reg_bind hs free ?_, fun label sense pushed free => ?_⟩
  · refine spends_newLabel.then fun yes => (hcompare pushed free).last fun _ => ?_
    refine (spends_into (by omega) rfl rfl).then fun _ => ?_
    refine (spends_plain rfl (by simp [Instr.changes])).then fun _ => ?_
    exact (spends_into (by omega) rfl rfl).then fun _ => spends_label _
  · exact (hcompare pushed free).last fun _ => spends_plain rfl (by simp [Instr.changes])

end

/-- A plain expression has a depth, it can be translated, and its depth is the account of its code. -/
theorem spends_of_isPlain {s : Settings} (hs : s.target.registers ≠ [])
    (hN : s.target.registers.length < deep) {e : Expr} (h : e.isPlain = true) :
    (1 ≤ e.depth ∧ e.hasDepth = true) ∧ (e.code s).Total s (fun _ => True) ∧
      (e.code s).Spends s.target e.depth := by
  cases e with
  | absent | assign | call => cases h
  | int => exact ⟨⟨Nat.le_refl 1, rfl⟩, total_int hs, spends_int hs⟩
  | bool => exact ⟨⟨Nat.le_refl 1, rfl⟩, total_bool hs, spends_bool hs⟩
  | var v =>
    rw [isPlain, Option.any_eq_true] at h
    obtain ⟨b, hv, hb⟩ := h
    exact ⟨⟨Nat.le_refl 1, rfl⟩, total_var hs hv, spends_var hs hv (by simpa using hb)⟩
  | unary pos op e =>
    cases op with
    | other => cases h
    | neg | not =>
      obtain ⟨hd, htotal, hspends⟩ := spends_of_isPlain hs hN (e := e) h
      exact ⟨hd, total_unary hs (by simp) htotal, spends_unary hs (by simp) hd.1 hspends⟩
  | arith pos op l r =>
    have hop : (op = .add ∨ op = .sub ∨ op = .mul) ∧ l.isPlain = true ∧ r.isPlain = true := by
      cases op <;> simp_all [isPlain]
    obtain ⟨hop, hl, hr⟩ := hop
    obtain ⟨hdl, htotall, hspendsl⟩ := spends_of_isPlain hs hN hl
    obtain ⟨hdr, htotalr, hspendsr⟩ := spends_of_isPlain hs hN hr
    refine ⟨⟨Nat.le_of_succ_le (two_le_joinDepth hdl.1 hdr.1), by simp [hasDepth, hdl, hdr]⟩, ?_, ?_⟩
    · refine total_arith hs ?_ hdl.2 hdr.2 htotall htotalr
      rintro k rfl
      simp at hop
    · exact spends_arith hs hN hdl.1 hspendsl hspendsr hdr.1 hop
  | comp pos op l r =>
    obtain ⟨hl, hr⟩ : l.isPlain = true ∧ r.isPlain = true := by simpa [isPlain] using h
    obtain ⟨hdl, htotall, hspendsl⟩ := spends_of_isPlain hs hN hl
    obtain ⟨hdr, htotalr, hspendsr⟩ := spends_of_isPlain hs hN hr
    refine ⟨⟨Nat.le_of_succ_le (two_le_joinDepth hdl.1 hdr.1), by simp [hasDepth, hdl, hdr]⟩, ?_, ?_⟩
    · exact total_comp hs hdl.2 hdr.2 htotall htotalr
    · exact spends_comp hs hN hdl.1 hspendsl hspendsr hdr.1
  | logic pos op l r =>
    obtain ⟨hl, hr⟩ : l.isPlain = true ∧ r.isPlain = true := by simpa [isPlain] using h
    obtain ⟨hdl, htotall, hspendsl⟩ := spends_of_isPlain hs hN hl
    obtain ⟨hdr, htotalr, hspendsr⟩ := spends_of_isPlain hs hN hr
    refine ⟨⟨one_le_shareDepth hdl.1 _, by simp [hasDepth, hdl, hdr]⟩, ?_, ?_⟩
    · exact total_logic hs htotall htotalr
    · exact spends_logic hs hN hdl.1 hspendsl hspendsr

/-- The depth of a plain expression is its need of registers. Its code changes, beside the stack
    pointer, only as many registers from its destination on, and it pushes and pops nothing exactly if
    it needs one register only or there are enough of them. -/
theorem depth_exact {s : Settings} {e : Expr} (he : e.isPlain = true)
    (hN : s.target.registers.length < deep) {free : Nat} (hfree : free < s.target.registers.length)
    (pushed : Int) (n : Nat) :
    ∃ ls n', Emits ((e.code s).value pushed free) n () ls n' ∧
      (∀ l ∈ ls, l.Spares s.target (s.target.Among free e.depth)) ∧
      (∀ i, .instr i ∈ ls → ∀ text rest c m,
        Machine.step s.target text ⟨.instr i :: rest, c⟩ = some m →
        ∀ r, ¬ s.target.Among free e.depth r → m.core.regs r = c.regs r) ∧
      ((∀ l ∈ ls, l.isStack = false) ↔
        e.depth = 1 ∨ free + e.depth ≤ s.target.registers.length) := by
  have hs : s.target.registers ≠ [] := List.length_pos_iff.1 (by omega)
  obtain ⟨⟨hd, -⟩, htotal, hspends⟩ := spends_of_isPlain hs hN he
  obtain ⟨ls, n', hrun⟩ := (htotal.value pushed free).emits n
  obtain ⟨hspares, hstack⟩ := hspends.value pushed free n () ls n' hrun
  refine ⟨ls, n', hrun, hspares, fun i hi text rest c m hstep r hr => ?_, ?_⟩
  · exact Machine.step_regs hstep fun hmem => hr (hspares _ hi r hmem)
  · have hnone : (∀ l ∈ ls, l.isStack = false) ↔ ¬ s.target.Short free e.depth := by
      rw [← hstack]
      simp
    rw [hnone, Target.Short]
    omega

end Expr

/-- A machine with two registers only. -/
def Settings.narrow : Settings := { target := { Target.i386 with registers := ["%eax", "%ebx"] } }

/-- `(a - 1 < a * b) && !((a + b) - (b + a) == 2)`, for two variables of a frame. -/
def Expr.tangled : Expr :=
  let a : Expr := .var ⟨{}, "a", some ⟨"a", .int, -4, false⟩⟩
  let b : Expr := .var ⟨{}, "b", some ⟨"b", .int, -8, false⟩⟩
  .logic {} .and (.comp {} .lt (.arith {} .sub a (.int {} 1)) (.arith {} .mul a b))
    (.unary {} .not (.comp {} .eq (.arith {} .sub (.arith {} .add a b) (.arith {} .add b a))
      (.int {} 2)))

/-- Three registers are needed there, and from the second one on there is no other: the code has to save
    registers. -/
theorem Expr.depth_exact_narrow :
    tangled.isPlain = true ∧ Settings.narrow.target.registers.length < deep ∧
      1 < Settings.narrow.target.registers.length ∧
      ∃ ls n', Emits ((tangled.code .narrow).value 0 1) 0 () ls n' ∧
        (∀ l ∈ ls, l.Spares Settings.narrow.target (Settings.narrow.target.Among 1 3)) ∧
        ∃ l ∈ ls, l.isStack = true := by
  have hplain : tangled.isPlain = true := by decide
  have hN : Settings.narrow.target.registers.length < deep := by decide
  have hfree : 1 < Settings.narrow.target.registers.length := by decide
  have hdepth : tangled.depth = 3 := by decide
  obtain ⟨ls, n', hrun, hspares, -, hstack⟩ := depth_exact hplain hN hfree 0 0
  rw [hdepth] at hspares hstack
  refine ⟨hplain, hN, hfree, ls, n', hrun, hspares, ?_⟩
  have hfew : ¬ ∀ l ∈ ls, l.isStack = false := fun h => absurd (hstack.1 h) (by decide)
  simpa using hfew

end MiniCompiler
