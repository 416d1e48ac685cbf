import MiniCompiler.Lowering.Program

/-!
# Runs of emitting

`Emits` says that a step of emitting ends without a fault, with its value, its lines and the labels it
has taken. Every primitive step has one rule that opens it.
-/

namespace MiniCompiler

/-- From `n` labels on, `x` gives `a`, writes the lines `ls` and leaves `n'` labels taken. -/
def Emits {α : Type} (x : Emit α) (n : Nat) (a : α) (ls : List Line) (n' : Nat) : Prop :=
  x n = ⟨.ok a, ls, n'⟩

section

variable {α β : Type} {n n' : Nat} {a : α} {b : β} {ls : List Line} {u : Unit}

theorem emits_pure {c : α} : Emits (pure c) n a ls n' ↔ c = a ∧ ls = [] ∧ n' = n := by
  have heq : (pure c : Emit α) n = ⟨.ok c, [], n⟩ := rfl
  rw [Emits, heq]
  simp [eq_comm]

theorem emits_bind {x : Emit α} {f : α → Emit β} : Emits (x >>= f) n b ls n' ↔
    ∃ a l₁ n₁ l₂, Emits x n a l₁ n₁ ∧ Emits (f a) n₁ b l₂ n' ∧ ls = l₁ ++ l₂ := by
  have heq : (x >>= f) n = Emit.bind x f n := rfl
  rw [Emits, heq, Emit.bind]
  unfold Emits
  obtain ⟨result, l₁, n₁⟩ := x n
  cases result with
  | error e => simp
  | ok a =>
    dsimp only
    constructor
    · intro h
      refine ⟨a, l₁, n₁, (f a n₁).lines, rfl, ?_⟩
      generalize f a n₁ = second at h
      obtain ⟨result, l₂, n₂⟩ := second
      cases h
      exact ⟨rfl, rfl⟩
    · rintro ⟨a', l₁', n₁', l₂, hx, hf, rfl⟩
      cases hx
      rw [hf]

theorem emits_ensuring {x : Emit α} {y : Emit Unit} : Emits (x.ensuring y) n a ls n' ↔
    ∃ l₁ n₁ l₂, Emits x n a l₁ n₁ ∧ Emits y n₁ () l₂ n' ∧ ls = l₁ ++ l₂ := by
  unfold Emits Emit.ensuring
  obtain ⟨result, l₁, n₁⟩ := x n
  dsimp only
  constructor
  · intro h
    refine ⟨l₁, n₁, (y n₁).lines, ?_⟩
    generalize y n₁ = second at h
    obtain ⟨result', l₂, n₂⟩ := second
    cases result' with
    | error e => simp [Except.bind] at h
    | ok =>
      cases h
      exact ⟨rfl, rfl, rfl⟩
  · rintro ⟨l₁', n₁', l₂, hx, hy, rfl⟩
    cases hx
    rw [hy]
    rfl

theorem emits_lines {l : List Line} :
    Emits (Emit.lines l) n u ls n' ↔ ls = l ∧ n' = n := by
  simp [Emits, Emit.lines, eq_comm]

theorem emits_instr {i : Instr} :
    Emits (Emit.instr i) n u ls n' ↔ ls = [.instr i] ∧ n' = n := emits_lines

theorem emits_label {l : Label} :
    Emits (Emit.label l) n u ls n' ↔ ls = [.label l] ∧ n' = n := emits_lines

theorem emits_newLabel {l : Label} :
    Emits Emit.newLabel n l ls n' ↔ l = .fresh (n + 1) ∧ ls = [] ∧ n' = n + 1 := by
  simp [Emits, Emit.newLabel, eq_comm]

theorem emits_ofExcept {r : Except Fault α} :
    Emits (Emit.ofExcept r) n a ls n' ↔ r = .ok a ∧ ls = [] ∧ n' = n := by
  simp [Emits, Emit.ofExcept, eq_comm]

theorem not_emits_fail {f : Fault} : ¬ Emits (Emit.fail f) n a ls n' := by
  simp [Emits, Emit.fail]

theorem emits_instr_bind {i : Instr} {f : Unit → Emit α} : Emits (Emit.instr i >>= f) n a ls n' ↔
    ∃ rest, Emits (f ()) n a rest n' ∧ ls = .instr i :: rest := by
  rw [emits_bind]
  constructor
  · rintro ⟨_, _, _, rest, hinstr, hrest, rfl⟩
    obtain ⟨rfl, rfl⟩ := emits_instr.1 hinstr
    exact ⟨rest, hrest, rfl⟩
  · rintro ⟨rest, hrest, rfl⟩
    exact ⟨(), _, n, rest, emits_instr.2 ⟨rfl, rfl⟩, hrest, rfl⟩

theorem emits_label_bind {l : Label} {f : Unit → Emit α} : Emits (Emit.label l >>= f) n a ls n' ↔
    ∃ rest, Emits (f ()) n a rest n' ∧ ls = .label l :: rest := by
  rw [emits_bind]
  constructor
  · rintro ⟨_, _, _, rest, hlabel, hrest, rfl⟩
    obtain ⟨rfl, rfl⟩ := emits_label.1 hlabel
    exact ⟨rest, hrest, rfl⟩
  · rintro ⟨rest, hrest, rfl⟩
    exact ⟨(), _, n, rest, emits_label.2 ⟨rfl, rfl⟩, hrest, rfl⟩

theorem emits_newLabel_bind {f : Label → Emit α} : Emits (Emit.newLabel >>= f) n a ls n' ↔
    Emits (f (.fresh (n + 1))) (n + 1) a ls n' := by
  rw [emits_bind]
  constructor
  · rintro ⟨_, _, _, rest, hnew, hrest, rfl⟩
    obtain ⟨rfl, rfl, rfl⟩ := emits_newLabel.1 hnew
    exact hrest
  · intro hrest
    exact ⟨_, _, _, ls, emits_newLabel.2 ⟨rfl, rfl, rfl⟩, hrest, rfl⟩

theorem emits_bindingOf {v : Variable} {b : Binding} :
    Emits (bindingOf v) n b ls n' ↔ v.binding = some b ∧ ls = [] ∧ n' = n := by
  unfold bindingOf
  split
  · rename_i c hc
    simp [emits_pure, hc]
  · rename_i hnone
    simp [not_emits_fail, hnone]

/-- The text of a function: its prologue, its body, and its exit with the epilogue. -/
theorem Function.emits_code {s : Settings} {f : Function} {b : Body} (hb : f.body = some b)
    (hrun : Emits (f.code s) n u ls n') : ∃ exit loop body m m', Emits
    (Stmt.codeAll s exit (s.target.entryBytes f.frameBytes) b.stmts none) m loop body m' ∧ ls =
    s.target.prologue (s.symbolStart ++ f.name) f.frameBytes ++ body ++ .label exit ::
    s.target.epilogue := by
  rw [Function.code, hb] at hrun
  obtain ⟨exit, _, n₁, _, hexit, hrest₁, rfl⟩ := emits_bind.1 hrun
  obtain ⟨_, _, n₂, _, hprologue, hrest₂, rfl⟩ := emits_bind.1 hrest₁
  obtain ⟨loop, body, n₃, _, hbody, hrest₃, rfl⟩ := emits_bind.1 hrest₂
  obtain ⟨_, _, n₄, _, hlabel, hepilogue, rfl⟩ := emits_bind.1 hrest₃
  obtain ⟨-, rfl, -⟩ := emits_newLabel.1 hexit
  obtain ⟨rfl, -⟩ := emits_lines.1 hprologue
  obtain ⟨rfl, -⟩ := emits_label.1 hlabel
  obtain ⟨rfl, -⟩ := emits_lines.1 hepilogue
  exact ⟨exit, loop, body, n₂, n₃, hbody, by simp⟩

end

/-! ## Registers -/

namespace Target

variable {t : Target}

/-- The name of the register of a number. -/
def registerName (t : Target) (n : Nat) : String := t.registers.getD (n % t.registers.length) ""

/-- Every number has a register, if there is one at all. -/
theorem register_eq (ht : t.registers ≠ []) (n : Nat) : t.register n = .ok (t.registerName n) := by
  have hpos : 0 < t.registers.length := List.length_pos_iff.2 ht
  have hlt : n % t.registers.length < t.registers.length := Nat.mod_lt _ hpos
  unfold register
  rw [← Int.ofNat_tmod]
  simp [registerName, hlt]

theorem reg_eq (ht : t.registers ≠ []) (n : Nat) :
    t.reg n = Emit.ofExcept (.ok (.reg (t.registerName n))) := by
  rw [reg, register_eq ht n]
  rfl

theorem emits_reg_bind {α : Type} (ht : t.registers ≠ []) {r n n' : Nat} {f : Operand → Emit α} {a : α}
    {ls : List Line} :
    Emits (t.reg r >>= f) n a ls n' ↔ Emits (f (.reg (t.registerName r))) n a ls n' := by
  rw [reg_eq ht, emits_bind]
  constructor
  · rintro ⟨_, _, _, rest, hreg, hrest, rfl⟩
    obtain ⟨hname, rfl, rfl⟩ := emits_ofExcept.1 hreg
    cases hname
    exact hrest
  · intro hrest
    exact ⟨_, _, n, ls, emits_ofExcept.2 ⟨rfl, rfl, rfl⟩, hrest, rfl⟩

/-- The registers that are saved at a call. -/
theorem savedAtCall_eq (ht : t.registers ≠ []) (noArgs : Bool) (free : Nat) :
    savedAtCall t noArgs free = .ok
      ((((List.range free).drop (free + 1 - t.registers.length)).map t.registerName).filter
        fun r => !noArgs || t.isCallerSaved r) := by
  have hreg : (fun r : Nat => t.register r) = fun r => pure (t.registerName r) :=
    funext fun r => register_eq ht r
  simp only [savedAtCall, hreg, List.mapM_pure]
  rfl

theorem registers_ne_nil (ht : t ∈ supported) : t.registers ≠ [] := by
  simp only [supported, List.mem_cons, List.not_mem_nil, or_false] at ht
  obtain rfl | rfl := ht <;> decide

end Target

end MiniCompiler
