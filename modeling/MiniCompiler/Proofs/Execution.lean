import MiniCompiler.Proofs.Machine
import MiniCompiler.Proofs.Semantics

/-!
# Running what was emitted

`Executes` says what the machine does with lines, wherever they stand in the text: it runs to their
end, or it leaves them by a jump. `Emit.Does` says so of the lines that a step of emitting writes. Every
primitive step has a rule, and every form of instruction that code is made of has its effect.
-/

namespace MiniCompiler

/-! ## Runs -/

/-- From the state `c`, lines run to their end, where `Q` holds, or a jump leaves them, where `J`
    holds. -/
def Executes (t : Target) (text ls : List Line) (c : Core t.bits)
    (J : List Line → Core t.bits → Prop) (Q : Core t.bits → Prop) : Prop :=
  ∀ rest, ls ++ rest <:+ text → ∃ rest' c',
    Machine.Reaches t text ⟨ls ++ rest, c⟩ ⟨rest', c'⟩ ∧ (rest' = rest ∧ Q c' ∨ J rest' c')

/-- What the lines that a step writes do. -/
def Emit.Does {α : Type} (t : Target) (text : List Line) (x : Emit α) (c : Core t.bits)
    (J : List Line → Core t.bits → Prop) (Q : α → Core t.bits → Prop) : Prop :=
  ∀ n a ls n', Emits x n a ls n' → Executes t text ls c J (Q a)

/-- Lines that run to their end. -/
abbrev Emit.Completes {α : Type} (t : Target) (text : List Line) (x : Emit α) (c : Core t.bits)
    (Q : α → Core t.bits → Prop) : Prop :=
  x.Does t text c (fun _ _ => False) Q

namespace Machine.Reaches

variable {t : Target} {text : List Line} {m m' m'' : Machine t.bits}

theorem refl (m : Machine t.bits) : Machine.Reaches t text m m := Relation.ReflTransGen.refl

theorem trans (h : Machine.Reaches t text m m') (h' : Machine.Reaches t text m' m'') :
    Machine.Reaches t text m m'' := Relation.ReflTransGen.trans h h'

theorem head (h : m.step t text = some m') (h' : Machine.Reaches t text m' m'') :
    Machine.Reaches t text m m'' := Relation.ReflTransGen.head h h'

theorem single (h : m.step t text = some m') : Machine.Reaches t text m m' :=
  Relation.ReflTransGen.single h

end Machine.Reaches

section

variable {t : Target} {text rest : List Line} {c c' : Core t.bits} {dest : List Line} {l : Label}
  {i : Instr}

theorem Machine.step_effect (h : i.effect t c = some c') :
    Machine.step t text ⟨.instr i :: rest, c⟩ = some ⟨rest, c'⟩ := by
  cases i <;> first | (simp only [Machine.step, h]; rfl) | simp [Instr.effect] at h

theorem Machine.step_label (l : Label) :
    Machine.step t text ⟨.label l :: rest, c⟩ = some ⟨rest, c⟩ := rfl

theorem Machine.step_jump (h : resolve l text = some dest) :
    Machine.step t text ⟨.instr (.jump l) :: rest, c⟩ = some ⟨dest, c⟩ := by
  simp [Machine.step, h]

theorem Machine.step_jumpIf {cond : Cond} {o : Ordering}
    (hflags : c.flags = some o) (h : resolve l text = some dest) :
    Machine.step t text ⟨.instr (.jumpIf cond l) :: rest, c⟩ =
      some ⟨if cond.holds o then dest else rest, c⟩ := by
  cases hcond : cond.holds o <;> simp [Machine.step, hflags, h, hcond]

end

section

variable {t : Target} {text ls ms : List Line} {c c' : Core t.bits}
  {J : List Line → Core t.bits → Prop} {Q R : Core t.bits → Prop}

theorem executes_nil (hQ : Q c) : Executes t text [] c J Q :=
  fun rest _ => ⟨rest, c, .refl _, .inl ⟨rfl, hQ⟩⟩

theorem Executes.append (h : Executes t text ls c J R)
    (h' : ∀ c', R c' → Executes t text ms c' J Q) : Executes t text (ls ++ ms) c J Q := by
  intro rest hsuffix
  rw [List.append_assoc] at hsuffix ⊢
  obtain ⟨rest', c', hreaches, ⟨rfl, hR⟩ | hJ⟩ := h (ms ++ rest) hsuffix
  · have hsuffix' : ms ++ rest <:+ text := (List.suffix_append ls _).trans hsuffix
    obtain ⟨rest'', c'', hreaches', hend⟩ := h' c' hR rest hsuffix'
    exact ⟨rest'', c'', hreaches.trans hreaches', hend⟩
  · exact ⟨rest', c', hreaches, .inr hJ⟩

theorem Executes.mono {J' : List Line → Core t.bits → Prop} (h : Executes t text ls c J R)
    (hJ : ∀ rest c', J rest c' → J' rest c') (hQ : ∀ c', R c' → Q c') :
    Executes t text ls c J' Q := by
  intro rest hsuffix
  obtain ⟨rest', c', hreaches, hend⟩ := h rest hsuffix
  exact ⟨rest', c', hreaches, hend.imp (fun h => ⟨h.1, hQ c' h.2⟩) (hJ rest' c')⟩

theorem Executes.then (h : Executes t text ls c (fun _ _ => False) R)
    (h' : ∀ c', R c' → Executes t text ms c' J Q) : Executes t text (ls ++ ms) c J Q :=
  (h.mono (fun _ _ h => h.elim) fun _ => id).append h'

theorem executes_effect (h : i.effect t c = some c') (hQ : Q c') :
    Executes t text [.instr i] c J Q :=
  fun rest _ => ⟨rest, c', .single (Machine.step_effect h), .inl ⟨rfl, hQ⟩⟩

theorem executes_cons (h : i.effect t c = some c') (hls : Executes t text ls c' J Q) :
    Executes t text (.instr i :: ls) c J Q := by
  have hfirst : Executes t text [.instr i] c J (· = c') := executes_effect h rfl
  exact hfirst.append fun _ heq => heq ▸ hls

theorem executes_jump (h : resolve l text = some dest)
    (hJ : J dest c) : Executes t text [.instr (.jump l)] c J Q :=
  fun _ _ => ⟨dest, c, .single (Machine.step_jump h), .inr hJ⟩

theorem executes_jumpIf {cond : Cond} {o : Ordering}
    (hflags : c.flags = some o) (h : resolve l text = some dest)
    (hJ : cond.holds o = true → J dest c) (hQ : cond.holds o = false → Q c) :
    Executes t text [.instr (.jumpIf cond l)] c J Q := by
  intro rest _
  have hstep : Machine.step t text ⟨.instr (.jumpIf cond l) :: rest, c⟩ = _ :=
    Machine.step_jumpIf hflags h
  cases hcond : cond.holds o with
  | true =>
    rw [hcond] at hstep
    exact ⟨dest, c, .single hstep, .inr (hJ hcond)⟩
  | false =>
    rw [hcond] at hstep
    exact ⟨rest, c, .single hstep, .inl ⟨rfl, hQ hcond⟩⟩

/-- Where lines are followed by a label, a jump to it is another way to their end. -/
theorem Executes.label (htext : (writtenLabels text).Nodup)
    (h : ∀ dest, resolve l text = some dest →
      Executes t text ls c (fun rest c' => rest = dest ∧ Q c' ∨ J rest c') Q) :
    Executes t text (ls ++ [.label l]) c J Q := by
  intro rest hsuffix
  rw [List.append_assoc, List.singleton_append] at hsuffix ⊢
  have hlabel : .label l :: rest <:+ text := (List.suffix_append ls _).trans hsuffix
  obtain ⟨rest', c', hreaches, ⟨rfl, hQ⟩ | ⟨rfl, hQ⟩ | hJ⟩ :=
    h rest (resolve_of_suffix htext hlabel) (.label l :: rest) hsuffix
  · exact ⟨rest, c', hreaches.trans (.single (Machine.step_label l)), .inl ⟨rfl, hQ⟩⟩
  · exact ⟨rest', c', hreaches, .inl ⟨rfl, hQ⟩⟩
  · exact ⟨rest', c', hreaches, .inr hJ⟩

end

namespace Emit

variable {α β : Type} {t : Target} {text : List Line} {c : Core t.bits}
  {J : List Line → Core t.bits → Prop} {Q : α → Core t.bits → Prop}

theorem does_pure {a : α} (hQ : Q a c) : (pure a : Emit α).Does t text c J Q := by
  intro n b ls n' hrun
  obtain ⟨rfl, rfl, -⟩ := emits_pure.1 hrun
  exact executes_nil hQ

theorem Does.bind {x : Emit β} {f : β → Emit α}
    (hx : x.Does t text c J fun b c' => (f b).Does t text c' J Q) :
    (x >>= f).Does t text c J Q := by
  intro n a ls n' hrun
  obtain ⟨b, l₁, n₁, l₂, hrun₁, hrun₂, rfl⟩ := emits_bind.1 hrun
  exact (hx n b l₁ n₁ hrun₁).append fun c' hf => hf n₁ a l₂ n' hrun₂

theorem Does.mono {x : Emit α} {J' : List Line → Core t.bits → Prop} {Q' : α → Core t.bits → Prop}
    (hx : x.Does t text c J Q) (hJ : ∀ rest c', J rest c' → J' rest c')
    (hQ : ∀ a c', Q a c' → Q' a c') : x.Does t text c J' Q' :=
  fun n a ls n' hrun => (hx n a ls n' hrun).mono hJ (hQ a)

theorem Completes.bind {x : Emit β} {f : β → Emit α} {R : β → Core t.bits → Prop}
    (hx : x.Completes t text c R) (hf : ∀ b c', R b c' → (f b).Does t text c' J Q) :
    (x >>= f).Does t text c J Q :=
  Does.bind (hx.mono (fun _ _ h => h.elim) hf)

theorem does_ofExcept {r : Except Fault α} (hQ : ∀ a, r = .ok a → Q a c) :
    (ofExcept r).Does t text c J Q := by
  intro n a ls n' hrun
  obtain ⟨hr, rfl, -⟩ := emits_ofExcept.1 hrun
  exact executes_nil (hQ a hr)

theorem Does.ite {b : Prop} [Decidable b] {x y : Emit α} (hx : b → x.Does t text c J Q)
    (hy : ¬ b → y.Does t text c J Q) : (if b then x else y).Does t text c J Q := by
  by_cases hb : b
  · rw [if_pos hb]
    exact hx hb
  · rw [if_neg hb]
    exact hy hb

theorem Does.ensuring {x : Emit α} {y : Emit Unit}
    (hx : x.Completes t text c fun a c' => y.Completes t text c' fun _ c'' => Q a c'') :
    (x.ensuring y).Completes t text c Q := by
  intro n a ls n' hrun
  obtain ⟨l₁, n₁, l₂, hrun₁, hrun₂, rfl⟩ := emits_ensuring.1 hrun
  exact (hx n a l₁ n₁ hrun₁).append fun c' hy => hy n₁ () l₂ n' hrun₂

theorem does_lines {ls : List Line} {Q : Unit → Core t.bits → Prop}
    (h : Executes t text ls c J (Q ())) : (lines ls).Does t text c J Q := by
  intro n a ls' n' hrun
  obtain ⟨rfl, -⟩ := emits_lines.1 hrun
  exact h

theorem does_instr {c' : Core t.bits} {Q : Unit → Core t.bits → Prop}
    (h : i.effect t c = some c') (hQ : Q () c') : (instr i).Does t text c J Q :=
  does_lines (executes_effect h hQ)

theorem does_bindingOf {v : Variable} {Q : Binding → Core t.bits → Prop}
    (hQ : ∀ b, v.binding = some b → Q b c) : (bindingOf v).Does t text c J Q := by
  intro n b ls n' hrun
  obtain ⟨hb, rfl, -⟩ := emits_bindingOf.1 hrun
  exact executes_nil (hQ b hb)

end Emit

/-! ## The registers of a target -/

/-- Registers that hold values and addresses of their own. -/
structure Target.Workable (t : Target) : Prop where
  pos : 0 < t.wordSize
  lt : t.wordSize < wordBound
  two_le : 2 ≤ t.registers.length
  nodup : t.registers.Nodup
  stackPointer : t.stackPointer ∉ t.registers
  basePointer : t.basePointer ∉ t.registers
  pointers : t.basePointer ≠ t.stackPointer

/-- The registers are what the machine and the calling convention take them to be. -/
structure Target.Standard (t : Target) : Prop extends t.Workable where
  wordSize : t.wordSize = 4 ∨ t.wordSize = 8
  length : t.registers.length = 6
  dividend : t.dividend = (t.registerName 0, t.registerName 3)
  widens : t.signExtend = t.widens
  saved : ∀ r ∈ t.registers, t.isCallerSaved r = true ∨ r ∈ t.calleeSaved
  calleeSaved : ∀ r ∈ t.calleeSaved, r ∈ t.registers ∧ r ≠ t.registerName 0
  calleeSaved_nodup : t.calleeSaved.Nodup
  alignment : t.wordSize ∣ t.stackAlignment

instance {t : Target} : Coe t.Standard t.Workable := ⟨Target.Standard.toWorkable⟩

theorem Target.standard_of_mem {t : Target} (h : t ∈ Target.supported) : t.Standard := by
  simp only [Target.supported, List.mem_cons, List.not_mem_nil, or_false] at h
  obtain rfl | rfl := h
  all_goals exact ⟨⟨by decide, by decide, by decide, by decide, by decide, by decide, by decide⟩,
    by decide, by decide, by decide, by decide, by decide, by decide, by decide, by decide⟩

namespace Target.Workable

variable {t : Target} (ht : t.Workable)

include ht

theorem wrap_wordSize : wrap t.wordSize = t.wordSize ∧ wrap (-t.wordSize) = -t.wordSize := by
  have hpos := ht.pos
  have hlt := ht.lt
  constructor
  all_goals exact wrap_of_mem_range (by omega) (by omega)

theorem registers_ne_nil : t.registers ≠ [] := by
  intro hnil
  have := ht.two_le
  simp [hnil] at this

theorem mod_lt (n : Nat) : n % t.registers.length < t.registers.length :=
  Nat.mod_lt _ (List.length_pos_iff.2 ht.registers_ne_nil)

theorem registerName_eq (n : Nat) :
    t.registerName n = t.registers.get ⟨n % t.registers.length, ht.mod_lt n⟩ := by
  have hlt := ht.mod_lt n
  simp [Target.registerName, hlt]

theorem mem_registers (n : Nat) : t.registerName n ∈ t.registers := by
  rw [ht.registerName_eq n]
  exact List.get_mem ..

theorem registerName_ne_stackPointer (n : Nat) : t.registerName n ≠ t.stackPointer :=
  fun h => ht.stackPointer (h ▸ ht.mem_registers n)

theorem registerName_ne_basePointer (n : Nat) : t.registerName n ≠ t.basePointer :=
  fun h => ht.basePointer (h ▸ ht.mem_registers n)

/-- Numbers share a register if they are a multiple of the number of registers apart. -/
theorem registerName_inj {m n : Nat} : t.registerName m = t.registerName n ↔
    m % t.registers.length = n % t.registers.length := by
  rw [ht.registerName_eq m, ht.registerName_eq n, ht.nodup.get_inj_iff, Fin.mk.injEq]

/-- Numbers that are less than the number of registers apart do not share a register. -/
theorem registerName_ne {m n : Nat} (hlt : m < n) (hnear : n < m + t.registers.length) :
    t.registerName n ≠ t.registerName m := by
  rw [Ne, ht.registerName_inj]
  intro hmod
  have hdvd := Nat.dvd_of_mod_eq_zero (Nat.sub_mod_eq_zero_of_mod_eq hmod)
  have := Nat.le_of_dvd (by omega) hdvd
  omega

theorem registerName_succ_ne (n : Nat) : t.registerName (n + 1) ≠ t.registerName n := by
  have := ht.two_le
  exact ht.registerName_ne (by omega) (by omega)

end Target.Workable

theorem Target.Standard.registerName_inj {t : Target} (ht : t.Standard) {m n : Nat} :
    t.registerName m = t.registerName n ↔ m % 6 = n % 6 := by
  rw [ht.toWorkable.registerName_inj, ht.length]

/-! ## Instructions -/

namespace Core

variable {t : Target} {c : Core t.bits} {sp : Int}

/-- The state after a word was pushed, with the stack pointer at `sp` before. -/
def pushed (c : Core t.bits) (sp : Int) (v : Word t.bits) : Core t.bits :=
  (c.setReg t.stackPointer (.addr (sp - t.wordSize))).setMem (sp - t.wordSize) v

theorem push_eq (ht : t.Workable) (hsp : c.regs t.stackPointer = .addr sp)
    (haligned : t.wordSize ∣ sp) (v : Word t.bits) : c.push t v = some (c.pushed sp v) := by
  have haligned' : t.wordSize ∣ sp + -t.wordSize :=
    Int.dvd_add haligned (Int.dvd_neg.2 (Int.dvd_refl _))
  simp [push, store, address_eq hsp, ht.wrap_wordSize, haligned', pushed, Int.sub_eq_add_neg]

theorem pop_eq (hsp : c.regs t.stackPointer = .addr sp) (haligned : t.wordSize ∣ sp) :
    c.pop t = some (c.mem sp, c.setReg t.stackPointer (.addr (sp + t.wordSize))) := by
  have hzero : wrap 0 = 0 := by decide
  simp [pop, load, address_eq hsp, hzero, haligned]

end Core

theorem Emit.Does.reg_bind {α : Type} {t : Target} (ht : t.Workable) {text : List Line}
    {c : Core t.bits} {J : List Line → Core t.bits → Prop} {Q : α → Core t.bits → Prop} (n : Nat)
    {f : Operand → Emit α} (hf : (f (.reg (t.registerName n))).Does t text c J Q) :
    (t.reg n >>= f).Does t text c J Q := by
  rw [Target.reg_eq ht.registers_ne_nil]
  refine Does.bind (does_ofExcept ?_)
  rintro _ ⟨⟩
  exact hf

/-- A move that is left out if it changes nothing. -/
theorem Emit.Does.move_bind {α : Type} {t : Target} {text : List Line} {c : Core t.bits}
    {J : List Line → Core t.bits → Prop} {Q : α → Core t.bits → Prop} {src dst : String} {b : Prop}
    [Decidable b] (hb : ¬ b → src = dst) {x : Emit α}
    (hx : x.Does t text (c.setReg dst (c.regs src)) J Q) :
    (if b then instr (.mov (.reg src) (.reg dst)) >>= fun _ => x else x).Does t text c J Q := by
  refine Does.ite (fun _ => Does.bind (does_instr rfl hx)) fun hnot => ?_
  rw [hb hnot, Core.setReg_self] at hx
  exact hx

namespace Instr

variable {t : Target} {c : Core t.bits} {src dst base : String} {a b : BitVec t.bits}
  {n offset sp x : Int}

theorem effect_move :
    (mov (.reg src) (.reg dst)).effect t c = some (c.setReg dst (c.regs src)) := rfl

theorem effect_const : (mov (.imm n) (.reg dst)).effect t c =
    some (c.setReg dst (.num (BitVec.ofInt t.bits (wrap n)))) := rfl

theorem effect_load : (t.load n (.reg dst)).effect t c =
    some (c.setReg dst (.num (BitVec.ofInt t.bits (wrap n)))) := by
  unfold Target.load
  split <;> rfl

section

variable (hbase : c.regs base = .addr x)

include hbase

theorem effect_fetch (haligned : t.wordSize ∣ x + wrap offset) :
    (mov (.mem offset base) (.reg dst)).effect t c =
      some (c.setReg dst (c.mem (x + wrap offset))) := by
  simp [effect, Operand.isMem, Core.read, Core.write, Core.load, Core.address_eq hbase, haligned]

theorem effect_put (haligned : t.wordSize ∣ x + wrap offset) :
    (mov (.reg src) (.mem offset base)).effect t c =
      some (c.setMem (x + wrap offset) (c.regs src)) := by
  simp [effect, Operand.isMem, Core.read, Core.write, Core.store, Core.address_eq hbase, haligned]

theorem effect_putConst (haligned : t.wordSize ∣ x + wrap offset) :
    (mov (.imm n) (.mem offset base)).effect t c =
      some (c.setMem (x + wrap offset) (.num (BitVec.ofInt t.bits (wrap n)))) := by
  simp [effect, Operand.isMem, Core.read, Core.write, Core.store, Core.address_eq hbase, haligned]

theorem effect_lea :
    (lea (.mem offset base) (.reg dst)).effect t c =
      some (c.setReg dst (.addr (x + wrap offset))) := by
  simp [effect, Core.write, Core.address_eq hbase]

end

theorem effect_push (ht : t.Workable) (hsp : c.regs t.stackPointer = .addr sp)
    (haligned : t.wordSize ∣ sp) :
    (push (.reg src)).effect t c = some (c.pushed sp (c.regs src)) := by
  simp [effect, Core.read, Core.push_eq ht hsp haligned]

theorem effect_pop (hsp : c.regs t.stackPointer = .addr sp) (haligned : t.wordSize ∣ sp) :
    (pop (.reg dst)).effect t c =
      some ((c.setReg t.stackPointer (.addr (sp + t.wordSize))).setReg dst (c.mem sp)) := by
  simp [effect, Core.pop_eq hsp haligned, Core.write]

theorem effect_add (hsrc : c.regs src = .num a) (hdst : c.regs dst = .num b) :
    (add (.reg src) (.reg dst)).effect t c =
      some ((c.setReg dst (.num (b + a))).setFlags none) := by
  simp [effect, Core.compute, Operand.isMem, Core.read, Core.write, hsrc, hdst]

theorem effect_sub (hsrc : c.regs src = .num a) (hdst : c.regs dst = .num b) :
    (sub (.reg src) (.reg dst)).effect t c =
      some ((c.setReg dst (.num (b - a))).setFlags none) := by
  simp [effect, Core.compute, Operand.isMem, Core.read, Core.write, hsrc, hdst]

theorem effect_imul (hsrc : c.regs src = .num a) (hdst : c.regs dst = .num b) :
    (imul (.reg src) (.reg dst)).effect t c =
      some ((c.setReg dst (.num (b * a))).setFlags none) := by
  simp [effect, Core.compute, Operand.isMem, Core.read, Core.write, hsrc, hdst]

theorem effect_xor (hdst : c.regs dst = .num b) :
    (xor (.imm n) (.reg dst)).effect t c =
      some ((c.setReg dst (.num (b ^^^ BitVec.ofInt t.bits (wrap n)))).setFlags none) := by
  simp [effect, Core.compute, Operand.isMem, Core.read, Core.write, hdst]

theorem effect_or (hdst : c.regs dst = .num b) :
    (or (.reg dst) (.reg dst)).effect t c =
      some ((c.setReg dst (.num b)).setFlags (some (comparison b 0))) := by
  simp [effect, Core.compute, Operand.isMem, Core.read, Core.write, hdst]

theorem effect_cmp (hsrc : c.regs src = .num a) (hdst : c.regs dst = .num b) :
    (cmp (.reg src) (.reg dst)).effect t c = some (c.setFlags (some (comparison b a))) := by
  simp [effect, Operand.isMem, Core.read, hsrc, hdst]

theorem effect_neg (hdst : c.regs dst = .num b) :
    (neg (.reg dst)).effect t c = some ((c.setReg dst (.num (-b))).setFlags none) := by
  simp [effect, Core.read, Core.write, hdst]

theorem effect_lower (hdst : c.regs dst = .addr x) :
    (sub (.imm n) (.reg dst)).effect t c =
      some ((c.setReg dst (.addr (x - wrap n))).setFlags none) := by
  simp [effect, Core.shift, Core.read, Core.write, hdst, Int.sub_eq_add_neg]

theorem effect_raise (hdst : c.regs dst = .addr x) :
    (add (.imm n) (.reg dst)).effect t c =
      some ((c.setReg dst (.addr (x + wrap n))).setFlags none) := by
  simp [effect, Core.shift, Core.read, Core.write, hdst]

end Instr

/-! ## Division -/

/-- The upper half of a word that was widened. -/
def signWord {w : Nat} (a : BitVec w) : BitVec w := if a.msb then BitVec.allOnes w else 0

theorem toInt_signWord_append {w : Nat} (hw : 0 < w) (a : BitVec w) :
    (signWord a ++ a).toInt = a.toInt := by
  rw [BitVec.toInt_append, if_neg (by simp; omega), BitVec.toInt_eq_msb_cond a, signWord]
  cases a.msb with
  | true =>
    simp only [if_true, BitVec.toInt_allOnes, if_pos hw]
    push_cast
    omega
  | false => simp

/-- Where the language has a quotient, the machine has it. -/
theorem quotient_of_divides {w : Nat} {a b : BitVec w} (h : divides a b = true) :
    b ≠ 0 ∧ BitVec.ofInt w (a.toInt.tdiv b.toInt) = a.sdiv b ∧
      (BitVec.ofInt w (a.toInt.tdiv b.toInt)).toInt = a.toInt.tdiv b.toInt ∧
      BitVec.ofInt w (a.toInt.tmod b.toInt) = a.srem b := by
  simp only [divides, ne_eq, Bool.and_eq_true, decide_eq_true_eq, Bool.not_eq_true',
    Bool.and_eq_false_iff, beq_eq_false_iff_ne] at h
  have hquotient := BitVec.toInt_sdiv_of_ne_or_ne a b h.2
  have hsdiv : BitVec.ofInt w (a.toInt.tdiv b.toInt) = a.sdiv b := by
    rw [← hquotient, BitVec.ofInt_toInt]
  refine ⟨h.1, hsdiv, by rw [hsdiv, hquotient], ?_⟩
  rw [← BitVec.toInt_srem, BitVec.ofInt_toInt]

namespace Instr

variable {t : Target} {c : Core t.bits} {a b : BitVec t.bits} {sp : Int}

theorem effect_widen (ht : t.Standard) (hlow : c.regs (t.registerName 0) = .num a) :
    (widen t.signExtend).effect t c = some (c.setReg (t.registerName 3) (.num (signWord a))) := by
  simp [effect, ht.dividend, hlow, ht.widens, signWord]

theorem effect_idiv (ht : t.Standard) (hsp : c.regs t.stackPointer = .addr sp)
    (haligned : t.wordSize ∣ sp) (hdivisor : c.mem sp = .num b)
    (hlow : c.regs (t.registerName 0) = .num a)
    (hhigh : c.regs (t.registerName 3) = .num (signWord a)) (hdivides : divides a b = true) :
    (idiv (.mem 0 t.stackPointer)).effect t c =
      some (((c.setReg (t.registerName 0) (.num (a.sdiv b))).setReg (t.registerName 3)
        (.num (a.srem b))).setFlags none) := by
  have hzero : wrap 0 = 0 := by decide
  have hbits : 0 < t.bits := by
    have := ht.wordSize
    unfold Target.bits
    omega
  obtain ⟨hne, hsdiv, hfits, hsrem⟩ := quotient_of_divides hdivides
  have hdivide : c.divide t (.num b) = some (((c.setReg (t.registerName 0)
      (.num (a.sdiv b))).setReg (t.registerName 3) (.num (a.srem b))).setFlags none) := by
    simp only [Core.divide, ht.dividend, hlow, hhigh, toInt_signWord_append hbits]
    rw [if_neg (not_or.2 ⟨hne, not_not.2 hfits⟩), hsdiv, hsrem]
  simp [effect, Core.read, Core.load, Core.address_eq hsp, hzero, haligned, hdivisor, hdivide]

end Instr

end MiniCompiler
