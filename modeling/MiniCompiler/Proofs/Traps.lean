import MiniCompiler.Proofs.OperatorMeaning

/-!
# Where code traps

A division by zero, or one whose quotient is no word, stops the machine. `Emit.Traps` says that the lines
which a step of emitting writes run up to such a division in them; `Code.Traps` says so of the code of an
expression. Code that is made by an operator traps where an operand traps or the operator itself does.

Operands that have no side effect may be evaluated in either order. If one of them traps, the other
comes to its end or traps as well, and so the order does not matter.
-/

namespace MiniCompiler

open Emit

/-! ## Lines -/

/-- A division at which the machine traps: the divisor is zero, or the quotient is no word. -/
def Core.DivideError (t : Target) (c : Core t.bits) (src : Operand) : Prop :=
  ∃ d low high, c.read t src = some (.num d) ∧ c.regs t.dividend.1 = .num low ∧
    c.regs t.dividend.2 = .num high ∧
    (d = 0 ∨ (BitVec.ofInt t.bits ((high ++ low).toInt.tdiv d.toInt)).toInt ≠
      (high ++ low).toInt.tdiv d.toInt)

/-- Before `rest`, the lines run from the state `c` up to a division in them at which the machine
    traps. -/
def Machine.TrapsIn (t : Target) (text ls rest : List Line) (c : Core t.bits) : Prop :=
  ∃ before src after c', ls = before ++ .instr (.idiv src) :: after ∧
    Machine.Reaches t text ⟨ls ++ rest, c⟩ ⟨.instr (.idiv src) :: (after ++ rest), c'⟩ ∧
    c'.DivideError t src

/-- The lines that a step writes trap, wherever they stand in the text. -/
def Emit.Traps {α : Type} (t : Target) (text : List Line) (x : Emit α) (c : Core t.bits) : Prop :=
  ∀ n a ls n', Emits x n a ls n' → ∀ rest, ls ++ rest <:+ text → Machine.TrapsIn t text ls rest c

theorem Core.DivideError.step_eq_none {t : Target} {text rest : List Line} {c : Core t.bits}
    {src : Operand} (h : c.DivideError t src) :
    Machine.step t text ⟨.instr (.idiv src) :: rest, c⟩ = none := by
  obtain ⟨d, low, high, hsrc, hlow, hhigh, herror⟩ := h
  have hdivide : c.divide t (.num d) = none := by
    simp only [Core.divide, hlow, hhigh]
    exact if_pos herror
  simp [Machine.step, Instr.effect, hsrc, hdivide]

section

variable {t : Target} {text ls ms rest : List Line} {c : Core t.bits}

theorem Machine.TrapsIn.append (h : Machine.TrapsIn t text ls (ms ++ rest) c) :
    Machine.TrapsIn t text (ls ++ ms) rest c := by
  obtain ⟨before, src, after, c', rfl, hreaches, herror⟩ := h
  refine ⟨before, src, after ++ ms, c', by simp, ?_, herror⟩
  simpa using hreaches

/-- Lines that run to their end, before others that trap. -/
theorem Executes.trapsIn {R : Core t.bits → Prop} (h : Executes t text ls c (fun _ _ => False) R)
    (hsuffix : ls ++ ms ++ rest <:+ text) (h' : ∀ c', R c' → Machine.TrapsIn t text ms rest c') :
    Machine.TrapsIn t text (ls ++ ms) rest c := by
  rw [List.append_assoc] at hsuffix
  obtain ⟨rest', c', hreaches, ⟨rfl, hR⟩ | hfalse⟩ := h (ms ++ rest) hsuffix
  · obtain ⟨before, src, after, c'', rfl, hreaches', herror⟩ := h' c' hR
    refine ⟨ls ++ before, src, after, c'', by simp, ?_, herror⟩
    rw [List.append_assoc]
    exact hreaches.trans hreaches'
  · exact hfalse.elim

/-- A machine stops in one state only. -/
theorem Machine.Reaches.eq_of_stopped {m m₁ m₂ : Machine t.bits} (h₁ : Machine.Reaches t text m m₁)
    (h₂ : Machine.Reaches t text m m₂) (hstop₁ : m₁.step t text = none)
    (hstop₂ : m₂.step t text = none) : m₁ = m₂ := by
  have hunique : Relator.RightUnique fun m m' : Machine t.bits => m.step t text = some m' :=
    fun _ _ _ h h' => Option.some.inj (h.symm.trans h')
  have hstays {m m' : Machine t.bits} (h : Machine.Reaches t text m m')
      (hstop : m.step t text = none) : m = m' := by
    obtain rfl | ⟨_, hstep, -⟩ := h.cases_head
    · rfl
    · cases hstop.symm.trans hstep
  obtain h | h := Relation.ReflTransGen.total_of_right_unique hunique h₁ h₂
  · exact hstays h hstop₁
  · exact (hstays h hstop₂).symm

theorem Machine.TrapsIn.not_reaches_end {c' : Core t.bits} (h : Machine.TrapsIn t text ls rest c) :
    ¬ Machine.Reaches t text ⟨ls ++ rest, c⟩ ⟨[], c'⟩ := by
  intro hend
  obtain ⟨before, src, after, c'', -, htrap, herror⟩ := h
  cases htrap.eq_of_stopped hend herror.step_eq_none rfl

end

namespace Emit

variable {α β : Type} {t : Target} {text : List Line} {c : Core t.bits}

theorem Traps.bind {x : Emit β} {f : β → Emit α} (hx : x.Traps t text c) :
    (x >>= f).Traps t text c := by
  intro n a ls n' hrun rest hsuffix
  obtain ⟨b, l₁, n₁, l₂, hrun₁, -, rfl⟩ := emits_bind.1 hrun
  exact (hx n b l₁ n₁ hrun₁ (l₂ ++ rest) (List.append_assoc l₁ l₂ rest ▸ hsuffix)).append

theorem Completes.traps {x : Emit β} {f : β → Emit α} {R : β → Core t.bits → Prop}
    (hx : x.Completes t text c R) (hf : ∀ b c', R b c' → (f b).Traps t text c') :
    (x >>= f).Traps t text c := by
  intro n a ls n' hrun rest hsuffix
  obtain ⟨b, l₁, n₁, l₂, hrun₁, hrun₂, rfl⟩ := emits_bind.1 hrun
  refine (hx n b l₁ n₁ hrun₁).trapsIn hsuffix fun c' hR => ?_
  refine hf b c' hR n₁ a l₂ n' hrun₂ rest ?_
  rw [List.append_assoc] at hsuffix
  exact (List.suffix_append l₁ _).trans hsuffix

theorem Traps.ite {b : Prop} [Decidable b] {x y : Emit α} (hx : b → x.Traps t text c)
    (hy : ¬ b → y.Traps t text c) : (if b then x else y).Traps t text c := by
  by_cases hb : b
  · rw [if_pos hb]
    exact hx hb
  · rw [if_neg hb]
    exact hy hb

theorem Traps.ensuring {x : Emit α} {y : Emit Unit} (hx : x.Traps t text c) :
    (x.ensuring y).Traps t text c := by
  intro n a ls n' hrun rest hsuffix
  obtain ⟨l₁, n₁, l₂, hrun₁, -, rfl⟩ := emits_ensuring.1 hrun
  exact (hx n a l₁ n₁ hrun₁ (l₂ ++ rest) (List.append_assoc l₁ l₂ rest ▸ hsuffix)).append

theorem Traps.instr_bind {i : Instr} {c' : Core t.bits} (h : i.effect t c = some c')
    {f : Unit → Emit α} (hf : (f ()).Traps t text c') : (instr i >>= f).Traps t text c := by
  refine Completes.traps (R := fun _ c'' => c'' = c') (does_instr h rfl) ?_
  rintro _ _ rfl
  exact hf

theorem Traps.reg_bind (ht : t.Workable) (n : Nat) {f : Operand → Emit α}
    (hf : (f (.reg (t.registerName n))).Traps t text c) : (t.reg n >>= f).Traps t text c := by
  intro m a ls m' hrun
  exact hf m a ls m' ((Target.emits_reg_bind ht.registers_ne_nil).1 hrun)

theorem Traps.depth_bind {e : Expr} {f : Nat → Emit α} (hf : (f e.depth).Traps t text c) :
    (ofExcept e.depth? >>= f).Traps t text c := by
  refine Completes.traps (R := fun d c' => e.depth = d ∧ c' = c)
    (does_ofExcept fun d hd => ⟨Expr.depth_of_depth? hd, rfl⟩) ?_
  rintro _ _ ⟨rfl, rfl⟩
  exact hf

theorem Traps.newLabel_bind {f : Label → Emit α} (hf : ∀ l, (f l).Traps t text c) :
    (newLabel >>= f).Traps t text c :=
  fun _ a ls n' hrun => hf _ _ a ls n' (emits_newLabel_bind.1 hrun)

end Emit

/-! ## Labels in the lines -/

theorem exists_resolve {l : Label} {text : List Line} (h : .label l ∈ text) :
    ∃ dest, resolve l text = some dest := by
  induction text with
  | nil => cases h
  | cons m text ih =>
    -- the first label of this name counts, not the one that is given
    by_cases heq : m = .label l
    · exact ⟨text, by simp [heq, resolve]⟩
    · obtain ⟨dest, hdest⟩ := ih ((List.mem_cons.1 h).resolve_left (Ne.symm heq))
      cases m with
      | label l' => exact ⟨dest, by simpa [resolve, show l' ≠ l by rintro rfl; exact heq rfl]⟩
      | _ => exact ⟨dest, hdest⟩

/-- A step that writes a label. -/
def Emit.Places {α : Type} (l : Label) (x : Emit α) : Prop :=
  ∀ n a ls n', Emits x n a ls n' → .label l ∈ ls

namespace Emit

variable {α β : Type} {t : Target} {text : List Line} {c : Core t.bits} {l : Label}

theorem places_label : (label l).Places l := by
  intro n a ls n' hrun
  obtain ⟨rfl, -⟩ := emits_label.1 hrun
  simp

theorem places_label_bind {f : Unit → Emit α} : (label l >>= f).Places l := by
  intro n a ls n' hrun
  obtain ⟨ms, -, rfl⟩ := emits_label_bind.1 hrun
  simp

theorem places_bind {x : Emit β} {f : β → Emit α} (hf : ∀ b, (f b).Places l) :
    (x >>= f).Places l := by
  intro n a ls n' hrun
  obtain ⟨b, l₁, n₁, l₂, -, hrun₂, rfl⟩ := emits_bind.1 hrun
  exact List.mem_append_right _ (hf b n₁ a l₂ n' hrun₂)

/-- The lines of a step may jump to a label that it writes. -/
theorem Traps.of_places {x : Emit α} (hplaces : x.Places l)
    (hx : ∀ dest, resolve l text = some dest → x.Traps t text c) : x.Traps t text c := by
  intro n a ls n' hrun rest hsuffix
  have hmem : .label l ∈ ls ++ rest := List.mem_append_left _ (hplaces n a ls n' hrun)
  obtain ⟨dest, hdest⟩ := exists_resolve (hsuffix.subset hmem)
  exact hx dest hdest n a ls n' hrun rest hsuffix

end Emit

/-! ## Division -/

/-- Where the language has no quotient, the machine has none. -/
theorem no_quotient_of_not_divides {w : Nat} (hw : 0 < w) {a b : BitVec w} (h : divides a b = false) :
    b = 0 ∨ (BitVec.ofInt w (a.toInt.tdiv b.toInt)).toInt ≠ a.toInt.tdiv b.toInt := by
  simp only [divides, ne_eq, Bool.and_eq_false_iff, decide_eq_false_iff_not, not_not,
    Bool.not_eq_false', Bool.and_eq_true, beq_iff_eq] at h
  refine h.imp_right ?_
  -- the least number has no negation
  rintro ⟨rfl, rfl⟩ hfits
  have hlt : (BitVec.ofInt w ((BitVec.intMin w).toInt.tdiv (-1 : BitVec w).toInt)).toInt <
      2 ^ (w - 1) := BitVec.toInt_lt
  have hone : (-1 : BitVec w).toInt = -1 := by
    rw [show (-1 : BitVec w) = BitVec.allOnes w from BitVec.neg_one_eq_allOnes,
      BitVec.toInt_allOnes, if_pos hw]
  have hpow : 2 ^ (w - 1) % 2 ^ w = 2 ^ (w - 1) :=
    Nat.mod_eq_of_lt (Nat.pow_lt_pow_right (by decide) (by omega))
  rw [hfits, hone, BitVec.toInt_intMin, hpow, Int.neg_tdiv_neg, Int.tdiv_one] at hlt
  simp at hlt

theorem ArithOp.not_divides_of_trap {w : Nat} {op : ArithOp} {a b : BitVec w}
    (h : op.apply a b = .error .trap) : divides a b = false := by
  cases op with
  | div | rem =>
    simp only [ArithOp.apply] at h
    split at h
    · cases h
    · exact Bool.eq_false_iff.2 ‹_›
  | _ => cases h

section

variable {t : Target} {text : List Line} {sp : Int} {c : Core t.bits} {free : Nat}
  {left right : String}

theorem traps_idiv {src : Operand} (h : c.DivideError t src) :
    (instr (.idiv src)).Traps t text c := by
  intro n u ls n' hrun rest _
  obtain ⟨rfl, -⟩ := emits_instr.1 hrun
  exact ⟨[], src, [], c, rfl, .refl _, h⟩

theorem Emit.Traps.move_bind {α : Type} {src dst : String} {b : Prop} [Decidable b]
    (hb : ¬ b → src = dst) {x : Emit α} (hx : x.Traps t text (c.setReg dst (c.regs src))) :
    (if b then instr (.mov (.reg src) (.reg dst)) >>= fun _ => x else x).Traps t text c := by
  refine Traps.ite (fun _ => Traps.instr_bind rfl hx) fun hnot => ?_
  rwa [hb hnot, Core.setReg_self] at hx

/-- The divisor is on the stack when the machine divides. -/
theorem divideError_of_not_divides (ht : t.Standard) (hsp : c.regs t.stackPointer = .addr sp)
    (haligned : t.wordSize ∣ sp) {a b : BitVec t.bits} (hdivisor : c.mem sp = .num b)
    (hlow : c.regs (t.registerName 0) = .num a)
    (hhigh : c.regs (t.registerName 3) = .num (signWord a)) (hdivides : divides a b = false) :
    c.DivideError t (.mem 0 t.stackPointer) := by
  have hzero : wrap 0 = 0 := by decide
  refine ⟨b, a, signWord a, ?_, ?_, ?_, ?_⟩
  · simp [Core.read, Core.load, Core.address_eq hsp, hzero, haligned, hdivisor]
  · rw [ht.dividend, hlow]
  · rw [ht.dividend, hhigh]
  · rw [toInt_signWord_append ht.bits_pos]
    exact no_quotient_of_not_divides ht.bits_pos hdivides

theorem traps_divide (ht : t.Standard) (hsp : c.regs t.stackPointer = .addr sp)
    (haligned : t.wordSize ∣ sp) {a b : BitVec t.bits} (hleft : c.regs left = .num a)
    (hright : c.regs right = .num b) (hdivides : divides a b = false)
    (h : t.Holding free left right) (dst : String) (remainder : Bool) :
    (divide t (.reg left) (.reg right) (.reg dst) remainder).Traps t text c := by
  have hlow := ht.registerName_ne_stackPointer 0
  have hhigh := ht.registerName_ne_stackPointer 3
  have hne : t.registerName 0 ≠ t.registerName 3 := by
    rw [Ne, ht.registerName_inj]
    decide
  obtain ⟨hleft', hright'⟩ := h.ne_stackPointer ht.toWorkable
  refine Traps.reg_bind ht 0 (Traps.reg_bind ht 3 ?_)
  generalize hrs : [t.registerName 0, t.registerName 3].filter (· ≠ dst) = rs
  have hsaved : [Operand.reg (t.registerName 0), .reg (t.registerName 3)].filter (· != .reg dst) =
      rs.map Operand.reg := by
    rw [← hrs, ← Operand.filter_reg]
    rfl
  have hnot : t.stackPointer ∉ rs := by
    simp [← hrs, hlow.symm, hhigh.symm]
  simp only [hsaved, List.map_map, Function.comp_def]
  refine Completes.traps (R := fun _ c' => c.Agrees (· ≠ t.stackPointer) (sp ≤ ·) c' ∧
    c'.regs t.stackPointer = .addr (sp - rs.length * t.wordSize) ∧
    Stacked t.wordSize c'.mem c.regs sp rs)
    (does_lines (executes_pushes ht rs hnot sp c hsp haligned)) ?_
  rintro _ c₁ ⟨hagrees, hsp₁, -⟩
  have haligned₁ : t.wordSize ∣ sp - rs.length * t.wordSize :=
    Int.dvd_sub haligned (Int.dvd_mul_left ..)
  generalize sp - rs.length * t.wordSize = sp₁ at hsp₁ haligned₁
  -- the divisor is pushed below the saved registers, then the dividend is widened
  refine Traps.instr_bind (Instr.effect_push ht hsp₁ haligned₁) (Traps.move_bind (by simp) ?_)
  have hpushed : c₁.Agrees (· ≠ t.stackPointer) (sp₁ ≤ ·) (c₁.pushed sp₁ (c₁.regs right)) :=
    Core.agrees_pushed ht _
  rw [hpushed.regs left hleft', hagrees.regs left hleft', hleft]
  refine Traps.instr_bind (Instr.effect_widen ht (Core.regs_setReg_self ..)) (traps_idiv ?_).bind
  refine divideError_of_not_divides (a := a) (b := b) ht ?_
    (Int.dvd_sub haligned₁ (Int.dvd_refl _)) ?_ ?_ ?_ hdivides
  · simp [hlow.symm, hhigh.symm, Core.stackPointer_pushed]
  · simp [Core.mem_pushed, hagrees.regs right hright', hright]
  · simp [hne]
  · simp

end

/-! ## Code -/

/-- The code of an expression that, from the store `σ`, traps. -/
structure Code.Traps (s : Settings) (text : List Line) (L : Layout) (code : Code)
    (σ : Store s.target.bits) : Prop where
  value : ∀ {sp c} (h : Int) (free : Nat), L.Holds s.target sp σ c →
    (code.value h free).Traps s.target text c
  branch : ∀ {sp c label dest} (sense : Bool) (h : Int) (free : Nat), L.Holds s.target sp σ c →
    resolve label text = some dest → (code.branch label sense h free).Traps s.target text c

/-- The code of an expression that, from the store `σ`, has the value `v` and leaves the store `σ'`,
    whatever is on the stack. -/
abbrev Code.Yields (s : Settings) (text : List Line) (L : Layout) (code : Code)
    (σ : Store s.target.bits) (v : Value s.target.bits) (σ' : Store s.target.bits) : Prop :=
  code.Means s text L (fun _ => True) σ v σ'

/-- One after the other, two codes trap, or they end with values and a store of `last`. -/
def Code.PairTraps (s : Settings) (text : List Line) (L : Layout) (x y : Code) (σ : Store s.target.bits)
    (last : Value s.target.bits → Value s.target.bits → Store s.target.bits → Prop) : Prop :=
  x.Traps s text L σ ∨ ∃ u σ₁, x.Yields s text L σ u σ₁ ∧
    (y.Traps s text L σ₁ ∨ ∃ v σ₂, y.Yields s text L σ₁ v σ₂ ∧ last u v σ₂)

section

variable {s : Settings} {text : List Line} {L : Layout} {σ σ₁ σ₂ : Store s.target.bits}
  {c : Core s.target.bits} {p : Pos} {l r : Expr}

theorem Code.traps_ofValue {value : Int → Nat → Emit Unit}
    (h : ∀ {sp c} (h : Int) (free : Nat), L.Holds s.target sp σ c →
      (value h free).Traps s.target text c) : (Code.ofValue s.target value).Traps s text L σ :=
  ⟨h, fun _ pushed free hL _ => (h pushed free hL).bind⟩

theorem Expr.traps_assign (ht : s.target.Workable) {x : Variable} {e : Expr}
    (he : (e.code s).Traps s text L σ) : ((Expr.assign p x e).code s).Traps s text L σ :=
  Code.traps_ofValue fun h free hL => Traps.reg_bind ht free (he.value h free hL).bind

theorem Expr.traps_unary (ht : s.target.Workable) {op : UnaryOp} {e : Expr}
    (he : (e.code s).Traps s text L σ) : ((Expr.unary p op e).code s).Traps s text L σ := by
  cases op with
  | neg | other =>
    exact Code.traps_ofValue fun h free hL => Traps.reg_bind ht free (he.value h free hL).bind
  | not =>
    exact ⟨fun h free hL => Traps.reg_bind ht free (he.value h free hL).bind,
      fun sense h free hL hdest => he.branch (!sense) h free hL hdest⟩

namespace Layout.Holds

theorem traps_withSpill {t : Target} (ht : t.Workable) {σ : Store t.bits} {sp h : Int}
    {c : Core t.bits} (hL : L.Holds t sp σ c) {step : Int → Emit Unit} {free : Nat}
    (hstep : ∀ {sp c} h, L.Holds t sp σ c → (step h).Traps t text c) :
    (t.withSpill (free + 1) h step).Traps t text c := by
  have hpos := ht.pos
  unfold Target.withSpill Target.spill
  refine Completes.traps (R := fun _ c' => ∃ sp', L.Holds t sp' σ c') (Does.ite (fun _ => ?_) fun _ => ?_)
    fun h c' ⟨sp', hL'⟩ => (hstep h hL').ensuring
  · refine Does.reg_bind ht (free + 1) (Does.bind ?_)
    refine does_instr (Instr.effect_push ht hL.stackPointer hL.aligned) (does_pure ?_)
    exact ⟨sp - t.wordSize, hL.lower ht (Core.agrees_pushed ht _) (Core.stackPointer_pushed _)
      (Int.dvd_sub hL.aligned (Int.dvd_refl _)) (by omega)⟩
  · exact does_pure ⟨sp, hL⟩

/-- The first of two values stays in its register while the second is evaluated. -/
theorem traps_both (ht : s.target.Workable) {x y : Code} {sp : Int}
    (hL : L.Holds s.target sp σ c) {h : Int} {free : Nat} {f : Unit → Emit Unit}
    {last : Value s.target.bits → Value s.target.bits → Store s.target.bits → Prop}
    (hpair : x.PairTraps s text L y σ last)
    (hf : ∀ {u v σ₂ c'}, last u v σ₂ → L.Holds s.target sp σ₂ c' →
      c'.regs (s.target.registerName free) = u.word →
      c'.regs (s.target.registerName (free + 1)) = v.word → (f ()).Traps s.target text c') :
    (x.value h free >>= fun _ => y.value h (free + 1) >>= f).Traps s.target text c := by
  obtain hx | ⟨u, σ₁, hx, hy⟩ := hpair
  · exact (hx.value h free hL).bind
  · refine Completes.traps (hx.value free hL trivial) ?_
    rintro _ c₁ ⟨hkeeps₁, hu⟩
    have hL₁ := hL.after hkeeps₁ .stackPointer .basePointer fun z hz => Int.le_trans hL.le_base hz
    obtain hy | ⟨v, σ₂, hy, hlast⟩ := hy
    · exact (hy.value h (free + 1) hL₁).bind
    · refine Completes.traps (hy.value (free + 1) hL₁ trivial) ?_
      rintro _ c₂ ⟨hkeeps₂, hv⟩
      have hL₂ := hL₁.after hkeeps₂ .stackPointer .basePointer fun z hz => Int.le_trans hL.le_base hz
      refine hf hlast hL₂ ?_ hv
      rw [hkeeps₂.agrees.regs _ (.self_succ ht), hu]

theorem traps_operands (ht : s.target.Workable) {lcode rcode : Code} {sp h : Int}
    (hL : L.Holds s.target sp σ c) {free : Nat} {combine : Operand → Operand → Emit Unit}
    {last : Value s.target.bits → Value s.target.bits → Store s.target.bits → Prop}
    (hpair : lcode.PairTraps s text L rcode σ last)
    (hswapped : l.depth < Expr.deep → r.depth < Expr.deep →
      rcode.PairTraps s text L lcode σ fun b a => last a b)
    (hcombine : ∀ {a b σ₂ sp c left right}, last a b σ₂ → L.Holds s.target sp σ₂ c →
      c.regs left = a.word → c.regs right = b.word → s.target.Holding free left right →
      (combine (.reg left) (.reg right)).Traps s.target text c) :
    (MiniCompiler.operands s.target l r lcode rcode h free combine).Traps s.target text c := by
  refine Traps.depth_bind (Traps.depth_bind ?_)
  refine hL.traps_withSpill ht fun h hL₁ => Traps.ite (fun _ => ?_) fun hdeep => ?_
  · refine hL₁.traps_both ht hpair fun hlast hL₂ ha hb => ?_
    refine Traps.reg_bind ht free (Traps.reg_bind ht (free + 1) ?_)
    exact hcombine hlast hL₂ ha hb (.inl ⟨rfl, rfl⟩)
  · refine hL₁.traps_both ht (hswapped (by omega) (by omega)) fun hlast hL₂ hb ha => ?_
    refine Traps.reg_bind ht (free + 1) (Traps.reg_bind ht free ?_)
    exact hcombine hlast hL₂ ha hb (.inr ⟨rfl, rfl⟩)

end Layout.Holds

/-- An arithmetic operator traps after its operands if it has no result. -/
theorem Expr.traps_arith (ht : s.target.Workable) {op : ArithOp}
    (hop : op = .div ∨ op = .rem → s.target.Standard)
    (hpair : (l.code s).PairTraps s text L (r.code s) σ fun u v _ =>
      ∃ a b, u = .int a ∧ v = .int b ∧ op.apply a b = .error .trap)
    (hswapped : l.depth < Expr.deep → r.depth < Expr.deep →
      (r.code s).PairTraps s text L (l.code s) σ fun v u _ =>
        ∃ a b, u = .int a ∧ v = .int b ∧ op.apply a b = .error .trap) :
    ((Expr.arith p op l r).code s).Traps s text L σ := by
  refine Code.traps_ofValue fun h free hL => Traps.reg_bind ht free ?_
  cases op with
  | add | sub | mul =>
    refine hL.traps_operands ht hpair hswapped ?_
    rintro _ _ _ _ _ _ _ ⟨a, b, -, -, happly⟩
    cases happly
  | div | rem =>
    refine hL.traps_operands ht hpair hswapped ?_
    rintro _ _ _ _ _ _ _ ⟨a, b, rfl, rfl, happly⟩ hL ha hb hholding
    exact traps_divide (hop (by simp)) hL.stackPointer hL.aligned ha hb
      (ArithOp.not_divides_of_trap happly) hholding _ _
  | other =>
    intro n u ls n' hrun
    cases hrun

theorem Expr.traps_comp (ht : s.target.Workable) {op : CompOp}
    (hpair : (l.code s).PairTraps s text L (r.code s) σ fun _ _ _ => False)
    (hswapped : l.depth < Expr.deep → r.depth < Expr.deep →
      (r.code s).PairTraps s text L (l.code s) σ fun _ _ _ => False) :
    ((Expr.comp p op l r).code s).Traps s text L σ := by
  have hcompare {sp : Int} {c : Core s.target.bits} (h : Int) (free : Nat)
      (hL : L.Holds s.target sp σ c) : (operands s.target l r (l.code s) (r.code s) h free
        fun l r => Emit.instr (.cmp r l)).Traps s.target text c :=
    hL.traps_operands ht hpair hswapped fun h => h.elim
  refine ⟨fun h free hL => ?_, fun sense h free hL _ => (hcompare h free hL).bind⟩
  exact Traps.reg_bind ht free (Traps.newLabel_bind fun yes => (hcompare h free hL).bind)

theorem LogicOp.traps_branch {op : LogicOp} {lcode rcode : Code}
    (hop : lcode.Traps s text L σ ∨ ∃ a σ₁, lcode.Yields s text L σ (.bool a) σ₁ ∧
      a ≠ op.decisive ∧ rcode.Traps s text L σ₁) {sp h : Int}
    {label : Label} {dest : List Line} (sense : Bool) (free : Nat) (hL : L.Holds s.target sp σ c)
    (hdest : resolve label text = some dest) :
    (branchLogic op lcode rcode label sense h free).Traps s.target text c := by
  -- a left operand that does not decide makes no jump
  have hleft {label' : Label} {dest' : List Line} {f : Unit → Emit Unit}
      (hdest' : resolve label' text = some dest')
      (hf : ∀ {σ₁ c₁}, rcode.Traps s text L σ₁ → L.Holds s.target sp σ₁ c₁ →
        (f ()).Traps s.target text c₁) :
      (lcode.branch label' op.decisive h free >>= f).Traps s.target text c := by
    obtain hl | ⟨a, σ₁, hl, ha, hr⟩ := hop
    · exact (hl.branch _ h free hL hdest').bind
    · refine Completes.traps (R := fun _ c' => L.Holds s.target sp σ₁ c') ?_ fun _ _ => hf hr
      refine (hl.branch op.decisive free hL trivial rfl hdest').mono ?_ ?_
      · exact fun _ _ hjump => ha hjump.2.1
      · exact fun _ c' hnext => hL.after hnext.2 .stackPointer .basePointer fun z hz =>
          Int.le_trans hL.le_base hz
  refine Traps.ite (fun hsense => ?_) fun hsense => ?_
  · rw [hsense]
    exact hleft hdest fun hr hL₁ => hr.branch _ h free hL₁ hdest
  · refine Traps.newLabel_bind fun skip => ?_
    rw [show (!sense) = op.decisive by cases sense <;> cases hd : op.decisive <;> simp_all]
    refine Traps.of_places (places_bind fun _ => places_bind fun _ => places_label) fun _ hskip => ?_
    exact hleft hskip fun hr hL₁ => (hr.branch sense h free hL₁ hdest).bind

theorem Expr.traps_logic (ht : s.target.Workable) {op : LogicOp}
    (hop : (l.code s).Traps s text L σ ∨ ∃ a σ₁, (l.code s).Yields s text L σ (.bool a) σ₁ ∧
      a ≠ op.decisive ∧ (r.code s).Traps s text L σ₁) :
    ((Expr.logic p op l r).code s).Traps s text L σ := by
  refine ⟨fun h free hL => ?_, fun sense h free hL hdest => LogicOp.traps_branch hop sense free hL hdest⟩
  refine Traps.reg_bind ht free (Traps.newLabel_bind fun no => Traps.newLabel_bind fun done => ?_)
  refine Traps.of_places (l := no) (places_bind fun _ => places_bind fun _ => places_bind fun _ =>
    places_label_bind) fun _ hno => ?_
  exact (LogicOp.traps_branch hop false free hL hno).bind

end

end MiniCompiler
