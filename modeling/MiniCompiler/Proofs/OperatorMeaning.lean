import MiniCompiler.Proofs.Placement
import MiniCompiler.Proofs.StackLevel

/-!
# The meaning of operators

`Code.Means` says that the code of an expression has the meaning of the expression: it leaves the value
in a register, or jumps on it, and memory has the store that the expression leaves. Code that is made
of code with this property, by an operator or a test, has it too.
-/

namespace MiniCompiler

open Emit

/-! ## Comparisons -/

theorem Target.Workable.bits_pos {t : Target} (ht : t.Workable) : 0 < t.bits := by
  have := ht.pos
  unfold Target.bits
  omega

section

variable {w : Nat} {a b : BitVec w}

theorem comparison_eq : comparison a b = .eq ↔ a = b := by
  rw [comparison, Int.compare_eq_eq, BitVec.toInt_inj]

theorem comparison_lt : comparison a b = .lt ↔ a.toInt < b.toInt := by
  rw [comparison, Int.compare_eq_lt]

theorem comparison_gt : comparison a b = .gt ↔ b.toInt < a.toInt := by
  rw [comparison, Int.compare_eq_gt]

theorem word_bool_inj (hw : 0 < w) {a b : Bool} :
    ((if a then 1 else 0 : BitVec w) = if b then 1 else 0) ↔ a = b := by
  cases a <;> cases b <;> simp <;> omega

/-- The jump of a comparison is taken if the comparison has the value that it is made for. -/
theorem CompOp.holds_cond (hw : 0 < w) {op : CompOp} {x y : Value w} {r : Bool}
    (h : op.apply x y = .ok r) (sense : Bool) : ∃ a b, x.word = .num a ∧ y.word = .num b ∧
      (op.cond sense).holds (comparison a b) = (r == sense) := by
  cases x with
  | int a =>
    cases y with
    | bool => cases h
    | int b =>
      refine ⟨a, b, rfl, rfl, ?_⟩
      have hlt : a.slt b = decide (comparison a b = .lt) := by
        rw [BitVec.slt, decide_eq_decide, comparison_lt]
      have hgt : b.slt a = decide (comparison a b = .gt) := by
        rw [BitVec.slt, decide_eq_decide, comparison_gt]
      have hle : a.sle b = decide (comparison a b ≠ .gt) := by
        rw [BitVec.sle, decide_eq_decide, Ne, comparison_gt, Int.not_lt]
      have hge : b.sle a = decide (comparison a b ≠ .lt) := by
        rw [BitVec.sle, decide_eq_decide, Ne, comparison_lt, Int.not_lt]
      have heq : (a == b) = decide (comparison a b = .eq) := by
        rw [Bool.eq_iff_iff, beq_iff_eq, decide_eq_true_iff, comparison_eq]
      have hne : (a != b) = decide (comparison a b ≠ .eq) := by
        rw [bne, heq, decide_not]
      -- the operators depend on the order of the words only
      simp only [CompOp.apply, hlt, hgt, hle, hge, heq, hne] at h
      generalize comparison a b = o at h
      cases op <;> cases sense <;> cases o <;> cases h <;> rfl
  | bool a =>
    cases y with
    | int => cases op <;> cases h
    | bool b =>
      refine ⟨_, _, rfl, rfl, ?_⟩
      have heq : comparison (if a then 1 else 0 : BitVec w) (if b then 1 else 0) = .eq ↔ a = b := by
        rw [comparison_eq, word_bool_inj hw]
      generalize comparison (if a then 1 else 0 : BitVec w) (if b then 1 else 0) = o at heq
      cases op <;> cases h <;> cases a <;> cases b <;> cases sense <;> cases o <;> simp_all <;> rfl

theorem Cond.holds_test (hw : 0 < w) (b sense : Bool) :
    (if sense then Cond.nz else .z).holds (comparison (if b then 1 else 0 : BitVec w) 0) =
      (b == sense) := by
  have heq : comparison (if b then 1 else 0 : BitVec w) 0 = .eq ↔ b = false := by
    rw [comparison_eq]
    cases b <;> simp
    omega
  generalize comparison (if b then 1 else 0 : BitVec w) 0 = o at heq
  cases b <;> cases sense <;> cases o <;> simp_all <;> rfl

theorem LogicOp.decisive_eq (op : LogicOp) : op.decisive = (op == .or) := by
  cases op <;> rfl

end

theorem Instr.effect_bool {t : Target} {c : Core t.bits} {dst : String} (b : Bool) :
    (mov (.imm (if b then 1 else 0)) (.reg dst)).effect t c =
      some (c.setReg dst (Value.bool b).word) := by
  have hzero : wrap 0 = 0 := by decide
  have hone : wrap 1 = 1 := by decide
  cases b <;> simp [effect_const, Value.word, hzero, hone]

/-! ## Meaning -/

/-- The code of an expression that, from the store `σ`, has the value `v` and leaves the store `σ'`. It is
    made for a count of bytes on the stack with which `ok` holds. -/
structure Code.Means (s : Settings) (text : List Line) (L : Layout) (code : Code) (ok : Int → Prop)
    (σ : Store s.target.bits) (v : Value s.target.bits) (σ' : Store s.target.bits) : Prop where
  value : ∀ {sp c h} (free : Nat), L.Holds s.target sp σ c → ok h →
    (code.value h free).Completes s.target text c fun _ c' =>
      L.place.Keeps (s.target.Kept free) (sp ≤ ·) σ' c c' ∧
      c'.regs (s.target.registerName free) = v.word
  branch : ∀ {sp c h b label dest} (sense : Bool) (free : Nat), L.Holds s.target sp σ c →
    ok h → v = .bool b → resolve label text = some dest →
    (code.branch label sense h free).Does s.target text c
      (fun rest c' => rest = dest ∧ b = sense ∧
        L.place.Keeps (s.target.Kept free) (sp ≤ ·) σ' c c')
      (fun _ c' => b ≠ sense ∧ L.place.Keeps (s.target.Kept free) (sp ≤ ·) σ' c c')

section

variable {s : Settings} {text : List Line} {L : Layout} {ok : Int → Prop}
  {σ σ₁ σ₂ : Store s.target.bits} {v : Value s.target.bits} {c : Core s.target.bits}
  {a b : Value s.target.bits} {p : Pos} {sp h : Int}

theorem Code.Means.mono {code : Code} {ok' : Int → Prop} (hcode : code.Means s text L ok σ v σ₁)
    (hok : ∀ h, ok' h → ok h) : code.Means s text L ok' σ v σ₁ :=
  ⟨fun free hL hh => hcode.value free hL (hok _ hh),
    fun sense free hL hh => hcode.branch sense free hL (hok _ hh)⟩

section

variable (ht : s.target.Workable) {e : Expr}

include ht

/-- Code that has only a value jumps on it. -/
theorem Code.means_ofValue {value : Int → Nat → Emit Unit}
    (hvalue : ∀ {sp c h} (free : Nat), L.Holds s.target sp σ c → ok h →
      (value h free).Completes s.target text c fun _ c' =>
        L.place.Keeps (s.target.Kept free) (sp ≤ ·) σ₁ c c' ∧
        c'.regs (s.target.registerName free) = v.word) :
    (Code.ofValue s.target value).Means s text L ok σ v σ₁ := by
  refine ⟨hvalue, ?_⟩
  rintro sp c h b label dest sense free hL hok rfl hdest
  refine Completes.bind (hvalue free hL hok) ?_
  rintro _ c₁ ⟨hkeeps, hword⟩
  refine Does.reg_bind ht free (Does.bind (does_instr (Instr.effect_or hword) ?_))
  have hkeeps' (u : Word s.target.bits) (o : Option Ordering) :
      L.place.Keeps (s.target.Kept free) (sp ≤ ·) σ₁ c
        ((c₁.setReg (s.target.registerName free) u).setFlags o) :=
    hkeeps.then ⟨fun r hr => Core.regs_setReg_of_ne _ (hr.ne ht) u, fun _ _ => rfl⟩
  refine does_lines (executes_jumpIf rfl hdest ?_ ?_)
  · intro hholds
    rw [Cond.holds_test ht.bits_pos, beq_iff_eq] at hholds
    exact ⟨rfl, hholds, hkeeps' _ _⟩
  · intro hholds
    rw [Cond.holds_test ht.bits_pos, beq_eq_false_iff_ne] at hholds
    exact ⟨hholds, hkeeps' _ _⟩

/-! ## Constants, variables and one operand -/

omit ht in
theorem Target.Standard.ofInt_wrap {t : Target} (ht : t.Standard) (n : Int) :
    BitVec.ofInt t.bits (wrap n) = BitVec.ofInt t.bits n := by
  have hdvd : 2 ^ t.bits ∣ wordCount := by
    obtain h | h := ht.wordSize <;> rw [Target.bits, h] <;> decide
  apply BitVec.eq_of_toInt_eq
  rw [BitVec.toInt_ofInt, BitVec.toInt_ofInt, wrap, Int.bmod_bmod_of_dvd hdvd]

theorem Expr.means_int (p : Pos) {i : Int}
    (hi : BitVec.ofInt s.target.bits (wrap i) = BitVec.ofInt s.target.bits i) :
    ((Expr.int p i).code s).Means s text L ok σ (.int (BitVec.ofInt s.target.bits i)) σ := by
  refine Code.means_ofValue ht fun free hL _ => Does.reg_bind ht free ?_
  refine does_instr Instr.effect_load ⟨hL.hold.keeps hL.proper ⟨?_, fun _ _ => rfl⟩, ?_⟩
  · exact fun r hr => Core.regs_setReg_of_ne _ (hr.ne ht) _
  · rw [Core.regs_setReg_self, hi]
    rfl

theorem Expr.means_bool (p : Pos) (b : Bool) :
    ((Expr.bool p b).code s).Means s text L ok σ (.bool b) σ := by
  constructor
  · refine fun free hL _ => Does.reg_bind ht free (does_instr (Instr.effect_bool b) ⟨?_, ?_⟩)
    · exact hL.hold.keeps hL.proper
        ⟨fun r hr => Core.regs_setReg_of_ne _ (hr.ne ht) _, fun _ _ => rfl⟩
    · exact Core.regs_setReg_self ..
  · rintro sp c h b' label dest sense free hL _ ⟨⟩ hdest
    have hkeeps : L.place.Keeps (s.target.Kept free) (sp ≤ ·) σ c c :=
      hL.hold.keeps hL.proper (.refl _ _ c)
    exact Does.ite (fun heq => does_lines (executes_jump hdest ⟨rfl, heq, hkeeps⟩))
      fun hne => does_pure ⟨hne, hkeeps⟩

theorem Expr.means_var {x : Variable} {b : Binding} {cell : Nat} (hb : L.env.find? x.name = some b)
    (hcell : L.scope.lookup x.name = some cell) (hv : σ[cell]? = some v) :
    ((Expr.var { x with binding := some b }).code s).Means s text L ok σ v σ := by
  refine Code.means_ofValue ht fun free hL _ => Does.reg_bind ht free ?_
  refine Does.bind (does_bindingOf ?_)
  rintro _ ⟨⟩
  refine hL.withVariable (Q := fun word _ => word = v.word) ht hb hcell ?_
  intro c' offset base y z hplace hbase hsum _ hhold
  have haligned := hL.proper.aligned cell y hplace
  obtain ⟨u, hu, hmem⟩ := hhold cell y hplace
  rw [hv] at hu
  cases hu
  refine ⟨_, Instr.effect_fetch hbase (hsum ▸ haligned), ⟨⟨?_, fun _ _ => rfl⟩, hhold⟩, ?_⟩
  · exact fun r hr => Core.regs_setReg_of_ne _ hr _
  · rw [Core.regs_setReg_self, hsum, hmem]

theorem Expr.means_assign {x : Variable} {b : Binding}
    {cell : Nat} (he : (e.code s).Means s text L ok σ v σ₁) (hb : L.env.find? x.name = some b)
    (hcell : L.scope.lookup x.name = some cell) :
    ((Expr.assign p { x with binding := some b } e).code s).Means s text L ok σ v
      (σ₁.set cell v) := by
  refine Code.means_ofValue ht fun free hL hok => Does.reg_bind ht free ?_
  refine Completes.bind (he.value free hL hok) ?_
  rintro _ c₁ ⟨hkeeps, hword⟩
  have hL₁ := hL.after hkeeps .stackPointer .basePointer fun z hz => Int.le_trans hL.le_base hz
  refine Does.bind (does_bindingOf ?_)
  rintro _ ⟨⟩
  refine (hL₁.withVariable (Q := fun word _ => word = v.word) ht hb hcell ?_).mono
    (fun _ _ => id) fun _ c₂ h₂ => ⟨hkeeps.trans h₂.1, h₂.2⟩
  intro c' offset base y z hplace hbase hsum hfree hhold
  have haligned := hL.proper.aligned cell y hplace
  refine ⟨_, Instr.effect_put hbase (hsum ▸ haligned), ⟨⟨fun _ _ => rfl, ?_⟩, ?_⟩, ?_⟩
  · rintro a ⟨-, ha⟩
    refine Core.mem_setMem_of_ne _ ?_ _
    rintro rfl
    exact ha cell (hsum ▸ hplace)
  · refine hhold.set hL.proper hplace v ?_ fun a ha => ?_
    · rw [hsum, Core.mem_setMem_self, hfree, hword]
    · exact Core.mem_setMem_of_ne _ (hsum ▸ ha) _
  · rw [Core.regs_setMem, hfree, hword]

theorem Expr.means_neg {a : BitVec s.target.bits} (he : (e.code s).Means s text L ok σ (.int a) σ₁) :
    ((Expr.unary p .neg e).code s).Means s text L ok σ (.int (-a)) σ₁ := by
  refine Code.means_ofValue ht fun free hL hok => Does.reg_bind ht free ?_
  refine Completes.bind (he.value free hL hok) ?_
  rintro _ c₁ ⟨hkeeps, hword⟩
  refine does_instr (Instr.effect_neg hword) ⟨hkeeps.then ⟨?_, fun _ _ => rfl⟩, by simp [Value.word]⟩
  exact fun r hr => Core.regs_setReg_of_ne _ (hr.ne ht) _

theorem Expr.means_not {b : Bool} (he : (e.code s).Means s text L ok σ (.bool b) σ₁) :
    ((Expr.unary p .not e).code s).Means s text L ok σ (.bool !b) σ₁ := by
  constructor
  · refine fun free hL hok => Does.reg_bind ht free ?_
    refine Completes.bind (he.value free hL hok) ?_
    rintro _ c₁ ⟨hkeeps, hword⟩
    refine does_instr (Instr.effect_xor hword) ⟨hkeeps.then ⟨?_, fun _ _ => rfl⟩, ?_⟩
    · exact fun r hr => Core.regs_setReg_of_ne _ (hr.ne ht) _
    · have hone : wrap 1 = 1 := by decide
      cases b <;> simp [Value.word, hone]
  · rintro sp c h b' label dest sense free hL hok ⟨⟩ hdest
    refine (he.branch (!sense) free hL hok rfl hdest).mono ?_ ?_
    · rintro rest c₁ ⟨hrest, hb, hkeeps⟩
      exact ⟨hrest, by simp [hb], hkeeps⟩
    · rintro _ c₁ ⟨hb, hkeeps⟩
      exact ⟨by cases b <;> cases sense <;> simp_all, hkeeps⟩

/-! ## Two operands -/

/-- Two operands in their registers, in either order. -/
def Target.Holding (t : Target) (free : Nat) (left right : String) : Prop :=
  left = t.registerName free ∧ right = t.registerName (free + 1) ∨
    left = t.registerName (free + 1) ∧ right = t.registerName free

omit ht in
theorem Target.Holding.ne_stackPointer {t : Target} (ht : t.Workable) {free : Nat} {left right : String}
    (h : t.Holding free left right) : left ≠ t.stackPointer ∧ right ≠ t.stackPointer := by
  obtain ⟨rfl, rfl⟩ | ⟨rfl, rfl⟩ := h <;>
    exact ⟨ht.registerName_ne_stackPointer _, ht.registerName_ne_stackPointer _⟩

/-- What `combine` leaves of the state: it may use the registers of the operands. -/
def Target.Combined (t : Target) (free : Nat) (sp : Int) (c c' : Core t.bits) : Prop :=
  c.Agrees (fun q => q ≠ t.registerName free ∧ q ≠ t.registerName (free + 1)) (sp ≤ ·) c'

/-- The first value stays in its register while the second is evaluated. -/
theorem Layout.Holds.both {x y : Code} {u u' : Value s.target.bits}
    (hx : x.Means s text L ok σ u σ₁) (hy : y.Means s text L ok σ₁ u' σ₂)
    (hL : L.Holds s.target sp σ c) (hok : ok h) {free : Nat} {f : Unit → Emit Unit}
    {Q : Word s.target.bits → Option Ordering → Prop}
    (hf : ∀ c', L.Holds s.target sp σ₂ c' → c'.regs (s.target.registerName free) = u.word →
      c'.regs (s.target.registerName (free + 1)) = u'.word →
      (f ()).Completes s.target text c' fun _ c'' => s.target.Combined free sp c' c'' ∧
        Q (c''.regs (s.target.registerName free)) c''.flags) :
    (x.value h free >>= fun _ => y.value h (free + 1) >>= f).Completes s.target text c
      fun _ c' => L.place.Keeps (s.target.KeptBoth free) (sp ≤ ·) σ₂ c c' ∧
        Q (c'.regs (s.target.registerName free)) c'.flags := by
  refine Completes.bind (hx.value free hL hok) ?_
  rintro _ c₁ ⟨hkeeps₁, hu⟩
  have hL₁ := hL.after hkeeps₁ .stackPointer .basePointer fun z hz => Int.le_trans hL.le_base hz
  refine Completes.bind (hy.value (free + 1) hL₁ hok) ?_
  rintro _ c₂ ⟨hkeeps₂, hu'⟩
  have hL₂ := hL₁.after hkeeps₂ .stackPointer .basePointer fun z hz => Int.le_trans hL.le_base hz
  refine (hf c₂ hL₂ ?_ hu').mono (fun _ _ => id) ?_
  · rw [hkeeps₂.agrees.regs _ (.self_succ ht), hu]
  · rintro _ c₃ ⟨hcombined, hQ⟩
    have hkeeps₃ : L.place.Keeps (s.target.KeptBoth free) (sp ≤ ·) σ₂ c₂ c₃ :=
      hL₂.hold.keeps hL₂.proper (hcombined.mono (fun _ hq => ⟨hq.1.ne ht, hq.2⟩) fun _ => id)
    refine ⟨?_, hQ⟩
    exact ((hkeeps₁.mono (fun _ hq => hq.1) fun _ => id).trans
      (hkeeps₂.mono (fun _ => .of_both) fun _ => id)).trans hkeeps₃

omit ht in
theorem Expr.depth_of_depth? {d : Nat} (h : e.depth? = .ok d) : e.depth = d := by
  unfold Expr.depth? at h
  split at h
  · exact Except.ok.inj h
  · cases h

/-- An operator whose operands are made for `ok'` while one more register may be on the stack. -/
def Target.Deepens (t : Target) (ok ok' : Int → Prop) : Prop :=
  ∀ h d, ok h → 0 ≤ d → d ≤ t.wordSize → t.wordSize ∣ d → ok' (h + d)

/-- An operator on two operands. They are swapped only if neither changes the store. -/
theorem Layout.Holds.operands {l r : Expr} {lcode rcode : Code} {ok' : Int → Prop}
    (hdeepens : s.target.Deepens ok ok') (hl : lcode.Means s text L ok' σ a σ₁)
    (hr : rcode.Means s text L ok' σ₁ b σ₂)
    (hpure : l.depth < Expr.deep → r.depth < Expr.deep → σ₁ = σ ∧ σ₂ = σ)
    (hL : L.Holds s.target sp σ c) (hok : ok h) (free : Nat)
    {combine : Operand → Operand → Emit Unit} {Q : Word s.target.bits → Option Ordering → Prop}
    (hcombine : ∀ {sp c left right}, L.Holds s.target sp σ₂ c → c.regs left = a.word →
      c.regs right = b.word → s.target.Holding free left right →
      (combine (.reg left) (.reg right)).Completes s.target text c fun _ c' =>
        s.target.Combined free sp c c' ∧ Q (c'.regs (s.target.registerName free)) c'.flags) :
    (MiniCompiler.operands s.target l r lcode rcode h free combine).Completes s.target text c
      fun _ c' => L.place.Keeps (s.target.Kept free) (sp ≤ ·) σ₂ c c' ∧
        Q (c'.regs (s.target.registerName free)) c'.flags := by
  refine Does.bind (does_ofExcept fun ld hld => Does.bind (does_ofExcept fun rd hrd => ?_))
  rw [← Expr.depth_of_depth? hld, ← Expr.depth_of_depth? hrd]
  refine hL.withSpill ht ?_
  intro sp' c₁ hle hle' hL₁ _
  have hok' : ok' (h + (sp - sp')) := hdeepens h (sp - sp') hok (by omega) (by omega)
    (Int.dvd_sub hL.aligned hL₁.aligned)
  -- the second operand goes first only if both are shallow, and then the order does not matter
  refine Does.ite (fun _ => ?_) fun hdeep => ?_
  · refine hL₁.both ht hl hr hok' ?_
    intro c₂ hL₂ ha hb
    refine Does.reg_bind ht free (Does.reg_bind ht (free + 1) ?_)
    exact hcombine hL₂ ha hb (.inl ⟨rfl, rfl⟩)
  · obtain ⟨hl', hr'⟩ : l.depth < Expr.deep ∧ r.depth < Expr.deep := by omega
    obtain ⟨rfl, rfl⟩ := hpure hl' hr'
    refine hL₁.both ht hr hl hok' ?_
    intro c₂ hL₂ hb ha
    refine Does.reg_bind ht (free + 1) (Does.reg_bind ht free ?_)
    exact hcombine hL₂ ha hb (.inr ⟨rfl, rfl⟩)

end

end

/-! ## Operators -/

section

variable {t : Target} {text : List Line} {sp : Int} {c : Core t.bits} {free : Nat}
  {left right : String}

theorem does_combineInto {instr : Operand → Operand → Instr} {r : BitVec t.bits}
    (heffect : (instr (.reg right) (.reg left)).effect t c =
      some ((c.setReg left (.num r)).setFlags none)) (h : t.Holding free left right) :
    (combineInto (.reg (t.registerName free)) instr (.reg left) (.reg right)).Completes t text c
      fun _ c' => t.Combined free sp c c' ∧ c'.regs (t.registerName free) = .num r := by
  refine Does.bind (does_instr heffect (Does.ite (fun hne => ?_) fun heq => ?_))
  -- the operands were swapped, so the result is still to be moved
  · have hleft : left = t.registerName (free + 1) := by
      obtain ⟨rfl, -⟩ | ⟨rfl, -⟩ := h
      · exact absurd rfl hne
      · rfl
    subst hleft
    refine does_instr Instr.effect_move ⟨⟨?_, fun _ _ => rfl⟩, by simp⟩
    rintro q ⟨hq, hq'⟩
    simp [hq, hq']
  · obtain rfl : left = t.registerName free := by simpa using heq
    refine does_pure ⟨⟨?_, fun _ _ => rfl⟩, by simp⟩
    rintro q ⟨hq, -⟩
    simp [hq]

theorem Does.quotient_bind (ht : t.Standard) {J : List Line → Core t.bits → Prop}
    {Q : Unit → Core t.bits → Prop} (hsp : c.regs t.stackPointer = .addr sp)
    (haligned : t.wordSize ∣ sp) {a b : BitVec t.bits} (hleft : c.regs left = .num a)
    (hright : c.regs right = .num b) (hdivides : divides a b = true)
    (hstack : left ≠ t.stackPointer) {x : Emit Unit}
    (hx : ∀ c', c.Agrees (fun q => q ≠ t.registerName 0 ∧ q ≠ t.registerName 3) (sp ≤ ·) c' →
      c'.regs (t.registerName 0) = .num (a.sdiv b) →
      c'.regs (t.registerName 3) = .num (a.srem b) → x.Does t text c' J Q) :
    let divided := instr (.widen t.signExtend) >>= fun _ =>
      instr (.idiv (.mem 0 t.stackPointer)) >>= fun _ =>
      instr (.add (.imm t.wordSize) t.sp) >>= fun _ => x
    (instr (.push (.reg right)) >>= fun _ => if Operand.reg left ≠ .reg (t.registerName 0) then
      instr (.mov (.reg left) (.reg (t.registerName 0))) >>= fun _ => divided
      else divided).Does t text c J Q := by
  have hpos := ht.pos
  have hne : t.registerName 0 ≠ t.registerName 3 := by
    rw [Ne, ht.registerName_inj]
    decide
  have hlow := ht.registerName_ne_stackPointer 0
  have hhigh := ht.registerName_ne_stackPointer 3
  have haligned' : t.wordSize ∣ sp - t.wordSize := Int.dvd_sub haligned (Int.dvd_refl _)
  refine Does.bind (does_instr (Instr.effect_push ht hsp haligned) (Does.move_bind (by simp) ?_))
  have hpushed : c.Agrees (· ≠ t.stackPointer) (sp ≤ ·) (c.pushed sp (c.regs right)) :=
    Core.agrees_pushed ht _
  rw [hpushed.regs left hstack, hleft]
  have hdivisor : (c.pushed sp (c.regs right)).mem (sp - t.wordSize) = .num b := by
    rw [Core.mem_pushed, hright]
  have hsp' : (c.pushed sp (c.regs right)).regs t.stackPointer = .addr (sp - t.wordSize) :=
    Core.stackPointer_pushed _
  generalize c.pushed sp (c.regs right) = c₁ at hpushed hdivisor hsp'
  refine Does.bind (does_instr (Instr.effect_widen ht (Core.regs_setReg_self ..)) ?_)
  refine Does.bind (does_instr (Instr.effect_idiv ht ?_ haligned' hdivisor ?_ ?_ hdivides) ?_)
  · rw [Core.regs_setReg_of_ne _ hhigh.symm, Core.regs_setReg_of_ne _ hlow.symm, hsp']
  · rw [Core.regs_setReg_of_ne _ hne, Core.regs_setReg_self]
  · rw [Core.regs_setReg_self]
  · refine Does.bind (does_instr (Instr.effect_raise (x := sp - t.wordSize) ?_) (hx _ ⟨?_, ?_⟩ ?_ ?_))
    · simp [hhigh.symm, hlow.symm, hsp']
    · rintro q ⟨hq, hq'⟩
      by_cases hstack : q = t.stackPointer
      · simp [hstack, ht.wrap_wordSize, hsp]
      · simp [hstack, hq, hq', hpushed.regs q hstack]
    · exact hpushed.mem
    · simp [hlow, hne]
    · simp [hhigh]

theorem Operand.filter_reg (names : List String) (dst : String) :
    (names.map Operand.reg).filter (· != .reg dst) = (names.filter (· ≠ dst)).map Operand.reg := by
  rw [List.filter_map]
  congr 2
  funext q
  by_cases h : q = dst <;> simp [h]

/-- Division keeps all registers but the one of its result. -/
theorem does_divide (ht : t.Standard) (hsp : c.regs t.stackPointer = .addr sp)
    (haligned : t.wordSize ∣ sp) {a b : BitVec t.bits} (hleft : c.regs left = .num a)
    (hright : c.regs right = .num b) (hdivides : divides a b = true)
    (h : t.Holding free left right) (remainder : Bool) :
    (divide t (.reg left) (.reg right) (.reg (t.registerName free)) remainder).Completes t text c
      fun _ c' => c.Agrees (· ≠ t.registerName free) (sp ≤ ·) c' ∧
        c'.regs (t.registerName free) = .num (if remainder then a.srem b else a.sdiv b) := by
  have hpos := ht.pos
  obtain ⟨hleft', hright'⟩ := h.ne_stackPointer ht.toWorkable
  refine Does.reg_bind ht 0 (Does.reg_bind ht 3 ?_)
  generalize hdst : t.registerName free = dst
  have hdst' : dst ≠ t.stackPointer := hdst ▸ ht.registerName_ne_stackPointer free
  -- the registers that division uses are saved, but for the one of the result
  generalize hrs : [t.registerName 0, t.registerName 3].filter (· ≠ dst) = rs
  have hsaved : [Operand.reg (t.registerName 0), .reg (t.registerName 3)].filter (· != .reg dst) =
      rs.map Operand.reg := by
    rw [← hrs, ← Operand.filter_reg]
    rfl
  have hmem {q : String} : q ∈ rs ↔ (q = t.registerName 0 ∨ q = t.registerName 3) ∧ q ≠ dst := by
    simp [← hrs, and_comm]
  have hnot : t.stackPointer ∉ rs := by
    rw [hmem]
    rintro ⟨h | h, -⟩
    · exact ht.registerName_ne_stackPointer 0 h.symm
    · exact ht.registerName_ne_stackPointer 3 h.symm
  have hlen := Int.mul_nonneg (Int.natCast_nonneg rs.length) (Int.le_of_lt hpos)
  have hlower : t.wordSize ∣ sp - rs.length * t.wordSize :=
    Int.dvd_sub haligned (Int.dvd_mul_left ..)
  simp only [hsaved, List.map_map, ← List.map_reverse, Function.comp_def]
  refine Completes.bind (R := fun _ c' => c.Agrees (· ≠ t.stackPointer) (sp ≤ ·) c' ∧
    c'.regs t.stackPointer = .addr (sp - rs.length * t.wordSize) ∧
    Stacked t.wordSize c'.mem c.regs sp rs)
    (does_lines (executes_pushes ht rs hnot sp c hsp haligned)) ?_
  rintro _ c₁ ⟨hagrees₁, hsp₁, hstacked⟩
  refine Does.quotient_bind ht hsp₁ hlower ((hagrees₁.regs left hleft').trans hleft)
    ((hagrees₁.regs right hright').trans hright) hdivides hleft' ?_
  intro c₂ hagrees₂ hquotient hremainder
  obtain ⟨result, hresult, hword⟩ : ∃ result,
      (if remainder then Operand.reg (t.registerName 3) else .reg (t.registerName 0)) =
        .reg result ∧ c₂.regs result = .num (if remainder then a.srem b else a.sdiv b) := by
    cases remainder with
    | true => exact ⟨_, rfl, hremainder⟩
    | false => exact ⟨_, rfl, hquotient⟩
  simp only [hresult]
  refine Does.move_bind (by simp) ?_
  -- the saved words lie above the stack pointer, where the division has changed nothing
  have hstacked' : Stacked t.wordSize (c₂.setReg dst (c₂.regs result)).mem c.regs sp rs :=
    hstacked.congr hpos (fun _ _ => rfl) fun x hx _ => hagrees₂.mem x hx
  have hsp₂ : (c₂.setReg dst (c₂.regs result)).regs t.stackPointer =
      .addr (sp - rs.length * t.wordSize) := by
    rw [Core.regs_setReg_of_ne _ hdst'.symm, hagrees₂.regs _
      ⟨(ht.registerName_ne_stackPointer 0).symm, (ht.registerName_ne_stackPointer 3).symm⟩, hsp₁]
  refine does_lines ((executes_pops rs hnot sp _ hsp₂ haligned hstacked').mono (fun _ _ => id) ?_)
  rintro c₃ ⟨hagrees₃, hsp₃, hrestored, -⟩
  refine ⟨⟨?_, ?_⟩, ?_⟩
  · intro q hq
    by_cases hstack : q = t.stackPointer
    · rw [hstack, hsp₃, hsp]
    · by_cases hin : q ∈ rs
      · exact hrestored q hin
      · have hother : q ≠ t.registerName 0 ∧ q ≠ t.registerName 3 := by
          rw [hmem] at hin
          exact ⟨fun h => hin ⟨.inl h, hq⟩, fun h => hin ⟨.inr h, hq⟩⟩
        rw [hagrees₃.regs q ⟨hstack, hin⟩, Core.regs_setReg_of_ne _ hq, hagrees₂.regs q hother,
          hagrees₁.regs q hstack]
  · intro x hx
    rw [hagrees₃.mem x trivial, Core.mem_setReg, hagrees₂.mem x (by omega), hagrees₁.mem x hx]
  · have hout : dst ∉ rs := fun hin => (hmem.1 hin).2 rfl
    rw [hagrees₃.regs dst ⟨hdst', hout⟩, Core.regs_setReg_self, hword]

end

section

variable {s : Settings} {text : List Line} {L : Layout} {ok ok' : Int → Prop}
  {σ σ₁ σ₂ : Store s.target.bits} {l r : Expr} {q : Bool}

theorem Expr.means_arith (ht : s.target.Workable) {op : ArithOp}
    (hop : op = .div ∨ op = .rem → s.target.Standard) {a b n : BitVec s.target.bits}
    (hdeepens : s.target.Deepens ok ok') (hl : (l.code s).Means s text L ok' σ (.int a) σ₁)
    (hr : (r.code s).Means s text L ok' σ₁ (.int b) σ₂)
    (hpure : l.depth < Expr.deep → r.depth < Expr.deep → σ₁ = σ ∧ σ₂ = σ)
    (happly : op.apply a b = .ok n) :
    ((Expr.arith p op l r).code s).Means s text L ok σ (.int n) σ₂ := by
  have hdivide {sp : Int} {c : Core s.target.bits} {left right : String} {free : Nat}
      (ht : s.target.Standard) (remainder : Bool) (hdivides : divides a b = true)
      (hL : L.Holds s.target sp σ₂ c) (ha : c.regs left = .num a) (hb : c.regs right = .num b)
      (hholding : s.target.Holding free left right) :
      (divide s.target (.reg left) (.reg right) (.reg (s.target.registerName free))
        remainder).Completes s.target text c fun _ c' => s.target.Combined free sp c c' ∧
          c'.regs (s.target.registerName free) = .num (if remainder then a.srem b else a.sdiv b) := by
    refine (does_divide ht hL.stackPointer hL.aligned ha hb hdivides hholding remainder).mono
      (fun _ _ => id) ?_
    rintro _ c' ⟨hagrees, hword⟩
    exact ⟨hagrees.mono (fun _ hq => hq.1) fun _ => id, hword⟩
  refine Code.means_ofValue ht fun free hL hok => Does.reg_bind ht free ?_
  cases op with
  | add =>
    cases happly
    exact hL.operands (Q := fun word _ => word = .num (a + b)) ht hdeepens hl hr hpure hok free
      fun _ ha hb hholding => does_combineInto (Instr.effect_add hb ha) hholding
  | sub =>
    cases happly
    exact hL.operands (Q := fun word _ => word = .num (a - b)) ht hdeepens hl hr hpure hok free
      fun _ ha hb hholding => does_combineInto (Instr.effect_sub hb ha) hholding
  | mul =>
    cases happly
    exact hL.operands (Q := fun word _ => word = .num (a * b)) ht hdeepens hl hr hpure hok free
      fun _ ha hb hholding => does_combineInto (Instr.effect_imul hb ha) hholding
  | div =>
    simp only [ArithOp.apply] at happly
    split at happly
    · cases happly
      exact hL.operands (Q := fun word _ => word = .num (a.sdiv b)) ht hdeepens hl hr hpure hok free
        (hdivide (hop (.inl rfl)) false ‹_›)
    · cases happly
  | rem =>
    simp only [ArithOp.apply] at happly
    split at happly
    · cases happly
      exact hL.operands (Q := fun word _ => word = .num (a.srem b)) ht hdeepens hl hr hpure hok free
        (hdivide (hop (.inr rfl)) true ‹_›)
    · cases happly
  | other => cases happly

theorem Expr.does_compare (ht : s.target.Workable) {op : CompOp}
    (hdeepens : s.target.Deepens ok ok') (hl : (l.code s).Means s text L ok' σ a σ₁)
    (hr : (r.code s).Means s text L ok' σ₁ b σ₂)
    (hpure : l.depth < Expr.deep → r.depth < Expr.deep → σ₁ = σ ∧ σ₂ = σ)
    (happly : op.apply a b = .ok q)
    (hL : L.Holds s.target sp σ c) (hok : ok h) (free : Nat) (sense : Bool) :
    (operands s.target l r (l.code s) (r.code s) h free fun l r => Emit.instr (.cmp r l)).Completes
      s.target text c fun _ c' => L.place.Keeps (s.target.Kept free) (sp ≤ ·) σ₂ c c' ∧
        ∃ o, c'.flags = some o ∧ (op.cond sense).holds o = (q == sense) := by
  obtain ⟨x, y, hx, hy, hholds⟩ := CompOp.holds_cond ht.bits_pos happly sense
  refine hL.operands (Q := fun _ flags => ∃ o, flags = some o ∧
    (op.cond sense).holds o = (q == sense)) ht hdeepens hl hr hpure hok free ?_
  intro sp' c₁ left right _ ha hb _
  rw [hx] at ha
  rw [hy] at hb
  exact does_instr (Instr.effect_cmp hb ha) ⟨⟨fun _ _ => rfl, fun _ _ => rfl⟩, _, rfl, hholds⟩

theorem Expr.means_comp (htext : (writtenLabels text).Nodup) (ht : s.target.Workable)
    {op : CompOp} (hdeepens : s.target.Deepens ok ok')
    (hl : (l.code s).Means s text L ok' σ a σ₁) (hr : (r.code s).Means s text L ok' σ₁ b σ₂)
    (hpure : l.depth < Expr.deep → r.depth < Expr.deep → σ₁ = σ ∧ σ₂ = σ)
    (happly : op.apply a b = .ok q) :
    ((Expr.comp p op l r).code s).Means s text L ok σ (.bool q) σ₂ := by
  constructor
  · intro sp c h free hL hok n₀ u ls n' hrun
    have hcompare := Expr.does_compare ht hdeepens hl hr hpure happly hL hok free true
    obtain ⟨_, l₁, n₁, _, hrun₁, hrest, rfl⟩ := emits_bind.1
      (emits_newLabel_bind.1 ((Target.emits_reg_bind ht.registers_ne_nil).1 hrun))
    simp only [emits_instr_bind] at hrest
    obtain ⟨_, ⟨_, ⟨_, hlabel, rfl⟩, rfl⟩, rfl⟩ := hrest
    obtain ⟨rfl, -⟩ := emits_label.1 hlabel
    show Executes _ _ (l₁ ++ ([_, _, _] ++ [.label _])) _ _ _
    rw [← List.append_assoc]
    refine Executes.label htext fun dest hdest => Executes.then (hcompare _ _ l₁ n₁ hrun₁) ?_
    rintro c₁ ⟨hkeeps, o, hflags, hholds⟩
    have hset (v w : Word s.target.bits) : L.place.Keeps (s.target.Kept free) (sp ≤ ·) σ₂ c
        ((c₁.setReg (s.target.registerName free) v).setReg (s.target.registerName free) w) :=
      hkeeps.then ⟨fun r hr => by simp [hr.ne ht], fun _ _ => rfl⟩
    rw [beq_true] at hholds
    refine executes_cons (Instr.effect_bool true) ?_
    show Executes _ _ ([_] ++ [_]) _ _ _
    refine Executes.append (R := fun c' => c' = c₁.setReg (s.target.registerName free)
      (Value.bool true).word ∧ q = false) (executes_jumpIf hflags hdest ?_ ?_) ?_
    · intro hjump
      rw [hholds] at hjump
      refine .inl ⟨rfl, ?_, by simp [hjump]⟩
      exact hkeeps.then ⟨fun r hr => by simp [hr.ne ht], fun _ _ => rfl⟩
    · exact fun hjump => ⟨rfl, hholds ▸ hjump⟩
    · rintro _ ⟨rfl, rfl⟩
      exact executes_effect (Instr.effect_bool false) ⟨hset _ _, by simp⟩
  · intro sp c h b' label dest sense free hL hok hb hdest
    cases hb
    refine Completes.bind (Expr.does_compare ht hdeepens hl hr hpure happly hL hok free sense) ?_
    rintro _ c₁ ⟨hkeeps, o, hflags, hholds⟩
    refine does_lines (executes_jumpIf hflags hdest ?_ ?_)
    · intro hjump
      rw [hholds, beq_iff_eq] at hjump
      exact ⟨rfl, hjump, hkeeps⟩
    · intro hjump
      rw [hholds, beq_eq_false_iff_ne] at hjump
      exact ⟨hjump, hkeeps⟩

/-- The right operand of a logical operator counts, and is evaluated, only if the left one does not
    decide. -/
def LogicOp.Means (op : LogicOp) (s : Settings) (text : List Line) (L : Layout)
    (lcode rcode : Code) (ok : Int → Prop) (σ : Store s.target.bits) (q : Bool)
    (σ₂ : Store s.target.bits) : Prop :=
  ∃ a σ₁, lcode.Means s text L ok σ (.bool a) σ₁ ∧
    (a = op.decisive ∧ q = a ∧ σ₂ = σ₁ ∨
      a ≠ op.decisive ∧ rcode.Means s text L ok σ₁ (.bool q) σ₂)

theorem LogicOp.Means.branch (htext : (writtenLabels text).Nodup) {op : LogicOp}
    {lcode rcode : Code} (hop : op.Means s text L lcode rcode ok σ q σ₂) {label : Label}
    {dest : List Line} (sense : Bool) (free : Nat) (hL : L.Holds s.target sp σ c) (hok : ok h)
    (hdest : resolve label text = some dest) :
    (branchLogic op lcode rcode label sense h free).Does s.target text c
      (fun rest c' => rest = dest ∧ q = sense ∧
        L.place.Keeps (s.target.Kept free) (sp ≤ ·) σ₂ c c')
      (fun _ c' => q ≠ sense ∧ L.place.Keeps (s.target.Kept free) (sp ≤ ·) σ₂ c c') := by
  obtain ⟨a, σ₁, hl, hcases⟩ := hop
  -- the right operand after a left one that does not decide
  have hright {c₁ : Core s.target.bits} (ha : a ≠ op.decisive)
      (hkeeps : L.place.Keeps (s.target.Kept free) (sp ≤ ·) σ₁ c c₁) :
      (rcode.branch label sense h free).Does s.target text c₁
        (fun rest c' => rest = dest ∧ q = sense ∧
          L.place.Keeps (s.target.Kept free) (sp ≤ ·) σ₂ c c')
        (fun _ c' => q ≠ sense ∧ L.place.Keeps (s.target.Kept free) (sp ≤ ·) σ₂ c c') := by
    obtain ⟨heq, -⟩ | ⟨-, hr⟩ := hcases
    · exact absurd heq ha
    · have hL₁ := hL.after hkeeps .stackPointer .basePointer fun z hz =>
        Int.le_trans hL.le_base hz
      refine (hr.branch sense free hL₁ hok rfl hdest).mono ?_ ?_
      · rintro rest c₂ ⟨hrest, hq, hkeeps'⟩
        exact ⟨hrest, hq, hkeeps.trans hkeeps'⟩
      · rintro _ c₂ ⟨hq, hkeeps'⟩
        exact ⟨hq, hkeeps.trans hkeeps'⟩
  -- a deciding operand jumps as the whole does if `sense` decides, and over the right one if not
  refine Does.ite (fun hsense => ?_) fun hsense => ?_
  · refine Does.bind ((hl.branch sense free hL hok rfl hdest).mono ?_ ?_)
    · rintro rest c₁ ⟨hrest, ha, hkeeps⟩
      obtain ⟨-, rfl, rfl⟩ | ⟨hne, -⟩ := hcases
      · exact ⟨hrest, ha, hkeeps⟩
      · exact absurd (ha.trans hsense) hne
    · rintro _ c₁ ⟨ha, hkeeps⟩
      exact hright (hsense ▸ ha) hkeeps
  · intro n₀ u ls n' hrun
    obtain ⟨_, l₁, n₁, _, hrun₁, hrest₁, rfl⟩ := emits_bind.1 (emits_newLabel_bind.1 hrun)
    obtain ⟨_, l₂, n₂, _, hrun₂, hlabel, rfl⟩ := emits_bind.1 hrest₁
    obtain ⟨rfl, -⟩ := emits_label.1 hlabel
    have hother : (!sense) = op.decisive := by
      cases sense <;> cases hd : op.decisive <;> simp_all
    rw [← List.append_assoc]
    refine Executes.label htext fun skip hskip => Executes.append
      (R := fun c₁ => a ≠ op.decisive ∧ L.place.Keeps (s.target.Kept free) (sp ≤ ·) σ₁ c c₁) ?_ ?_
    · refine (hl.branch (!sense) free hL hok rfl hskip _ _ _ _ hrun₁).mono ?_ ?_
      · rintro rest c₁ ⟨hrest, ha, hkeeps⟩
        obtain ⟨hdecides, rfl, rfl⟩ | ⟨hne, -⟩ := hcases
        · refine .inl ⟨hrest, ?_, hkeeps⟩
          rw [hdecides]
          exact Ne.symm hsense
        · exact absurd (ha.trans hother) hne
      · rintro c₁ ⟨ha, hkeeps⟩
        exact ⟨hother ▸ ha, hkeeps⟩
    · rintro c₁ ⟨ha, hkeeps⟩
      exact (hright ha hkeeps _ _ _ _ hrun₂).mono (fun _ _ => .inr) fun _ => id

theorem Expr.means_logic (htext : (writtenLabels text).Nodup) (ht : s.target.Workable)
    {op : LogicOp} (hop : op.Means s text L (l.code s) (r.code s) ok σ q σ₂) :
    ((Expr.logic p op l r).code s).Means s text L ok σ (.bool q) σ₂ := by
  constructor
  · intro sp c h free hL hok n₀ u ls n' hrun
    obtain ⟨_, l₁, n₁, _, hrun₁, hrest, rfl⟩ := emits_bind.1 (emits_newLabel_bind.1
      (emits_newLabel_bind.1 ((Target.emits_reg_bind ht.registers_ne_nil).1 hrun)))
    simp only [emits_instr_bind, emits_label_bind] at hrest
    obtain ⟨_, ⟨_, ⟨_, ⟨_, hlabel, rfl⟩, rfl⟩, rfl⟩, rfl⟩ := hrest
    obtain ⟨rfl, -⟩ := emits_label.1 hlabel
    show Executes _ _ (l₁ ++ ([_, _] ++ ([.label _] ++ ([_] ++ [.label _])))) _ _ _
    rw [← List.append_assoc, ← List.append_assoc, ← List.append_assoc]
    refine Executes.label htext fun done hdone => Executes.append
      (R := fun c₁ => q = false ∧ L.place.Keeps (s.target.Kept free) (sp ≤ ·) σ₂ c c₁)
      (Executes.label htext fun no hno => Executes.append
        (R := fun c₁ => q = true ∧ L.place.Keeps (s.target.Kept free) (sp ≤ ·) σ₂ c c₁) ?_ ?_) ?_
    · refine (hop.branch htext false free hL hok hno _ _ _ _ hrun₁).mono ?_ ?_
      · rintro rest c₁ ⟨hrest, hq, hkeeps⟩
        exact .inl ⟨hrest, hq, hkeeps⟩
      · rintro c₁ ⟨hq, hkeeps⟩
        exact ⟨by simpa using hq, hkeeps⟩
    · rintro c₁ ⟨rfl, hkeeps⟩
      refine executes_cons (Instr.effect_bool true) (executes_jump hdone (.inr (.inl ⟨rfl, ?_, ?_⟩)))
      · exact hkeeps.then ⟨fun r hr => by simp [hr.ne ht], fun _ _ => rfl⟩
      · simp
    · rintro c₁ ⟨rfl, hkeeps⟩
      refine executes_effect (Instr.effect_bool false) ⟨?_, by simp⟩
      exact hkeeps.then ⟨fun r hr => by simp [hr.ne ht], fun _ _ => rfl⟩
  · intro sp c h b label dest sense free hL hok hb hdest
    cases hb
    exact hop.branch htext sense free hL hok hdest

end

end MiniCompiler
