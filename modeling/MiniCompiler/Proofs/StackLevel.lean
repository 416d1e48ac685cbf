import MiniCompiler.Proofs.Labels
import MiniCompiler.Proofs.Size
import MiniCompiler.Proofs.StackHeight

/-!
# Code keeps the height of the stack

The code of expressions and statements leaves the stack as high as it was, and its calls are right
exactly if what they round up stays a signed word: `Expr.rounded` lists the sums of bytes that the calls
of an expression round up to a multiple of the alignment, and `Settings.RoundsUp` says that all of them
can be. Counts must start right for that, and small enough (`InStep`). `Settings.Fits` says that there
is room for the code of an expression of a given size, whatever it rounds up.
-/

namespace MiniCompiler

open Emit

variable {out : Label → Int → Prop} {s : Settings} {m n : Nat} {x : Emit (Option LoopLabels)}
  {args : List (Bool × Expr)} {α : Type} {l : Option Label} {h pushed : Int} {ls : List Line}
  {code : Code} {e : Expr}

/-! ## Settings and room -/

/-- Settings for a supported machine, with any alignment of the stack. -/
structure Settings.Regular (s : Settings) : Prop where
  supported : ∃ t ∈ Target.supported, s.target = { t with stackAlignment := s.target.stackAlignment }
  wordSize : s.wordSize = s.target.wordSize
  alignment : 1 < s.target.stackAlignment

namespace Settings.Regular

variable {s : Settings}

theorem wordSize_cases (hs : s.Regular) : s.target.wordSize = 4 ∨ s.target.wordSize = 8 := by
  obtain ⟨t, ht, heq⟩ := hs.supported
  simp only [Target.supported, List.mem_cons, List.not_mem_nil, or_false] at ht
  rw [heq]
  obtain rfl | rfl := ht
  · exact .inl rfl
  · exact .inr rfl

theorem length_registers (hs : s.Regular) : s.target.registers.length = 6 := by
  obtain ⟨t, ht, heq⟩ := hs.supported
  simp only [Target.supported, List.mem_cons, List.not_mem_nil, or_false] at ht
  rw [heq]
  obtain rfl | rfl := ht <;> rfl

theorem length_calleeSaved (hs : s.Regular) : s.target.calleeSaved.length = 3 := by
  obtain ⟨t, ht, heq⟩ := hs.supported
  simp only [Target.supported, List.mem_cons, List.not_mem_nil, or_false] at ht
  rw [heq]
  obtain rfl | rfl := ht <;> rfl

theorem registers_ne_nil (hs : s.Regular) : s.target.registers ≠ [] := by
  intro hnil
  have := hs.length_registers
  simp [hnil] at this

end Settings.Regular

/-- From height `h` on there is room for the code of an expression of size `n`. -/
def Settings.Fits (s : Settings) (n : Nat) (h : Int) : Prop :=
  0 ≤ h ∧ h + (s.target.stackAlignment + 64) * n < wordBound

theorem Settings.Fits.mono (hs : s.Regular) {h h' : Int}
    (hfits : s.Fits n h) (hle : h ≤ h') (hmn : m ≤ n)
    (hroom : h' ≤ h + (s.target.stackAlignment + 64) * (n - m : Nat)) : s.Fits m h' := by
  have halign := hs.alignment
  obtain ⟨hpos, hlt⟩ := hfits
  have hsplit : (s.target.stackAlignment + 64) * (n : Int) =
      (s.target.stackAlignment + 64) * (n - m : Nat) + (s.target.stackAlignment + 64) * m := by
    rw [← Int.mul_add]
    congr 1
    omega
  exact ⟨by omega, by omega⟩

theorem Settings.Fits.le (hs : s.Regular) {h : Int} (hfits : s.Fits n h)
    (hmn : m ≤ n) : s.Fits m h := by
  have halign := hs.alignment
  have hroom := Int.mul_nonneg (show 0 ≤ s.target.stackAlignment + 64 by omega)
    (Int.natCast_nonneg (n - m))
  exact hfits.mono hs (Int.le_refl h) hmn (by omega)

/-- A part of an expression, after a few bytes were pushed. -/
theorem Settings.Fits.part (hs : s.Regular) {h h' : Int}
    (hfits : s.Fits n h) (hle : h ≤ h') (hmn : m < n) (hroom : h' ≤ h + 64) : s.Fits m h' := by
  refine hfits.mono hs hle (by omega) ?_
  have halign := hs.alignment
  have hone : (s.target.stackAlignment + 64) * 1 ≤ (s.target.stackAlignment + 64) * (n - m : Nat) :=
    Int.mul_le_mul_of_nonneg_left (by omega) (by omega)
  omega

/-- The count of bytes that code for an expression of size `n` is given at height `h` is right, and
    neither is so large that what the expression pushes could wrap around to a positive word. -/
def InStep (n : Nat) (h pushed : Int) : Prop :=
  pushed = h ∧ 0 < h ∧ h + 64 * n < 2 * wordBound ∧ 64 * (n : Int) < wordBound

theorem InStep.le (hin : InStep n h pushed) (hmn : m ≤ n) :
    InStep m h pushed := by
  unfold InStep at hin ⊢
  omega

theorem InStep.part (hin : InStep n h pushed) (hmn : m < n) {d : Int}
    (hd : 0 ≤ d) (hd' : d ≤ 64) : InStep m (h + d) (pushed + d) := by
  unfold InStep at hin ⊢
  omega

/-! ## What calls round up -/

/-- Sums that can be rounded up to a multiple of the alignment of the stack. -/
def Settings.RoundsUp (s : Settings) (sums : List Int) : Prop :=
  ∀ n ∈ sums, n + s.target.stackAlignment ≤ wordBound

instance (s : Settings) (sums : List Int) : Decidable (s.RoundsUp sums) :=
  inferInstanceAs (Decidable (∀ n ∈ sums, _))

@[simp]
theorem Settings.roundsUp_nil (s : Settings) : s.RoundsUp [] := nofun

@[simp]
theorem Settings.roundsUp_cons {n : Int} {ns : List Int} :
    s.RoundsUp (n :: ns) ↔ n + s.target.stackAlignment ≤ wordBound ∧ s.RoundsUp ns :=
  List.forall_mem_cons

@[simp]
theorem Settings.roundsUp_append {ms ns : List Int} :
    s.RoundsUp (ms ++ ns) ↔ s.RoundsUp ms ∧ s.RoundsUp ns :=
  List.forall_mem_append

/-- The bytes that are pushed to use register `r`. -/
def Target.spillBytes (t : Target) (r : Int) : Int := if t.registers.length ≤ r then t.wordSize else 0

/-- What a call rounds up, and then those in its arguments: `inner` has them for the count of bytes that
    the arguments are given. -/
def roundedCall (s : Settings) (args : List (Bool × Expr)) (inner : Int → List Int) (pushed : Int)
    (free : Nat) : List Int :=
  let saved := (savedAtCall s.target args.isEmpty free).toOption.getD []
  let pushed := pushed + saved.length * s.target.wordSize
  let space := argBytes s.target.wordSize args + temporaries args * s.target.wordSize
  (pushed + space) :: inner (pushed + callArea s.target pushed space)

mutual

/-- The sums of bytes that the calls of an expression round up, with `pushed` bytes on the stack and its
    value going into register `free`. An operand with a call is never put off, so that operands can be
    taken from left to right. -/
def Expr.rounded (s : Settings) : Expr → (pushed : Int) → (free : Nat) → List Int
  | .absent, _, _ | .int _ _, _, _ | .bool _ _, _, _ | .var _, _, _ => []
  | .assign _ _ e, pushed, free | .unary _ _ e, pushed, free => e.rounded s pushed free
  | .call _ _ args _, pushed, free => roundedCall s args (Expr.roundedAll s args) pushed free
  | .arith _ _ l r, pushed, free | .comp _ _ l r, pushed, free =>
    let pushed := pushed + s.target.spillBytes (free + 1)
    l.rounded s pushed free ++ r.rounded s pushed (free + 1)
  | .logic _ _ l r, pushed, free => l.rounded s pushed free ++ r.rounded s pushed free

/-- What the calls in arguments round up. -/
def Expr.roundedAll (s : Settings) : List (Bool × Expr) → (pushed : Int) → List Int
  | [], _ => []
  | (_, e) :: args, pushed => e.rounded s pushed 0 ++ Expr.roundedAll s args pushed

end

theorem Expr.rounded_of_depth_lt (e : Expr) (h : e.depth < Expr.deep) (pushed : Int)
    (free : Nat) : e.rounded s pushed free = [] := by
  have hjoin {l r : Nat} (h : Expr.joinDepth l r < Expr.deep) : l < Expr.deep ∧ r < Expr.deep := by
    unfold Expr.joinDepth at h
    split at h <;> omega
  have hshare {l r : Nat} (h : Expr.shareDepth l r < Expr.deep) : l < Expr.deep ∧ r < Expr.deep := by
    unfold Expr.shareDepth at h
    split at h <;> omega
  cases e with
  | absent | int | bool | var => rfl
  | assign | call => exact absurd h (Nat.lt_irrefl _)
  | unary _ _ e => exact e.rounded_of_depth_lt h pushed free
  | arith _ _ l r | comp _ _ l r =>
    rw [Expr.rounded, l.rounded_of_depth_lt (hjoin h).1, r.rounded_of_depth_lt (hjoin h).2]
    rfl
  | logic _ _ l r =>
    rw [Expr.rounded, l.rounded_of_depth_lt (hshare h).1, r.rounded_of_depth_lt (hshare h).2]
    rfl

/-! ## Pieces of code -/

section

variable {t : Target} {out : Label → Int → Prop} {h : Int} {inStep fits : Prop}

theorem runs_each {i : α → Instr} {d : Int}
    (hi : ∀ a h, Runs t out h [.instr (i a)] (h + d)) (as : List α) : ∀ h : Int,
    Runs t out h (as.map fun a => .instr (i a)) (h + as.length * d) := by
  induction as with
  | nil => intro h; simpa using Runs.nil
  | cons a as ih =>
    intro h
    have hlen : h + (as.length + 1 : Nat) * d = h + d + as.length * d := by
      push_cast
      rw [Int.add_mul]
      omega
    rw [List.length_cons, hlen]
    exact (hi a h).append (ih (h + d))

theorem runs_pushes (f : α → Operand) (as : List α) (h : Int) :
    Runs t out h (as.map fun a => .instr (.push (f a))) (h + as.length * t.wordSize) :=
  runs_each (i := fun a => .push (f a)) (fun _ _ => Runs.instr rfl) as h

theorem runs_pops (f : α → Operand) (as : List α) (h : Int) :
    Runs t out h (as.map fun a => .instr (.pop (f a))) (h - as.length * t.wordSize) := by
  rw [Int.sub_eq_add_neg, ← Int.mul_neg]
  exact runs_each (i := fun a => .pop (f a)) (fun _ _ => Runs.instr rfl) as h

theorem levels_lines {h' : Int} (hruns : Runs t out h ls h')
    (hcalls : ∀ symbol pushed, .instr (.call symbol pushed) ∉ ls) :
    Levels t out [] h inStep True (lines ls) fun _ k => k = h' := by
  refine levels_of_emits fun n a ls' n' hrun => ?_
  obtain ⟨rfl, -⟩ := emits_lines.1 hrun
  exact ⟨h', hruns, by simp, hcalls, rfl⟩

theorem levels_pushes (f : α → Operand) (as : List α) :
    Levels t out [] h inStep True (lines (as.map fun a => .instr (.push (f a))))
      fun _ k => k = h + as.length * t.wordSize :=
  levels_lines (runs_pushes f as h) (by simp)

theorem levels_pops (f : α → Operand) (as : List α) :
    Levels t out [] h inStep True (lines (as.map fun a => .instr (.pop (f a))))
      fun _ k => k = h - as.length * t.wordSize :=
  levels_lines (runs_pops f as h) (by simp)

/-- Saving a register for a step and restoring it afterwards. -/
theorem levels_withSpill {step : Int → Emit Unit} (r pushed : Int)
    (hstep : Levels t out [] (h + t.spillBytes r) inStep fits (step (pushed + t.spillBytes r))
      fun _ k => k = h + t.spillBytes r) :
    Levels t out [] h inStep fits (t.withSpill r pushed step) fun _ k => k = h := by
  unfold Target.withSpill Target.spill Target.unspill
  unfold Target.spillBytes at hstep
  by_cases hr : t.registers.length ≤ r
  · simp only [if_pos hr] at hstep ⊢
    refine Levels.bind (R := fun inner k => inner = pushed + t.wordSize ∧ k = h + t.wordSize) ?_ ?_
    · refine Levels.reg_bind fun x => Levels.bind (levels_instr rfl) ?_
      rintro _ _ rfl
      exact levels_pure ⟨rfl, rfl⟩
    · rintro _ _ ⟨rfl, rfl⟩
      refine Levels.ensuring hstep ?_
      rintro _ _ rfl
      refine Levels.reg_bind fun x => (levels_instr rfl).mono ?_
      rintro _ _ rfl
      simp only [Line.growth]
      omega
  · simp only [if_neg hr, Int.add_zero] at hstep ⊢
    refine Levels.bind (R := fun inner k => inner = pushed ∧ k = h) (levels_pure ⟨rfl, rfl⟩) ?_
    rintro _ _ ⟨rfl, rfl⟩
    refine Levels.ensuring hstep ?_
    rintro _ _ rfl
    exact levels_pure rfl

theorem levels_withVariable (b : Binding) (pushed : Int) (free : Nat) {access : Operand → Instr}
    (hplain : ∀ o, (access o).isPlain = true) (hstill : ∀ o, Line.growth t (.instr (access o)) = 0) :
    Levels t out [] h inStep True (withVariable t b pushed free access) fun _ k => k = h := by
  refine Levels.ite (fun _ => levels_withSpill _ _ ?_) fun _ => levels_still (hplain _) (hstill _)
  refine Levels.ofExcept_bind fun address _ => ?_
  exact Levels.andThen (levels_still rfl rfl) fun _ => levels_still (hplain _) (hstill _)

theorem levels_combineInto {dst left right : String} {instr : Operand → Operand → Instr}
    (hplain : (instr (.reg right) (.reg left)).isPlain = true)
    (hstill : Line.growth t (.instr (instr (.reg right) (.reg left))) = 0) :
    Levels t out [] h inStep True (combineInto (.reg dst) instr (.reg left) (.reg right))
      fun _ k => k = h :=
  Levels.andThen (levels_still hplain hstill) fun _ =>
    Levels.ite (fun _ => levels_still rfl rfl) fun _ => levels_pure rfl

/-- Division balances what it pushes: the registers that it saves, and the divisor. -/
theorem levels_divide (hword : wrap t.wordSize = t.wordSize) (left right dst : Operand)
    (remainder : Bool) :
    Levels t out [] h inStep True (divide t left right dst remainder) fun _ k => k = h := by
  refine Levels.reg_bind fun low => Levels.reg_bind fun high => ?_
  generalize [Operand.reg low, Operand.reg high].filter (· != dst) = saved
  refine Levels.bind (levels_pushes id saved) ?_
  rintro _ _ rfl
  refine Levels.bind (levels_instr rfl) ?_
  rintro _ _ rfl
  refine Levels.ite_bind (levels_still rfl rfl) (Levels.andThen (levels_still rfl rfl) fun _ => ?_)
  refine Levels.andThen (levels_still rfl rfl) fun _ => Levels.bind (levels_instr rfl) ?_
  rintro _ _ rfl
  refine Levels.ite_bind (levels_still rfl rfl) ((levels_pops id _).mono ?_)
  rintro _ _ rfl
  simp only [Line.growth, if_true, hword, List.length_reverse]
  omega

end

/-- Rounding up that does not leave the signed words. -/
theorem alignUp_spec {n align : Int} (halign : 1 < align) (hn : 0 ≤ n) (hlt : n + align ≤ wordBound) :
    align ∣ alignUp n align ∧ n ≤ alignUp n align ∧ alignUp n align < n + align := by
  have hsum : wrap (n + align - 1) = n + align - 1 :=
    wrap_of_mem_range (by unfold wordBound; omega) (by omega)
  have hdiv : (n + align - 1).tdiv align = (n + align - 1) / align :=
    Int.tdiv_eq_ediv_of_nonneg (by omega)
  have hmod := Int.emod_nonneg (n + align - 1) (show align ≠ 0 by omega)
  have hmod' := Int.emod_lt_of_pos (n + align - 1) (show 0 < align by omega)
  have heuclid := Int.ediv_mul_add_emod (n + align - 1) align
  have hprod : wrap ((n + align - 1) / align * align) = (n + align - 1) / align * align :=
    wrap_of_mem_range (by unfold wordBound; omega) (by omega)
  have heq : alignUp n align = (n + align - 1) / align * align := by
    rw [alignUp, if_neg (by omega), hsum, hdiv, hprod]
  rw [heq]
  exact ⟨Int.dvd_mul_left .., by omega, by omega⟩

/-- What a call subtracts brings the stack to a multiple of its alignment. -/
theorem callArea_spec {t : Target} {pushed space : Int} (halign : 1 < t.stackAlignment)
    (hpushed : 0 ≤ pushed) (hspace : 0 ≤ space)
    (hlt : pushed + space + t.stackAlignment ≤ wordBound) :
    t.stackAlignment ∣ pushed + callArea t pushed space ∧ space ≤ callArea t pushed space ∧
      callArea t pushed space < space + t.stackAlignment := by
  have hsum : wrap (pushed + space) = pushed + space :=
    wrap_of_mem_range (by unfold wordBound; omega) (by omega)
  obtain ⟨hdvd, hle, hlt'⟩ := alignUp_spec halign (show 0 ≤ pushed + space by omega) hlt
  have harea : callArea t pushed space = alignUp (pushed + space) t.stackAlignment - pushed := by
    rw [callArea, hsum]
    exact wrap_of_mem_range (by unfold wordBound; omega) (by omega)
  rw [harea]
  exact ⟨by rwa [show pushed + (alignUp (pushed + space) t.stackAlignment - pushed) =
    alignUp (pushed + space) t.stackAlignment by omega], by omega, by omega⟩

/-- Rounding up that would leave the signed words gives nothing positive. -/
theorem alignUp_nonpos {n align : Int} (halign : 1 < align) (hn : 0 < n) (hlt : n < 2 * wordBound)
    (hover : wordBound < n + align) : alignUp (wrap n) align ≤ 0 := by
  have hwrap : wrap (wrap n + align - 1) = wrap (n + align - 1) := by
    rw [Int.add_sub_assoc, wrap, wrap, Int.bmod_add_bmod, ← Int.add_sub_assoc, wrap]
  rw [alignUp, if_neg (by omega), hwrap]
  generalize hsum : wrap (n + align - 1) = sum
  -- whether or not the sum has wrapped around, it is below the multiple that it is to reach
  have hbelow : sum < align := by
    rw [← hsum]
    unfold wrap wordCount wordBound at *
    rw [Int.bmod_def]
    split <;> omega
  have hlow : -wordBound ≤ sum := hsum ▸ le_wrap _
  obtain hneg | hpos := Int.lt_or_le sum 0
  · have hquot : sum.tdiv align * align = -(-sum / align * align) := by
      rw [← Int.neg_neg sum, Int.neg_tdiv, Int.tdiv_eq_ediv_of_nonneg (by omega), Int.neg_neg,
        Int.neg_mul]
    have hle := Int.ediv_mul_le (-sum) (show align ≠ 0 by omega)
    have hnonneg := Int.mul_nonneg (Int.ediv_nonneg (show 0 ≤ -sum by omega) (show 0 ≤ align by omega))
      (show 0 ≤ align by omega)
    rw [hquot, wrap_of_mem_range (by omega) (by unfold wordBound; omega)]
    omega
  · rw [Int.tdiv_eq_zero_of_lt hpos hbelow, Int.zero_mul]
    decide

/-- A call is right exactly if what it rounds up can be. Only a positive area is subtracted from the
    stack pointer. -/
theorem callRight_iff {t : Target} {pushed space : Int} (halign : 1 < t.stackAlignment)
    (hpushed : 0 < pushed) (hspace : 0 ≤ space) (hlt : pushed + space < 2 * wordBound) :
    (pushed + max (callArea t pushed space) 0 = wrap (pushed + callArea t pushed space) ∧
        t.stackAlignment ∣ pushed + max (callArea t pushed space) 0) ↔
      pushed + space + t.stackAlignment ≤ wordBound := by
  constructor
  · rintro ⟨hcount, -⟩
    refine Int.not_lt.1 fun hover => ?_
    have hnonpos := alignUp_nonpos halign (show 0 < pushed + space by omega) hlt hover
    have hrounded : wrap (pushed + callArea t pushed space) =
        alignUp (wrap (pushed + space)) t.stackAlignment := by
      rw [callArea, wrap, wrap, Int.add_bmod_bmod, Int.add_comm, Int.sub_add_cancel, alignUp,
        if_neg (by omega)]
      exact Int.bmod_bmod
    omega
  · intro hfits
    obtain ⟨hdvd, hle, hlt'⟩ := callArea_spec halign (show 0 ≤ pushed by omega) hspace hfits
    rw [Int.max_eq_left (by omega), wrap_of_mem_range (by unfold wordBound; omega) (by omega)]
    exact ⟨rfl, hdvd⟩

/-! ## Expressions -/

/-- Code that keeps the height, for an expression of size `n` whose calls round up `rounded`. -/
structure Code.Level (s : Settings) (n : Nat) (rounded : Int → Nat → List Int) (code : Code) :
    Prop where
  value : ∀ out h pushed free, Levels s.target out [] h (InStep n h pushed)
    (s.RoundsUp (rounded pushed free)) (code.value pushed free) fun _ k => k = h
  branch : ∀ out label sense h pushed free, out label h →
    Levels s.target out [] h (InStep n h pushed) (s.RoundsUp (rounded pushed free))
      (code.branch label sense pushed free) fun _ k => k = h

section

variable {s : Settings} {rounded : Int → Nat → List Int}

theorem Code.Level.mono
    (hcode : code.Level s m rounded) (hmn : m ≤ n) : code.Level s n rounded :=
  ⟨fun out h pushed free => (hcode.value out h pushed free).iff fun hin => ⟨hin.le hmn, Iff.rfl⟩,
    fun out label sense h pushed free hout =>
      (hcode.branch out label sense h pushed free hout).iff fun hin => ⟨hin.le hmn, Iff.rfl⟩⟩

theorem Code.level_ofValue {n : Nat} {value : Int → Nat → Emit Unit}
    (hvalue : ∀ out h pushed free, Levels s.target out [] h (InStep n h pushed)
      (s.RoundsUp (rounded pushed free)) (value pushed free) fun _ k => k = h) :
    (Code.ofValue s.target value).Level s n rounded := by
  refine ⟨hvalue, ?_⟩
  intro out label sense h pushed free hout
  refine Levels.last (hvalue out h pushed free) fun _ => Levels.reg_bind fun r => ?_
  exact Levels.andThen (levels_still rfl rfl) fun _ => levels_jumpIf hout

theorem Settings.roundsUp_none {want : List (Label × Int)} {h : Int} {inStep : Prop} {x : Emit Unit}
    {Q : Unit → Int → Prop} (hx : Levels s.target out want h inStep True x Q) :
    Levels s.target out want h inStep (s.RoundsUp []) x Q :=
  hx.iff fun hstep => ⟨hstep, (iff_true_intro s.roundsUp_nil).symm⟩

theorem Settings.Regular.spillBytes_bounds (hs : s.Regular) (r : Int) :
    0 ≤ s.target.spillBytes r ∧ s.target.spillBytes r ≤ 8 := by
  have hword := hs.wordSize_cases
  unfold Target.spillBytes
  split <;> omega

theorem level_operands (hs : s.Regular) {l r : Expr} {lcode rcode : Code}
    (hl : lcode.Level s l.size (l.rounded s)) (hr : rcode.Level s r.size (r.rounded s)) (free : Nat)
    {combine : Operand → Operand → Emit Unit}
    (hcombine : ∀ h inStep a b, Levels s.target out [] h inStep True (combine (.reg a) (.reg b))
      fun _ k => k = h) :
    Levels s.target out [] h (InStep (l.size + r.size + 1) h pushed)
      (s.RoundsUp (l.rounded s (pushed + s.target.spillBytes (free + 1)) free ++
        r.rounded s (pushed + s.target.spillBytes (free + 1)) (free + 1)))
      (operands s.target l r lcode rcode pushed free combine) fun _ k => k = h := by
  have hspill := hs.spillBytes_bounds (free + 1)
  have hdepth {e : Expr} {d : Nat} (hd : e.depth? = .ok d) : d = e.depth := by
    unfold Expr.depth? at hd
    split at hd <;> cases hd
    rfl
  refine Levels.ofExcept_bind fun _ hleft => Levels.ofExcept_bind fun _ hright => ?_
  rw [hdepth hleft, hdepth hright]
  refine levels_withSpill _ _ ?_
  have hvalue {e : Expr} {code : Code} (he : code.Level s e.size (e.rounded s))
      (hsize : e.size < l.size + r.size + 1) (free' : Nat) :=
    (he.value out (h + s.target.spillBytes (free + 1)) (pushed + s.target.spillBytes (free + 1))
      free').iff fun hin : InStep (l.size + r.size + 1) h pushed =>
        ⟨hin.part hsize hspill.1 (by omega), Iff.rfl⟩
  rw [Settings.roundsUp_append]
  refine Levels.ite (fun _ => ?_) fun hnone => ?_
  · refine Levels.both (hvalue hl (by omega) free) fun _ => ?_
    refine Levels.last (hvalue hr (by omega) (free + 1)) fun _ => ?_
    exact Levels.reg_bind fun a => Levels.reg_bind fun b => hcombine _ _ a b
  · -- the right operand comes first only where neither has a call
    rw [not_or, not_or] at hnone
    have hnil {e : Expr} (he : ¬ Expr.deep ≤ e.depth) (pushed : Int) (free : Nat) :
        s.RoundsUp (e.rounded s pushed free) ↔ True := by
      simp [e.rounded_of_depth_lt (Nat.not_le.1 he)]
    have hright := hvalue hr (by omega) free
    have hleft := hvalue hl (by omega) (free + 1)
    rw [hnil hnone.1, hnil hnone.2.1, and_self]
    rw [hnil hnone.2.1] at hright
    rw [hnil hnone.1] at hleft
    refine Levels.andThen hright fun _ => Levels.andThen hleft fun _ => ?_
    exact Levels.reg_bind fun a => Levels.reg_bind fun b => hcombine _ _ a b

theorem level_branchLogic (op : LogicOp) {l r : Code} {lr rr : Int → Nat → List Int}
    (hl : l.Level s m lr) (hr : r.Level s n rr) (out : Label → Int → Prop) (label : Label)
    (sense : Bool) (h pushed : Int) (free : Nat) (hout : out label h) :
    Levels s.target out [] h (InStep (m + n + 1) h pushed)
      (s.RoundsUp (lr pushed free ++ rr pushed free)) (branchLogic op l r label sense pushed free)
      fun _ k => k = h := by
  have hleft := hl.mono (show m ≤ m + n + 1 by omega)
  have hright := hr.mono (show n ≤ m + n + 1 by omega)
  rw [Settings.roundsUp_append]
  refine Levels.ite (fun _ => ?_) fun _ => Levels.newLabel_bind h fun skip => ?_
  · exact Levels.both (hleft.branch out label sense h pushed free hout) fun _ =>
      hright.branch out label sense h pushed free hout
  · refine Levels.both (hleft.branch _ skip _ h pushed free (.inl ⟨rfl, rfl⟩)) fun _ => ?_
    exact Levels.last (hright.branch _ label sense h pushed free (.inr hout)) fun _ => levels_label skip

theorem length_savedAtCall (hs : s.Regular) {noArgs : Bool} {free : Nat} {saved : List String}
    (h : savedAtCall s.target noArgs free = .ok saved) : saved.length ≤ 5 := by
  rw [Target.savedAtCall_eq hs.registers_ne_nil] at h
  cases h
  refine Nat.le_trans (List.length_filter_le ..) ?_
  simp only [List.length_map, List.length_drop, List.length_range, hs.length_registers]
  omega

theorem Expr.length_le_sizeAll (args : List (Bool × Expr)) : args.length ≤ Expr.sizeAll args := by
  induction args with
  | nil => simp [Expr.sizeAll]
  | cons a args ih =>
    simp only [List.length_cons, Expr.sizeAll]
    omega

theorem Expr.size_add_length_le {a : Bool × Expr} (ha : a ∈ args) :
    a.2.size + args.length ≤ Expr.sizeAll args := by
  induction args with
  | nil => cases ha
  | cons b args ih =>
    simp only [List.length_cons, Expr.sizeAll]
    cases ha with
    | head =>
      have := Expr.length_le_sizeAll args
      omega
    | tail _ htail =>
      have := ih htail
      omega

/-- The room that a call takes, from height `h` on, for its arguments and temporary words. -/
theorem Settings.Fits.call (hs : s.Regular) {h h₁ : Int}
    (hfits : s.Fits (Expr.sizeAll args + 1) h) (hle : h ≤ h₁) (hle' : h₁ ≤ h + 40) :
    let space := argBytes s.target.wordSize args + temporaries args * s.target.wordSize
    let area := callArea s.target h₁ space
    s.target.stackAlignment ∣ h₁ + area ∧ 0 ≤ space ∧ space ≤ area ∧ area < wordBound ∧
      ∀ a ∈ args, s.Fits a.2.size (h₁ + area) := by
  have hword := hs.wordSize_cases
  have halign := hs.alignment
  have hcount : temporaries args ≤ args.length := List.countP_le_length
  have hlen : (args.length : Int) ≤ Expr.sizeAll args := by
    exact_mod_cast Expr.length_le_sizeAll args
  generalize hspace : argBytes s.target.wordSize args + temporaries args * s.target.wordSize = space
  have hspace₁ : 0 ≤ space := by
    rw [← hspace, argBytes]
    have := Int.mul_nonneg (Int.natCast_nonneg args.length) (show 0 ≤ s.target.wordSize by omega)
    have := Int.mul_nonneg (Int.natCast_nonneg (temporaries args))
      (show 0 ≤ s.target.wordSize by omega)
    omega
  have hspace₂ : space ≤ 16 * args.length := by
    rw [← hspace, argBytes]
    obtain hw | hw := hword <;> rw [hw] <;> omega
  obtain ⟨hpos, hlt⟩ := hfits
  -- what a call takes is paid for by its own unit of size and by one unit for each argument
  have hroom : ∀ n : Nat, (args.length + n : Int) ≤ Expr.sizeAll args →
      h₁ + space + s.target.stackAlignment + (s.target.stackAlignment + 64) * n < wordBound := by
    intro n hn
    have hunits : (s.target.stackAlignment + 64) * (args.length + n + 1) ≤
        (s.target.stackAlignment + 64) * (Expr.sizeAll args + 1 : Nat) :=
      Int.mul_le_mul_of_nonneg_left (by omega) (by omega)
    have hargs : 64 * (args.length : Int) ≤ (s.target.stackAlignment + 64) * args.length :=
      Int.mul_le_mul_of_nonneg_right (by omega) (by omega)
    rw [Int.mul_add, Int.mul_add] at hunits
    omega
  have hnone := hroom 0 (by omega)
  obtain ⟨hdvd, hle₁, hlt₁⟩ := callArea_spec (t := s.target) halign (show 0 ≤ h₁ by omega) hspace₁
    (by omega)
  refine ⟨hdvd, hspace₁, hle₁, by omega, ?_⟩
  intro a ha
  have hsize := hroom a.2.size (by have := Expr.size_add_length_le ha; omega)
  exact ⟨by omega, by omega⟩

theorem Settings.Regular.space_bounds (hs : s.Regular) (args : List (Bool × Expr)) :
    0 ≤ argBytes s.target.wordSize args + temporaries args * s.target.wordSize ∧
      argBytes s.target.wordSize args + temporaries args * s.target.wordSize ≤ 16 * args.length := by
  have hcount : temporaries args ≤ args.length := List.countP_le_length
  rw [argBytes]
  obtain hw | hw := hs.wordSize_cases <;> rw [hw] <;> omega

/-- A call is right exactly if what it rounds up can be, and leaves the stack as it was. -/
theorem level_callCode (hs : s.Regular) {name : String} {pass : Int → Emit Unit}
    {inner : Int → List Int} (h pushed : Int) (free : Nat)
    (hpass : ∀ h' pushed', Levels s.target out [] h' (∀ a ∈ args, InStep a.2.size h' pushed')
      (s.RoundsUp (inner pushed')) (pass pushed') fun _ k => k = h') :
    Levels s.target out [] h (InStep (Expr.sizeAll args + 1) h pushed)
      (s.RoundsUp (roundedCall s args inner pushed free)) (callCode s name args pass pushed free)
      fun _ k => k = h := by
  have hword := hs.wordSize_cases
  refine Levels.reg_bind fun dst => ?_
  refine Levels.ofExcept_bind fun saved hsaved => ?_
  rw [roundedCall, hsaved]
  refine Levels.bind (levels_pushes Operand.reg saved) ?_
  rintro _ _ rfl
  have hbytes : 0 ≤ saved.length * s.target.wordSize ∧ saved.length * s.target.wordSize ≤ 40 := by
    have hlength := length_savedAtCall hs hsaved
    obtain hw | hw := hword <;> rw [hw] <;> omega
  have hspace := hs.space_bounds args
  have hlength : (args.length : Int) ≤ Expr.sizeAll args := by exact_mod_cast Expr.length_le_sizeAll args
  dsimp only [Except.toOption, Option.getD_some]
  generalize hsize : saved.length * s.target.wordSize = bytes at hbytes ⊢
  generalize argBytes s.target.wordSize args + temporaries args * s.target.wordSize = space at hspace ⊢
  -- the count is right before the arguments, and after them if the call is
  have hright (hin : InStep (Expr.sizeAll args + 1) h pushed) :=
    callRight_iff hs.alignment (show 0 < h + bytes by have := hin.2.1; omega) hspace.1
      (by have := hin.2.2.1; omega)
  have harea (hin : InStep (Expr.sizeAll args + 1) h pushed) :=
    callArea_spec hs.alignment (show 0 ≤ h + bytes by have := hin.2.1; omega) hspace.1
  have hmid {f : Unit → Emit Unit} (hf : Levels s.target out []
      (h + bytes + max (callArea s.target (pushed + bytes) space) 0)
      (InStep (Expr.sizeAll args + 1) h pushed) True (f ()) fun _ k => k = h) :
      Levels s.target out [] (h + bytes + max (callArea s.target (pushed + bytes) space) 0)
        (InStep (Expr.sizeAll args + 1) h pushed)
        (s.RoundsUp ((pushed + bytes + space) :: inner
          (pushed + bytes + callArea s.target (pushed + bytes) space)))
        (pass (pushed + bytes + callArea s.target (pushed + bytes) space) >>= fun _ =>
          Emit.instr (.call (s.symbolStart ++ name)
            (pushed + bytes + callArea s.target (pushed + bytes) space)) >>= f)
        fun _ k => k = h := by
    refine Levels.call_bind (hpass _ _) hf ?_ ?_
    · intro hin hcall a ha
      obtain ⟨rfl, hpos, hlt, hsize⟩ := hin
      have hfits := (hright ⟨rfl, hpos, hlt, hsize⟩).1 hcall
      obtain ⟨-, hle, hlt'⟩ := harea ⟨rfl, hpos, hlt, hsize⟩ hfits
      have hargs := Expr.size_add_length_le ha
      rw [Int.max_eq_left (by omega)]
      exact ⟨rfl, by omega, by omega, by omega⟩
    · intro hin
      rw [Settings.roundsUp_cons, hin.1, hright hin]
  have hwrap : wrap (callArea s.target (pushed + bytes) space) =
      callArea s.target (pushed + bytes) space := wrap_of_mem_range (le_wrap _) (wrap_lt _)
  generalize callArea s.target (pushed + bytes) space = area at hmid hwrap ⊢
  -- from the saved registers on, whether or not there was room to take back
  have hafter : ∀ k, k = h + bytes → Levels s.target out [] k (InStep (Expr.sizeAll args + 1) h pushed)
      True (s.target.reg 0 >>= fun result =>
        if Operand.reg dst ≠ result then
          Emit.instr (.mov result (.reg dst)) >>= fun _ =>
            Emit.lines (saved.reverse.map fun r => .instr (.pop (.reg r)))
        else Emit.lines (saved.reverse.map fun r => .instr (.pop (.reg r))))
      fun _ k => k = h := by
    rintro _ rfl
    refine Levels.reg_bind fun result => Levels.ite_bind (levels_still rfl rfl) ?_
    refine (levels_pops Operand.reg _).mono ?_
    rintro _ _ rfl
    rw [List.length_reverse, hsize]
    omega
  by_cases hpos : 0 < area
  · rw [Int.max_eq_left (by omega)] at hmid
    simp only [if_pos hpos]
    refine Levels.bind (levels_instr rfl) ?_
    rintro _ k rfl
    have hsub : Line.growth s.target (.instr (.sub (.imm area) s.target.sp)) = area := by
      simp [Line.growth, hwrap]
    have hadd : Line.growth s.target (.instr (.add (.imm area) s.target.sp)) = -area := by
      simp [Line.growth, hwrap]
    rw [hsub]
    refine hmid (Levels.bind (levels_instr rfl) ?_)
    rintro _ k rfl
    exact hafter _ (by omega)
  · rw [Int.max_eq_right (by omega)] at hmid
    simp only [if_neg hpos]
    simp only [Int.add_zero] at hmid
    exact hmid (hafter _ rfl)

theorem level_passValue {n : Nat} (hcode : code.Level s n rounded) (h pushed offset : Int) :
    Levels s.target out [] h (InStep n h pushed) (s.RoundsUp (rounded pushed 0))
      (passValue s.target code pushed offset) fun _ k => k = h :=
  Levels.last (hcode.value out h pushed 0) fun _ => Levels.reg_bind fun _ => levels_still rfl rfl

theorem level_passVariable (v : Variable) {h : Int} {inStep : Prop} (offset : Int) :
    Levels s.target out [] h inStep True (passVariable s.target v offset) fun _ k => k = h := by
  refine Levels.reg_bind fun r => Levels.andThen (levels_bindingOf v) fun b => ?_
  refine Levels.andThen ?_ fun _ => levels_still rfl rfl
  cases b.byRef with
  | true => exact levels_still rfl rfl
  | false => exact levels_still rfl rfl

theorem level_passTemporary {n : Nat} (hcode : code.Level s n rounded) (h pushed offset temp : Int) :
    Levels s.target out [] h (InStep n h pushed) (s.RoundsUp (rounded pushed 0))
      (passTemporary s.target code pushed offset temp) fun _ k => k = h := by
  refine Levels.reg_bind fun r => Levels.last (hcode.value out h pushed 0) fun _ => ?_
  refine Levels.andThen (levels_still rfl rfl) fun _ => ?_
  exact Levels.andThen (levels_still rfl rfl) fun _ => levels_still rfl rfl

theorem Target.load_plain (t : Target) (n : Int) (dst : Operand) :
    (t.load n dst).isPlain = true ∧ Line.growth t (.instr (t.load n dst)) = 0 := by
  unfold Target.load
  split <;> exact ⟨rfl, rfl⟩

mutual

/-- The code of an expression keeps the height of the stack. -/
theorem Expr.level_code (hs : s.Regular) (e : Expr) : (e.code s).Level s e.size (e.rounded s) := by
  have hword := hs.wordSize_cases
  cases e with
  | absent =>
    exact Code.level_ofValue fun _ _ _ _ => Levels.reg_bind fun _ => levels_fail _
  | int _ n =>
    refine Code.level_ofValue fun _ _ _ _ => Settings.roundsUp_none (Levels.reg_bind fun r => ?_)
    exact levels_still (s.target.load_plain n _).1 (s.target.load_plain n _).2
  | bool _ b =>
    refine ⟨fun _ _ _ _ => Settings.roundsUp_none (Levels.reg_bind fun _ => levels_still rfl rfl), ?_⟩
    intro out label sense h pushed free hout
    exact Settings.roundsUp_none (Levels.ite (fun _ => levels_jump hout) fun _ => levels_pure rfl)
  | var v =>
    refine Code.level_ofValue fun _ _ _ free => Settings.roundsUp_none (Levels.reg_bind fun _ => ?_)
    refine Levels.andThen (levels_bindingOf v) fun b => ?_
    exact levels_withVariable b _ free (fun _ => rfl) fun _ => rfl
  | assign _ v e =>
    have he := (e.level_code hs).mono (Nat.le_succ _)
    refine Code.level_ofValue fun out h pushed free => Levels.reg_bind fun _ => ?_
    refine Levels.last (he.value out h pushed free) fun _ => ?_
    refine Levels.andThen (levels_bindingOf v) fun b => ?_
    exact levels_withVariable b _ free (fun _ => rfl) fun _ => rfl
  | call _ name args =>
    exact Code.level_ofValue fun out h pushed free => level_callCode hs h pushed free fun h' pushed' =>
      level_passArgs hs args _ 0 0 out h' pushed'
  | unary _ op e =>
    have he := (e.level_code hs).mono (Nat.le_succ _)
    cases op with
    | neg =>
      refine Code.level_ofValue fun out h pushed free => Levels.reg_bind fun _ => ?_
      exact Levels.last (he.value out h pushed free) fun _ => levels_still rfl rfl
    | not =>
      refine ⟨fun out h pushed free => Levels.reg_bind fun _ => ?_, ?_⟩
      · exact Levels.last (he.value out h pushed free) fun _ => levels_still rfl rfl
      · intro out label sense h pushed free hout
        exact he.branch out label (!sense) h pushed free hout
    | other =>
      refine Code.level_ofValue fun out h pushed free => Levels.reg_bind fun _ => ?_
      exact Levels.last (he.value out h pushed free) fun _ => levels_fail _
  | arith _ op l r =>
    have hl := l.level_code hs
    have hr := r.level_code hs
    have hwrap : wrap s.target.wordSize = s.target.wordSize :=
      wrap_of_mem_range (by unfold wordBound; omega) (by unfold wordBound; omega)
    refine Code.level_ofValue fun out h pushed free => Levels.reg_bind fun dst => ?_
    cases op with
    | add | sub | mul => exact level_operands hs hl hr free fun _ _ _ _ => levels_combineInto rfl rfl
    | div | rem => exact level_operands hs hl hr free fun _ _ _ _ => levels_divide hwrap _ _ _ _
    | other => exact levels_fail _
  | comp _ op l r =>
    have hcompare (out : Label → Int → Prop) (h pushed : Int) (free : Nat) : Levels s.target out [] h _ _
        (operands s.target l r (l.code s) (r.code s) pushed free fun l r => Emit.instr (.cmp r l))
        fun _ k => k = h :=
      level_operands hs (l.level_code hs) (r.level_code hs) free fun _ _ _ _ => levels_still rfl rfl
    refine ⟨fun out h pushed free => Levels.reg_bind fun dst => ?_, ?_⟩
    · refine Levels.newLabel_bind h fun yes => Levels.last (hcompare _ h pushed free) fun _ => ?_
      refine Levels.andThen (levels_still rfl rfl) fun _ => ?_
      refine Levels.andThen (levels_jumpIf (.inl ⟨rfl, rfl⟩)) fun _ => ?_
      exact Levels.andThen (levels_still rfl rfl) fun _ => levels_label yes
    · intro out label sense h pushed free hout
      exact Levels.last (hcompare out h pushed free) fun _ => levels_jumpIf hout
  | logic _ op l r =>
    have hbranch := level_branchLogic op (l.level_code hs) (r.level_code hs)
    refine ⟨fun out h pushed free => Levels.reg_bind fun dst => ?_, hbranch⟩
    refine Levels.newLabel_bind h fun no => Levels.newLabel_bind h fun done => ?_
    refine Levels.last (hbranch _ no false h pushed free (.inr (.inl ⟨rfl, rfl⟩))) fun _ => ?_
    refine Levels.andThen (levels_still rfl rfl) fun _ => ?_
    refine Levels.andThen (levels_jump (.inl ⟨rfl, rfl⟩)) fun _ => ?_
    refine Levels.swap (Levels.label_bind ?_)
    exact Levels.andThen (levels_still rfl rfl) fun _ => levels_label done

theorem level_passArgs (hs : s.Regular) (args : List (Bool × Expr)) (size : Int) (i k : Nat)
    (out : Label → Int → Prop) (h pushed : Int) :
    Levels s.target out [] h (∀ a ∈ args, InStep a.2.size h pushed)
      (s.RoundsUp (Expr.roundedAll s args pushed)) (passArgs s size i k args pushed)
      fun _ k => k = h := by
  cases args with
  | nil => exact Settings.roundsUp_none (levels_pure rfl)
  | cons a args =>
    obtain ⟨mark, e⟩ := a
    have hcode := e.level_code hs
    rw [Expr.roundedAll, Settings.roundsUp_append, List.forall_mem_cons]
    have hrest (i k : Nat) := Levels.iff (level_passArgs hs args size i k out h pushed)
      fun hin : InStep e.size h pushed ∧ ∀ a ∈ args, InStep a.2.size h pushed => ⟨hin.2, Iff.rfl⟩
    have hfirst {x : Emit Unit} (hx : Levels s.target out [] h (InStep e.size h pushed)
        (s.RoundsUp (e.rounded s pushed 0)) x fun _ k => k = h) :=
      hx.iff fun hin : InStep e.size h pushed ∧ ∀ a ∈ args, InStep a.2.size h pushed =>
        ⟨hin.1, Iff.rfl⟩
    cases mark with
    | false => exact Levels.both (hfirst (level_passValue hcode h pushed _)) fun _ => hrest _ _
    | true =>
      cases e with
      | var v => exact Levels.both (Settings.roundsUp_none (level_passVariable v _)) fun _ => hrest _ _
      | _ => exact Levels.both (hfirst (level_passTemporary hcode h pushed _ _)) fun _ => hrest _ _

end

end

/-! ## Statements -/

mutual

/-- What the calls of a statement round up, with `pushed` bytes on the stack. -/
def Stmt.rounded (s : Settings) (pushed : Int) : Stmt → List Int
  | .absent | .empty _ | .breakLoop _ | .continueLoop _ => []
  | .block _ stmts => Stmt.roundedAll s pushed stmts
  | .expr _ e | .ret _ e => e.rounded s pushed 0
  | .locals _ _ vars => vars.flatMap fun v => v.init.rounded s pushed 0
  | .cond _ test yes no => test.rounded s pushed 0 ++ yes.rounded s pushed ++ no.rounded s pushed
  | .whileLoop _ test body => body.rounded s pushed ++ test.rounded s pushed 0
  | .forLoop _ init test step body =>
    init.rounded s pushed ++ body.rounded s pushed ++ step.rounded s pushed 0 ++ test.rounded s pushed 0

/-- What the calls of statements round up. -/
def Stmt.roundedAll (s : Settings) (pushed : Int) : List Stmt → List Int
  | [] => []
  | st :: stmts => st.rounded s pushed ++ Stmt.roundedAll s pushed stmts

end

/-- The labels of a loop before and after more of them may have been taken. -/
structure LoopLabels.Grows (loop loop' : Option LoopLabels) : Prop where
  continueLabel : ∀ l ∈ (loop.getD {}).continueLabel, l ∈ (loop'.getD {}).continueLabel
  breakLabel : ∀ l ∈ (loop.getD {}).breakLabel, l ∈ (loop'.getD {}).breakLabel
  none : loop = none → loop' = none

theorem LoopLabels.Grows.refl (loop : Option LoopLabels) : LoopLabels.Grows loop loop :=
  ⟨fun _ h => h, fun _ h => h, id⟩

theorem LoopLabels.Grows.trans {loop loop' loop'' : Option LoopLabels}
    (h : LoopLabels.Grows loop loop') (h' : LoopLabels.Grows loop' loop'') :
    LoopLabels.Grows loop loop'' :=
  ⟨fun l hl => h'.continueLabel l (h.continueLabel l hl),
    fun l hl => h'.breakLabel l (h.breakLabel l hl), fun hnone => h'.none (h.none hnone)⟩

theorem LoopLabels.Grows.held {loop loop' : Option LoopLabels} (h : LoopLabels.Grows loop loop') :
    ∀ l ∈ LoopLabels.held loop, l ∈ LoopLabels.held loop' := by
  intro l hl
  rw [LoopLabels.held_eq, List.mem_append, Option.mem_toList, Option.mem_toList] at hl ⊢
  exact hl.imp (h.continueLabel l) (h.breakLabel l)

/-- A step that is handed the labels of a loop, and hands them on, keeps the height `h`. It may jump
    to the labels that it hands on, and writes those of `want`. Its calls are right exactly if `fits`
    holds. -/
def Emit.Hands (t : Target) (out : Label → Int → Prop) (want : List Label) (h : Int) (fits : Prop)
    (loop : Option LoopLabels) (x : Emit (Option LoopLabels)) : Prop :=
  ∀ n loop' ls n', Emits x n loop' ls n' → LoopLabels.Grows loop loop' ∧
    ((∀ l ∈ LoopLabels.held loop', out l h) → Runs t out h ls h ∧
      (CallsRight t h ls ↔ fits) ∧ ∀ l ∈ want, (.label l, h) ∈ heights t h ls)

namespace Emit

variable {α : Type} {t : Target} {out : Label → Int → Prop} {want : List Label} {h : Int}
  {fits fits' : Prop} {loop : Option LoopLabels} {f : α → Emit (Option LoopLabels)}

theorem hands_pure : Hands t out [] h True loop (pure loop) := by
  intro n loop' ls n' hrun
  obtain ⟨rfl, rfl, -⟩ := emits_pure.1 hrun
  exact ⟨.refl loop, fun _ => ⟨.nil, iff_true_intro (callsRight_of_no_call (by simp)), by simp⟩⟩

theorem hands_fail (f : Fault) : Hands t out want h fits loop (fail f) :=
  fun _ _ _ _ hrun => absurd hrun not_emits_fail

theorem Hands.iff (hx : Hands t out want h fits loop x)
    (hiff : fits ↔ fits') : Hands t out want h fits' loop x :=
  propext hiff ▸ hx

theorem Hands.bind {f : Option LoopLabels → Emit (Option LoopLabels)}
    (hx : Hands t out [] h fits loop x) (hf : ∀ loop', Hands t out want h fits' loop' (f loop')) :
    Hands t out want h (fits ∧ fits') loop (x >>= f) := by
  intro n loop₂ ls n' hrun
  obtain ⟨loop₁, l₁, n₁, l₂, hrun₁, hrun₂, rfl⟩ := emits_bind.1 hrun
  obtain ⟨hgrows₁, hruns₁⟩ := hx n loop₁ l₁ n₁ hrun₁
  obtain ⟨hgrows₂, hruns₂⟩ := hf loop₁ n₁ loop₂ l₂ n' hrun₂
  refine ⟨hgrows₁.trans hgrows₂, ?_⟩
  intro hout
  obtain ⟨hfirst, hcalls₁, -⟩ := hruns₁ fun l hl => hout l (hgrows₂.held l hl)
  obtain ⟨hsecond, hcalls₂, hwant⟩ := hruns₂ hout
  refine ⟨hfirst.append hsecond, by rw [callsRight_append, ← hfirst.height, hcalls₁, hcalls₂], ?_⟩
  intro l hl
  rw [heights_append, ← hfirst.height]
  exact List.mem_append_right _ (hwant l hl)

theorem Levels.hands_append {x : Emit α} {w : List Label}
    (hx : Levels t out (w.map (·, h)) h True fits x fun _ k => k = h)
    (hf : ∀ a, Hands t out want h fits' loop (f a)) :
    Hands t out (w ++ want) h (fits ∧ fits') loop (x >>= f) := by
  intro n loop' ls n' hrun
  obtain ⟨a, l₁, n₁, l₂, hrun₁, hrun₂, rfl⟩ := emits_bind.1 hrun
  obtain ⟨_, hfirst, hwritten, hcalls₁, rfl⟩ := hx n a l₁ n₁ hrun₁
  obtain ⟨hgrows, hruns⟩ := hf a n₁ loop' l₂ n' hrun₂
  refine ⟨hgrows, ?_⟩
  intro hout
  obtain ⟨hsecond, hcalls₂, hwant⟩ := hruns hout
  refine ⟨hfirst.append hsecond,
    by rw [callsRight_append, ← hfirst.height, hcalls₁ trivial, hcalls₂], ?_⟩
  intro l hl
  rw [heights_append, ← hfirst.height, List.mem_append]
  exact (List.mem_append.1 hl).imp (fun hl => hwritten (l, _) (List.mem_map_of_mem hl)) (hwant l)

theorem Levels.hands_bind {x : Emit α} (hx : Levels t out [] h True fits x fun _ k => k = h)
    (hf : ∀ a, Hands t out want h fits' loop (f a)) :
    Hands t out want h (fits ∧ fits') loop (x >>= f) :=
  Levels.hands_append (w := []) hx hf

theorem Levels.hands_last {x : Emit α} (hx : Levels t out [] h True fits x fun _ k => k = h)
    (hf : ∀ a, Hands t out want h True loop (f a)) :
    Hands t out want h fits loop (x >>= f) :=
  (Levels.hands_bind hx hf).iff (by rw [and_true])

theorem Hands.label_bind {l : Label} {f : Unit → Emit (Option LoopLabels)}
    (hf : Hands t out want h fits loop (f ())) :
    Hands t out (l :: want) h (True ∧ fits) loop (label l >>= f) :=
  Levels.hands_append (w := [l]) (levels_label l) fun _ => hf

theorem Hands.newLabel_bind {f : Label → Emit (Option LoopLabels)}
    (hf : ∀ l, Hands t (fun l' k => (l' = l ∧ k = h) ∨ out l' k) (l :: want) h fits loop (f l)) :
    Hands t out want h fits loop (newLabel >>= f) := by
  intro n loop' ls n' hrun
  obtain ⟨l, l₁, n₁, l₂, hnew, hrun₂, rfl⟩ := emits_bind.1 hrun
  obtain ⟨rfl, rfl, -⟩ := emits_newLabel.1 hnew
  obtain ⟨hgrows, hruns⟩ := hf _ n₁ loop' l₂ n' hrun₂
  refine ⟨hgrows, ?_⟩
  intro hout
  obtain ⟨hruns', hcalls, hwant⟩ := hruns fun l hl => .inr (hout l hl)
  refine ⟨hruns'.bindLabels ?_, hcalls, fun l hl => hwant l (by simp [hl])⟩
  rintro l k ⟨rfl, rfl⟩
  exact hwant _ (by simp)

/-- Labels that a step takes for a loop have to be written by what follows. -/
theorem Hands.bind_levels {f : Option LoopLabels → Emit α}
    {Q : α → Int → Prop} {want : List (Label × Int)}
    (hx : ∀ inner : Label → Int → Prop, Hands t (fun l k => inner l k ∨ out l k) [] h fits loop x)
    (hf : ∀ loop', Levels t (fun l k => (l ∈ LoopLabels.held loop' ∧ k = h) ∨ out l k)
      ((LoopLabels.held loop').map (·, h) ++ want) h True fits' (f loop') Q) :
    Levels t out want h True (fits ∧ fits') (x >>= f) Q := by
  intro n a ls n' hrun
  obtain ⟨loop', l₁, n₁, l₂, hrun₁, hrun₂, rfl⟩ := emits_bind.1 hrun
  -- the labels that the body takes are known only now, so its jumps are allowed for any `inner`
  have hbody := hx (fun l k => l ∈ LoopLabels.held loop' ∧ k = h) n loop' l₁ n₁ hrun₁
  obtain ⟨hfirst, hcalls₁, -⟩ := hbody.2 fun l hl => .inl ⟨hl, rfl⟩
  obtain ⟨h', hsecond, hwant, hcalls₂, hQ⟩ := hf loop' n₁ a l₂ n' hrun₂
  have hheights : heights t h (l₁ ++ l₂) = heights t h l₁ ++ heights t h l₂ := by
    rw [heights_append, ← hfirst.height]
  refine ⟨h', (hfirst.append hsecond).bindLabels ?_, ?_, fun hstep => ?_, hQ⟩
  · rintro l k ⟨hl, rfl⟩
    rw [hheights]
    exact List.mem_append_right _ (hwant (l, k) (by simp [hl]))
  · intro w hw
    rw [hheights]
    exact List.mem_append_right _ (hwant w (by simp [hw]))
  · rw [callsRight_append, ← hfirst.height, hcalls₁, hcalls₂ hstep]

end Emit

section

variable {s : Settings} {exit : Label} {out : Label → Int → Prop} {h : Int}

theorem emits_labelOrNew {l' : Label} {n n' : Nat}
    (hrun : Emits (labelOrNew l) n l' ls n') : (∀ l'' ∈ l, l'' = l') ∧ ls = [] := by
  cases l with
  | none => exact ⟨by simp, (emits_newLabel.1 hrun).2.1⟩
  | some l =>
    obtain ⟨rfl, rfl, -⟩ := emits_pure.1 hrun
    exact ⟨by simp, rfl⟩

/-- A jump out of the body of a loop takes the label that the loop has, or a new one. -/
theorem emits_jumpOut {g : Label → Option LoopLabels} {loop' : Option LoopLabels} {n n' : Nat}
    (hrun : Emits (labelOrNew l >>= fun l' => Emit.instr (.jump l') >>= fun _ => pure (g l'))
      n loop' ls n') :
    ∃ l', (∀ l'' ∈ l, l'' = l') ∧ loop' = g l' ∧ ls = [.instr (.jump l')] := by
  obtain ⟨l', _, _, _, hlabel, hrest₁, rfl⟩ := emits_bind.1 hrun
  obtain ⟨hl, rfl⟩ := emits_labelOrNew hlabel
  obtain ⟨_, hrest₂, rfl⟩ := emits_instr_bind.1 hrest₁
  obtain ⟨rfl, rfl, -⟩ := emits_pure.1 hrest₂
  exact ⟨l', hl, rfl, rfl⟩

theorem hands_jumpOut {loop : Option LoopLabels} {g : Label → Option LoopLabels}
    (hnew : ∀ l', l' ∈ LoopLabels.held (g l'))
    (hgrows : ∀ l', (∀ l'' ∈ l, l'' = l') → LoopLabels.Grows loop (g l')) :
    Hands s.target out [] h True loop
      (labelOrNew l >>= fun l' => Emit.instr (.jump l') >>= fun _ => pure (g l')) := by
  intro n loop' ls n' hrun
  obtain ⟨l', hl, rfl, rfl⟩ := emits_jumpOut hrun
  exact ⟨hgrows l' hl, fun hout => ⟨Runs.jump rfl rfl (hout l' (hnew l')),
    iff_true_intro (callsRight_of_no_call (by simp)), by simp⟩⟩

theorem LoopLabels.hands_jumpContinue (loop : Option LoopLabels) :
    Hands s.target out [] h True loop (LoopLabels.jumpContinue loop) := by
  cases loop with
  | none => exact hands_fail _
  | some labels =>
    refine hands_jumpOut (by simp [held]) fun l hl => ⟨?_, fun _ => id, nofun⟩
    intro k hk
    rw [hl k hk]
    rfl

theorem LoopLabels.hands_jumpBreak (loop : Option LoopLabels) :
    Hands s.target out [] h True loop (LoopLabels.jumpBreak loop) := by
  cases loop with
  | none => exact hands_fail _
  | some labels =>
    refine hands_jumpOut (by simp [held]) fun l hl => ⟨fun _ => id, ?_, nofun⟩
    intro k hk
    rw [hl k hk]
    rfl

theorem level_labelIfTaken (l : Option Label) :
    Levels s.target out (l.toList.map (·, h)) h True True (labelIfTaken l) fun _ k => k = h := by
  cases l with
  | none => exact levels_pure rfl
  | some l => exact levels_label l

/-- What there is of an expression keeps the height in step. -/
theorem Expr.level_value (hs : s.Regular) (hin : InStep e.size h h) :
    Levels s.target out [] h True (s.RoundsUp (e.rounded s h 0)) ((e.code s).value h 0)
      fun _ k => k = h :=
  ((e.level_code hs).value out h h 0).iff fun _ => ⟨hin, Iff.rfl⟩

theorem Expr.level_branch (hs : s.Regular) (hin : InStep e.size h h) {label : Label}
    (sense : Bool) (hout : out label h) : Levels s.target out [] h True (s.RoundsUp (e.rounded s h 0))
      ((e.code s).branch label sense h 0) fun _ k => k = h :=
  ((e.level_code hs).branch out label sense h h 0 hout).iff fun _ => ⟨hin, Iff.rfl⟩

theorem Expr.rounded_of_isAbsent (h : e.isAbsent = true) (pushed : Int) (free : Nat) :
    e.rounded s pushed free = [] := by
  cases e <;> first | rfl | cases h

/-- A loop writes the labels that its body has taken for it. -/
theorem level_loopCode (hs : s.Regular) {test step : Expr}
    {body : Option LoopLabels → Emit (Option LoopLabels)} {sums : List Int}
    (hbody : ∀ out : Label → Int → Prop, out exit h →
      Hands s.target out [] h (s.RoundsUp sums) (some {}) (body (some {})))
    (htest : InStep test.size h h) (hstep : InStep step.size h h) (hexit : out exit h) :
    Levels s.target out [] h True
      (s.RoundsUp (sums ++ step.rounded s h 0 ++ test.rounded s h 0)) (loopCode s test step h body)
      fun _ k => k = h := by
  rw [List.append_assoc, Settings.roundsUp_append, Settings.roundsUp_append]
  refine Levels.newLabel_bind h fun start => Levels.newLabel_bind h fun testLabel => ?_
  refine Levels.andThen (levels_jump (.inl ⟨rfl, rfl⟩)) fun _ => Levels.swap (Levels.label_bind ?_)
  refine Hands.bind_levels (fun inner => hbody _ (.inr (.inr (.inr hexit)))) fun loop => ?_
  rw [LoopLabels.held_eq, List.map_append, List.append_assoc]
  refine Levels.append (level_labelIfTaken _) fun _ => ?_
  refine Levels.ite_both (Expr.level_value hs hstep) (Levels.comm (Levels.label_bind ?_)) fun hskip => ?_
  · refine Levels.ite (fun habsent => ?_) fun _ => ?_
    · rw [Expr.rounded_of_isAbsent habsent]
      refine Settings.roundsUp_none ?_
      exact Levels.andThen (levels_jump (.inr (.inr (.inl ⟨rfl, rfl⟩)))) fun _ => level_labelIfTaken _
    · refine Levels.last ?_ fun _ => level_labelIfTaken _
      exact Expr.level_branch hs htest true (.inr (.inr (.inl ⟨rfl, rfl⟩)))
  · rw [Expr.rounded_of_isAbsent (by simpa using hskip)]
    exact s.roundsUp_nil

theorem level_localsCode (hs : s.Regular) (vars : List Local) (hin : InStep (Local.sizeAll vars) h h) :
    Levels s.target out [] h True (s.RoundsUp (vars.flatMap fun v => v.init.rounded s h 0))
      (localsCode s h vars) fun _ k => k = h := by
  induction vars with
  | nil => exact Settings.roundsUp_none (levels_pure rfl)
  | cons v vars ih =>
    rw [Local.sizeAll] at hin
    have hrest := ih (hin.le (by omega))
    rw [List.flatMap_cons]
    refine Levels.ite (fun habsent => ?_) fun _ => ?_
    · rw [Expr.rounded_of_isAbsent habsent]
      refine Levels.andThen (levels_bindingOf _) fun _ => ?_
      exact Levels.andThen (levels_still rfl rfl) fun _ => hrest
    · rw [Settings.roundsUp_append]
      refine Levels.both (Expr.level_value hs (hin.le (by omega))) fun _ => ?_
      refine Levels.reg_bind fun _ => Levels.andThen (levels_bindingOf _) fun _ => ?_
      exact Levels.andThen (levels_still rfl rfl) fun _ => hrest

mutual

/-- The code of a statement keeps the height of the stack, which is the same for its whole function. -/
theorem Stmt.hands_code (hs : s.Regular) (st : Stmt) (hin : InStep st.size h h)
    {out : Label → Int → Prop} (hexit : out exit h) (loop : Option LoopLabels) :
    Hands s.target out [] h (s.RoundsUp (st.rounded s h)) loop (st.code s exit h loop) := by
  have hpart {n : Nat} (hn : n ≤ st.size) : InStep n h h := hin.le hn
  cases st with
  | absent => exact hands_fail _
  | block _ stmts => exact Stmt.hands_codeAll hs stmts hin hexit loop
  | empty => exact hands_pure.iff (by simp [Stmt.rounded])
  | expr _ e =>
    exact Levels.hands_last (Expr.level_value hs hin) fun _ => hands_pure
  | locals _ _ vars =>
    exact Levels.hands_last (level_localsCode hs vars hin) fun _ => hands_pure
  | cond p test yes no =>
    simp only [Stmt.size] at hpart
    have htest := hpart (n := test.size) (by omega)
    have hyes {out : Label → Int → Prop} (hexit : out exit h) :=
      yes.hands_code hs (hpart (by omega)) hexit loop
    have hno {out : Label → Int → Prop} (hexit : out exit h) (loop : Option LoopLabels) :=
      no.hands_code hs (hpart (by omega)) hexit loop
    by_cases habs : no = .absent
    · subst habs
      refine Hands.newLabel_bind fun done => Hands.iff (Levels.hands_bind
        (Expr.level_branch hs htest _ (.inl ⟨rfl, rfl⟩)) fun _ =>
          Hands.bind (hyes (.inr hexit)) fun loop₁ => Hands.label_bind hands_pure) ?_
      simp [Stmt.rounded]
    · rw [Stmt.code]
      · refine Hands.newLabel_bind fun done => Hands.newLabel_bind fun otherwise => ?_
        refine Hands.iff (Levels.hands_bind
          (Expr.level_branch hs htest _ (.inl ⟨rfl, rfl⟩)) fun _ =>
            Hands.bind (hyes (.inr (.inr hexit))) fun loop₁ =>
              Levels.hands_bind (levels_jump (.inr (.inl ⟨rfl, rfl⟩))) fun _ =>
                Hands.label_bind (Hands.bind (hno (.inr (.inr hexit)) loop₁) fun loop₂ =>
                  Hands.label_bind hands_pure)) ?_
        simp [Stmt.rounded]
      · exact habs
  | whileLoop _ test body =>
    simp only [Stmt.size] at hpart
    refine Hands.iff (Levels.hands_last (level_loopCode hs (fun out hexit =>
      body.hands_code hs (hpart (by omega)) hexit (some {})) (hpart (by omega))
      (hpart (by simp [Expr.size])) hexit) fun _ => hands_pure) ?_
    simp [Stmt.rounded, Expr.rounded]
  | forLoop _ init test step body =>
    simp only [Stmt.size] at hpart
    have hloop : Levels s.target out [] h True _ (loopCode s test step h (body.code s exit h))
        fun _ k => k = h :=
      level_loopCode hs (fun out hexit => body.hands_code hs (hpart (by omega)) hexit (some {}))
        (hpart (by omega)) (hpart (by omega)) hexit
    have hinit := init.hands_code hs (hpart (by omega)) hexit loop
    by_cases habs : init = .absent
    · subst habs
      exact Levels.hands_last hloop fun _ => hands_pure
    · rw [Stmt.code]
      · refine Hands.iff (Hands.bind hinit fun loop₁ => Levels.hands_last hloop fun _ => hands_pure) ?_
        simp [Stmt.rounded]
      · exact habs
  | breakLoop => exact (LoopLabels.hands_jumpBreak loop).iff (by simp [Stmt.rounded])
  | continueLoop => exact (LoopLabels.hands_jumpContinue loop).iff (by simp [Stmt.rounded])
  | ret _ e =>
    have hend : Hands s.target out [] h True loop (Emit.instr (.jump exit) >>= fun _ => pure loop) :=
      Levels.hands_last (levels_jump hexit) fun _ => hands_pure
    rw [Stmt.code, Stmt.rounded]
    cases habsent : e.isAbsent with
    | true => exact hend.iff (by simp [Expr.rounded_of_isAbsent habsent])
    | false => exact Levels.hands_last (Expr.level_value hs hin) fun _ => hend

theorem Stmt.hands_codeAll (hs : s.Regular) (stmts : List Stmt)
    (hin : InStep (Stmt.sizeAll stmts) h h) {out : Label → Int → Prop} (hexit : out exit h)
    (loop : Option LoopLabels) :
    Hands s.target out [] h (s.RoundsUp (Stmt.roundedAll s h stmts)) loop
      (Stmt.codeAll s exit h stmts loop) := by
  cases stmts with
  | nil => exact hands_pure.iff (by simp [Stmt.roundedAll])
  | cons st stmts =>
    simp only [Stmt.sizeAll] at hin
    rw [Stmt.roundedAll, Settings.roundsUp_append]
    refine Hands.bind (st.hands_code hs (hin.le (by omega)) hexit loop) fun loop' => ?_
    exact Stmt.hands_codeAll hs stmts (hin.le (by omega)) hexit loop'

end

end

end MiniCompiler
