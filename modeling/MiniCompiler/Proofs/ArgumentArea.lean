import Mathlib.Data.List.Induction
import MiniCompiler.Proofs.StackDiscipline

/-!
# Where arguments are passed

A call reserves an area below the stack: one word for each argument, a temporary word for each one that
is passed by reference and is no variable, and what the alignment of the stack asks for. The code counts
the temporary words when it reserves the area and numbers them when it stores the arguments; both go by
the same test, so that the words are consecutive (`slots_eq`). They lie apart from each other and inside
the area, which is larger by less than the alignment (`Expr.call_argumentArea`).
-/

namespace MiniCompiler

/-! ## The words of an area -/

/-- Is an argument passed by reference although it is no variable? -/
def needsTemporary (a : Bool × Expr) : Bool := a.1 && !a.2.isVariable

/-- The offset of the word of argument `i`. -/
def argumentOffset (wordSize : Int) (i : Nat) : Int := i * wordSize

/-- The offset of the temporary word of argument `i`: it lies after the words of all arguments and the
    temporary words of the arguments before. -/
def temporaryOffset (wordSize : Int) (args : List (Bool × Expr)) (i : Nat) : Int :=
  argBytes wordSize args + temporaries (args.take i) * wordSize

/-- The bytes that the arguments of a call and its temporary words take. -/
def argumentSpace (wordSize : Int) (args : List (Bool × Expr)) : Int :=
  argBytes wordSize args + temporaries args * wordSize

/-- The offsets of the words that a call stores into: those of its arguments and the temporary ones. -/
def slots (wordSize : Int) (args : List (Bool × Expr)) : List Int :=
  (List.range args.length).map (argumentOffset wordSize) ++
    ((List.range args.length).filter fun i => args[i]?.any needsTemporary).map
      (temporaryOffset wordSize args)

/-- Two words do not overlap. -/
def Apart (wordSize a b : Int) : Prop := a + wordSize ≤ b ∨ b + wordSize ≤ a

/-- An area of `total` bytes for the arguments of a call. Its words lie apart and inside of it, they are
    written as they are, and there is less than the alignment of the stack beside them. -/
structure ArgumentArea (t : Target) (args : List (Bool × Expr)) (total : Int) : Prop where
  apart : (slots t.wordSize args).Pairwise (Apart t.wordSize)
  inside : ∀ x ∈ slots t.wordSize args, 0 ≤ x ∧ x + t.wordSize ≤ total
  wrap_eq : ∀ x ∈ slots t.wordSize args, wrap x = x
  spare_nonneg : 0 ≤ total - argBytes t.wordSize args - temporaries args * t.wordSize
  spare_lt : 1 < t.stackAlignment →
    total - argBytes t.wordSize args - temporaries args * t.wordSize < t.stackAlignment

theorem temporaries_concat (args : List (Bool × Expr)) (a : Bool × Expr) :
    temporaries (args ++ [a]) = temporaries args + if needsTemporary a then 1 else 0 := by
  simp [temporaries, needsTemporary]

theorem temporaries_cons (a : Bool × Expr) (args : List (Bool × Expr)) :
    temporaries (a :: args) = (if needsTemporary a then 1 else 0) + temporaries args := by
  simp [temporaries, needsTemporary, List.countP_cons, Nat.add_comm]

/-- The arguments that need a temporary word are numbered in order. -/
theorem map_temporaries_take (args : List (Bool × Expr)) :
    ((List.range args.length).filter fun i => args[i]?.any needsTemporary).map
      (fun i => temporaries (args.take i)) = List.range (temporaries args) := by
  induction args using List.reverseRecOn with
  | nil => rfl
  | append_singleton args a ih =>
    have hfilter : ((List.range args.length).filter fun i => (args ++ [a])[i]?.any needsTemporary) =
        (List.range args.length).filter fun i => args[i]?.any needsTemporary := by
      refine List.filter_congr fun i hi => ?_
      rw [List.getElem?_append_left (List.mem_range.1 hi)]
    have hmap : ((List.range args.length).filter fun i => args[i]?.any needsTemporary).map
        (fun i => temporaries ((args ++ [a]).take i)) = List.range (temporaries args) := by
      rw [← ih]
      refine List.map_congr_left fun i hi => ?_
      have hlt := List.mem_range.1 (List.mem_filter.1 hi).1
      rw [List.take_append_of_le_length (Nat.le_of_lt hlt)]
    rw [List.length_append, List.length_singleton, List.range_succ, List.filter_append,
      List.map_append, hfilter, hmap, temporaries_concat]
    by_cases ha : needsTemporary a = true
    · simp [ha, List.range_succ]
    · simp [ha]

/-- The words of an area are consecutive. -/
theorem slots_eq (wordSize : Int) (args : List (Bool × Expr)) : slots wordSize args =
    (List.range (args.length + temporaries args)).map (argumentOffset wordSize) := by
  have htemporary : temporaryOffset wordSize args =
      (fun k => argumentOffset wordSize (args.length + k)) ∘ fun i => temporaries (args.take i) := by
    funext i
    simp [temporaryOffset, argumentOffset, argBytes, Int.add_mul]
  rw [slots, htemporary, ← List.map_map, map_temporaries_take, List.range_add, List.map_append,
    List.map_map]
  rfl

section

variable {wordSize : Int} {args : List (Bool × Expr)}

theorem argumentOffset_add_le (hword : 0 < wordSize) {i j : Nat} (hlt : i < j) :
    argumentOffset wordSize i + wordSize ≤ argumentOffset wordSize j :=
  calc (i : Int) * wordSize + wordSize = (i + 1 : Int) * wordSize := by rw [Int.add_mul, Int.one_mul]
    _ ≤ j * wordSize := Int.mul_le_mul_of_nonneg_right (by omega) (Int.le_of_lt hword)

/-- The words of an area do not overlap. -/
theorem slots_apart (hword : 0 < wordSize) : (slots wordSize args).Pairwise (Apart wordSize) := by
  rw [slots_eq]
  refine List.Pairwise.map _ ?_ List.pairwise_lt_range
  exact fun i j hlt => .inl (argumentOffset_add_le hword hlt)

theorem mem_slots (hword : 0 < wordSize) {x : Int} (hx : x ∈ slots wordSize args) :
    0 ≤ x ∧ x + wordSize ≤ argumentSpace wordSize args := by
  rw [slots_eq] at hx
  obtain ⟨i, hi, rfl⟩ := List.mem_map.1 hx
  refine ⟨Int.mul_nonneg (Int.natCast_nonneg i) (Int.le_of_lt hword), ?_⟩
  have hle := argumentOffset_add_le hword (List.mem_range.1 hi)
  rwa [argumentOffset.eq_def wordSize (args.length + temporaries args), Int.natCast_add,
    Int.add_mul] at hle

theorem argumentSpace_nonneg (hword : 0 < wordSize) : 0 ≤ argumentSpace wordSize args := by
  have hargs := Int.mul_nonneg (Int.natCast_nonneg args.length) (Int.le_of_lt hword)
  have htemps := Int.mul_nonneg (Int.natCast_nonneg (temporaries args)) (Int.le_of_lt hword)
  unfold argumentSpace argBytes
  omega

end

section

variable {t : Target} {pushed : Int} {args : List (Bool × Expr)}

/-- What a call reserves is the space that is asked for, and less than the alignment beside it. -/
theorem callArea_bounds {space : Int} (hpushed : 0 ≤ pushed) (hspace : 0 ≤ space)
    (hroom : pushed + space + max t.stackAlignment 1 ≤ wordBound) :
    space ≤ callArea t pushed space ∧ callArea t pushed space < space + max t.stackAlignment 1 := by
  -- without an alignment nothing is rounded, so only the wrapping of the sum is left
  obtain halign | halign := Int.lt_or_le 1 t.stackAlignment
  · rw [Int.max_eq_left (Int.le_of_lt halign)] at hroom ⊢
    exact (callArea_spec halign hpushed hspace hroom).2
  · rw [Int.max_eq_right halign] at hroom ⊢
    have hsum : wrap (pushed + space) = pushed + space :=
      wrap_of_mem_range (by unfold wordBound; omega) (by omega)
    have harea : callArea t pushed space = space := by
      rw [callArea, alignUp, if_pos halign, hsum, Int.add_comm pushed, Int.add_sub_cancel]
      exact wrap_of_mem_range (by unfold wordBound; omega) (by omega)
    omega

theorem argumentArea_callArea (hword : 0 < t.wordSize) (hpushed : 0 ≤ pushed)
    (hroom : pushed + argumentSpace t.wordSize args + max t.stackAlignment 1 ≤ wordBound) :
    ArgumentArea t args (callArea t pushed (argumentSpace t.wordSize args)) := by
  have hspace : 0 ≤ argumentSpace t.wordSize args := argumentSpace_nonneg hword
  obtain ⟨hle, hlt⟩ := callArea_bounds hpushed hspace hroom
  generalize callArea t pushed _ = total at hle hlt
  have hspare : total - argBytes t.wordSize args - temporaries args * t.wordSize =
      total - argumentSpace t.wordSize args := by
    rw [argumentSpace]
    omega
  refine ⟨slots_apart hword, fun x hx => ?_, fun x hx => ?_, ?_, fun halign => ?_⟩
  · obtain ⟨hx₀, hx₁⟩ := mem_slots hword hx
    exact ⟨hx₀, Int.le_trans hx₁ hle⟩
  · obtain ⟨hx₀, hx₁⟩ := mem_slots hword hx
    exact wrap_of_mem_range (by unfold wordBound; omega) (by omega)
  · rw [hspare]
    omega
  · rw [hspare]
    omega

end

/-! ## The code of arguments -/

/-- Lines that pass an argument in the word at offset `word`. The value of one that is passed by reference
    and is no variable goes to the offset `temp`, and its word gets that address. `r` is the first
    register. -/
inductive Passes (s : Settings) (pushed : Int) (r : Operand) (word temp : Int) :
    Bool × Expr → List Line → Prop where
  | value {e : Expr} {n n' : Nat} {ls : List Line} :
    Emits ((e.code s).value pushed 0) n () ls n' →
    Passes s pushed r word temp (false, e)
      (ls ++ [.instr (.mov r (.mem word s.target.stackPointer))])
  | variable {v : Variable} {b : Binding} :
    v.binding = some b →
    Passes s pushed r word temp (true, .var v)
      [.instr (if b.byRef then .mov (s.target.slot b) r else .lea (s.target.slot b) r),
        .instr (.mov r (.mem word s.target.stackPointer))]
  | temporary {e : Expr} {n n' : Nat} {ls : List Line} :
    e.isVariable = false → Emits ((e.code s).value pushed 0) n () ls n' →
    Passes s pushed r word temp (true, e)
      (ls ++ [.instr (.mov r (.mem temp s.target.stackPointer)),
        .instr (.lea (.mem temp s.target.stackPointer) r),
        .instr (.mov r (.mem word s.target.stackPointer))])

theorem Target.registers_ne_nil_of_emits {t : Target} {α : Type} {m n n' : Nat} {f : Operand → Emit α}
    {a : α} {ls : List Line} (h : Emits (t.reg m >>= f) n a ls n') : t.registers ≠ [] := by
  intro hnil
  obtain ⟨_, _, _, _, hreg, -, -⟩ := emits_bind.1 h
  obtain ⟨hreg, -, -⟩ := emits_ofExcept.1 hreg
  rw [Target.register, hnil, ← Int.ofNat_tmod] at hreg
  cases hreg

theorem emits_instr_when {b : Prop} [Decidable b] {i : Instr} {x : Emit Unit} {n n' : Nat} {u : Unit}
    {ls : List Line} (h : Emits (if b then Emit.instr i >>= fun _ => x else x) n u ls n') :
    ∃ rest, Emits x n u rest n' ∧ ls = (if b then [.instr i] else []) ++ rest := by
  by_cases hb : b
  · rw [if_pos hb] at h ⊢
    exact emits_instr_bind.1 h
  · rw [if_neg hb] at h ⊢
    exact ⟨ls, h, rfl⟩

section

variable {s : Settings} (ht : s.target.registers ≠ []) {pushed : Int} {n n' : Nat} {u : Unit}
  {ls : List Line} {e : Expr} {word temp : Int}

include ht

theorem passes_passValue (h : Emits (passValue s.target (e.code s) pushed word) n u ls n') :
    Passes s pushed (.reg (s.target.registerName 0)) word temp (false, e) ls := by
  obtain ⟨_, l₁, n₁, l₂, hcode, hrest, rfl⟩ := emits_bind.1 h
  obtain ⟨rfl, rfl⟩ := emits_instr.1 ((Target.emits_reg_bind ht (r := 0)).1 hrest)
  exact .value hcode

theorem passes_passVariable {v : Variable} (h : Emits (passVariable s.target v word) n u ls n') :
    Passes s pushed (.reg (s.target.registerName 0)) word temp (true, .var v) ls := by
  obtain ⟨b, _, _, _, hbound, haddress, rfl⟩ :=
    emits_bind.1 ((Target.emits_reg_bind ht (r := 0)).1 h)
  obtain ⟨hb, rfl, rfl⟩ := emits_bindingOf.1 hbound
  obtain ⟨_, hstore, rfl⟩ := emits_instr_bind.1 haddress
  obtain ⟨rfl, rfl⟩ := emits_instr.1 hstore
  exact .variable hb

theorem passes_passTemporary (he : e.isVariable = false)
    (h : Emits (passTemporary s.target (e.code s) pushed word temp) n u ls n') :
    Passes s pushed (.reg (s.target.registerName 0)) word temp (true, e) ls := by
  obtain ⟨_, _, _, _, hcode, hkeep, rfl⟩ :=
    emits_bind.1 ((Target.emits_reg_bind ht (r := 0)).1 h)
  obtain ⟨_, haddress, rfl⟩ := emits_instr_bind.1 hkeep
  obtain ⟨_, hstore, rfl⟩ := emits_instr_bind.1 haddress
  obtain ⟨rfl, rfl⟩ := emits_instr.1 hstore
  exact .temporary he hcode

/-- The first of some arguments is passed, then the others. -/
theorem emits_passArgs_cons {size : Int} {i k : Nat} {a : Bool × Expr}
    (h : Emits (passArgs s size i k (a :: args) pushed) n u ls n') :
    ∃ chunk rest m,
      Passes s pushed (.reg (s.target.registerName 0)) (argumentOffset s.target.wordSize i)
        (size + k * s.target.wordSize) a chunk ∧
      Emits (passArgs s size (i + 1) (k + if needsTemporary a then 1 else 0) args pushed) m () rest n' ∧
      ls = chunk ++ rest := by
  obtain ⟨byRef, e⟩ := a
  cases byRef with
  | false =>
    obtain ⟨_, chunk, m, rest, hpass, hrest, rfl⟩ := emits_bind.1 h
    exact ⟨chunk, rest, m, passes_passValue ht hpass, hrest, rfl⟩
  | true =>
    cases e with
    | var v =>
      obtain ⟨_, chunk, m, rest, hpass, hrest, rfl⟩ := emits_bind.1 h
      exact ⟨chunk, rest, m, passes_passVariable ht hpass, hrest, rfl⟩
    | _ =>
      obtain ⟨_, chunk, m, rest, hpass, hrest, rfl⟩ := emits_bind.1 h
      exact ⟨chunk, rest, m, passes_passTemporary ht rfl hpass, hrest, rfl⟩

/-- Every argument is passed in its own word, and through its own temporary word if it needs one. -/
theorem emits_passArgs {size : Int} {i k : Nat}
    (h : Emits (passArgs s size i k args pushed) n u ls n') :
    ∃ chunks : List (List Line), ls = chunks.flatten ∧ chunks.length = args.length ∧
      ∀ j a, args[j]? = some a → ∃ chunk, chunks[j]? = some chunk ∧
        Passes s pushed (.reg (s.target.registerName 0)) (argumentOffset s.target.wordSize (i + j))
          (size + ((k + temporaries (args.take j) : Nat) : Int) * s.target.wordSize) a chunk := by
  -- `i` and `k` count the arguments and the temporaries that came before
  induction args generalizing i k n ls with
  | nil =>
    obtain ⟨-, rfl, -⟩ := emits_pure.1 h
    exact ⟨[], rfl, rfl, by simp⟩
  | cons a args ih =>
    obtain ⟨chunk, rest, m, hpasses, hrest, rfl⟩ := emits_passArgs_cons ht h
    obtain ⟨chunks, rfl, hlength, hchunks⟩ := ih hrest
    refine ⟨chunk :: chunks, rfl, by simp [hlength], ?_⟩
    intro j b hb
    cases j with
    | zero =>
      cases hb
      exact ⟨chunk, rfl, hpasses⟩
    | succ j =>
      obtain ⟨chunk', hchunk', hpasses'⟩ := hchunks j b hb
      refine ⟨chunk', hchunk', ?_⟩
      rw [Nat.add_right_comm i 1 j, Nat.add_assoc k] at hpasses'
      rw [List.take_succ_cons, temporaries_cons]
      exact hpasses'

/-- The code of a call saves registers, reserves its area and passes its arguments before it calls. -/
theorem emits_callCode {name : String} {passArgs : Int → Emit Unit}
    {free : Nat} (h : Emits (callCode s name args passArgs pushed free) n u ls n') :
    ∃ (saved : List String) (height area : Int) (passed rest : List Line) (m m' : Nat),
      savedAtCall s.target args.isEmpty free = .ok saved ∧
      height = pushed + saved.length * s.target.wordSize ∧
      area = callArea s.target height (argumentSpace s.target.wordSize args) ∧
      Emits (passArgs (height + area)) m () passed m' ∧
      ls = saved.map (fun q => .instr (.push (.reg q))) ++
        (if 0 < area then [.instr (.sub (.imm area) s.target.sp)] else []) ++ passed ++
        .instr (.call (s.symbolStart ++ name) (height + area)) :: rest := by
  obtain ⟨saved, _, m₁, _, hnames, hrest, rfl⟩ := emits_bind.1 ((Target.emits_reg_bind ht).1 h)
  obtain ⟨hsaved, rfl, rfl⟩ := emits_ofExcept.1 hnames
  obtain ⟨_, _, _, _, hpush, hrest₁, rfl⟩ := emits_bind.1 hrest
  obtain ⟨rfl, rfl⟩ := emits_lines.1 hpush
  obtain ⟨_, hrest₂, rfl⟩ := emits_instr_when hrest₁
  obtain ⟨_, passed, m', _, hpassed, hrest₃, rfl⟩ := emits_bind.1 hrest₂
  obtain ⟨rest, -, rfl⟩ := emits_instr_bind.1 hrest₃
  refine ⟨saved, _, _, passed, rest, _, m', hsaved, rfl, rfl, hpassed, ?_⟩
  simp only [List.nil_append, List.append_assoc]
  rfl

end

/-- A call passes its arguments in an area of its own. Argument `i` is stored in the word `i` of the area,
    at the stack pointer. The value of one that is passed by reference and is no variable is stored behind
    the words of the arguments, in the first temporary word that is free, and its address is what is
    passed. As long as no size leaves the signed words, all these words lie apart and inside of the area,
    and what it has beside them is less than the alignment of the stack. -/
theorem Expr.call_argumentArea (s : Settings) (hword : 0 < s.target.wordSize)
    (args : List (Bool × Expr)) :
    (∀ pos name callee pushed free n ls n',
      Emits (((Expr.call pos name args callee).code s).value pushed free) n () ls n' →
      ∃ (saved : List String) (height total : Int) (chunks : List (List Line)) (rest : List Line),
        savedAtCall s.target args.isEmpty free = .ok saved ∧
        height = pushed + saved.length * s.target.wordSize ∧
        total = callArea s.target height (argumentSpace s.target.wordSize args) ∧
        ls = saved.map (fun q => .instr (.push (.reg q))) ++
          (if 0 < total then [.instr (.sub (.imm total) s.target.sp)] else []) ++ chunks.flatten ++
          .instr (.call (s.symbolStart ++ name) (height + total)) :: rest ∧
        chunks.length = args.length ∧
        ∀ i a, args[i]? = some a → ∃ chunk, chunks[i]? = some chunk ∧
          Passes s (height + total) (.reg (s.target.registerName 0))
            (argumentOffset s.target.wordSize i) (temporaryOffset s.target.wordSize args i) a chunk) ∧
    ∀ pushed : Int, 0 ≤ pushed →
      pushed + argumentSpace s.target.wordSize args + max s.target.stackAlignment 1 ≤ wordBound →
      ArgumentArea s.target args
        (callArea s.target pushed (argumentSpace s.target.wordSize args)) := by
  refine ⟨?_, fun pushed hpushed hroom => argumentArea_callArea hword hpushed hroom⟩
  intro pos name callee pushed free n ls n' hrun
  have ht := Target.registers_ne_nil_of_emits hrun
  obtain ⟨saved, height, total, passed, rest, m, m', hsaved, hheight, htotal, hpassed, rfl⟩ :=
    emits_callCode ht hrun
  obtain ⟨chunks, rfl, hlength, hchunks⟩ := emits_passArgs ht hpassed
  refine ⟨saved, height, total, chunks, rest, hsaved, hheight, htotal, rfl, hlength, fun i a ha => ?_⟩
  obtain ⟨chunk, hchunk, hpasses⟩ := hchunks i a ha
  rw [Nat.zero_add, Nat.zero_add] at hpasses
  exact ⟨chunk, hchunk, hpasses⟩

/-- `g(1, x, x + 2, 7)`, where `x` is a local and all but the first are passed by reference. -/
def mixedArguments : List (Bool × Expr) :=
  let x : Expr := .var ⟨{}, "x", some ⟨"x", .int, -4, false⟩⟩
  [(false, .int {} 1), (true, x), (true, .arith {} .add x (.int {} 2)), (true, .int {} 7)]

/-- The last argument there has the second temporary word, and 4 bytes keep the stack aligned. -/
theorem Expr.call_argumentArea_mixedArguments :
    (0 : Int) < 4 ∧ (0 : Int) ≤ 20 ∧ 20 + argumentSpace 4 mixedArguments + max 16 1 ≤ wordBound ∧
      ArgumentArea Target.i386 mixedArguments 28 ∧
      ∃ ls n', Emits (((Expr.call {} "g" mixedArguments none).code {}).value 20 0) 0 () ls n' ∧
        ∃ chunk, chunk <:+: ls ∧ Passes {} 48 (.reg "%eax") 12 20 (true, .int {} 7) chunk := by
  have hrun : Emits (((Expr.call {} "g" mixedArguments none).code {}).value 20 0) 0 ()
      ((((Expr.call {} "g" mixedArguments none).code {}).value 20 0) 0).lines 0 := rfl
  have hword : 0 < ({} : Settings).target.wordSize := by decide
  have hroom : 20 + argumentSpace 4 mixedArguments + max 16 1 ≤ wordBound := by decide
  refine ⟨by decide, by decide, hroom,
    (Expr.call_argumentArea {} hword mixedArguments).2 20 (by decide) hroom, _, 0, hrun, ?_⟩
  obtain ⟨saved, height, total, chunks, rest, hsaved, hheight, htotal, hls, -, hchunks⟩ :=
    (Expr.call_argumentArea {} hword mixedArguments).1 {} "g" none 20 0 0 _ 0 hrun
  have hnone : saved = [] := (Except.ok.inj hsaved).symm
  have hheight : height = 20 := by rw [hheight, hnone]; rfl
  have htotal : total = 28 := by rw [htotal, hheight]; decide
  obtain ⟨chunk, hchunk, hpasses⟩ := hchunks 3 (true, .int {} 7) rfl
  rw [hheight, htotal] at hpasses
  refine ⟨chunk, ?_, hpasses⟩
  rw [hls]
  exact (List.infix_of_mem_flatten (List.mem_of_getElem? hchunk)).trans ⟨_, _, rfl⟩

/-- Rounding up to a multiple of a large alignment leaves the signed words, and the argument of a call is
    stored over what the function has saved: nothing is reserved for it. -/
theorem Settings.widelyAligned_not_argumentArea :
    0 < Settings.widelyAligned.target.wordSize ∧
      Emits (((Expr.call {} "g" [(false, .int {} 1)] none).code .widelyAligned).value 20 0) 0 ()
        [.instr (.mov (.imm 1) (.reg "%eax")), .instr (.mov (.reg "%eax") (.mem 0 "%esp")),
          .instr (.call "g" 0)] 0 ∧
      ¬ ArgumentArea Settings.widelyAligned.target [(false, .int {} 1)]
        (callArea Settings.widelyAligned.target 20 (argumentSpace 4 [(false, .int {} 1)])) := by
  refine ⟨by decide, rfl, fun h => ?_⟩
  have hinside := (h.inside 0 (by decide)).2
  exact absurd hinside (by decide)

end MiniCompiler
