import MiniCompiler.Proofs.Machine
import MiniCompiler.Proofs.StackDiscipline

/-!
# What is written of assembly

Numbers are written as signed words, and a call does not show how much is on the stack. Neither changes
the labels, the jumps or the height of the stack. The machine takes the same steps on lines as they are
written, where the lines that calls return to are as they are written too (`Machine.step_asWritten`).
-/

namespace MiniCompiler

/-! ## What is written of a line -/

theorem wrap_wrap (n : Int) : wrap (wrap n) = wrap n := wrap_of_mem_range (le_wrap n) (wrap_lt n)

def Operand.asWritten : Operand → Operand
  | .imm n => .imm (wrap n)
  | .reg r => .reg r
  | .mem n r => .mem (wrap n) r

def Instr.asWritten : Instr → Instr
  | .mov a b => .mov a.asWritten b.asWritten
  | .lea a b => .lea a.asWritten b.asWritten
  | .push a => .push a.asWritten
  | .pop a => .pop a.asWritten
  | .add a b => .add a.asWritten b.asWritten
  | .sub a b => .sub a.asWritten b.asWritten
  | .imul a b => .imul a.asWritten b.asWritten
  | .xor a b => .xor a.asWritten b.asWritten
  | .or a b => .or a.asWritten b.asWritten
  | .cmp a b => .cmp a.asWritten b.asWritten
  | .neg a => .neg a.asWritten
  | .idiv a => .idiv a.asWritten
  | .loadWide n a => .loadWide (wrap n) a.asWritten
  | .call symbol _ => .call symbol 0
  | i => i

def Line.asWritten : Line → Line
  | .instr i => .instr i.asWritten
  | l => l

namespace Line

@[simp]
theorem label?_asWritten (l : Line) : l.asWritten.label? = l.label? := by cases l <;> rfl

@[simp]
theorem jump?_asWritten (l : Line) : l.asWritten.jump? = l.jump? := by
  cases l with
  | instr i => cases i <;> rfl
  | _ => rfl

@[simp]
theorem growth_asWritten (t : Target) (l : Line) : l.asWritten.growth t = l.growth t := by
  have hsp (o : Operand) : o.asWritten = t.sp ↔ o = t.sp := by
    cases o <;> simp [Operand.asWritten, Target.sp]
  cases l with
  | instr i =>
    cases i with
    | add a b | sub a b =>
      cases a with
      | imm n =>
        have himm : (Operand.imm n).asWritten = .imm (wrap n) := rfl
        simp only [asWritten, Instr.asWritten, himm, growth, hsp, wrap_wrap]
      | _ => rfl
    | _ => rfl
  | _ => rfl

end Line

theorem writtenLabels_map_asWritten (ls : List Line) :
    writtenLabels (ls.map Line.asWritten) = writtenLabels ls := by
  simp [writtenLabels, List.filterMap_map]

theorem stackHeight_map_asWritten (t : Target) (ls : List Line) (i : Nat) :
    stackHeight t (ls.map Line.asWritten) i = stackHeight t ls i := by
  have hgrowth (ms : List Line) : growthAll t (ms.map Line.asWritten) = growthAll t ms := by
    induction ms with
    | nil => rfl
    | cons l ms ih => simp [ih]
  rw [stackHeight, stackHeight, ← List.map_take, hgrowth]

/-! ## Running what is written -/

/-- Options that correspond under `f`, with what follows them. -/
theorem bind_map_eq {α β γ δ : Type} {x : Option α} {y : Option β} {f : α → β} {g : β → Option δ}
    {h : α → Option γ} {k : γ → δ} (hx : y = x.map f) (hg : ∀ a, g (f a) = (h a).map k) :
    (y >>= g) = (x >>= h).map k := by
  subst hx
  cases x with
  | none => rfl
  | some a => exact hg a

theorem Operand.isMem_asWritten (o : Operand) : o.asWritten.isMem = o.isMem := by cases o <;> rfl

/-- A word, where lines to return to are as they are written. -/
def Word.asWritten {w : Nat} : Word w → Word w
  | .code rest => .code (rest.map Line.asWritten)
  | v => v

namespace Core

section

variable {w : Nat} (c : Core w)

def asWritten : Core w where
  regs r := (c.regs r).asWritten
  mem a := (c.mem a).asWritten
  flags := c.flags

theorem regs_asWritten (r : String) : c.asWritten.regs r = (c.regs r).asWritten := rfl

theorem asWritten_setReg (r : String) (v : Word w) :
    (c.setReg r v).asWritten = c.asWritten.setReg r v.asWritten := by
  simp only [asWritten, setReg, apply_ite Word.asWritten]

theorem address_asWritten (offset : Int) (base : String) :
    c.asWritten.address offset base = (c.address offset base).map id := by
  simp only [address, asWritten, Option.map_id, id]
  cases c.regs base <;> rfl

theorem address_wrap (offset : Int) (base : String) :
    c.asWritten.address (wrap offset) base = (c.address offset base).map id := by
  rw [address_asWritten, address, address, wrap_wrap]

end

variable {t : Target} (c : Core t.bits)

theorem store_asWritten (a : Int) (v : Word t.bits) :
    c.asWritten.store t a v.asWritten = (c.store t a v).map asWritten := by
  have hset : (c.setMem a v).asWritten = c.asWritten.setMem a v.asWritten := by
    simp only [asWritten, setMem, apply_ite Word.asWritten]
  simp only [store, apply_ite (Option.map asWritten), Option.map_some, Option.map_none, hset]

theorem load_asWritten (a : Int) : c.asWritten.load t a = (c.load t a).map Word.asWritten := by
  simp only [load, apply_ite (Option.map Word.asWritten)]
  rfl

theorem read_asWritten (o : Operand) :
    c.asWritten.read t o.asWritten = (c.read t o).map Word.asWritten := by
  cases o with
  | imm n => simp only [read, Operand.asWritten, wrap_wrap, Option.map_some, Word.asWritten]
  | reg r => rfl
  | mem n r => exact bind_map_eq (c.address_wrap n r) c.load_asWritten

theorem write_asWritten (v : Word t.bits) (o : Operand) :
    c.asWritten.write t v.asWritten o.asWritten = (c.write t v o).map asWritten := by
  cases o with
  | imm n => rfl
  | reg r => exact congrArg some (c.asWritten_setReg r v).symm
  | mem n r => exact bind_map_eq (c.address_wrap n r) fun a => c.store_asWritten a v

theorem push_asWritten (v : Word t.bits) :
    c.asWritten.push t v.asWritten = (c.push t v).map asWritten :=
  bind_map_eq (c.address_asWritten ..) fun a =>
    c.asWritten_setReg _ (.addr a) ▸ store_asWritten (c.setReg _ (.addr a)) a v

theorem pop_asWritten : c.asWritten.pop t = (c.pop t).map (.map Word.asWritten asWritten) :=
  bind_map_eq (c.address_asWritten ..) fun a => bind_map_eq (c.load_asWritten a) fun v =>
    congrArg (fun c => some (v.asWritten, c)) (c.asWritten_setReg _ (.addr _)).symm

theorem compute_asWritten (src dst : Operand)
    (f : BitVec t.bits → BitVec t.bits → BitVec t.bits) :
    c.asWritten.compute t src.asWritten dst.asWritten f =
      (c.compute t src dst f).map (.map id asWritten) := by
  rw [compute, compute, Operand.isMem_asWritten, Operand.isMem_asWritten]
  split
  · rfl
  · refine bind_map_eq (c.read_asWritten src) fun a => bind_map_eq (c.read_asWritten dst) fun b => ?_
    cases a with
    | num a =>
      cases b with
      | num b => exact bind_map_eq (c.write_asWritten (.num _) dst) fun _ => rfl
      | _ => rfl
    | _ => rfl

theorem shift_asWritten (src dst : Operand) (n : Int)
    (f : BitVec t.bits → BitVec t.bits → BitVec t.bits) :
    c.asWritten.shift t src.asWritten dst.asWritten n f = (c.shift t src dst n f).map asWritten := by
  refine bind_map_eq (c.read_asWritten dst) fun v => ?_
  have hcompute := bind_map_eq (c.compute_asWritten src dst f)
    (g := fun x => some (x.2.setFlags none)) (h := fun x => some (x.2.setFlags none))
    (k := asWritten) fun _ => rfl
  cases src with
  | imm m =>
    cases v with
    | addr a => exact bind_map_eq (c.write_asWritten (.addr _) dst) fun _ => rfl
    | _ => exact hcompute
  | _ => exact hcompute

theorem divide_asWritten (v : Word t.bits) :
    c.asWritten.divide t v.asWritten = (c.divide t v).map asWritten := by
  cases v with
  | num d =>
    simp only [divide, regs_asWritten]
    cases c.regs t.dividend.1 with
    | num low =>
      cases c.regs t.dividend.2 with
      | num high =>
        have hflags (c : Core t.bits) : (c.setFlags none).asWritten = c.asWritten.setFlags none := rfl
        simp only [Word.asWritten, apply_ite (Option.map asWritten), Option.map_some,
          Option.map_none, hflags, asWritten_setReg]
      | _ => rfl
    | _ => rfl
  | _ => rfl

end Core

theorem Instr.effect_asWritten {t : Target} (c : Core t.bits) (i : Instr) :
    i.asWritten.effect t c.asWritten = (i.effect t c).map Core.asWritten := by
  cases i with
  | mov a b =>
    simp only [asWritten, effect, Operand.isMem_asWritten]
    split
    · rfl
    · exact bind_map_eq (c.read_asWritten a) fun v => c.write_asWritten v b
  | lea a b =>
    cases a with
    | mem n r => exact bind_map_eq (c.address_wrap n r) fun a => c.write_asWritten (.addr a) b
    | _ => rfl
  | push a => exact bind_map_eq (c.read_asWritten a) c.push_asWritten
  | pop a => exact bind_map_eq c.pop_asWritten fun x => x.2.write_asWritten x.1 a
  | add a b | sub a b =>
    cases a with
    | imm n =>
      -- the number is a signed word already, so it is the same when it is wrapped again
      rw [effect, ← Core.shift_asWritten, ← wrap_wrap]
      rfl
    | _ => exact bind_map_eq (c.compute_asWritten _ b _) fun _ => rfl
  | imul a b | xor a b | or a b => exact bind_map_eq (c.compute_asWritten a b _) fun _ => rfl
  | cmp a b =>
    simp only [asWritten, effect, Operand.isMem_asWritten]
    split
    · rfl
    · refine bind_map_eq (c.read_asWritten a) fun v => bind_map_eq (c.read_asWritten b) fun w => ?_
      cases v <;> cases w <;> rfl
  | neg a =>
    refine bind_map_eq (c.read_asWritten a) fun v => ?_
    cases v with
    | num n => exact bind_map_eq (c.write_asWritten (.num _) a) fun _ => rfl
    | _ => rfl
  | idiv a => exact bind_map_eq (c.read_asWritten a) c.divide_asWritten
  | loadWide n a =>
    rw [effect, ← Core.write_asWritten, ← wrap_wrap]
    rfl
  | widen name =>
    simp only [asWritten, effect, Core.regs_asWritten]
    cases c.regs t.dividend.1 with
    | num low =>
      simp only [Word.asWritten, apply_ite (Option.map Core.asWritten), Option.map_some,
        Core.asWritten_setReg, Option.map_none]
    | _ => rfl
  | _ => rfl

theorem resolve_asWritten (l : Label) (text : List Line) :
    resolve l (text.map Line.asWritten) = (resolve l text).map (List.map Line.asWritten) := by
  induction text with
  | nil => rfl
  | cons m text ih =>
    cases m with
    | label l' =>
      simp only [resolve, List.map_cons, Line.asWritten, ih, apply_ite (Option.map _), Option.map_some]
    | _ => exact ih

def Machine.asWritten {w : Nat} (m : Machine w) : Machine w :=
  ⟨m.rest.map Line.asWritten, m.core.asWritten⟩

/-- The machine takes the same steps on lines as they are written. -/
theorem Machine.step_asWritten {t : Target} (text : List Line) (m : Machine t.bits) :
    m.asWritten.step t (text.map Line.asWritten) = (m.step t text).map Machine.asWritten := by
  obtain ⟨rest, core⟩ := m
  cases rest with
  | nil => rfl
  | cons l rest =>
    cases l with
    | instr i =>
      have hnext := bind_map_eq (i.effect_asWritten core)
        (g := fun c => some (Machine.mk (rest.map Line.asWritten) c))
        (h := fun c => some (Machine.mk rest c)) (k := Machine.asWritten) fun _ => rfl
      cases i with
      | jump l => exact bind_map_eq (resolve_asWritten l text) fun _ => rfl
      | jumpIf cond l =>
        refine bind_map_eq Option.map_id_apply.symm fun o => ?_
        rw [apply_ite (Option.map asWritten)]
        exact ite_congr rfl (fun _ => bind_map_eq (resolve_asWritten l text) fun _ => rfl) fun _ => rfl
      | call symbol pushed =>
        exact bind_map_eq (resolve_asWritten _ text) fun _ =>
          bind_map_eq (core.push_asWritten (.code rest)) fun _ => rfl
      | ret =>
        -- the call has left lines as they are written
        refine bind_map_eq core.pop_asWritten fun x => ?_
        obtain ⟨v, c⟩ := x
        cases v <;> rfl
      | _ => exact hnext
    | _ => rfl

/-- The machine runs alike on lines as they are written. -/
theorem Machine.Reaches.asWritten {t : Target} {text : List Line} {m m' : Machine t.bits}
    (h : Machine.Reaches t text m m') :
    Machine.Reaches t (text.map Line.asWritten) m.asWritten m'.asWritten := by
  refine Relation.ReflTransGen.lift Machine.asWritten (fun a b hstep => ?_) _ _ h
  exact (a.step_asWritten text).trans (congrArg _ hstep)

end MiniCompiler
