import MiniCompiler.Compilation
import MiniCompiler.Proofs.CheckSound
import MiniCompiler.Proofs.Emission
import MiniCompiler.Proofs.ParseComplete

/-!
# Checked programs have code

Lowering faults on a tree with gaps, on a variable without a binding and on a jump out of a loop that
is not there. None of these is left in the tree that the rules of elaboration make of a program, so
an accepted program always has its assembly (`Compilation.run_eq_lowered`). Its lines are legible: they
name registers of the machine and call functions of the program.
-/

namespace MiniCompiler

/-! ## Lines that can be read -/

def Target.names (t : Target) : List String :=
  t.stackPointer :: t.basePointer :: (t.registers ++ t.calleeSaved)

/-- The symbol of a name that `named` allows. -/
def Settings.IsSymbol (s : Settings) (named : String → Prop) (symbol : String) : Prop :=
  ∃ name, named name ∧ symbol = s.symbolStart ++ name

/-- An operand that names a register of the machine, or none. -/
@[reducible]
def Operand.Legible (t : Target) : Operand → Prop
  | .imm _ => True
  | .reg r | .mem _ r => r ∈ t.names

/-- An instruction of the machine, with such operands. What is called is a symbol that `named` allows;
    nothing is said here about the labels of jumps. -/
@[reducible]
def Instr.Legible (s : Settings) (named : String → Prop) : Instr → Prop
  | .mov a b | .lea a b | .add a b | .sub a b | .imul a b | .xor a b | .or a b | .cmp a b =>
    a.Legible s.target ∧ b.Legible s.target
  | .push a | .pop a | .neg a | .idiv a | .loadWide _ a => a.Legible s.target
  | .widen name => name = s.target.signExtend
  | .call symbol _ => s.IsSymbol named symbol
  | .jump _ | .jumpIf _ _ | .ret => True

/-- A line of assembly that can be read back, once its label can. -/
@[reducible]
def Line.Legible (s : Settings) (named : String → Prop) : Line → Prop
  | .instr i => i.Legible s named
  | .label _ => True
  | .directive name args => (∃ symbol, s.IsSymbol named symbol ∧ name = ".globl" ∧ args = [symbol]) ∨
    (name, args) ∈ [(".text", []), (".section", [".note.GNU-stack", "\"\"", "@progbits"])]
  | .comment text => text = "generated by gmini for " ++ s.target.name
  | .written _ _ => False

namespace Target

variable {t : Target}

theorem legible_sp : t.sp.Legible t := List.mem_cons_self

theorem legible_bp : t.bp.Legible t := List.mem_cons_of_mem _ List.mem_cons_self

theorem mem_names_register (ht : t.registers ≠ []) (n : Nat) : t.registerName n ∈ t.names := by
  have hlt : n % t.registers.length < t.registers.length := Nat.mod_lt _ (List.length_pos_iff.2 ht)
  simp [names, registerName, List.getD_eq_getElem?_getD, List.getElem?_eq_getElem hlt]

theorem mem_names_calleeSaved {r : String} (h : r ∈ t.calleeSaved) : r ∈ t.names := by
  simp [names, h]

end Target

/-! ## Steps without a fault -/

/-- A step of emitting that does not fault, whatever labels were taken before, whose value satisfies
    `P`, and whose lines are legible. -/
def Emit.Gives {α : Type} (s : Settings) (named : String → Prop) (x : Emit α) (P : α → Prop) : Prop :=
  ∀ n, ∃ a, (x n).result = .ok a ∧ P a ∧ ∀ l ∈ (x n).lines, l.Legible s named

/-- A step of emitting that does not fault. -/
abbrev Emit.Total {α : Type} (s : Settings) (named : String → Prop) (x : Emit α) : Prop :=
  x.Gives s named fun _ => True

namespace Emit

variable {α β : Type} {P : α → Prop} {s : Settings} {named : String → Prop}

theorem gives_pure {a : α} (h : P a) : (pure a : Emit α).Gives s named P := fun _ => ⟨a, rfl, h, nofun⟩

theorem Gives.bind {x : Emit β} {f : β → Emit α} {R : β → Prop} (hx : x.Gives s named R)
    (hf : ∀ b, R b → (f b).Gives s named P) : (x >>= f).Gives s named P := by
  intro n
  obtain ⟨b, hb, hR, hlines⟩ := hx n
  obtain ⟨a, ha, hP, hlines'⟩ := hf b hR (x n).labels
  have hrun : (x >>= f) n = ⟨.ok a, (x n).lines ++ (f b (x n).labels).lines,
      (f b (x n).labels).labels⟩ := by
    show Emit.bind x f n = _
    unfold Emit.bind
    generalize x n = first at hb ha
    obtain ⟨result, lines, labels⟩ := first
    cases hb
    rw [← ha]
  rw [hrun]
  exact ⟨a, rfl, hP, fun l hl => (List.mem_append.1 hl).elim (hlines l) (hlines' l)⟩

theorem Gives.total {x : Emit α} (hx : x.Gives s named P) : x.Total s named := fun n =>
  have ⟨a, ha, _, hlines⟩ := hx n
  ⟨a, ha, trivial, hlines⟩

theorem Total.emits {x : Emit Unit} (hx : x.Total s named) (n : Nat) : ∃ ls n', Emits x n () ls n' := by
  obtain ⟨a, ha, -⟩ := hx n
  exact ⟨(x n).lines, (x n).labels, by rw [Emits, ← ha]⟩

theorem Total.bind {x : Emit β} {f : β → Emit α} (hx : x.Total s named)
    (hf : ∀ b, (f b).Gives s named P) :
    (x >>= f).Gives s named P :=
  Gives.bind hx fun b _ => hf b

theorem Gives.ite {b : Prop} [Decidable b] {x y : Emit α} (hx : x.Gives s named P)
    (hy : y.Gives s named P) : (if b then x else y).Gives s named P := by
  split
  · exact hx
  · exact hy

theorem Gives.ensuring {x : Emit α} {y : Emit Unit} (hx : x.Gives s named P) (hy : y.Total s named) :
    (x.ensuring y).Gives s named P := by
  intro n
  obtain ⟨a, ha, hP, hlines⟩ := hx n
  obtain ⟨_, hu, -, hlines'⟩ := hy (x n).labels
  refine ⟨a, by simp [Emit.ensuring, hu, ha, Except.bind], hP, ?_⟩
  exact fun l hl => (List.mem_append.1 hl).elim (hlines l) (hlines' l)

theorem total_lines {ls : List Line} (h : ∀ l ∈ ls, l.Legible s named) : (lines ls).Total s named :=
  fun _ => ⟨(), rfl, trivial, h⟩

theorem total_line {l : Line} (h : l.Legible s named) : (line l).Total s named :=
  total_lines (by simpa using h)

theorem total_instr {i : Instr} (h : i.Legible s named) : (instr i).Total s named := total_line h

theorem total_label (l : Label) : (label l).Total s named := total_line trivial

theorem total_instrs {as : List α} {i : α → Instr} (h : ∀ a ∈ as, (i a).Legible s named) :
    (lines (as.map fun a => .instr (i a))).Total s named :=
  total_lines (by simpa using h)

theorem total_newLabel : newLabel.Total s named := fun n => ⟨.fresh (n + 1), rfl, trivial, nofun⟩

theorem gives_ofExcept {r : Except Fault α} {a : α} (hr : r = .ok a) (h : P a) :
    (ofExcept r).Gives s named P :=
  fun _ => ⟨a, hr, h, nofun⟩

theorem Gives.ite_bind {b : Prop} [Decidable b] {x : Emit Unit} {y : Emit α} (hx : x.Total s named)
    (hy : y.Gives s named P) : (if b then x >>= fun _ => y else y).Gives s named P :=
  Gives.ite (Total.bind hx fun _ => hy) hy

end Emit

open Emit

/-! ## Registers -/

section

variable {α : Type} {P : α → Prop} {s : Settings} {named : String → Prop}
  (hs : s.target.registers ≠ [])


include hs

theorem gives_reg (n : Nat) :
    (s.target.reg n).Gives s named fun o => o.Legible s.target :=
  gives_ofExcept (by rw [Target.register_eq hs n]; rfl) (Target.mem_names_register hs n)

theorem gives_reg_succ (n : Nat) :
    (s.target.reg (n + 1)).Gives s named fun o => o.Legible s.target :=
  gives_reg hs (n + 1)

theorem Emit.Gives.withSpill (free : Nat) (pushed : Int) {step : Int → Emit α}
    (h : ∀ pushed, (step pushed).Gives s named P) :
    (s.target.withSpill (free + 1) pushed step).Gives s named P := by
  refine Total.bind ?_ fun inner => Gives.ensuring (h inner) ?_
  · exact Gives.ite (Gives.bind (gives_reg_succ hs free) fun r hr => Total.bind (total_instr hr)
      fun _ => gives_pure trivial) (gives_pure trivial)
  · exact Gives.ite (Gives.bind (gives_reg_succ hs free) fun r hr => total_instr hr)
      (gives_pure trivial)

end

/-! ## Expressions -/

/-- Code that does not fault in either form. -/
structure Code.Total (s : Settings) (named : String → Prop) (code : Code) : Prop where
  value : ∀ pushed free, (code.value pushed free).Total s named
  branch : ∀ label sense pushed free,
    (code.branch label sense pushed free).Total s named

section

variable {s : Settings} {named : String → Prop}

theorem total_bindingOf {v : Variable} {b : Binding} (hv : v.binding = some b) :
    (bindingOf v).Total s named := by
  rw [bindingOf, hv]
  exact gives_pure trivial

theorem total_combineInto {dst left right : Operand} {instr : Operand → Operand → Instr}
    (hdst : dst.Legible s.target) (hleft : left.Legible s.target)
    (hinstr : (instr right left).Legible s named) :
    (combineInto dst instr left right).Total s named :=
  Total.bind (total_instr hinstr) fun _ => Gives.ite (total_instr ⟨hleft, hdst⟩) (gives_pure trivial)

theorem total_branchLogic (op : LogicOp) {l r : Code} (hl : l.Total s named) (hr : r.Total s named)
    (label : Label) (sense : Bool) (pushed : Int) (free : Nat) :
    (branchLogic op l r label sense pushed free).Total s named := by
  refine Gives.ite ?_ ?_
  · exact Total.bind (hl.branch _ _ _ _) fun _ => hr.branch _ _ _ _
  · refine Total.bind total_newLabel fun skip => Total.bind (hl.branch _ _ _ _) fun _ => ?_
    exact Total.bind (hr.branch _ _ _ _) fun _ => total_label _

variable (hs : s.target.registers ≠ []) {l r : Expr}

include hs

theorem Code.total_ofValue {value : Int → Nat → Emit Unit}
    (h : ∀ pushed free, (value pushed free).Total s named) :
    (Code.ofValue s.target value).Total s named := by
  refine ⟨h, ?_⟩
  intro label sense pushed free
  refine Total.bind (h pushed free) fun _ => Gives.bind (gives_reg hs free) fun r hr => ?_
  exact Total.bind (total_instr ⟨hr, hr⟩) fun _ => total_instr trivial

theorem total_withVariable (b : Binding) (pushed : Int) (free : Nat) {access : Operand → Instr}
    (haccess : ∀ o : Operand, o.Legible s.target → (access o).Legible s named) :
    (withVariable s.target b pushed free access).Total s named := by
  refine Gives.ite (Gives.withSpill hs free pushed fun _ => ?_)
    (total_instr (haccess _ Target.legible_bp))
  refine Gives.bind (gives_ofExcept (Target.register_eq hs (free + 1))
    (Target.mem_names_register hs (free + 1))) fun r hr => ?_
  exact Total.bind (total_instr ⟨Target.legible_bp, hr⟩) fun _ => total_instr (haccess _ hr)

/-- Two operands, once both have a depth. -/
theorem total_operands {lcode rcode : Code} (hl : l.hasDepth = true)
    (hr : r.hasDepth = true) (hlcode : lcode.Total s named) (hrcode : rcode.Total s named)
    (pushed : Int) (free : Nat) {combine : Operand → Operand → Emit Unit}
    (hcombine : ∀ a b : Operand, a.Legible s.target → b.Legible s.target →
      (combine a b).Total s named) :
    (operands s.target l r lcode rcode pushed free combine).Total s named := by
  refine Total.bind (gives_ofExcept (if_pos hl) trivial) fun _ => ?_
  refine Total.bind (gives_ofExcept (if_pos hr) trivial) fun _ => ?_
  refine Gives.withSpill hs free pushed fun pushed => Gives.ite ?_ ?_
  · refine Total.bind (hlcode.value pushed free) fun _ => ?_
    refine Total.bind (hrcode.value pushed (free + 1)) fun _ => ?_
    exact Gives.bind (gives_reg hs free) fun a ha => Gives.bind (gives_reg_succ hs free) fun b hb =>
      hcombine a b ha hb
  · refine Total.bind (hrcode.value pushed free) fun _ => ?_
    refine Total.bind (hlcode.value pushed (free + 1)) fun _ => ?_
    exact Gives.bind (gives_reg_succ hs free) fun a ha => Gives.bind (gives_reg hs free) fun b hb =>
      hcombine a b ha hb

theorem total_divide {left right dst : Operand} (hleft : left.Legible s.target)
    (hright : right.Legible s.target) (hdst : dst.Legible s.target) (remainder : Bool) :
    (divide s.target left right dst remainder).Total s named := by
  refine Gives.bind (gives_reg hs 0) fun low hlow => Gives.bind (gives_reg hs 3) fun high hhigh => ?_
  have hsaved : ∀ o ∈ [low, high].filter (· != dst), o.Legible s.target := by
    intro o ho
    obtain rfl | rfl : o = low ∨ o = high := by simpa using List.mem_of_mem_filter ho
    · exact hlow
    · exact hhigh
  have hresult : (if remainder then high else low).Legible s.target := by
    split
    · exact hhigh
    · exact hlow
  refine Total.bind (total_instrs hsaved) fun _ => Total.bind (total_instr hright) fun _ => ?_
  refine Gives.ite_bind (total_instr ⟨hleft, hlow⟩) (Total.bind (total_instr rfl) fun _ => ?_)
  refine Total.bind (total_instr Target.legible_sp) fun _ => ?_
  refine Total.bind (total_instr ⟨trivial, Target.legible_sp⟩) fun _ => ?_
  exact Gives.ite_bind (total_instr ⟨hresult, hdst⟩) (total_instrs fun o ho => hsaved o (by simpa using ho))

theorem total_callCode {name : String} (hname : named name) {args : List (Bool × Expr)}
    {pass : Int → Emit Unit} (hpass : ∀ pushed, (pass pushed).Total s named)
    (pushed : Int) (free : Nat) :
    (callCode s name args pass pushed free).Total s named := by
  refine Gives.bind (gives_reg hs free) fun dst hdst => ?_
  refine Gives.bind (R := fun saved => ∀ r ∈ saved, r ∈ s.target.names)
    (gives_ofExcept (Target.savedAtCall_eq hs _ free) ?_) fun saved hsaved => ?_
  · intro r hr
    obtain ⟨k, -, rfl⟩ := List.mem_map.1 (List.mem_of_mem_filter hr)
    exact Target.mem_names_register hs k
  refine Total.bind (total_instrs hsaved) fun _ => ?_
  refine Gives.ite_bind (total_instr ⟨trivial, Target.legible_sp⟩) ?_
  refine Total.bind (hpass _) fun _ => Total.bind (total_instr ⟨name, hname, rfl⟩) fun _ => ?_
  refine Gives.ite_bind (total_instr ⟨trivial, Target.legible_sp⟩) ?_
  refine Gives.bind (gives_reg hs 0) fun result hresult => ?_
  exact Gives.ite_bind (total_instr ⟨hresult, hdst⟩) (total_instrs fun r hr => hsaved r (by simpa using hr))

theorem total_passValue {code : Code} (h : code.Total s named) (pushed offset : Int) :
    (passValue s.target code pushed offset).Total s named :=
  Total.bind (h.value pushed 0) fun _ => Gives.bind (gives_reg hs 0) fun _ hr =>
    total_instr ⟨hr, Target.legible_sp⟩

theorem total_passVariable {v : Variable} {b : Binding} (hv : v.binding = some b) (offset : Int) :
    (passVariable s.target v offset).Total s named := by
  refine Gives.bind (gives_reg hs 0) fun r hr => Total.bind (total_bindingOf hv) fun b => ?_
  have hfetch : (if b.byRef then Instr.mov (s.target.slot b) r else .lea (s.target.slot b) r).Legible
      s named := by
    split <;> exact ⟨Target.legible_bp, hr⟩
  exact Total.bind (total_instr hfetch) fun _ => total_instr ⟨hr, Target.legible_sp⟩

theorem total_passTemporary {code : Code} (h : code.Total s named) (pushed offset temp : Int) :
    (passTemporary s.target code pushed offset temp).Total s named := by
  refine Gives.bind (gives_reg hs 0) fun r hr => Total.bind (h.value pushed 0) fun _ => ?_
  refine Total.bind (total_instr ⟨hr, Target.legible_sp⟩) fun _ => ?_
  exact Total.bind (total_instr ⟨Target.legible_sp, hr⟩) fun _ => total_instr ⟨hr, Target.legible_sp⟩

end

/-- An expression that the rules give a type has a depth. -/
theorem Expr.Elab.hasDepth {c : TypingContext} {env : Env} {e e' : Expr} {t : Ty}
    (h : Expr.Elab c env e e' t) : e'.hasDepth = true := by
  cases h with
  | int | bool | var | assign | call => rfl
  | neg h | not h => exact h.hasDepth
  | arith _ hl hr | order _ _ hl hr | equality _ hl hr | logic hl hr =>
    simp [Expr.hasDepth, hl.hasDepth, hr.hasDepth]

section

variable {s : Settings} {named : String → Prop} (hs : s.target.registers ≠ []) {p : Pos}

include hs

theorem total_int {n : Int} : ((Expr.int p n).code s).Total s named := by
  refine Code.total_ofValue hs fun _ free => Gives.bind (gives_reg hs free) fun dst hdst => ?_
  have hload : (s.target.load n dst).Legible s named := by
    unfold Target.load
    split
    · exact hdst
    · exact ⟨trivial, hdst⟩
  exact total_instr hload

theorem total_bool {b : Bool} : ((Expr.bool p b).code s).Total s named := by
  refine ⟨fun _ free => Gives.bind (gives_reg hs free) fun _ hr => total_instr ⟨trivial, hr⟩, ?_⟩
  exact fun _ _ _ _ => Gives.ite (total_instr trivial) (gives_pure trivial)

theorem total_var {v : Variable} {b : Binding} (hv : v.binding = some b) :
    ((Expr.var v).code s).Total s named := by
  refine Code.total_ofValue hs fun pushed free => Gives.bind (gives_reg hs free) fun dst hdst => ?_
  exact Total.bind (total_bindingOf hv) fun b => total_withVariable hs b pushed free fun _ ho => ⟨ho, hdst⟩

theorem total_unary {op : UnaryOp} {e : Expr} (hop : ∀ k, op ≠ .other k)
    (he : (e.code s).Total s named) : ((Expr.unary p op e).code s).Total s named := by
  have hvalue {i : Operand → Instr} (hi : ∀ dst : Operand, dst.Legible s.target → (i dst).Legible s named)
      (pushed : Int) (free : Nat) : (do
        let dst ← s.target.reg free
        (e.code s).value pushed free
        Emit.instr (i dst)).Total s named :=
    Gives.bind (gives_reg hs free) fun dst hdst => Total.bind (he.value pushed free) fun _ =>
      total_instr (hi dst hdst)
  cases op with
  | neg => exact Code.total_ofValue hs (hvalue fun _ h => h)
  | not => exact ⟨hvalue fun _ h => ⟨trivial, h⟩, fun _ _ _ _ => he.branch _ _ _ _⟩
  | other k => exact absurd rfl (hop k)

theorem total_arith {op : ArithOp} (hop : ∀ k, op ≠ .other k)
    (hdl : l.hasDepth = true) (hdr : r.hasDepth = true) (hl : (l.code s).Total s named)
    (hr : (r.code s).Total s named) : ((Expr.arith p op l r).code s).Total s named := by
  refine Code.total_ofValue hs fun pushed free => Gives.bind (gives_reg hs free) fun dst hdst => ?_
  cases op with
  | add | sub | mul =>
    exact total_operands hs hdl hdr hl hr pushed free fun _ _ ha hb =>
      total_combineInto hdst ha ⟨hb, ha⟩
  | div | rem =>
    exact total_operands hs hdl hdr hl hr pushed free fun _ _ ha hb => total_divide hs ha hb hdst _
  | other k => exact absurd rfl (hop k)

theorem total_comp {op : CompOp} (hdl : l.hasDepth = true)
    (hdr : r.hasDepth = true) (hl : (l.code s).Total s named) (hr : (r.code s).Total s named) :
    ((Expr.comp p op l r).code s).Total s named := by
  have hcompare : ∀ pushed free, (operands s.target l r (l.code s) (r.code s) pushed free
      fun l r => Emit.instr (.cmp r l)).Total s named := fun pushed free =>
    total_operands hs hdl hdr hl hr pushed free fun _ _ ha hb => total_instr ⟨hb, ha⟩
  refine ⟨fun pushed free => ?_, fun label sense pushed free => ?_⟩
  · refine Gives.bind (gives_reg hs free) fun dst hdst => Total.bind total_newLabel fun yes => ?_
    refine Total.bind (hcompare pushed free) fun _ => ?_
    refine Total.bind (total_instr ⟨trivial, hdst⟩) fun _ => Total.bind (total_instr trivial) fun _ => ?_
    exact Total.bind (total_instr ⟨trivial, hdst⟩) fun _ => total_label _
  · exact Total.bind (hcompare pushed free) fun _ => total_instr trivial

theorem total_logic {op : LogicOp} (hl : (l.code s).Total s named)
    (hr : (r.code s).Total s named) : ((Expr.logic p op l r).code s).Total s named := by
  refine ⟨fun pushed free => ?_, total_branchLogic op hl hr⟩
  refine Gives.bind (gives_reg hs free) fun dst hdst => Total.bind total_newLabel fun no => ?_
  refine Total.bind total_newLabel fun done => ?_
  refine Total.bind (total_branchLogic op hl hr _ _ _ _) fun _ => ?_
  refine Total.bind (total_instr ⟨trivial, hdst⟩) fun _ => Total.bind (total_instr trivial) fun _ => ?_
  refine Total.bind (total_label _) fun _ => ?_
  exact Total.bind (total_instr ⟨trivial, hdst⟩) fun _ => total_label _

end

/-- Names of declared functions are allowed in calls. -/
def TypingContext.Names (c : TypingContext) (named : String → Prop) : Prop :=
  ∀ name i f, c.declared.find? name = some (i, f) → named name

theorem TypingContext.names_any (c : TypingContext) : c.Names fun _ => True := fun _ _ _ _ => trivial

section

variable {s : Settings} {c : TypingContext} {named : String → Prop} {env : Env}

mutual

/-- The code of an expression that the rules give a type does not fault. -/
theorem Expr.Elab.total_code (hs : s.target.registers ≠ []) (hc : c.Names named) {e e' : Expr} {t : Ty}
    (h : Expr.Elab c env e e' t) : (e'.code s).Total s named := by
  cases h with
  | int => exact total_int hs
  | bool => exact total_bool hs
  | var hb => exact total_var hs rfl
  | assign hb h =>
    refine Code.total_ofValue hs fun pushed free => Gives.bind (gives_reg hs free) fun dst hdst => ?_
    refine Total.bind ((Expr.Elab.total_code hs hc h).value pushed free) fun _ => ?_
    exact Total.bind (total_bindingOf rfl) fun b =>
      total_withVariable hs b pushed free fun _ ho => ⟨hdst, ho⟩
  | call hfind _ hargs =>
    exact Code.total_ofValue hs fun pushed free =>
      total_callCode hs (hc _ _ _ hfind) (Expr.ElabArgs.total_pass hs hc hargs _ 0 0) pushed free
  | neg h | not h => exact total_unary hs nofun (Expr.Elab.total_code hs hc h)
  | arith hop hl hr =>
    exact total_arith hs hop hl.hasDepth hr.hasDepth (Expr.Elab.total_code hs hc hl)
      (Expr.Elab.total_code hs hc hr)
  | order _ _ hl hr | equality _ hl hr =>
    exact total_comp hs hl.hasDepth hr.hasDepth (Expr.Elab.total_code hs hc hl)
      (Expr.Elab.total_code hs hc hr)
  | logic hl hr =>
    exact total_logic hs (Expr.Elab.total_code hs hc hl) (Expr.Elab.total_code hs hc hr)

theorem Expr.ElabArgs.total_pass (hs : s.target.registers ≠ []) (hc : c.Names named) {ps : List Param}
    {args args' : List (Bool × Expr)} (h : Expr.ElabArgs c env ps args args') (size : Int) (i k : Nat)
    (pushed : Int) : (passArgs s size i k args' pushed).Total s named := by
  cases h with
  | nil => exact gives_pure trivial
  | @cons p ps mark e e' args args' he hargs =>
    have hcode := Expr.Elab.total_code hs hc he
    have hrest := fun i k => Expr.ElabArgs.total_pass hs hc hargs size i k pushed
    generalize p.type = t at he
    cases hmark : p.byRef with
    | false => exact Total.bind (total_passValue hs hcode _ _) fun _ => hrest _ _
    | true =>
      cases he with
      | var _ => exact Total.bind (total_passVariable hs rfl _) fun _ => hrest _ _
      | _ => exact Total.bind (total_passTemporary hs hcode _ _ _) fun _ => hrest _ _

end

/-! ## Statements -/

theorem Expr.ElabEffect.total_code (hs : s.target.registers ≠ []) (hc : c.Names named) {e e' : Expr}
    (h : Expr.ElabEffect c env e e') : (e'.code s).Total s named := by
  cases h with
  | value he => exact he.total_code hs hc
  | call hfind hargs =>
    exact Code.total_ofValue hs fun pushed free =>
      total_callCode hs (hc _ _ _ hfind) (hargs.total_pass hs hc _ 0 0) pushed free

theorem Expr.ElabOrAbsent.total_code (hs : s.target.registers ≠ []) (hc : c.Names named)
    {ok : Ty → Prop} {e e' : Expr} (h : Expr.ElabOrAbsent c env ok e e') :
    e'.isAbsent = true ∨ (e'.code s).Total s named := by
  cases h with
  | absent => exact .inl rfl
  | present _ he => exact .inr (he.total_code hs hc)

theorem Local.ElabAll.total_code (hs : s.target.registers ≠ []) (hc : c.Names named) {type : Ty}
    {env' : Env} {fr fr' : Frame} {vars vars' : List Local}
    (h : Local.ElabAll c type env fr vars vars' env' fr') (pushed : Int) :
    (localsCode s pushed vars').Total s named := by
  induction h with
  | nil => exact gives_pure trivial
  | cons hinit _ _ ih =>
    have hslot {r : Operand} (hr : r.Legible s.target) (b : Binding) :=
      Total.bind (total_instr (i := .mov r (s.target.slot b)) ⟨hr, Target.legible_bp⟩) fun _ => ih
    rw [localsCode]
    obtain habs | hcode := hinit.total_code hs hc
    · rw [if_pos habs]
      exact Total.bind (total_bindingOf rfl) (hslot trivial)
    · refine Gives.ite (Total.bind (total_bindingOf rfl) (hslot trivial)) ?_
      refine Total.bind (hcode.value pushed 0) fun _ => Gives.bind (gives_reg hs 0) fun _ hr => ?_
      exact Total.bind (total_bindingOf rfl) (hslot hr)

/-- A loop, whose body may take the labels of the loop. -/
theorem total_loopCode {test step : Expr} {body : Option LoopLabels → Emit (Option LoopLabels)}
    (htest : test.isAbsent = true ∨ (test.code s).Total s named)
    (hstep : step.isAbsent = true ∨ (step.code s).Total s named)
    (hbody : (body (some {})).Total s named) (pushed : Int) :
    (loopCode s test step pushed body).Total s named := by
  have htaken : ∀ l, (labelIfTaken l).Total s named := by
    intro l
    cases l with
    | none => exact gives_pure trivial
    | some l => exact total_label l
  have hrest : ∀ (start testLabel : Label) (taken : Option Label), (do
      Emit.label testLabel
      if test.isAbsent then Emit.instr (.jump start)
      else (test.code s).branch start true pushed 0
      labelIfTaken taken).Total s named := by
    intro start testLabel taken
    refine Total.bind (total_label _) fun _ => ?_
    obtain habs | hcode := htest
    · rw [if_pos habs]
      exact Total.bind (total_instr trivial) fun _ => htaken _
    · exact Gives.ite (Total.bind (total_instr trivial) fun _ => htaken _)
        (Total.bind (hcode.branch _ _ _ _) fun _ => htaken _)
  refine Total.bind total_newLabel fun start => Total.bind total_newLabel fun testLabel => ?_
  refine Total.bind (total_instr trivial) fun _ => Total.bind (total_label _) fun _ => ?_
  refine Total.bind hbody fun labels => Total.bind (htaken _) fun _ => ?_
  obtain habs | hcode := hstep
  · rw [if_neg (by simp [habs])]
    exact hrest _ _ _
  · exact Gives.ite_bind (hcode.value _ _) (hrest _ _ _)

theorem total_labelOrNew (l : Option Label) : (labelOrNew l).Total s named := by
  cases l with
  | none => exact total_newLabel
  | some l => exact gives_pure trivial

theorem Stmt.Elab.ne_absent {f : Function} {inLoop : Bool} {env env' : Env} {fr fr' : Frame}
    {st st' : Stmt} (h : Stmt.Elab c f inLoop env fr st st' env' fr') : st' ≠ .absent := by
  cases h <;> simp

mutual

/-- The code of a statement that follows the rules does not fault, and inside a loop it hands on the
    labels of the loop. -/
theorem Stmt.Elab.total_code (hs : s.target.registers ≠ []) (hc : c.Names named) {f : Function}
    {inLoop : Bool} {env env' : Env} {fr fr' : Frame} {st st' : Stmt}
    (h : Stmt.Elab c f inLoop env fr st st' env' fr') (exit : Label) (pushed : Int)
    (loop : Option LoopLabels) (hloop : inLoop = true → loop.isSome = true) :
    (st'.code s exit pushed loop).Gives s named fun loop' =>
      loop'.isSome = loop.isSome := by
  cases h with
  | block hall => exact Stmt.ElabAll.total_code hs hc hall exit pushed loop hloop
  | empty => exact gives_pure rfl
  | expr he => exact Total.bind ((he.total_code hs hc).value pushed 0) fun _ => gives_pure rfl
  | locals _ hvars => exact Total.bind (hvars.total_code hs hc pushed) fun _ => gives_pure rfl
  | cond htest hyes =>
    refine Total.bind total_newLabel fun done => ?_
    refine Total.bind ((htest.total_code hs hc).branch _ _ _ _) fun _ => ?_
    refine Gives.bind (Stmt.Elab.total_code hs hc hyes exit pushed loop hloop) fun loop₁ h₁ => ?_
    exact Total.bind (total_label _) fun _ => gives_pure h₁
  | condElse htest hyes hno =>
    rw [Stmt.code]
    · refine Total.bind total_newLabel fun done => Total.bind total_newLabel fun otherwise => ?_
      refine Total.bind ((htest.total_code hs hc).branch _ _ _ _) fun _ => ?_
      refine Gives.bind (Stmt.Elab.total_code hs hc hyes exit pushed loop hloop) fun loop₁ h₁ => ?_
      refine Total.bind (total_instr trivial) fun _ => Total.bind (total_label _) fun _ => ?_
      have hloop₁ : inLoop = true → loop₁.isSome = true := fun h => h₁.trans (hloop h)
      refine Gives.bind (Stmt.Elab.total_code hs hc hno exit pushed loop₁ hloop₁) fun loop₂ h₂ => ?_
      exact Total.bind (total_label _) fun _ => gives_pure (h₂.trans h₁)
    · exact hno.ne_absent
  | whileLoop htest hbody =>
    refine Total.bind (total_loopCode (.inr (htest.total_code hs hc)) (.inl rfl) ?_ pushed)
      fun _ => gives_pure rfl
    exact (Stmt.Elab.total_code hs hc hbody exit pushed (some {}) fun _ => rfl).total
  | forLoop htest hstep hbody =>
    refine Total.bind (total_loopCode (htest.total_code hs hc) (hstep.total_code hs hc) ?_ pushed)
      fun _ => gives_pure rfl
    exact (Stmt.Elab.total_code hs hc hbody exit pushed (some {}) fun _ => rfl).total
  | forLoopInit hinit htest hstep hbody =>
    rw [Stmt.code]
    · refine Gives.bind (Stmt.Elab.total_code hs hc hinit exit pushed loop hloop) fun loop₁ h₁ => ?_
      refine Total.bind (total_loopCode (htest.total_code hs hc) (hstep.total_code hs hc) ?_ pushed)
        fun _ => gives_pure h₁
      exact (Stmt.Elab.total_code hs hc hbody exit pushed (some {}) fun _ => rfl).total
    · exact hinit.ne_absent
  | breakLoop =>
    obtain ⟨labels, rfl⟩ := Option.isSome_iff_exists.1 (hloop rfl)
    exact Total.bind (total_labelOrNew _) fun _ => Total.bind (total_instr trivial) fun _ =>
      gives_pure rfl
  | continueLoop =>
    obtain ⟨labels, rfl⟩ := Option.isSome_iff_exists.1 (hloop rfl)
    exact Total.bind (total_labelOrNew _) fun _ => Total.bind (total_instr trivial) fun _ =>
      gives_pure rfl
  | ret he =>
    obtain habs | hcode := he.total_code hs hc
    · rw [Stmt.code, if_neg (by simp [habs])]
      exact Total.bind (total_instr trivial) fun _ => gives_pure rfl
    · refine Gives.ite_bind (hcode.value _ _) ?_
      exact Total.bind (total_instr trivial) fun _ => gives_pure rfl

theorem Stmt.ElabAll.total_code (hs : s.target.registers ≠ []) (hc : c.Names named) {f : Function}
    {inLoop : Bool} {env env' : Env} {fr fr' : Frame} {stmts stmts' : List Stmt}
    (h : Stmt.ElabAll c f inLoop env fr stmts stmts' env' fr') (exit : Label) (pushed : Int)
    (loop : Option LoopLabels) (hloop : inLoop = true → loop.isSome = true) :
    (Stmt.codeAll s exit pushed stmts' loop).Gives s named fun loop' =>
      loop'.isSome = loop.isSome := by
  cases h with
  | nil => exact gives_pure rfl
  | cons hst hall =>
    refine Gives.bind (Stmt.Elab.total_code hs hc hst exit pushed loop hloop) fun loop₁ h₁ => ?_
    have hloop₁ : inLoop = true → loop₁.isSome = true := fun h => h₁.trans (hloop h)
    rw [← h₁]
    exact Stmt.ElabAll.total_code hs hc hall exit pushed loop₁ hloop₁

end

/-! ## Programs -/

theorem total_prologue {symbol : String} (hsymbol : s.IsSymbol named symbol) (frameBytes : Int) :
    (Emit.lines (s.target.prologue symbol frameBytes)).Total s named := by
  refine total_lines fun l hl => ?_
  simp only [Target.prologue, List.mem_append, List.mem_cons, List.not_mem_nil, or_false,
    List.mem_map] at hl
  obtain ((rfl | rfl | rfl | rfl) | hsub) | ⟨r, hr, rfl⟩ := hl
  · exact .inl ⟨symbol, hsymbol, rfl, rfl⟩
  · exact trivial
  · exact Target.legible_bp
  · exact ⟨Target.legible_sp, Target.legible_bp⟩
  · split at hsub
    · cases List.mem_singleton.1 hsub
      exact ⟨trivial, Target.legible_sp⟩
    · cases hsub
  · exact Target.mem_names_calleeSaved hr

theorem total_epilogue : (Emit.lines s.target.epilogue).Total s named := by
  refine total_lines fun l hl => ?_
  simp only [Target.epilogue, List.mem_append, List.mem_cons, List.not_mem_nil, or_false,
    List.mem_map, List.mem_reverse] at hl
  obtain ⟨r, hr, rfl⟩ | rfl | rfl | rfl := hl
  · exact Target.mem_names_calleeSaved hr
  · exact ⟨Target.legible_bp, Target.legible_sp⟩
  · exact Target.legible_bp
  · exact trivial

section

variable (hs : s.target.registers ≠ [])

include hs

theorem Function.Elab.total_code (hc : c.Names named) {f f' : Function}
    (h : Function.Elab c f f') (hdef : f'.isPrototype = false) (hname : named f'.name) :
    (f'.code s).Total s named := by
  cases h with
  | prototype hproto => simp [hdef] at hproto
  | definition _ _ _ hall =>
    refine Total.bind total_newLabel fun exit => ?_
    refine Total.bind (total_prologue ⟨_, hname, rfl⟩ _) fun _ => ?_
    refine Total.bind (hall.total_code hs hc exit _ none nofun).total fun _ => ?_
    exact Total.bind (total_label _) fun _ => total_epilogue

theorem Program.total_functionsCode (hc : c.Names named) {fs fs' : List Function}
    (h : List.Forall₂ (Function.Elab c) fs fs') (hnames : ∀ f ∈ fs', named f.name) :
    (Program.functionsCode s fs').Total s named := by
  induction h with
  | nil => exact gives_pure trivial
  | @cons f f' fs fs' hf _ ih =>
    have hrest := ih fun f hf => hnames f (List.mem_cons_of_mem _ hf)
    rw [Program.functionsCode]
    by_cases hproto : f'.isPrototype = true
    · rw [if_neg (by simp [hproto])]
      exact hrest
    · exact Gives.ite_bind
        (hf.total_code hs hc (by simpa using hproto) (hnames f' List.mem_cons_self)) hrest

theorem Program.total_code (hc : c.Names named) {p p' : Program}
    (h : List.Forall₂ (Function.Elab c) p p') (hnames : ∀ f ∈ p', named f.name) :
    (p'.code s).Total s named := by
  refine Total.bind (total_line rfl) fun _ => Total.bind (total_line (.inr (by simp))) fun _ => ?_
  refine Total.bind (Program.total_functionsCode hs hc h hnames) fun _ => ?_
  exact Gives.ite (total_line (.inr (by simp))) (gives_pure trivial)

theorem Program.exists_assembly {p p' : Program}
    (h : List.Forall₂ (Function.Elab c) p p') : ∃ lines, p'.assembly s = .ok lines := by
  obtain ⟨_, hok, _⟩ := Program.total_code hs c.names_any h (fun _ _ => trivial) 0
  exact ⟨_, by rw [Program.assembly, hok]; rfl⟩

end

end

/-! ## Tokens of source files -/

/-- A list of tokens of which the last, and no other, ends a scan. -/
def EndsOnce (tokens : List Token) : Prop :=
  ∃ ts last, tokens = ts ++ [last] ∧ last.kind.isLast = true ∧ ∀ t ∈ ts, t.kind.isLast = false

theorem Cursor.endsOnce_tokens (o : ScanOptions) (c : Cursor) : EndsOnce (c.tokens o) := by
  fun_induction Cursor.tokens with
  | case1 c hlast => exact ⟨[], _, rfl, hlast, by simp⟩
  | case2 c hmore ih =>
    obtain ⟨ts, last, hts, hlast, hall⟩ := ih
    refine ⟨(c.next o).1 :: ts, last, by rw [hts]; rfl, hlast, ?_⟩
    intro t ht
    cases ht with
    | head => simpa using hmore
    | tail _ htail => exact hall t htail

theorem Settings.endsOnce_gather {s : Settings} {read : String → Except FileError Content}
    {paths : List String} {i : Nat} {files : List SourceFile} {tokens : List Token}
    (h : s.gather read i paths = .ok (files, tokens)) : EndsOnce tokens := by
  refine Settings.gather_rule (fun _ => ⟨[], _, rfl, rfl, by simp⟩)
    (fun o text => Cursor.endsOnce_tokens o ⟨text, {}⟩) (fun o text more hmore => ?_) h
  obtain ⟨ts, last, hts, -, hall⟩ := Cursor.endsOnce_tokens o ⟨text, {}⟩
  obtain ⟨us, last', rfl, hlast', hall'⟩ := hmore
  refine ⟨ts ++ us, last', ?_, hlast', ?_⟩
  · rw [scan, hts, List.dropLast_concat, List.append_assoc]
  · intro t ht
    obtain ht | ht := List.mem_append.1 ht
    · exact hall t ht
    · exact hall' t ht

/-- What is read from source files has no gaps. -/
theorem Program.whole_of_parse {allows : Feature → Bool} {tokens : List Token}
    (htokens : EndsOnce tokens) {p : Program} (h : Program.parse allows tokens = .ok p) :
    ∀ f ∈ p, f.Whole := by
  obtain ⟨ts, last, rfl, hlast, hts⟩ := htokens
  exact (Program.spelled_of_parse hlast hts h).2.whole

/-! ## Compilation -/

/-- Source files that are read as a program in which no error is found are lowered to assembly:
    neither checking nor lowering faults. -/
theorem Compilation.run_eq_lowered {s : Settings} (hs : s.target ∈ Target.supported)
    {allows : Feature → Bool} {read : String → Except FileError Content} {paths : List String}
    {files : List SourceFile} {tokens : List Token}
    (hgather : s.gather read 0 paths = .ok (files, tokens)) {p : Program}
    (hparse : Program.parse allows tokens = .ok p) (haccepted : (p.check s).accepted = true) :
    ∃ lines, Compilation.run s allows tokens = .lowered p (p.check s).reports (.ok lines) := by
  have hwhole := Program.whole_of_parse (Settings.endsOnce_gather hgather) hparse
  have ⟨hfault, hrules⟩ := Program.check_elaborates (s := s) hwhole
  obtain ⟨lines, hlines⟩ :=
    Program.exists_assembly (Target.registers_ne_nil hs) (hrules haccepted)
  exact ⟨lines, by simp [Compilation.run, hparse, hfault, haccepted, hlines]⟩

/-- A function with a loop, a jump out of it and an argument that is passed by reference. -/
def loopSource : Content := Text.encodeUtf8 "void f(int &n) \x7b while (true) \x7b f(n); break; \x7d \x7d"

theorem Compilation.run_eq_lowered_loopSource :
    ∃ files tokens p lines,
      Settings.gather {} (fun _ => .ok loopSource) 0 ["f"] = .ok (files, tokens) ∧
      Compilation.run {} (fun _ => true) tokens = .lowered p (p.check {}).reports (.ok lines) := by
  -- Scanning, reading and checking are evaluated; lowering is not.
  obtain ⟨⟨files, tokens⟩, hgather, heval⟩ := exists_of_any
    (x := Settings.gather {} (fun _ => .ok loopSource) 0 ["f"])
    (b := fun r => (Program.parse (fun _ => true) r.2).toOption.any fun p => (p.check {}).accepted)
    (by decide +kernel)
  obtain ⟨p, hparse, haccepted⟩ := exists_of_any heval
  obtain ⟨lines, hrun⟩ := Compilation.run_eq_lowered (by decide) hgather hparse haccepted
  exact ⟨files, tokens, p, lines, hgather, hrun⟩

end MiniCompiler
