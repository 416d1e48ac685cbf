import Mathlib.Data.List.Forall2
import Mathlib.Data.List.Nodup
import MiniCompiler.Proofs.StackHeight

/-!
# Labels are written once

No label is written twice. `Emit.Owns` keeps the account of a step: the labels that it writes and
those that it hands on are among the ones that it was handed and the ones that it took. The code of an
expression hands none on and has a stricter account, `Emit.Tidy`: it writes each of these labels, and it
jumps to no others but the one that it is handed to branch to.
-/

namespace MiniCompiler

variable {own' : List Label} {s : Settings} {α : Type}

/-! ## Labels and jumps of lines -/

/-- The label that a line writes. -/
def Line.label? : Line → Option Label
  | .label l => some l
  | _ => none

/-- The labels that lines write. -/
def writtenLabels (ls : List Line) : List Label := ls.filterMap Line.label?

@[simp]
theorem writtenLabels_append (ls ms : List Line) :
    writtenLabels (ls ++ ms) = writtenLabels ls ++ writtenLabels ms := List.filterMap_append ..

theorem writtenLabels_cons (l : Line) (ls : List Line) :
    writtenLabels (l :: ls) = l.label?.toList ++ writtenLabels ls := by
  simp only [writtenLabels, List.filterMap_cons]
  cases l.label? <;> rfl

theorem writtenLabels_instrs (as : List α) (i : α → Instr) :
    writtenLabels (as.map fun a => .instr (i a)) = [] := by
  induction as with
  | nil => rfl
  | cons a as ih => rw [List.map_cons, writtenLabels_cons, ih]; rfl

/-- How often a label is taken between the counts `n` and `n'`. -/
def takenCount (n n' : Nat) : Label → Nat
  | .fresh m => if n < m ∧ m ≤ n' then 1 else 0
  | .symbol _ => 0

theorem takenCount_self (n : Nat) (l : Label) : takenCount n n l = 0 := by
  cases l with
  | fresh m => simp only [takenCount]; split <;> omega
  | symbol => rfl

theorem takenCount_le_one (n n' : Nat) (l : Label) : takenCount n n' l ≤ 1 := by
  cases l with
  | fresh m => simp only [takenCount]; split <;> omega
  | symbol => exact Nat.zero_le 1

theorem takenCount_add {n₁ n₂ n₃ : Nat} (h₁ : n₁ ≤ n₂) (h₂ : n₂ ≤ n₃) (l : Label) :
    takenCount n₁ n₂ l + takenCount n₂ n₃ l = takenCount n₁ n₃ l := by
  cases l with
  | fresh m => simp only [takenCount]; split <;> split <;> split <;> omega
  | symbol => rfl

theorem takenCount_succ (n : Nat) (l : Label) :
    takenCount n (n + 1) l = [Label.fresh (n + 1)].count l := by
  cases l with
  | fresh m =>
    simp only [takenCount, List.count_singleton, beq_iff_eq, Label.fresh.injEq]
    split <;> split <;> omega
  | symbol => simp [takenCount]

/-- Lines that jump to labels among them and to those of `out`. -/
def JumpsWithin (out : List Label) (ls : List Line) : Prop :=
  ∀ l ∈ ls, ∀ target ∈ l.jump?, target ∈ writtenLabels ls ∨ target ∈ out

namespace JumpsWithin

variable {out out' : List Label} {ls ms : List Line}

theorem nil : JumpsWithin out [] := nofun

theorem append (hls : JumpsWithin out ls) (hms : JumpsWithin out ms) :
    JumpsWithin out (ls ++ ms) := by
  intro l hl target htarget
  rw [writtenLabels_append, List.mem_append]
  obtain hl | hl := List.mem_append.1 hl
  · exact (hls l hl target htarget).imp_left .inl
  · exact (hms l hl target htarget).imp_left .inr

theorem flatMap {f : α → List Line} {as : List α} (h : ∀ a ∈ as, JumpsWithin out (f a)) :
    JumpsWithin out (as.flatMap f) := by
  induction as with
  | nil => exact nil
  | cons a as ih =>
    rw [List.flatMap_cons]
    exact (h a List.mem_cons_self).append (ih fun b hb => h b (List.mem_cons_of_mem _ hb))

theorem mono (hls : JumpsWithin out ls)
    (h : ∀ target ∈ out, target ∈ writtenLabels ls ∨ target ∈ out') : JumpsWithin out' ls := by
  intro l hl target htarget
  obtain hwritten | hout := hls l hl target htarget
  · exact .inl hwritten
  · exact h target hout

theorem still (h : ∀ l ∈ ls, l.jump? = none) : JumpsWithin out ls := by
  intro l hl target htarget
  rw [h l hl] at htarget
  cases htarget

theorem jump {l : Line} {target : Label} (hl : l.jump? = some target) (h : target ∈ out) :
    JumpsWithin out [l] := by
  intro l' hl' target' htarget
  cases List.mem_singleton.1 hl'
  cases hl.symm.trans htarget
  exact .inr h

theorem instrs (as : List α) {i : α → Instr} (h : ∀ a, (Line.instr (i a)).jump? = none) :
    JumpsWithin out (as.map fun a => .instr (i a)) := by
  refine still fun l hl => ?_
  obtain ⟨a, -, rfl⟩ := List.mem_map.1 hl
  exact h a

end JumpsWithin

/-! ## Accounts -/

/-- A step that is handed the labels `own` writes each of them once at most or hands it on, and the
    same with the labels that it takes. -/
def Emit.Owns {α : Type} (x : Emit α) (own : List Label) (held : α → List Label) : Prop :=
  ∀ n a ls n', Emits x n a ls n' → n ≤ n' ∧ ∀ l,
    (writtenLabels ls).count l + (held a).count l ≤ own.count l + takenCount n n' l

/-- A step that is handed no labels and hands none on. -/
abbrev Emit.Closed {α : Type} (x : Emit α) : Prop := x.Owns [] fun _ => []

namespace Emit

variable {α β : Type} {own : List Label} {held : α → List Label} {f : β → Emit α} {x : Emit α}
  {l : Label} {b : Prop}

theorem owns_pure {a : α} : (pure a : Emit α).Owns (held a) held := by
  intro n b ls n' h
  obtain ⟨rfl, rfl, rfl⟩ := emits_pure.1 h
  exact ⟨Nat.le_refl _, fun l => by simp [writtenLabels, takenCount_self]⟩

/-- The labels `rest` are left for the second step. -/
theorem Owns.bind {x : Emit β} {own' rest : List Label} {held' : β → List Label}
    (hx : x.Owns own' held') (hf : ∀ b, (f b).Owns (held' b ++ rest) held) :
    (x >>= f).Owns (own' ++ rest) held := by
  intro n a ls n' h
  obtain ⟨b, l₁, n₁, l₂, h₁, h₂, rfl⟩ := emits_bind.1 h
  obtain ⟨hle₁, hcount₁⟩ := hx n b l₁ n₁ h₁
  obtain ⟨hle₂, hcount₂⟩ := hf b n₁ a l₂ n' h₂
  refine ⟨Nat.le_trans hle₁ hle₂, ?_⟩
  intro l
  have hl₁ := hcount₁ l
  have hl₂ := hcount₂ l
  have htaken := takenCount_add hle₁ hle₂ l
  simp only [writtenLabels_append, List.count_append] at hl₂ ⊢
  omega

theorem Owns.spend {x : Emit β} {own' rest : List Label}
    (hx : x.Owns own' fun _ => []) (hf : ∀ b, (f b).Owns rest held) :
    (x >>= f).Owns (own' ++ rest) held :=
  Owns.bind hx hf

theorem Owns.then {x : Emit β} {held' : β → List Label}
    (hx : x.Owns own' held') (hf : ∀ b, (f b).Owns (held' b) held) : (x >>= f).Owns own' held := by
  have hrest : ∀ b, (f b).Owns (held' b ++ []) held := by
    intro b
    rw [List.append_nil]
    exact hf b
  have hboth := Owns.bind hx hrest
  rwa [List.append_nil] at hboth

theorem Closed.bind {x : Emit β} (hx : x.Closed) (hf : ∀ b, (f b).Owns own held) :
    (x >>= f).Owns own held :=
  Owns.spend hx hf

theorem Owns.subperm (hx : x.Owns own held)
    (h : ∀ l, own.count l ≤ own'.count l) : x.Owns own' held := by
  intro n a ls n' hrun
  have ⟨hle, hcount⟩ := hx n a ls n' hrun
  refine ⟨hle, fun l => ?_⟩
  have hl := hcount l
  have hmore := h l
  omega

theorem Owns.perm (hx : x.Owns own held) (h : own.Perm own') :
    x.Owns own' held :=
  hx.subperm fun l => Nat.le_of_eq (h.count_eq l)

theorem Owns.newLabel_bind {f : Label → Emit α} (hf : ∀ l, (f l).Owns (l :: own) held) :
    (newLabel >>= f).Owns own held := by
  have hnew : newLabel.Owns [] fun l => [l] := by
    intro n l ls n' h
    obtain ⟨rfl, rfl, rfl⟩ := emits_newLabel.1 h
    refine ⟨by omega, fun l => ?_⟩
    rw [takenCount_succ]
    simp [writtenLabels]
  exact Owns.bind hnew hf

theorem owns_lines (ls : List Line) : (lines ls).Owns (writtenLabels ls) fun _ => [] := by
  intro n a ls' n' h
  obtain ⟨rfl, rfl⟩ := emits_lines.1 h
  exact ⟨Nat.le_refl _, fun l => by simp [takenCount_self]⟩

theorem closed_instr (i : Instr) : (instr i).Closed := owns_lines [.instr i]

theorem owns_label (l : Label) : (label l).Owns [l] fun _ => [] := owns_lines [.label l]

theorem Owns.label_bind {f : Unit → Emit α} (hf : (f ()).Owns own held) :
    (label l >>= f).Owns (l :: own) held :=
  Owns.spend (owns_label l) fun _ => hf

theorem owns_fail (f : Fault) : (fail f : Emit α).Owns own held :=
  fun _ _ _ _ h => absurd h not_emits_fail

theorem Owns.ite [Decidable b] {x y : Emit α} (hx : x.Owns own held)
    (hy : y.Owns own held) : (if b then x else y).Owns own held := by
  split
  · exact hx
  · exact hy

theorem Owns.ite_bind [Decidable b] {x : Emit Unit} {y : Emit α} (hx : x.Closed)
    (hy : y.Owns own held) : (if b then x >>= fun _ => y else y).Owns own held :=
  Owns.ite (Closed.bind hx fun _ => hy) hy

/-- A step that is handed no labels writes each of its own once at most. -/
theorem Closed.nodup (hx : x.Closed) {n n' : Nat} {a : α} {ls : List Line}
    (h : Emits x n a ls n') : (writtenLabels ls).Nodup := by
  rw [List.nodup_iff_count_le_one]
  intro l
  have hcount := (hx n a ls n' h).2 l
  have htaken := takenCount_le_one n n' l
  simp only [List.count_nil] at hcount
  omega

end Emit

/-- A step that writes the labels `own`, which it is handed, and those that it takes, each once. It jumps
    to the labels that it writes and to those of `out`. -/
def Emit.Tidy {α : Type} (out own : List Label) (x : Emit α) : Prop :=
  ∀ n a ls n', Emits x n a ls n' → n ≤ n' ∧ JumpsWithin out ls ∧
    ∀ l, (writtenLabels ls).count l = own.count l + takenCount n n' l

namespace Emit

variable {α β : Type} {out own : List Label}

theorem tidy_pure {a : α} : Tidy out [] (pure a) := by
  intro n b ls n' h
  obtain ⟨-, rfl, rfl⟩ := emits_pure.1 h
  exact ⟨Nat.le_refl _, .nil, fun l => by simp [writtenLabels, takenCount_self]⟩

theorem tidy_fail (f : Fault) : Tidy out own (fail f : Emit α) :=
  fun _ _ _ _ h => absurd h not_emits_fail

theorem tidy_ofExcept (r : Except Fault α) : Tidy out [] (ofExcept r) := by
  intro n a ls n' h
  obtain ⟨-, rfl, rfl⟩ := emits_ofExcept.1 h
  exact ⟨Nat.le_refl _, .nil, fun l => by simp [writtenLabels, takenCount_self]⟩

/-- Each of two steps writes its part of the labels. -/
theorem Tidy.append {x : Emit β} (hx : Tidy out own' x)
    (hf : ∀ b, Tidy out own (f b)) : Tidy out (own' ++ own) (x >>= f) := by
  intro n a ls n' h
  obtain ⟨b, l₁, n₁, l₂, h₁, h₂, rfl⟩ := emits_bind.1 h
  obtain ⟨hle₁, hjumps₁, hcount₁⟩ := hx n b l₁ n₁ h₁
  obtain ⟨hle₂, hjumps₂, hcount₂⟩ := hf b n₁ a l₂ n' h₂
  refine ⟨Nat.le_trans hle₁ hle₂, hjumps₁.append hjumps₂, fun l => ?_⟩
  have htaken := takenCount_add hle₁ hle₂ l
  rw [writtenLabels_append, List.count_append, List.count_append, hcount₁, hcount₂]
  omega

theorem Tidy.bind {x : Emit β} (hx : Tidy out [] x)
    (hf : ∀ b, Tidy out own (f b)) : Tidy out own (x >>= f) :=
  Tidy.append hx hf

theorem Tidy.perm (hx : Tidy out own x) (h : own.Perm own') :
    Tidy out own' x := by
  intro n a ls n' hrun
  obtain ⟨hle, hjumps, hcount⟩ := hx n a ls n' hrun
  exact ⟨hle, hjumps, fun l => by rw [hcount, h.count_eq]⟩

/-- A label that is taken here can be jumped to, but has to be written. -/
theorem Tidy.newLabel_bind {f : Label → Emit α} (hf : ∀ l, Tidy (l :: out) (l :: own) (f l)) :
    Tidy out own (newLabel >>= f) := by
  intro n a ls n' h
  obtain ⟨hle, hjumps, hcount⟩ := hf _ _ a ls n' (emits_newLabel_bind.1 h)
  refine ⟨by omega, hjumps.mono ?_, fun l => ?_⟩
  · intro target htarget
    obtain rfl | htarget := List.mem_cons.1 htarget
    · refine .inl (List.count_pos_iff.1 ?_)
      rw [hcount, List.count_cons_self]
      omega
    · exact .inr htarget
  · have htaken := takenCount_add (Nat.le_add_right n 1) hle l
    rw [takenCount_succ] at htaken
    rw [hcount, ← List.singleton_append, List.count_append]
    omega

theorem tidy_lines (ls : List Line) (h : JumpsWithin out ls) :
    Tidy out (writtenLabels ls) (lines ls) := by
  intro n a ls' n' hrun
  obtain ⟨rfl, rfl⟩ := emits_lines.1 hrun
  exact ⟨Nat.le_refl _, h, fun l => by rw [takenCount_self, Nat.add_zero]⟩

theorem tidy_instr {i : Instr} (h : (Line.instr i).jump? = none) : Tidy out [] (instr i) :=
  tidy_lines [.instr i] (.still (by simpa using h))

theorem tidy_instrs (as : List α) {i : α → Instr} (h : ∀ a, (Line.instr (i a)).jump? = none) :
    Tidy out [] (lines (as.map fun a => .instr (i a))) := by
  have hlines : Tidy out _ _ := tidy_lines _ (JumpsWithin.instrs as h)
  rwa [writtenLabels_instrs] at hlines

theorem tidy_jump (h : l ∈ out) : Tidy out [] (instr (.jump l)) :=
  tidy_lines [.instr (.jump l)] (.jump rfl h)

theorem tidy_jumpIf {c : Cond} (h : l ∈ out) : Tidy out [] (instr (.jumpIf c l)) :=
  tidy_lines [.instr (.jumpIf c l)] (.jump rfl h)

theorem tidy_label (l : Label) : Tidy out [l] (label l) :=
  tidy_lines [.label l] (.still (by simp [Line.jump?]))

theorem Tidy.label_bind {f : Unit → Emit α} (hf : Tidy out own (f ())) :
    Tidy out (l :: own) (label l >>= f) :=
  Tidy.append (tidy_label l) fun _ => hf

theorem Tidy.ite [Decidable b] {x y : Emit α} (hx : Tidy out own x)
    (hy : Tidy out own y) : Tidy out own (if b then x else y) := by
  split
  · exact hx
  · exact hy

theorem Tidy.ite_bind [Decidable b] {x : Emit Unit} {y : Emit α} (hx : Tidy out [] x)
    (hy : Tidy out own y) : Tidy out own (if b then x >>= fun _ => y else y) :=
  Tidy.ite (Tidy.bind hx fun _ => hy) hy

theorem Tidy.ensuring {y : Emit Unit} (hx : Tidy out [] x) (hy : Tidy out [] y) :
    Tidy out [] (x.ensuring y) := by
  intro n a ls n' h
  obtain ⟨l₁, n₁, l₂, h₁, h₂, rfl⟩ := emits_ensuring.1 h
  have hboth : Tidy out [] (x >>= fun a => y >>= fun _ => pure a) :=
    Tidy.bind hx fun _ => Tidy.bind hy fun _ => tidy_pure
  refine hboth n a _ n' (emits_bind.2 ⟨a, l₁, n₁, l₂, h₁, emits_bind.2 ⟨(), l₂, n', [], h₂, ?_⟩, rfl⟩)
  exact ⟨emits_pure.2 ⟨rfl, rfl, rfl⟩, by simp⟩

theorem Tidy.owns (hx : Tidy out own x) : x.Owns own fun _ => [] := by
  intro n a ls n' h
  obtain ⟨hle, -, hcount⟩ := hx n a ls n' h
  exact ⟨hle, fun l => Nat.le_of_eq (hcount l)⟩

end Emit

open Emit

/-! ## Expressions -/

/-- Code that writes the labels it takes, and that jumps out of itself only by its branch. -/
structure Code.Tidy (code : Code) : Prop where
  value : ∀ out pushed free, Emit.Tidy out [] (code.value pushed free)
  branch : ∀ out label sense pushed free, label ∈ out →
    Emit.Tidy out [] (code.branch label sense pushed free)

section

variable {t : Target} {out : List Label}

theorem Target.tidy_reg (n : Int) : Tidy out [] (t.reg n) := tidy_ofExcept _

theorem tidy_bindingOf (v : Variable) : Tidy out [] (bindingOf v) := by
  unfold bindingOf
  split
  · exact tidy_pure
  · exact tidy_fail _

theorem Target.tidy_withSpill {step : Int → Emit α} (r pushed : Int)
    (h : ∀ pushed, Tidy out [] (step pushed)) : Tidy out [] (t.withSpill r pushed step) := by
  refine Tidy.bind ?_ fun inner => Tidy.ensuring (h inner) ?_
  · exact Tidy.ite (Tidy.bind (t.tidy_reg r) fun _ => Tidy.bind (tidy_instr rfl) fun _ =>
      tidy_pure) tidy_pure
  · exact Tidy.ite (Tidy.bind (t.tidy_reg r) fun _ => tidy_instr rfl) tidy_pure

theorem Code.tidy_ofValue {value : Int → Nat → Emit Unit}
    (h : ∀ out pushed free, Emit.Tidy out [] (value pushed free)) :
    (Code.ofValue t value).Tidy := by
  refine ⟨h, ?_⟩
  intro out label sense pushed free hlabel
  refine Tidy.bind (h out pushed free) fun _ => Tidy.bind (t.tidy_reg _) fun _ => ?_
  exact Tidy.bind (tidy_instr rfl) fun _ => tidy_jumpIf hlabel

theorem tidy_withVariable (b : Binding) (pushed : Int) (free : Nat) {access : Operand → Instr}
    (h : ∀ word, (Line.instr (access word)).jump? = none) :
    Tidy out [] (withVariable t b pushed free access) := by
  refine Tidy.ite (t.tidy_withSpill _ _ fun _ => ?_) (tidy_instr (h _))
  refine Tidy.bind (tidy_ofExcept _) fun _ => Tidy.bind (tidy_instr rfl) fun _ => ?_
  exact tidy_instr (h _)

theorem tidy_operands {l r : Expr} {lcode rcode : Code} (hl : lcode.Tidy) (hr : rcode.Tidy)
    (pushed : Int) (free : Nat) {combine : Operand → Operand → Emit Unit}
    (hcombine : ∀ a b, Tidy out [] (combine a b)) :
    Tidy out [] (operands t l r lcode rcode pushed free combine) := by
  refine Tidy.bind (tidy_ofExcept _) fun _ => Tidy.bind (tidy_ofExcept _) fun _ => ?_
  refine t.tidy_withSpill _ _ fun pushed => Tidy.ite ?_ ?_
  · refine Tidy.bind (hl.value _ _ _) fun _ => Tidy.bind (hr.value _ _ _) fun _ => ?_
    exact Tidy.bind (t.tidy_reg _) fun _ => Tidy.bind (t.tidy_reg _) fun _ => hcombine _ _
  · refine Tidy.bind (hr.value _ _ _) fun _ => Tidy.bind (hl.value _ _ _) fun _ => ?_
    exact Tidy.bind (t.tidy_reg _) fun _ => Tidy.bind (t.tidy_reg _) fun _ => hcombine _ _

theorem tidy_divide (left right dst : Operand) (remainder : Bool) :
    Tidy out [] (divide t left right dst remainder) := by
  refine Tidy.bind (t.tidy_reg _) fun low => Tidy.bind (t.tidy_reg _) fun high => ?_
  refine Tidy.bind (tidy_instrs _ fun _ => rfl) fun _ => Tidy.bind (tidy_instr rfl) fun _ => ?_
  refine Tidy.ite_bind (tidy_instr rfl) (Tidy.bind (tidy_instr rfl) fun _ => ?_)
  refine Tidy.bind (tidy_instr rfl) fun _ => Tidy.bind (tidy_instr rfl) fun _ => ?_
  exact Tidy.ite_bind (tidy_instr rfl) (tidy_instrs _ fun _ => rfl)

theorem tidy_combineInto (dst : Operand) {instr : Operand → Operand → Instr}
    (h : ∀ a b, (Line.instr (instr a b)).jump? = none) (left right : Operand) :
    Tidy out [] (combineInto dst instr left right) :=
  Tidy.bind (tidy_instr (h _ _)) fun _ => Tidy.ite (tidy_instr rfl) tidy_pure

theorem tidy_branchLogic (op : LogicOp) {l r : Code} (hl : l.Tidy) (hr : r.Tidy) {label : Label}
    (hlabel : label ∈ out) (sense : Bool) (pushed : Int) (free : Nat) :
    Tidy out [] (branchLogic op l r label sense pushed free) := by
  refine Tidy.ite ?_ (Tidy.newLabel_bind fun skip => ?_)
  · exact Tidy.bind (hl.branch _ _ _ _ _ hlabel) fun _ => hr.branch _ _ _ _ _ hlabel
  · refine Tidy.bind (hl.branch _ _ _ _ _ List.mem_cons_self) fun _ => ?_
    refine Tidy.bind (hr.branch _ _ _ _ _ (List.mem_cons_of_mem _ hlabel)) fun _ => ?_
    exact tidy_label skip

theorem tidy_callCode {name : String} {args : List (Bool × Expr)}
    {pass : Int → Emit Unit} (hpass : ∀ pushed, Tidy out [] (pass pushed)) (pushed : Int)
    (free : Nat) : Tidy out [] (callCode s name args pass pushed free) := by
  refine Tidy.bind (tidy_ofExcept _) fun dst => Tidy.bind (tidy_ofExcept _) fun saved => ?_
  refine Tidy.bind (tidy_instrs _ fun _ => rfl) fun _ => Tidy.ite_bind (tidy_instr rfl) ?_
  refine Tidy.bind (hpass _) fun _ => Tidy.bind (tidy_instr rfl) fun _ => ?_
  refine Tidy.ite_bind (tidy_instr rfl) (Tidy.bind (tidy_ofExcept _) fun result => ?_)
  exact Tidy.ite_bind (tidy_instr rfl) (tidy_instrs _ fun _ => rfl)

theorem tidy_passValue {code : Code} (h : code.Tidy) (pushed offset : Int) :
    Tidy out [] (passValue t code pushed offset) :=
  Tidy.bind (h.value _ _ _) fun _ => Tidy.bind (t.tidy_reg _) fun _ => tidy_instr rfl

theorem tidy_passVariable (v : Variable) (offset : Int) :
    Tidy out [] (passVariable t v offset) := by
  refine Tidy.bind (t.tidy_reg _) fun r => Tidy.bind (tidy_bindingOf v) fun b => ?_
  exact Tidy.bind (tidy_instr (by split <;> rfl)) fun _ => tidy_instr rfl

theorem tidy_passTemporary {code : Code} (h : code.Tidy) (pushed offset temp : Int) :
    Tidy out [] (passTemporary t code pushed offset temp) := by
  refine Tidy.bind (t.tidy_reg _) fun r => Tidy.bind (h.value _ _ _) fun _ => ?_
  exact Tidy.bind (tidy_instr rfl) fun _ => Tidy.bind (tidy_instr rfl) fun _ => tidy_instr rfl

theorem Target.jump?_load (n : Int) (dst : Operand) :
    (Line.instr (t.load n dst)).jump? = none := by
  unfold load
  split <;> rfl

end

mutual

/-- The code of an expression writes the labels that it takes, and jumps to them and to the one that it
    branches to. -/
theorem Expr.tidy_code (s : Settings) (e : Expr) : (e.code s).Tidy := by
  cases e with
  | absent =>
    exact Code.tidy_ofValue fun _ _ _ => Tidy.bind (tidy_ofExcept _) fun _ => tidy_fail _
  | int =>
    exact Code.tidy_ofValue fun _ _ _ => Tidy.bind (tidy_ofExcept _) fun _ =>
      tidy_instr (Target.jump?_load ..)
  | bool =>
    refine ⟨fun _ _ _ => Tidy.bind (tidy_ofExcept _) fun _ => tidy_instr rfl,
      fun _ _ _ _ _ hlabel => ?_⟩
    exact Tidy.ite (tidy_jump hlabel) tidy_pure
  | var v =>
    refine Code.tidy_ofValue fun _ _ _ => Tidy.bind (tidy_ofExcept _) fun _ => ?_
    exact Tidy.bind (tidy_bindingOf v) fun _ => tidy_withVariable _ _ _ fun _ => rfl
  | assign _ v e =>
    refine Code.tidy_ofValue fun _ _ _ => Tidy.bind (tidy_ofExcept _) fun _ => ?_
    refine Tidy.bind ((e.tidy_code s).value _ _ _) fun _ => ?_
    exact Tidy.bind (tidy_bindingOf v) fun _ => tidy_withVariable _ _ _ fun _ => rfl
  | call _ name args =>
    exact Code.tidy_ofValue fun _ _ _ => tidy_callCode (tidy_passArgs s _ 0 0 args) _ _
  | unary _ op e =>
    have he := e.tidy_code s
    cases op with
    | neg =>
      refine Code.tidy_ofValue fun _ _ _ => Tidy.bind (tidy_ofExcept _) fun _ => ?_
      exact Tidy.bind (he.value _ _ _) fun _ => tidy_instr rfl
    | not =>
      refine ⟨fun _ _ _ => Tidy.bind (tidy_ofExcept _) fun _ => ?_,
        fun _ _ _ _ _ hlabel => he.branch _ _ _ _ _ hlabel⟩
      exact Tidy.bind (he.value _ _ _) fun _ => tidy_instr rfl
    | other =>
      refine Code.tidy_ofValue fun _ _ _ => Tidy.bind (tidy_ofExcept _) fun _ => ?_
      exact Tidy.bind (he.value _ _ _) fun _ => tidy_fail _
  | arith _ op l r =>
    have hl := l.tidy_code s
    have hr := r.tidy_code s
    refine Code.tidy_ofValue fun _ _ _ => Tidy.bind (tidy_ofExcept _) fun dst => ?_
    cases op with
    | add | sub | mul => exact tidy_operands hl hr _ _ (tidy_combineInto dst fun _ _ => rfl)
    | div | rem => exact tidy_operands hl hr _ _ fun _ _ => tidy_divide _ _ dst _
    | other => exact tidy_fail _
  | comp _ op l r =>
    have hcompare : ∀ out pushed free, Tidy out [] (operands s.target l r (l.code s) (r.code s)
        pushed free fun l r => Emit.instr (.cmp r l)) := fun out pushed free =>
      tidy_operands (l.tidy_code s) (r.tidy_code s) _ _ fun _ _ => tidy_instr rfl
    refine ⟨fun _ _ _ => Tidy.bind (tidy_ofExcept _) fun dst => ?_, fun _ _ _ _ _ hlabel => ?_⟩
    · refine Tidy.newLabel_bind fun yes => Tidy.bind (hcompare _ _ _) fun _ => ?_
      refine Tidy.bind (tidy_instr rfl) fun _ => Tidy.bind (tidy_jumpIf List.mem_cons_self) fun _ => ?_
      exact Tidy.bind (tidy_instr rfl) fun _ => tidy_label yes
    · exact Tidy.bind (hcompare _ _ _) fun _ => tidy_jumpIf hlabel
  | logic _ op l r =>
    have hl := l.tidy_code s
    have hr := r.tidy_code s
    refine ⟨fun _ _ _ => Tidy.bind (tidy_ofExcept _) fun dst => ?_,
      fun _ _ _ _ _ hlabel => tidy_branchLogic op hl hr hlabel _ _ _⟩
    refine Tidy.newLabel_bind fun no => Tidy.newLabel_bind fun done => ?_
    refine Tidy.bind (tidy_branchLogic op hl hr (by simp) _ _ _) fun _ => ?_
    refine Tidy.bind (tidy_instr rfl) fun _ => Tidy.bind (tidy_jump (by simp)) fun _ => ?_
    refine Tidy.perm ?_ (.swap ..)
    exact Tidy.label_bind (Tidy.bind (tidy_instr rfl) fun _ => tidy_label done)

theorem tidy_passArgs (s : Settings) (size : Int) (i k : Nat) (args : List (Bool × Expr))
    {out : List Label} (pushed : Int) : Tidy out [] (passArgs s size i k args pushed) := by
  cases args with
  | nil => exact tidy_pure
  | cons a args =>
    obtain ⟨mark, e⟩ := a
    have hcode := e.tidy_code s
    have hrest (i k : Nat) : Tidy out [] (passArgs s size i k args pushed) :=
      tidy_passArgs s size i k args pushed
    cases mark with
    | false => exact Tidy.bind (tidy_passValue hcode _ _) fun _ => hrest _ _
    | true =>
      cases e with
      | var v => exact Tidy.bind (tidy_passVariable v _) fun _ => hrest _ _
      | _ => exact Tidy.bind (tidy_passTemporary hcode _ _ _) fun _ => hrest _ _

end

theorem tidy_localsCode (s : Settings) (out : List Label) (pushed : Int) (vars : List Local) :
    Tidy out [] (localsCode s pushed vars) := by
  induction vars with
  | nil => exact tidy_pure
  | cons v vars ih =>
    refine Tidy.ite ?_ ?_
    · exact Tidy.bind (tidy_bindingOf _) fun _ => Tidy.bind (tidy_instr rfl) fun _ => ih
    · refine Tidy.bind ((v.init.tidy_code s).value _ _ _) fun _ => ?_
      refine Tidy.bind (tidy_ofExcept _) fun _ => Tidy.bind (tidy_bindingOf _) fun _ => ?_
      exact Tidy.bind (tidy_instr rfl) fun _ => ih

/-- Code that writes the labels it takes at most once, in either form. -/
structure Code.Closed (code : Code) : Prop where
  value : ∀ pushed free, (code.value pushed free).Closed
  branch : ∀ label sense pushed free, (code.branch label sense pushed free).Closed

theorem Expr.closed_code (s : Settings) (e : Expr) : (e.code s).Closed where
  value := fun _ _ => ((e.tidy_code s).value [] _ _).owns
  branch := fun label _ _ _ => ((e.tidy_code s).branch [label] _ _ _ _ List.mem_cons_self).owns

/-! ## Statements -/

/-- The labels that a loop has taken and that it will write behind its body. -/
def LoopLabels.held : Option LoopLabels → List Label
  | none => []
  | some labels => labels.continueLabel.toList ++ labels.breakLabel.toList

theorem owns_labelOrNew (l : Option Label) : (labelOrNew l).Owns l.toList fun l => [l] := by
  cases l with
  | none => exact Owns.newLabel_bind (f := pure) fun _ => owns_pure
  | some l => exact owns_pure

theorem owns_labelIfTaken (l : Option Label) : (labelIfTaken l).Owns l.toList fun _ => [] := by
  cases l with
  | none => exact owns_pure
  | some l => exact owns_label l

theorem LoopLabels.owns_jumpContinue (loop : Option LoopLabels) :
    (LoopLabels.jumpContinue loop).Owns (held loop) held := by
  cases loop with
  | none => exact owns_fail _
  | some labels =>
    refine Owns.bind (owns_labelOrNew _) fun l => Closed.bind (closed_instr _) fun _ => ?_
    exact owns_pure

theorem LoopLabels.owns_jumpBreak (loop : Option LoopLabels) :
    (LoopLabels.jumpBreak loop).Owns (held loop) held := by
  cases loop with
  | none => exact owns_fail _
  | some labels =>
    refine Owns.perm ?_ List.perm_append_comm
    refine Owns.bind (owns_labelOrNew _) fun l => Closed.bind (closed_instr _) fun _ => ?_
    exact Owns.perm owns_pure List.perm_append_comm

theorem LoopLabels.held_eq (loop : Option LoopLabels) :
    held loop = (loop.getD {}).continueLabel.toList ++ (loop.getD {}).breakLabel.toList := by
  cases loop <;> rfl

theorem closed_loopCode {test step : Expr} {pushed : Int}
    {body : Option LoopLabels → Emit (Option LoopLabels)}
    (hbody : (body (some {})).Owns [] LoopLabels.held) :
    (loopCode s test step pushed body).Closed := by
  refine Owns.newLabel_bind fun start => Owns.newLabel_bind fun testLabel => ?_
  refine Closed.bind (closed_instr _) fun _ => Owns.perm ?_ (.swap ..)
  refine Owns.label_bind (Owns.bind hbody fun loop => ?_)
  rw [LoopLabels.held_eq, List.append_assoc]
  refine Owns.spend (owns_labelIfTaken _) fun _ => ?_
  refine Owns.ite_bind ((step.closed_code s).value _ _) (Owns.perm ?_ List.perm_append_comm)
  refine Owns.label_bind ?_
  refine Owns.ite ?_ ?_
  · exact Closed.bind (closed_instr _) fun _ => owns_labelIfTaken _
  · exact Closed.bind ((test.closed_code s).branch _ _ _ _) fun _ => owns_labelIfTaken _

mutual

/-- The code of a statement writes the labels that it takes, but for those of the loop around it. -/
theorem Stmt.owns_code (s : Settings) (exit : Label) (pushed : Int) (st : Stmt)
    (loop : Option LoopLabels) :
    (st.code s exit pushed loop).Owns (LoopLabels.held loop) LoopLabels.held := by
  cases st with
  | absent => exact owns_fail _
  | block _ stmts => exact Stmt.owns_codeAll s exit pushed stmts loop
  | empty => exact owns_pure
  | expr _ e => exact Closed.bind ((e.closed_code s).value _ _) fun _ => owns_pure
  | locals _ _ vars => exact Closed.bind (tidy_localsCode s [] pushed vars).owns fun _ => owns_pure
  | cond p test yes no =>
    have htest := test.closed_code s
    have hyes := yes.owns_code s exit pushed loop
    have hno := fun loop => no.owns_code s exit pushed loop
    by_cases habs : no = .absent
    · subst habs
      refine Owns.newLabel_bind fun done => Closed.bind (htest.branch _ _ _ _) fun _ => ?_
      refine Owns.perm ?_ (List.perm_append_singleton ..)
      refine Owns.bind hyes fun loop₁ => Owns.perm ?_ (List.perm_append_singleton ..).symm
      exact Owns.label_bind owns_pure
    · rw [Stmt.code]
      · refine Owns.newLabel_bind fun done => Owns.newLabel_bind fun otherwise => ?_
        refine Closed.bind (htest.branch _ _ _ _) fun _ => ?_
        have hswap (loop : Option LoopLabels) : (LoopLabels.held loop ++ [otherwise, done]).Perm
            (otherwise :: done :: LoopLabels.held loop) := List.perm_append_comm
        refine Owns.perm ?_ (hswap loop)
        refine Owns.bind hyes fun loop₁ => Closed.bind (closed_instr _) fun _ => ?_
        refine Owns.perm ?_ (hswap loop₁).symm
        refine Owns.label_bind (Owns.perm ?_ (List.perm_append_singleton ..))
        refine Owns.bind (hno loop₁) fun loop₂ => Owns.perm ?_ (List.perm_append_singleton ..).symm
        exact Owns.label_bind owns_pure
      · exact habs
  | whileLoop _ test body =>
    refine Closed.bind (closed_loopCode ?_) fun _ => owns_pure
    exact body.owns_code s exit pushed (some {})
  | forLoop _ init test step body =>
    have hloop : (loopCode s test step pushed (body.code s exit pushed)).Closed :=
      closed_loopCode (body.owns_code s exit pushed (some {}))
    have hinit := init.owns_code s exit pushed loop
    by_cases habs : init = .absent
    · subst habs
      exact Closed.bind hloop fun _ => owns_pure
    · rw [Stmt.code]
      · exact Owns.then hinit fun loop₁ => Closed.bind hloop fun _ => owns_pure
      · exact habs
  | breakLoop => exact LoopLabels.owns_jumpBreak loop
  | continueLoop => exact LoopLabels.owns_jumpContinue loop
  | ret _ e =>
    exact Owns.ite_bind ((e.closed_code s).value _ _) (Closed.bind (closed_instr _) fun _ => owns_pure)

theorem Stmt.owns_codeAll (s : Settings) (exit : Label) (pushed : Int) (stmts : List Stmt)
    (loop : Option LoopLabels) :
    (Stmt.codeAll s exit pushed stmts loop).Owns (LoopLabels.held loop) LoopLabels.held := by
  cases stmts with
  | nil => exact owns_pure
  | cons st stmts =>
    exact Owns.then (st.owns_code s exit pushed loop) fun loop' =>
      Stmt.owns_codeAll s exit pushed stmts loop'

end

/-! ## Programs -/

/-- The functions of a program that have code. -/
def Program.definitions (p : Program) : List Function := p.filter (! ·.isPrototype)

theorem Program.mem_definitions {p : Program} {f : Function} :
    f ∈ p.definitions ↔ f ∈ p ∧ f.isPrototype = false := by
  simp [Program.definitions]

theorem Program.definitions_cons_prototype {f : Function} (hf : f.isPrototype = true)
    (fs : List Function) : Program.definitions (f :: fs) = Program.definitions fs := by
  simp [Program.definitions, hf]

theorem Program.definitions_cons {f : Function} (hf : f.isPrototype = false) (fs : List Function) :
    Program.definitions (f :: fs) = f :: Program.definitions fs := by
  simp [Program.definitions, hf]

def Function.label (s : Settings) (f : Function) : Label := .symbol (s.symbolStart ++ f.name)

theorem Target.writtenLabels_prologue (t : Target) (symbol : String) (frameBytes : Int) :
    writtenLabels (t.prologue symbol frameBytes) = [.symbol symbol] := by
  unfold Target.prologue
  rw [writtenLabels_append, writtenLabels_append, writtenLabels_instrs]
  split <;> rfl

theorem Target.writtenLabels_epilogue (t : Target) : writtenLabels t.epilogue = [] := by
  unfold Target.epilogue
  rw [writtenLabels_append, writtenLabels_instrs]
  rfl

theorem Function.owns_code (s : Settings) (f : Function) :
    (f.code s).Owns [f.label s] fun _ => [] := by
  have hprologue := owns_lines (s.target.prologue (s.symbolStart ++ f.name) f.frameBytes)
  have hepilogue := owns_lines s.target.epilogue
  rw [Target.writtenLabels_prologue] at hprologue
  rw [Target.writtenLabels_epilogue] at hepilogue
  refine Owns.newLabel_bind fun exit => Owns.perm ?_ (.swap ..)
  refine Owns.spend hprologue fun _ => ?_
  split
  · exact owns_fail _
  · rename_i b hb
    refine Owns.bind (Stmt.owns_codeAll s exit _ b.stmts none) fun loop => ?_
    refine Owns.subperm (Owns.label_bind hepilogue) fun l => ?_
    rw [List.count_append]
    exact Nat.le_add_left ..

theorem Program.owns_functionsCode (s : Settings) (fs : List Function) :
    (Program.functionsCode s fs).Owns ((Program.definitions fs).map (Function.label s))
      fun _ => [] := by
  induction fs with
  | nil => exact owns_pure
  | cons f fs ih =>
    rw [Program.functionsCode]
    cases hf : f.isPrototype with
    | true =>
      rw [Program.definitions_cons_prototype hf]
      exact ih
    | false =>
      rw [Program.definitions_cons hf]
      exact Owns.spend (f.owns_code s) fun _ => ih

/-- The lines before the functions of a program. -/
def Settings.header (s : Settings) : List Line :=
  [.comment ("generated by gmini for " ++ s.target.name), .directive ".text" []]

/-- The lines after the functions of a program. -/
def Settings.footer (s : Settings) : List Line :=
  if s.system ≠ "darwin" then [.directive ".section" [".note.GNU-stack", "\"\"", "@progbits"]]
  else []

theorem Program.emits_of_assembly {p : Program} {lines : List Line}
    (h : p.assembly s = .ok lines) : ∃ body n, Emits (Program.functionsCode s p) 0 () body n ∧
      lines = s.header ++ body ++ s.footer := by
  have hcode : ∃ n, Emits (p.code s) 0 () lines n := by
    unfold Program.assembly at h
    unfold Emits
    generalize p.code s 0 = r at h
    obtain ⟨result, ls, n⟩ := r
    cases result with
    | error e => cases h
    | ok =>
      cases h
      exact ⟨n, rfl⟩
  obtain ⟨n, hcode⟩ := hcode
  unfold Program.code at hcode
  obtain ⟨_, l₁, n₁, _, h₁, hrest₁, rfl⟩ := emits_bind.1 hcode
  obtain ⟨_, l₂, n₂, _, h₂, hrest₂, rfl⟩ := emits_bind.1 hrest₁
  obtain ⟨_, body, n₃, l₄, hbody, hend, rfl⟩ := emits_bind.1 hrest₂
  obtain ⟨rfl, rfl⟩ := emits_lines.1 h₁
  obtain ⟨rfl, rfl⟩ := emits_lines.1 h₂
  refine ⟨body, n₃, hbody, ?_⟩
  have hlast : l₄ = s.footer := by
    unfold Settings.footer
    split at hend
    · rw [if_pos ‹_›]
      exact (emits_lines.1 hend).1
    · rw [if_neg ‹_›]
      exact (emits_pure.1 hend).2.1
  rw [hlast]
  simp [Settings.header]

theorem writtenLabels_framed (s : Settings) (body : List Line) :
    writtenLabels (s.header ++ body ++ s.footer) = writtenLabels body := by
  have hheader : writtenLabels s.header = [] := rfl
  have hfooter : writtenLabels s.footer = [] := by
    unfold Settings.footer
    split <;> rfl
  rw [writtenLabels_append, writtenLabels_append, hheader, hfooter, List.nil_append, List.append_nil]

/-- If all functions have different names, all labels of a program are different. -/
theorem Program.nodup_writtenLabels {p : Program} {lines : List Line}
    (h : p.assembly s = .ok lines) (hnames : (p.definitions.map Function.name).Nodup) :
    (writtenLabels lines).Nodup := by
  obtain ⟨body, n, hbody, rfl⟩ := Program.emits_of_assembly h
  have hsymbols : (p.definitions.map (Function.label s)).Nodup := by
    have hmap : p.definitions.map (Function.label s) =
        (p.definitions.map Function.name).map fun name => .symbol (s.symbolStart ++ name) := by
      rw [List.map_map]
      rfl
    rw [hmap]
    refine hnames.map ?_
    intro a b hab
    simpa using hab
  rw [writtenLabels_framed, List.nodup_iff_count_le_one]
  intro l
  have hcount := (Program.owns_functionsCode s p 0 () body n hbody).2 l
  have hone := List.nodup_iff_count_le_one.1 hsymbols l
  cases l with
  | symbol name =>
    simp only [takenCount] at hcount
    omega
  | fresh m =>
    have hnone : (p.definitions.map (Function.label s)).count (.fresh m) = 0 := by
      rw [List.count_eq_zero]
      simp [Function.label]
    have htaken := takenCount_le_one 0 n (.fresh m)
    omega

/-- Each function of a program has its own part of the text. -/
theorem Program.emits_functionsCode {fs : List Function} : ∀ {n n' : Nat} {u : Unit}
    {ls : List Line}, Emits (Program.functionsCode s fs) n u ls n' → ∃ blocks : List (List Line),
      ls = blocks.flatten ∧ List.Forall₂ (fun f block => ∃ m m', Emits (f.code s) m () block m')
        (Program.definitions fs) blocks := by
  induction fs with
  | nil =>
    intro n n' u ls h
    obtain ⟨-, rfl, -⟩ := emits_pure.1 h
    exact ⟨[], rfl, .nil⟩
  | cons f fs ih =>
    intro n n' u ls h
    rw [Program.functionsCode] at h
    cases hf : f.isPrototype with
    | true =>
      rw [Program.definitions_cons_prototype hf]
      rw [hf] at h
      exact ih h
    | false =>
      rw [Program.definitions_cons hf]
      rw [hf] at h
      obtain ⟨_, block, m, rest, hblock, hrest, rfl⟩ := emits_bind.1 h
      obtain ⟨blocks, rfl, hblocks⟩ := ih hrest
      exact ⟨block :: blocks, rfl, .cons ⟨n, m, hblock⟩ hblocks⟩

end MiniCompiler
