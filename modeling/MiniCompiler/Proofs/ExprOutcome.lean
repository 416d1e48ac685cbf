import MiniCompiler.Proofs.CodeTotal
import MiniCompiler.Proofs.ExprMeaning
import MiniCompiler.Proofs.Traps

/-!
# How the code of an expression ends

An expression without calls has a value of its type or traps; it is never stuck. Its code ends with the
value, or it traps at a division, whatever registers are in use (`Expr.Elab.computes`). Code that jumps on
a boolean does what the code of its value does, and jumps as the value says
(`Expr.Elab.branch_agrees`). The registers may be those of any machine; only division needs one that is
supported.
-/

namespace MiniCompiler

open Emit

/-! ## Evaluations that trap -/

/-- From the store `σ`, an evaluation traps. -/
def Trapped {w : Nat} {α : Type} (x : Eval w α) (σ : Store w) : Prop := x σ = .error .trap

section

variable {w : Nat} {α β : Type} {σ σ' : Store w} {a : α} {b : β} {x : Eval w α} {f : α → Eval w β}

theorem Trapped.bind (h : Trapped x σ) : Trapped (x >>= f) σ := by
  show Eval.bind x f σ = _
  rw [Eval.bind, h]

theorem Ends.trapped (hx : Ends x σ a σ') (hf : Trapped (f a) σ') : Trapped (x >>= f) σ := by
  show Eval.bind x f σ = _
  rw [Eval.bind, hx]
  exact hf

theorem trapped_ofExcept_bind {r : Except Stop α} (h : r = .ok a) (hf : Trapped (f a) σ) :
    Trapped (Eval.ofExcept r >>= f) σ :=
  Ends.trapped (ends_ofExcept.2 ⟨h, rfl⟩) hf

end

/-! ## Types of values -/

def Value.type {w : Nat} : Value w → Ty
  | .int _ => .int
  | .bool _ => .boolean

/-- The names in scope stand for variables of their types. -/
def Env.Describes {w : Nat} (env : Env) (scope : Naming) (σ : Store w) : Prop :=
  List.Forall₂ (fun (b : Binding) (entry : String × Nat) =>
    b.name = entry.1 ∧ ∃ v, σ[entry.2]? = some v ∧ v.type = b.type) env scope

section

variable {w : Nat} {env : Env} {scope : Naming} {σ : Store w} {v : Value w} {op : ArithOp}

theorem Value.eq_int (h : v.type = .int) : ∃ n, v = .int n := by
  cases v with
  | int n => exact ⟨n, rfl⟩
  | bool => cases h

theorem Value.eq_bool (h : v.type = .boolean) : ∃ b, v = .bool b := by
  cases v with
  | int => cases h
  | bool b => exact ⟨b, rfl⟩

theorem Env.Describes.find (h : env.Describes scope σ) {name : String} {b : Binding}
    (hb : env.find? name = some b) :
    ∃ cell v, scope.lookup name = some cell ∧ σ[cell]? = some v ∧ v.type = b.type := by
  induction h with
  | nil => simp at hb
  | @cons b' entry env scope hfirst _ ih =>
    obtain ⟨name', cell⟩ := entry
    obtain ⟨rfl, v, hv, htype⟩ := hfirst
    rw [Env.find?_cons] at hb
    by_cases heq : b'.name = name
    · rw [if_pos heq] at hb
      cases hb
      exact ⟨cell, v, by rw [heq, List.lookup_cons_self], hv, htype⟩
    · rw [if_neg heq] at hb
      have hne : (name == b'.name) = false := by simp [Ne.symm heq]
      rw [List.lookup_cons, hne]
      exact ih hb

theorem Env.Describes.set (h : env.Describes scope σ) {cell : Nat} {u : Value w}
    (hu : σ[cell]? = some u) (htype : v.type = u.type) : env.Describes scope (σ.set cell v) := by
  refine h.imp ?_
  rintro b ⟨name, cell'⟩ ⟨hname, u', hu', htype'⟩
  refine ⟨hname, ?_⟩
  by_cases heq : cell' = cell
  · subst heq
    rw [hu] at hu'
    cases hu'
    have hlt := (List.getElem?_eq_some_iff.1 hu).1
    exact ⟨v, List.getElem?_set_self hlt, htype.trans htype'⟩
  · exact ⟨u', by rw [List.getElem?_set_ne (Ne.symm heq), hu'], htype'⟩

theorem CompOp.apply_eq_ok {op : CompOp} {a b : Value w}
    (htype : a.type = b.type) (hop : a.type = .int ∨ op = .eq ∨ op = .ne) :
    ∃ q, op.apply a b = .ok q := by
  cases a with
  | int m =>
    obtain ⟨n, rfl⟩ := Value.eq_int htype.symm
    exact ⟨_, rfl⟩
  | bool m =>
    obtain ⟨n, rfl⟩ := Value.eq_bool htype.symm
    obtain hint | rfl | rfl := hop
    · cases hint
    all_goals exact ⟨_, rfl⟩

theorem ArithOp.apply_cases (hop : ∀ k, op ≠ .other k) (a b : BitVec w) :
    (∃ n, op.apply a b = .ok n) ∨ op.apply a b = .error .trap := by
  cases op with
  | add | sub | mul => exact .inl ⟨_, rfl⟩
  | div | rem =>
    simp only [ArithOp.apply]
    split
    · exact .inl ⟨_, rfl⟩
    · exact .inr rfl
  | other k => exact absurd rfl (hop k)

end

/-! ## Evaluation of expressions -/

namespace Expr

variable {w : Nat} {p : Program} {call : String → List Nat → Eval w (Option (Value w))}
  {scope : Naming} {σ σ₁ σ₂ : Store w} {pos : Pos} {e l r : Expr}

theorem eval_unary_trapped {op : UnaryOp} (h : Trapped (e.eval p call scope) σ) :
    Trapped ((Expr.unary pos op e).eval p call scope) σ := by
  rw [Expr.eval]
  exact h.bind

theorem eval_neg_ends {n : BitVec w} (h : Ends (e.eval p call scope) σ (.int n) σ₁) :
    Ends ((Expr.unary pos .neg e).eval p call scope) σ (.int (-n)) σ₁ := by
  rw [Expr.eval]
  exact ends_bind.2 ⟨_, _, h, ends_ofExcept_bind.2 ⟨n, rfl, ends_pure.2 ⟨rfl, rfl⟩⟩⟩

theorem eval_not_ends {b : Bool} (h : Ends (e.eval p call scope) σ (.bool b) σ₁) :
    Ends ((Expr.unary pos .not e).eval p call scope) σ (.bool !b) σ₁ := by
  rw [Expr.eval]
  exact ends_bind.2 ⟨_, _, h, ends_ofExcept_bind.2 ⟨b, rfl, ends_pure.2 ⟨rfl, rfl⟩⟩⟩

theorem eval_assign_trapped {x : Variable} (h : Trapped (e.eval p call scope) σ) :
    Trapped ((Expr.assign pos x e).eval p call scope) σ := by
  rw [Expr.eval]
  exact h.bind

theorem eval_assign_ends {x : Variable} {v : Value w} {cell : Nat}
    (h : Ends (e.eval p call scope) σ v σ₁) (hcell : scope.lookup x.name = some cell)
    (hlt : cell < σ₁.length) :
    Ends ((Expr.assign pos x e).eval p call scope) σ v (σ₁.set cell v) := by
  rw [Expr.eval]
  refine ends_bind.2 ⟨v, σ₁, h, ends_cellOf_bind.2 ⟨cell, hcell, ?_⟩⟩
  exact ends_bind.2 ⟨(), _, ends_store.2 ⟨hlt, rfl⟩, ends_pure.2 ⟨rfl, rfl⟩⟩

theorem eval_arith_ends {a b n : BitVec w} (hl : Ends (l.eval p call scope) σ (.int a) σ₁)
    (hr : Ends (r.eval p call scope) σ₁ (.int b) σ₂) (happly : op.apply a b = .ok n) :
    Ends ((Expr.arith pos op l r).eval p call scope) σ (.int n) σ₂ := by
  rw [Expr.eval]
  refine ends_bind.2 ⟨_, _, hl, ends_ofExcept_bind.2 ⟨a, rfl, ends_bind.2 ⟨_, _, hr, ?_⟩⟩⟩
  refine ends_ofExcept_bind.2 ⟨b, rfl, ends_ofExcept_bind.2 ⟨n, happly, ?_⟩⟩
  exact ends_pure.2 ⟨rfl, rfl⟩

theorem eval_arith_trapped (h : Trapped (l.eval p call scope) σ ∨
      ∃ a σ₁, Ends (l.eval p call scope) σ (.int a) σ₁ ∧ (Trapped (r.eval p call scope) σ₁ ∨
        ∃ b σ₂, Ends (r.eval p call scope) σ₁ (.int b) σ₂ ∧ op.apply a b = .error .trap)) :
    Trapped ((Expr.arith pos op l r).eval p call scope) σ := by
  rw [Expr.eval]
  obtain hl | ⟨a, σ₁, hl, h⟩ := h
  · exact hl.bind
  · refine hl.trapped (trapped_ofExcept_bind (a := a) rfl ?_)
    obtain hr | ⟨b, σ₂, hr, happly⟩ := h
    · exact hr.bind
    · refine hr.trapped (trapped_ofExcept_bind (a := b) rfl (Trapped.bind ?_))
      rw [happly]
      rfl

theorem eval_comp_ends {op : CompOp} {a b : Value w} {q : Bool}
    (hl : Ends (l.eval p call scope) σ a σ₁) (hr : Ends (r.eval p call scope) σ₁ b σ₂)
    (happly : op.apply a b = .ok q) :
    Ends ((Expr.comp pos op l r).eval p call scope) σ (.bool q) σ₂ := by
  rw [Expr.eval]
  refine ends_bind.2 ⟨_, _, hl, ends_bind.2 ⟨_, _, hr, ends_ofExcept_bind.2 ⟨q, happly, ?_⟩⟩⟩
  exact ends_pure.2 ⟨rfl, rfl⟩

theorem eval_comp_trapped {op : CompOp} (h : Trapped (l.eval p call scope) σ ∨
      ∃ a σ₁, Ends (l.eval p call scope) σ a σ₁ ∧ Trapped (r.eval p call scope) σ₁) :
    Trapped ((Expr.comp pos op l r).eval p call scope) σ := by
  rw [Expr.eval]
  obtain hl | ⟨a, σ₁, hl, hr⟩ := h
  · exact hl.bind
  · exact hl.trapped hr.bind

/-- The right operand is left out if the left one decides. -/
theorem eval_logic_ends {op : LogicOp} {a q : Bool} (hl : Ends (l.eval p call scope) σ (.bool a) σ₁)
    (h : a = op.decisive ∧ q = a ∧ σ₂ = σ₁ ∨
      a ≠ op.decisive ∧ Ends (r.eval p call scope) σ₁ (.bool q) σ₂) :
    Ends ((Expr.logic pos op l r).eval p call scope) σ (.bool q) σ₂ := by
  rw [LogicOp.decisive_eq] at h
  rw [Expr.eval]
  refine ends_bind.2 ⟨_, _, hl, ends_ofExcept_bind.2 ⟨a, rfl, ?_⟩⟩
  obtain ⟨ha, rfl, rfl⟩ | ⟨ha, hr⟩ := h
  · rw [if_pos ha]
    exact ends_pure.2 ⟨rfl, rfl⟩
  · rw [if_neg ha]
    exact ends_bind.2 ⟨_, _, hr, ends_ofExcept_bind.2 ⟨q, rfl, ends_pure.2 ⟨rfl, rfl⟩⟩⟩

theorem eval_logic_trapped {op : LogicOp} (h : Trapped (l.eval p call scope) σ ∨
      ∃ a σ₁, Ends (l.eval p call scope) σ (.bool a) σ₁ ∧ a ≠ op.decisive ∧
        Trapped (r.eval p call scope) σ₁) :
    Trapped ((Expr.logic pos op l r).eval p call scope) σ := by
  rw [Expr.eval]
  obtain hl | ⟨a, σ₁, hl, ha, hr⟩ := h
  · exact hl.bind
  · refine hl.trapped (trapped_ofExcept_bind (a := a) rfl ?_)
    rw [LogicOp.decisive_eq] at ha
    rw [if_neg ha]
    exact hr.bind

end Expr

/-! ## Code that does what an evaluation says -/

def ArithOp.isDivision : ArithOp → Bool
  | .div | .rem => true
  | _ => false

/-- An expression whose code runs on the target by itself: it calls nothing, and it divides only where
    the target is supported. Its numbers have 64 bits. -/
def Expr.runsOn (t : Target) : Expr → Bool
  | .absent | .call .. => false
  | .int _ n => wrap n == n
  | .bool .. | .var _ => true
  | .assign _ _ e | .unary _ _ e => e.runsOn t
  | .arith _ op l r => (!op.isDivision || decide (t ∈ Target.supported)) && l.runsOn t && r.runsOn t
  | .comp _ _ l r | .logic _ _ l r => l.runsOn t && r.runsOn t

/-- From the store `σ`, code does what the evaluation `x` says: it has the value of `x`, or both trap. -/
def Code.Realizes (s : Settings) (text : List Line) (L : Layout) (code : Code) (type : Ty)
    (x : Eval s.target.bits (Value s.target.bits)) (σ : Store s.target.bits) : Prop :=
  (∃ v σ', Ends x σ v σ' ∧ v.type = type ∧ L.env.Describes L.scope σ' ∧
    code.Yields s text L σ v σ') ∨ Trapped x σ ∧ code.Traps s text L σ

/-- From the store `σ`, two codes do what two evaluations say, one after the other. If `swaps` holds,
    they do so in the other order too. -/
def Code.PairRealizes (s : Settings) (text : List Line) (L : Layout) (lcode rcode : Code)
    (ltype rtype : Ty) (x y : Eval s.target.bits (Value s.target.bits)) (swaps : Prop)
    (σ : Store s.target.bits) : Prop :=
  (∃ a b σ₁ σ₂, (Ends x σ a σ₁ ∧ Ends y σ₁ b σ₂) ∧ (a.type = ltype ∧ b.type = rtype) ∧
    L.env.Describes L.scope σ₂ ∧ (lcode.Yields s text L σ a σ₁ ∧ rcode.Yields s text L σ₁ b σ₂) ∧
    (swaps → σ₁ = σ ∧ σ₂ = σ)) ∨
  (Trapped x σ ∨ ∃ a σ₁, Ends x σ a σ₁ ∧ a.type = ltype ∧ Trapped y σ₁) ∧
    ∀ last, lcode.PairTraps s text L rcode σ last ∧ (swaps → rcode.PairTraps s text L lcode σ last)

section

variable {p : Program} {s : Settings} {text : List Line}
  {call : String → List Nat → Eval s.target.bits (Option (Value s.target.bits))}
  {ctx : TypingContext} {env : Env} {L : Layout} {l l' r r' : Expr}

/-- Operands that may be evaluated in the other order have no side effect. If the left one traps, the
    right one ends or traps before it in that order. -/
theorem Code.Realizes.pair {ltype rtype : Ty} {σ : Store s.target.bits}
    (hl : Expr.Elab ctx env l l' ltype) (hr : Expr.Elab ctx env r r' rtype)
    (hσ : L.env.Describes L.scope σ)
    (hlcode : (l'.code s).Realizes s text L ltype (l.eval p call L.scope) σ)
    (hrcode : ∀ {σ}, L.env.Describes L.scope σ →
      (r'.code s).Realizes s text L rtype (r.eval p call L.scope) σ) :
    (l'.code s).PairRealizes s text L (r'.code s) ltype rtype (l.eval p call L.scope)
      (r.eval p call L.scope) (l'.depth < Expr.deep ∧ r'.depth < Expr.deep) σ := by
  obtain ⟨a, σ₁, hends₁, htype₁, hσ₁, hyields₁⟩ | ⟨htrapped, htraps⟩ := hlcode
  · obtain ⟨b, σ₂, hends₂, htype₂, hσ₂, hyields₂⟩ | ⟨htrapped, htraps⟩ := hrcode hσ₁
    · refine .inl ⟨a, b, σ₁, σ₂, ⟨hends₁, hends₂⟩, ⟨htype₁, htype₂⟩, hσ₂, ⟨hyields₁, hyields₂⟩, ?_⟩
      exact fun ⟨hdl, hdr⟩ => hl.pure_of_both hr hends₁ hends₂ hdl hdr
    · refine .inr ⟨.inr ⟨a, σ₁, hends₁, htype₁, htrapped⟩, fun last => ⟨?_, fun ⟨hdl, _⟩ => ?_⟩⟩
      · exact .inr ⟨a, σ₁, hyields₁, .inl htraps⟩
      · obtain rfl := hl.pure_of_shallow hdl hends₁
        exact .inl htraps
  · refine .inr ⟨.inl htrapped, fun last => ⟨.inl htraps, fun ⟨_, hdr⟩ => ?_⟩⟩
    obtain ⟨b, σ₂, hends₂, -, -, hyields₂⟩ | ⟨-, htraps₂⟩ := hrcode hσ
    · obtain rfl := hr.pure_of_shallow hdr hends₂
      exact .inr ⟨b, _, hyields₂, .inl htraps⟩
    · exact .inl htraps₂

theorem Target.deepens_true (t : Target) : t.Deepens (fun _ => True) fun _ => True :=
  fun _ _ _ _ _ _ => trivial

theorem Code.PairRealizes.arith (ht : s.target.Workable) {pos : Pos} {σ : Store s.target.bits}
    (hop : ∀ k, op ≠ .other k) (hdiv : op.isDivision = true → s.target.Standard)
    (h : (l'.code s).PairRealizes s text L (r'.code s) .int .int (l.eval p call L.scope)
      (r.eval p call L.scope) (l'.depth < Expr.deep ∧ r'.depth < Expr.deep) σ) :
    ((Expr.arith pos op l' r').code s).Realizes s text L .int
      ((Expr.arith pos op l r).eval p call L.scope) σ := by
  have hstandard : op = .div ∨ op = .rem → s.target.Standard := by
    rintro (rfl | rfl) <;> exact hdiv rfl
  obtain ⟨u, v, σ₁, σ₂, ⟨hends₁, hends₂⟩, ⟨hu, hv⟩, hσ₂, ⟨hl, hr⟩, hpure⟩ | ⟨htrapped, htraps⟩ := h
  · obtain ⟨a, rfl⟩ := Value.eq_int hu
    obtain ⟨b, rfl⟩ := Value.eq_int hv
    obtain ⟨n, happly⟩ | happly := ArithOp.apply_cases hop a b
    · refine .inl ⟨.int n, σ₂, Expr.eval_arith_ends hends₁ hends₂ happly, rfl, hσ₂, ?_⟩
      exact Expr.means_arith ht hstandard (Target.deepens_true _) hl hr
        (fun hdl hdr => hpure ⟨hdl, hdr⟩) happly
    · refine .inr ⟨Expr.eval_arith_trapped (.inr ⟨a, σ₁, hends₁, .inr ⟨b, σ₂, hends₂, happly⟩⟩), ?_⟩
      refine Expr.traps_arith ht hstandard ?_ fun hdl hdr => ?_
      · exact .inr ⟨_, σ₁, hl, .inr ⟨_, σ₂, hr, a, b, rfl, rfl, happly⟩⟩
      · obtain ⟨rfl, rfl⟩ := hpure ⟨hdl, hdr⟩
        exact .inr ⟨_, _, hr, .inr ⟨_, _, hl, a, b, rfl, rfl, happly⟩⟩
  · refine .inr ⟨Expr.eval_arith_trapped (htrapped.imp_right ?_), ?_⟩
    · rintro ⟨u, σ₁, hends, hu, htrapped⟩
      obtain ⟨a, rfl⟩ := Value.eq_int hu
      exact ⟨a, σ₁, hends, .inl htrapped⟩
    · exact Expr.traps_arith ht hstandard (htraps _).1 fun hdl hdr => (htraps _).2 ⟨hdl, hdr⟩

theorem Code.PairRealizes.comp (htext : (writtenLabels text).Nodup) (ht : s.target.Workable)
    {pos : Pos} {op : CompOp} {type : Ty} {σ : Store s.target.bits}
    (hop : type = .int ∨ op = .eq ∨ op = .ne)
    (h : (l'.code s).PairRealizes s text L (r'.code s) type type (l.eval p call L.scope)
      (r.eval p call L.scope) (l'.depth < Expr.deep ∧ r'.depth < Expr.deep) σ) :
    ((Expr.comp pos op l' r').code s).Realizes s text L .boolean
      ((Expr.comp pos op l r).eval p call L.scope) σ := by
  obtain ⟨a, b, σ₁, σ₂, ⟨hends₁, hends₂⟩, ⟨ha, hb⟩, hσ₂, ⟨hl, hr⟩, hpure⟩ | ⟨htrapped, htraps⟩ := h
  · obtain ⟨q, happly⟩ := CompOp.apply_eq_ok (ha.trans hb.symm) (ha ▸ hop)
    refine .inl ⟨.bool q, σ₂, Expr.eval_comp_ends hends₁ hends₂ happly, rfl, hσ₂, ?_⟩
    exact Expr.means_comp htext ht (Target.deepens_true _) hl hr
      (fun hdl hdr => hpure ⟨hdl, hdr⟩) happly
  · refine .inr ⟨Expr.eval_comp_trapped (htrapped.imp_right ?_), ?_⟩
    · exact fun ⟨a, σ₁, hends, _, htrapped⟩ => ⟨a, σ₁, hends, htrapped⟩
    · exact Expr.traps_comp ht (htraps _).1 fun hdl hdr => (htraps _).2 ⟨hdl, hdr⟩

/-- The code of an expression without calls does what the expression says. -/
theorem Expr.Elab.realizes (htext : (writtenLabels text).Nodup) (ht : s.target.Workable)
    {e e' : Expr} {type : Ty} (he : Expr.Elab ctx env e e' type) (hrun : e'.runsOn s.target = true)
    (henv : L.env = env) {σ : Store s.target.bits} (hσ : L.env.Describes L.scope σ) :
    (e'.code s).Realizes s text L type (e.eval p call L.scope) σ := by
  -- along the rules of the check: the operands have values of their types, or one of them traps
  cases he with
  | int pos n =>
    have hn : wrap n = n := by simpa [Expr.runsOn] using hrun
    refine .inl ⟨.int (BitVec.ofInt _ n), σ, ?_, rfl, hσ, Expr.means_int ht _ (by rw [hn])⟩
    rw [Expr.eval]
    exact ends_pure.2 ⟨rfl, rfl⟩
  | bool pos b =>
    refine .inl ⟨.bool b, σ, ?_, rfl, hσ, Expr.means_bool ht ..⟩
    rw [Expr.eval]
    exact ends_pure.2 ⟨rfl, rfl⟩
  | var hb =>
    obtain ⟨cell, v, hcell, hv, htype⟩ := hσ.find (henv ▸ hb)
    refine .inl ⟨v, σ, ?_, htype, hσ, Expr.means_var ht (henv ▸ hb) hcell hv⟩
    rw [Expr.eval]
    exact ends_cellOf_bind.2 ⟨cell, hcell, ends_load.2 ⟨hv, rfl⟩⟩
  | assign hb he =>
    obtain ⟨v, σ₁, hends, htype, hσ₁, hyields⟩ | ⟨htrapped, htraps⟩ :=
      Expr.Elab.realizes htext ht he hrun henv hσ
    · obtain ⟨cell, u, hcell, hu, htype'⟩ := hσ₁.find (henv ▸ hb)
      have hlt := (List.getElem?_eq_some_iff.1 hu).1
      exact .inl ⟨v, σ₁.set cell v, Expr.eval_assign_ends hends hcell hlt, htype,
        hσ₁.set hu (htype.trans htype'.symm), Expr.means_assign ht hyields (henv ▸ hb) hcell⟩
    · exact .inr ⟨Expr.eval_assign_trapped htrapped, Expr.traps_assign ht htraps⟩
  | call => cases hrun
  | neg he =>
    obtain ⟨v, σ₁, hends, htype, hσ₁, hyields⟩ | ⟨htrapped, htraps⟩ :=
      Expr.Elab.realizes htext ht he hrun henv hσ
    · obtain ⟨n, rfl⟩ := Value.eq_int htype
      exact .inl ⟨.int (-n), σ₁, Expr.eval_neg_ends hends, rfl, hσ₁, Expr.means_neg ht hyields⟩
    · exact .inr ⟨Expr.eval_unary_trapped htrapped, Expr.traps_unary ht htraps⟩
  | not he =>
    obtain ⟨v, σ₁, hends, htype, hσ₁, hyields⟩ | ⟨htrapped, htraps⟩ :=
      Expr.Elab.realizes htext ht he hrun henv hσ
    · obtain ⟨b, rfl⟩ := Value.eq_bool htype
      exact .inl ⟨.bool !b, σ₁, Expr.eval_not_ends hends, rfl, hσ₁, Expr.means_not ht hyields⟩
    · exact .inr ⟨Expr.eval_unary_trapped htrapped, Expr.traps_unary ht htraps⟩
  | arith hop hl hr =>
    simp only [Expr.runsOn, Bool.and_eq_true, Bool.or_eq_true, Bool.not_eq_true',
      decide_eq_true_eq] at hrun
    obtain ⟨⟨hdiv, hrunl⟩, hrunr⟩ := hrun
    refine Code.PairRealizes.arith ht hop (fun h => ?_) (Code.Realizes.pair hl hr hσ
      (Expr.Elab.realizes htext ht hl hrunl henv hσ) (Expr.Elab.realizes htext ht hr hrunr henv))
    exact Target.standard_of_mem (hdiv.resolve_left (by simp [h]))
  | order _ _ hl hr =>
    obtain ⟨hrunl, hrunr⟩ := Bool.and_eq_true_iff.1 hrun
    exact Code.PairRealizes.comp htext ht (.inl rfl) (Code.Realizes.pair hl hr hσ
      (Expr.Elab.realizes htext ht hl hrunl henv hσ) (Expr.Elab.realizes htext ht hr hrunr henv))
  | equality hop hl hr =>
    obtain ⟨hrunl, hrunr⟩ := Bool.and_eq_true_iff.1 hrun
    exact Code.PairRealizes.comp htext ht (.inr hop) (Code.Realizes.pair hl hr hσ
      (Expr.Elab.realizes htext ht hl hrunl henv hσ) (Expr.Elab.realizes htext ht hr hrunr henv))
  | @logic pos op l l' r r' hl hr =>
    obtain ⟨hrunl, hrunr⟩ := Bool.and_eq_true_iff.1 hrun
    obtain ⟨v, σ₁, hends₁, htype, hσ₁, hyields₁⟩ | ⟨htrapped, htraps⟩ :=
      Expr.Elab.realizes htext ht hl hrunl henv hσ
    · obtain ⟨a, rfl⟩ := Value.eq_bool htype
      by_cases ha : a = op.decisive
      · have hdecided : a = op.decisive ∧ a = a ∧ σ₁ = σ₁ := ⟨ha, rfl, rfl⟩
        exact .inl ⟨.bool a, σ₁, Expr.eval_logic_ends hends₁ (.inl hdecided), rfl, hσ₁,
          Expr.means_logic htext ht ⟨a, σ₁, hyields₁, .inl hdecided⟩⟩
      · obtain ⟨v, σ₂, hends₂, htype, hσ₂, hyields₂⟩ | ⟨htrapped, htraps⟩ :=
          Expr.Elab.realizes htext ht hr hrunr henv hσ₁
        · obtain ⟨q, rfl⟩ := Value.eq_bool htype
          exact .inl ⟨.bool q, σ₂, Expr.eval_logic_ends hends₁ (.inr ⟨ha, hends₂⟩), rfl, hσ₂,
            Expr.means_logic htext ht ⟨a, σ₁, hyields₁, .inr ⟨ha, hyields₂⟩⟩⟩
        · exact .inr ⟨Expr.eval_logic_trapped (.inr ⟨a, σ₁, hends₁, ha, htrapped⟩),
            Expr.traps_logic ht (.inr ⟨a, σ₁, hyields₁, ha, htraps⟩)⟩
    · exact .inr ⟨Expr.eval_logic_trapped (.inl htrapped), Expr.traps_logic ht (.inl htraps)⟩

end

/-! ## Runs of the code -/

/-- The state `c'` after code for the register `free`, from the state `c`. The pointers are what they
    were, and so are the registers in use below `free`, as long as it has not come round to them. At and
    above `sp`, variables have the values of the store `σ'` and nothing else has changed. -/
structure Layout.Leaves (L : Layout) (t : Target) (free : Nat) (sp : Int) (σ' : Store t.bits)
    (c c' : Core t.bits) : Prop where
  stackPointer : c'.regs t.stackPointer = c.regs t.stackPointer
  basePointer : c'.regs t.basePointer = c.regs t.basePointer
  registers : ∀ k, free + 1 - t.registers.length ≤ k → k < free →
    c'.regs (t.registerName k) = c.regs (t.registerName k)
  words : ∀ x, sp ≤ x → L.place.Free x → c'.mem x = c.mem x
  hold : L.place.Hold σ' c'.mem

section

variable {s : Settings} {t : Target} {text : List Line} {L : Layout} {sp : Int}
variable {free n n' : Nat} {c : Core s.target.bits} {code : Code} {ls rest : List Line}
  {pushed : Int} {σ : Store s.target.bits}

theorem Places.Keeps.leaves (ht : t.Workable) {σ' : Store t.bits} {c c' : Core t.bits}
    (h : L.place.Keeps (t.Kept free) (sp ≤ ·) σ' c c') : L.Leaves t free sp σ' c c' where
  stackPointer := h.agrees.regs _ .stackPointer
  basePointer := h.agrees.regs _ .basePointer
  registers k hle hlt :=
    h.agrees.regs _ (.inr (.inr ⟨(ht.registerName_ne hlt (by omega)).symm, k, hlt, rfl⟩))
  words x hx hfree := h.agrees.mem x ⟨hx, hfree⟩
  hold := h.hold

/-- Two states that have been left with one store have one memory. -/
theorem Layout.Leaves.mem_eq {free' : Nat} {σ' : Store t.bits} {c c₁ c₂ : Core t.bits}
    (h₁ : L.Leaves t free sp σ' c c₁) (h₂ : L.Leaves t free' sp σ' c c₂) {x : Int} (hx : sp ≤ x) :
    c₂.mem x = c₁.mem x := by
  -- a word is no variable and unchanged in both, or has the value of one cell in both
  by_cases hfree : L.place.Free x
  · rw [h₁.words x hx hfree, h₂.words x hx hfree]
  · obtain ⟨cell, hcell⟩ : ∃ cell, L.place cell = some x := by simpa [Places.Free] using hfree
    obtain ⟨v, hv, hmem₁⟩ := h₁.hold cell x hcell
    obtain ⟨v', hv', hmem₂⟩ := h₂.hold cell x hcell
    rw [hv] at hv'
    cases hv'
    rw [hmem₁, hmem₂]

section

variable (ht : s.target.Workable)

include ht

theorem Code.Yields.value_reaches {σ' : Store s.target.bits} {v : Value s.target.bits}
    (h : code.Yields s text L σ v σ') (hrun : Emits (code.value pushed free) n () ls n')
    (hsuffix : ls ++ rest <:+ text) (hL : L.Holds s.target sp σ c) :
    ∃ c', Machine.Reaches s.target text ⟨ls ++ rest, c⟩ ⟨rest, c'⟩ ∧
      c'.regs (s.target.registerName free) = v.word ∧ L.Leaves s.target free sp σ' c c' := by
  obtain ⟨rest', c', hreaches, ⟨rfl, hkeeps, hword⟩ | hfalse⟩ :=
    h.value free hL trivial n () ls n' hrun rest hsuffix
  · exact ⟨c', hreaches, hword, hkeeps.leaves ht⟩
  · exact hfalse.elim

theorem Code.Yields.branch_reaches {σ' : Store s.target.bits} {b : Bool}
    (h : code.Yields s text L σ (.bool b) σ') {label : Label} {dest : List Line} {sense : Bool}
    (hrun : Emits (code.branch label sense pushed free) n () ls n') (hsuffix : ls ++ rest <:+ text)
    (hdest : resolve label text = some dest) (hL : L.Holds s.target sp σ c) :
    ∃ c', Machine.Reaches s.target text ⟨ls ++ rest, c⟩ ⟨if b = sense then dest else rest, c'⟩ ∧
      L.Leaves s.target free sp σ' c c' := by
  obtain ⟨rest', c', hreaches, ⟨rfl, hb, hkeeps⟩ | ⟨rfl, hb, hkeeps⟩⟩ :=
    h.branch sense free hL trivial rfl hdest n () ls n' hrun rest hsuffix
  · rw [if_neg hb]
    exact ⟨c', hreaches, hkeeps.leaves ht⟩
  · rw [if_pos hb]
    exact ⟨c', hreaches, hkeeps.leaves ht⟩

theorem Code.Realizes.value_runs {type : Ty}
    {x : Eval s.target.bits (Value s.target.bits)} (h : code.Realizes s text L type x σ)
    (hrun : Emits (code.value pushed free) n () ls n') (hsuffix : ls ++ rest <:+ text)
    (hL : L.Holds s.target sp σ c) : Trapped x σ ∧ Machine.TrapsIn s.target text ls rest c ∨
      ∃ v σ' c', Ends x σ v σ' ∧ v.type = type ∧
        Machine.Reaches s.target text ⟨ls ++ rest, c⟩ ⟨rest, c'⟩ ∧
        c'.regs (s.target.registerName free) = v.word ∧ L.Leaves s.target free sp σ' c c' := by
  obtain ⟨v, σ', hends, htype, -, hyields⟩ | ⟨htrapped, htraps⟩ := h
  · obtain ⟨c', hreaches⟩ := hyields.value_reaches ht hrun hsuffix hL
    exact .inr ⟨v, σ', c', hends, htype, hreaches⟩
  · exact .inl ⟨htrapped, htraps.value pushed free hL n () ls n' hrun rest hsuffix⟩

/-- Two texts hold code of one evaluation, here for its value and there for a jump on it. -/
theorem Code.Realizes.branch_runs
    {x : Eval s.target.bits (Value s.target.bits)} {text' : List Line}
    (h : code.Realizes s text L .boolean x σ) (h' : code.Realizes s text' L .boolean x σ)
    {label : Label} {sense : Bool} {m m' : Nat} {ms rest' dest : List Line}
    (hls : Emits (code.value pushed free) n () ls n')
    (hms : Emits (code.branch label sense pushed free) m () ms m') (hsuffix : ls ++ rest <:+ text)
    (hsuffix' : ms ++ rest' <:+ text') (hdest : resolve label text' = some dest)
    (hL : L.Holds s.target sp σ c) :
    Machine.TrapsIn s.target text ls rest c ∧ Machine.TrapsIn s.target text' ms rest' c ∨
      ∃ b σ' c₁ c₂, Machine.Reaches s.target text ⟨ls ++ rest, c⟩ ⟨rest, c₁⟩ ∧
        c₁.regs (s.target.registerName free) = .num (if b then 1 else 0) ∧
        Machine.Reaches s.target text' ⟨ms ++ rest', c⟩ ⟨if b = sense then dest else rest', c₂⟩ ∧
        (∀ x, sp ≤ x → c₂.mem x = c₁.mem x) ∧ L.Leaves s.target free sp σ' c c₂ := by
  -- evaluation has one outcome, so both codes end or both trap
  obtain ⟨v, σ', hends, htype, -, hbranch⟩ | ⟨htrapped, hbranch⟩ := h'
  · obtain ⟨b, rfl⟩ := Value.eq_bool htype
    obtain ⟨v, σ'', hends', -, -, hvalue⟩ | ⟨htrapped, -⟩ := h
    · cases hends.symm.trans hends'
      obtain ⟨c₁, hreaches₁, hword, hleaves₁⟩ := hvalue.value_reaches ht hls hsuffix hL
      obtain ⟨c₂, hreaches₂, hleaves₂⟩ := hbranch.branch_reaches ht hms hsuffix' hdest hL
      exact .inr ⟨b, σ', c₁, c₂, hreaches₁, hword, hreaches₂, fun x => hleaves₁.mem_eq hleaves₂,
        hleaves₂⟩
    · cases hends.symm.trans htrapped
  · obtain ⟨v, σ'', hends, -⟩ | ⟨-, hvalue⟩ := h
    · cases hends.symm.trans htrapped
    · exact .inl ⟨hvalue.value pushed free hL n () ls n' hls rest hsuffix,
        hbranch.branch sense pushed free hL hdest m () ms m' hms rest' hsuffix'⟩

end

end

/-! ## Values -/

/-- Code has the value of its expression and leaves all else, whatever registers are in use, or it
    traps where the expression does. Standing alone, it traps if and only if the expression does. -/
theorem Expr.Elab.computes {ctx : TypingContext} {env : Env} {e e' : Expr} {type : Ty}
    (he : Expr.Elab ctx env e e' type) {s : Settings} (ht : s.target.Workable)
    (hrun : e'.runsOn s.target = true) (p : Program)
    (call : String → List Nat → Eval s.target.bits (Option (Value s.target.bits)))
    (pushed : Int) (free n : Nat) :
    ∃ ls n', Emits ((e'.code s).value pushed free) n () ls n' ∧ (writtenLabels ls).Nodup ∧
      ∀ (L : Layout) (sp : Int) (σ : Store s.target.bits) (c : Core s.target.bits),
        L.env = env → L.env.Describes L.scope σ → L.Holds s.target sp σ c →
        (Machine.TrapsIn s.target ls ls [] c ↔ Trapped (e.eval p call L.scope) σ) ∧
        ∀ text rest, (writtenLabels text).Nodup → ls ++ rest <:+ text →
          Trapped (e.eval p call L.scope) σ ∧ Machine.TrapsIn s.target text ls rest c ∨
          ∃ v σ' c', Ends (e.eval p call L.scope) σ v σ' ∧ v.type = type ∧
            Machine.Reaches s.target text ⟨ls ++ rest, c⟩ ⟨rest, c'⟩ ∧
            c'.regs (s.target.registerName free) = v.word ∧ L.Leaves s.target free sp σ' c c' := by
  obtain ⟨ls, n', hemits⟩ := ((he.total_code ht.registers_ne_nil ctx.names_any).value pushed free).emits n
  have hnodup := ((Expr.closed_code s e').value pushed free).nodup hemits
  refine ⟨ls, n', hemits, hnodup, fun L sp σ c henv hσ hL => ⟨?_, fun text rest htext hsuffix => ?_⟩⟩
  · have halone : ls ++ [] <:+ ls := by simp
    obtain ⟨htrapped, htraps⟩ | ⟨v, σ', c', hends, -, hreaches, -⟩ :=
      (he.realizes (p := p) hnodup ht hrun henv hσ).value_runs ht hemits halone hL
    · exact iff_of_true htraps htrapped
    · refine iff_of_false (fun htraps => htraps.not_reaches_end hreaches) fun htrapped => ?_
      cases hends.symm.trans htrapped
  · exact (he.realizes htext ht hrun henv hσ).value_runs ht hemits hsuffix hL

/-- A variable `n` of the frame and a parameter `r` that was passed by reference. -/
def mixedLayout : Layout where
  base := 64
  place cell := if cell = 0 then some 60 else if cell = 1 then some 96 else none
  env := [⟨"n", .int, -4, false⟩, ⟨"r", .int, 8, true⟩]
  scope := [("n", 0), ("r", 1)]

def mixedStore : Store Target.i386.bits := [.int 7, .int 2]

def mixedState : Core Target.i386.bits where
  regs r := if r = "%esp" then .addr 48 else if r = "%ebp" then .addr 64 else .num 5
  mem x := if x = 60 then .num 7 else if x = 72 then .addr 96 else if x = 96 then .num 2 else .num 0

theorem mixedLayout_holds : mixedLayout.env.Describes mixedLayout.scope mixedStore ∧
    mixedLayout.Holds .i386 48 mixedStore mixedState := by
  have hplace {cell : Nat} {x : Int} (h : mixedLayout.place cell = some x) :
      cell = 0 ∧ x = 60 ∨ cell = 1 ∧ x = 96 := by
    simp only [mixedLayout] at h
    split at h
    · exact .inl ⟨‹_›, Option.some.inj h.symm⟩
    · split at h
      · exact .inr ⟨‹_›, Option.some.inj h.symm⟩
      · cases h
  refine ⟨.cons ⟨rfl, .int 7, rfl, rfl⟩ (.cons ⟨rfl, .int 2, rfl, rfl⟩ .nil), rfl, rfl, by decide,
    by decide, ⟨fun cell x h => ?_, fun cell x h => ?_, fun cell cell' x h h' => ?_⟩,
    fun cell x h => ?_, .cons ?_ (.cons ?_ .nil)⟩
  · obtain ⟨-, rfl⟩ | ⟨-, rfl⟩ := hplace h <;> decide
  · obtain ⟨-, rfl⟩ | ⟨-, rfl⟩ := hplace h <;> decide
  · obtain ⟨rfl, rfl⟩ | ⟨rfl, rfl⟩ := hplace h <;> obtain ⟨rfl, hx⟩ | ⟨rfl, hx⟩ := hplace h'
    all_goals omega
  · obtain ⟨rfl, rfl⟩ | ⟨rfl, rfl⟩ := hplace h
    · exact ⟨.int 7, rfl, rfl⟩
    · exact ⟨.int 2, rfl, rfl⟩
  · exact ⟨rfl, by decide, by decide, fun _ => rfl, nofun⟩
  · refine ⟨rfl, by decide, by decide, nofun, fun _ => ⟨by decide, fun cell h => ?_, 96, rfl, rfl⟩⟩
    obtain ⟨-, hx⟩ | ⟨-, hx⟩ := hplace h <;> cases hx

/-- `(n = n + 1) / r`, with what the names are bound to. -/
def Expr.raisedQuotient (n r : Option Binding) : Expr :=
  .arith {} .div (.assign {} ⟨{}, "n", n⟩ (.arith {} .add (.var ⟨{}, "n", n⟩) (.int {} 1)))
    (.var ⟨{}, "r", r⟩)

theorem Expr.elab_raisedQuotient (ctx : TypingContext) : Expr.Elab ctx mixedLayout.env
    (raisedQuotient none none)
    (raisedQuotient (some ⟨"n", .int, -4, false⟩) (some ⟨"r", .int, 8, true⟩)) .int :=
  .arith nofun (.assign rfl (.arith nofun (.var rfl) (.int _ _))) (.var rfl)

/-- With register number 7 of 6, the quotient is that of the value which was assigned. -/
theorem Expr.Elab.computes_raisedQuotient :
    Target.i386.Workable ∧
    (raisedQuotient (some ⟨"n", .int, -4, false⟩) (some ⟨"r", .int, 8, true⟩)).runsOn .i386 = true ∧
    ∃ ls n' c', Emits (((raisedQuotient (some ⟨"n", .int, -4, false⟩)
        (some ⟨"r", .int, 8, true⟩)).code {}).value 0 7) 0 () ls n' ∧
      Machine.Reaches .i386 ls ⟨ls ++ [], mixedState⟩ ⟨[], c'⟩ ∧ c'.regs "%ebx" = .num 4 ∧
      c'.mem 60 = .num 8 ∧ c'.mem 96 = .num 2 ∧ c'.regs "%eax" = .num 5 := by
  have ht : Target.i386.Workable := (Target.standard_of_mem (by decide)).toWorkable
  have hrun : (raisedQuotient (some ⟨"n", .int, -4, false⟩)
      (some ⟨"r", .int, 8, true⟩)).runsOn .i386 = true := by decide
  have heval : Ends ((raisedQuotient none none).eval [] (fun _ _ => Eval.stop .stuck)
      mixedLayout.scope) mixedStore (.int 4) [.int 8, .int 2] := by
    unfold Ends
    decide +kernel
  obtain ⟨ls, n', hemits, hnodup, hstates⟩ := Expr.Elab.computes
    (Expr.elab_raisedQuotient ⟨{}, []⟩) (s := {}) ht hrun [] (fun _ _ => Eval.stop .stuck) 0 7 0
  obtain ⟨htrapped, -⟩ | ⟨v, σ', c', hends, -, hreaches, hword, hleaves⟩ :=
    (hstates mixedLayout 48 mixedStore mixedState rfl mixedLayout_holds.1 mixedLayout_holds.2).2 ls []
      hnodup (by simp)
  · cases heval.symm.trans htrapped
  · cases heval.symm.trans hends
    obtain ⟨v, hv, hn⟩ := hleaves.hold 0 60 rfl
    obtain ⟨v', hv', hr⟩ := hleaves.hold 1 96 rfl
    cases hv
    cases hv'
    exact ⟨ht, hrun, ls, n', c', hemits, hreaches, hword, hn, hr,
      hleaves.registers 6 (by decide) (by decide)⟩

/-! ## Branches -/

/-- From one state, the code that jumps on a boolean and the code of its value trap both, or both come
    to an end with one memory. Then the former has jumped exactly if the value is the one that was asked
    for. Standing alone before the label, it traps if and only if the code of the value does. -/
theorem Expr.Elab.branch_agrees {ctx : TypingContext} {env : Env} {e e' : Expr}
    (he : Expr.Elab ctx env e e' .boolean) {s : Settings} (ht : s.target.Workable)
    (hrun : e'.runsOn s.target = true) (label : Label) (sense : Bool) (pushed : Int)
    (free n m : Nat) :
    ∃ ls n' ms m', Emits ((e'.code s).value pushed free) n () ls n' ∧
      Emits ((e'.code s).branch label sense pushed free) m () ms m' ∧
      ((writtenLabels ls).Nodup ∧ (writtenLabels ms).Nodup) ∧
      ∀ (L : Layout) (sp : Int) (σ : Store s.target.bits) (c : Core s.target.bits),
        L.env = env → L.env.Describes L.scope σ → L.Holds s.target sp σ c →
        (label ∉ writtenLabels ms → (Machine.TrapsIn s.target ls ls [] c ↔
          Machine.TrapsIn s.target (ms ++ [.label label]) ms [.label label] c)) ∧
        ∀ text rest text' rest' dest, (writtenLabels text).Nodup → ls ++ rest <:+ text →
          (writtenLabels text').Nodup → ms ++ rest' <:+ text' → resolve label text' = some dest →
          Machine.TrapsIn s.target text ls rest c ∧ Machine.TrapsIn s.target text' ms rest' c ∨
          ∃ b σ' c₁ c₂, Machine.Reaches s.target text ⟨ls ++ rest, c⟩ ⟨rest, c₁⟩ ∧
            c₁.regs (s.target.registerName free) = .num (if b then 1 else 0) ∧
            Machine.Reaches s.target text' ⟨ms ++ rest', c⟩
              ⟨if b = sense then dest else rest', c₂⟩ ∧
            (∀ x, sp ≤ x → c₂.mem x = c₁.mem x) ∧ L.Leaves s.target free sp σ' c c₂ := by
  have htotal := he.total_code ht.registers_ne_nil ctx.names_any
  have hclosed := Expr.closed_code s e'
  obtain ⟨ls, n', hls⟩ := (htotal.value pushed free).emits n
  obtain ⟨ms, m', hms⟩ := (htotal.branch label sense pushed free).emits m
  have hnodup := (hclosed.value _ _).nodup hls
  have hnodup' := (hclosed.branch _ _ _ _).nodup hms
  refine ⟨ls, n', ms, m', hls, hms, ⟨hnodup, hnodup'⟩, fun L sp σ c henv hσ hL => ?_⟩
  -- nothing is called
  have hcode (text : List Line) (htext : (writtenLabels text).Nodup) : (e'.code s).Realizes s text L
      .boolean (e.eval [] (fun _ _ => Eval.stop .stuck) L.scope) σ :=
    he.realizes htext ht hrun henv hσ
  refine ⟨fun hlabel => ?_, ?_⟩
  · have halone : ls ++ [] <:+ ls := by simp
    have htext : (writtenLabels (ms ++ [.label label])).Nodup := by
      rw [writtenLabels_append, List.nodup_append_comm]
      exact List.nodup_cons.2 ⟨hlabel, hnodup'⟩
    have hdest : resolve label (ms ++ [.label label]) = some [] := resolve_append hlabel []
    obtain ⟨htraps, htraps'⟩ | ⟨b, σ', c₁, c₂, hreaches₁, -, hreaches₂, -⟩ :=
      (hcode ls hnodup).branch_runs ht (hcode _ htext) hls hms halone (List.suffix_refl _) hdest hL
    · exact iff_of_true htraps htraps'
    · have hend : Machine.Reaches s.target (ms ++ [.label label]) ⟨ms ++ [.label label], c⟩
          ⟨[], c₂⟩ := by
        refine hreaches₂.trans ?_
        split
        · exact .refl _
        · exact .single rfl
      exact iff_of_false (fun htraps => htraps.not_reaches_end hreaches₁) fun htraps =>
        htraps.not_reaches_end hend
  · intro text rest text' rest' dest htext hsuffix htext' hsuffix' hdest
    exact (hcode text htext).branch_runs ht (hcode text' htext') hls hms hsuffix hsuffix' hdest hL

/-- `!((n = n + 1) / r < 4) && n == 8`, with what the names are bound to. -/
def Expr.raisedCheck (n r : Option Binding) : Expr :=
  .logic {} .and (.unary {} .not (.comp {} .lt (raisedQuotient n r) (.int {} 4)))
    (.comp {} .eq (.var ⟨{}, "n", n⟩) (.int {} 8))

theorem Expr.elab_raisedCheck (ctx : TypingContext) : Expr.Elab ctx mixedLayout.env
    (raisedCheck none none)
    (raisedCheck (some ⟨"n", .int, -4, false⟩) (some ⟨"r", .int, 8, true⟩)) .boolean :=
  .logic (.not (.order nofun nofun (elab_raisedQuotient ctx) (.int _ _)))
    (.equality (.inl rfl) (.var rfl) (.int _ _))

/-- The value is true, and so there is no jump if it should be false. Either way `n` is raised once. -/
theorem Expr.Elab.branch_agrees_raisedCheck :
    Target.i386.Workable ∧
    (raisedCheck (some ⟨"n", .int, -4, false⟩) (some ⟨"r", .int, 8, true⟩)).runsOn .i386 = true ∧
    ∃ ls n' ms m' c₁ c₂, Emits (((raisedCheck (some ⟨"n", .int, -4, false⟩)
        (some ⟨"r", .int, 8, true⟩)).code {}).value 0 7) 0 () ls n' ∧
      Emits (((raisedCheck (some ⟨"n", .int, -4, false⟩)
        (some ⟨"r", .int, 8, true⟩)).code {}).branch (.symbol "out") false 0 7) 0 () ms m' ∧
      Machine.Reaches .i386 ls ⟨ls ++ [], mixedState⟩ ⟨[], c₁⟩ ∧ c₁.regs "%ebx" = .num 1 ∧
      Machine.Reaches .i386 (.label (.symbol "out") :: ms) ⟨ms ++ [], mixedState⟩ ⟨[], c₂⟩ ∧
      c₁.mem 60 = .num 8 ∧ c₂.mem 60 = .num 8 ∧ c₂.regs "%eax" = .num 5 := by
  have ht : Target.i386.Workable := (Target.standard_of_mem (by decide)).toWorkable
  have hrun : (raisedCheck (some ⟨"n", .int, -4, false⟩)
      (some ⟨"r", .int, 8, true⟩)).runsOn .i386 = true := by decide
  have heval : Ends ((raisedCheck none none).eval [] (fun _ _ => Eval.stop .stuck)
      mixedLayout.scope) mixedStore (.bool true) [.int 8, .int 2] := by
    unfold Ends
    decide +kernel
  have he := Expr.elab_raisedCheck ⟨{}, []⟩
  obtain ⟨hdescribes, hholds⟩ := mixedLayout_holds
  obtain ⟨ls, n', ms, m', hls, hms, ⟨hnodup, hnodup'⟩, hstates⟩ :=
    Expr.Elab.branch_agrees he (s := {}) ht hrun (.symbol "out") false 0 7 0 0
  have hout : .symbol "out" ∉ writtenLabels ms := by
    have hcount := (((Expr.closed_code _ _).branch _ _ _ _) _ _ _ _ hms).2 (.symbol "out")
    exact List.count_eq_zero.1 (Nat.eq_zero_of_le_zero hcount)
  have htext : (writtenLabels (.label (.symbol "out") :: ms)).Nodup :=
    List.nodup_cons.2 ⟨hout, hnodup'⟩
  have halone : ls ++ [] <:+ ls := by simp
  -- what the code of the value does
  obtain ⟨htrapped, -⟩ | ⟨v, σ', c, hends, -, hreaches, hword, hleaves⟩ :=
    (he.realizes (p := []) hnodup ht hrun rfl hdescribes).value_runs ht hls halone hholds
  · cases heval.symm.trans htrapped
  · cases heval.symm.trans hends
    obtain ⟨v, hv, hn⟩ := hleaves.hold 0 60 rfl
    cases hv
    obtain ⟨htraps, -⟩ | ⟨b, σ', c₁, c₂, hreaches₁, hword₁, hreaches₂, hmem, hleaves₂⟩ :=
      (hstates mixedLayout 48 mixedStore mixedState rfl hdescribes hholds).2 ls [] _ [] ms hnodup
        halone htext (by simp) (by simp [resolve])
    · exact absurd hreaches htraps.not_reaches_end
    · cases hreaches₁.eq_of_stopped hreaches rfl rfl
      cases b with
      | false => cases hword₁.symm.trans hword
      | true => exact ⟨ht, hrun, ls, n', ms, m', c, c₂, hls, hms, hreaches, hword, hreaches₂, hn,
          (hmem 60 (by decide)).trans hn, hleaves₂.registers 6 (by decide) (by decide)⟩

end MiniCompiler
