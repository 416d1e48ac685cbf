import MiniCompiler.Proofs.StaticRules
import MiniCompiler.Typing.Program

/-!
# The flag of returning

While it checks a body the checker keeps one flag that says whether the place it has reached can be
reached at all. `Check.Flags` says how a step changes the flag. Whatever the checker reports on its
way, the flag after a statement is the one that `Stmt.returnsAfter` computes from the tree.
-/

namespace MiniCompiler

namespace Check

variable {α β : Type} {g : Bool → Bool} {f : β → Check α} {x : Check β}

/-- After the step the flag is `g` of what it was before. -/
def Flags (x : Check α) (g : Bool → Bool) : Prop := ∀ st, (x st).state.returns = g st.returns

theorem flags_pure {a : α} : (pure a : Check α).Flags id := fun _ => rfl

theorem Flags.bind {h : Bool → Bool} (hx : x.Flags g)
    (hf : ∀ b, (f b).Flags h) : (x >>= f).Flags (h ∘ g) :=
  fun st => (hf _ _).trans (congrArg h (hx st))

theorem Flags.then (hx : x.Flags id) (hf : ∀ b, (f b).Flags g) :
    (x >>= f).Flags g := hx.bind hf

theorem Flags.last (hx : x.Flags g) (hf : ∀ b, (f b).Flags id) :
    (x >>= f).Flags g := hx.bind hf

/-- A second step that sets the flag, whatever the first one does. -/
theorem flags_bind {b : Bool} (hf : ∀ a, (f a).Flags fun _ => b) :
    (x >>= f).Flags fun _ => b :=
  fun _ => hf _ _

theorem Flags.ite {c : Prop} [Decidable c] {x y : Check α} (hx : x.Flags g) (hy : y.Flags g) :
    (if c then x else y).Flags g := by
  split
  · exact hx
  · exact hy

theorem Flags.ite_bind {c : Prop} [Decidable c] {x y : Check β} {h : Bool → Bool}
    (hx : (if c then x else y).Flags g) (hf : ∀ b, (f b).Flags h) :
    (if c then x >>= f else y >>= f).Flags (h ∘ g) := by
  by_cases hc : c
  · simp only [hc, if_true] at hx ⊢
    exact hx.bind hf
  · simp only [hc, if_false] at hx ⊢
    exact hx.bind hf

theorem flags_ite_bind {c : Prop} [Decidable c] {x y : Check β} {b : Bool}
    (hf : ∀ a, (f a).Flags fun _ => b) :
    (if c then x >>= f else y >>= f).Flags fun _ => b := .ite (flags_bind hf) (flags_bind hf)

theorem flags_getReturns {f : Bool → Check α} {h : Bool → Bool → Bool}
    (hf : ∀ b, (f b).Flags (h b)) : (getReturns >>= f).Flags fun b => h b b :=
  fun st => hf st.returns st

theorem Flags.unlessFault {x : Check α} (hx : x.Flags id) (a : α) :
    (Check.unlessFault a x).Flags id := by
  intro st
  unfold Check.unlessFault
  split
  · rfl
  · exact hx st

theorem Flags.releasing {x : Check α} (hx : x.Flags g) : x.releasing.Flags g := hx

theorem flags_setReturns (b : Bool) : (setReturns b).Flags fun _ => b := fun _ => rfl

theorem flags_report (rs : List Report) : (report rs).Flags id :=
  Flags.unlessFault (x := fun st => ⟨(), rs, st⟩) (fun _ => rfl) ()

theorem flags_halt (f : Fault) : (halt f).Flags id :=
  Flags.unlessFault (x := fun st => ⟨(), [], { st with fault := some f }⟩) (fun _ => rfl) ()

theorem flags_newLocal (wordSize : Int) : (newLocal wordSize).Flags id := fun _ => rfl

theorem flags_ofInference (before : Expr) (i : Inference) : (ofInference before i).Flags id := by
  refine Flags.unlessFault ((flags_report _).then fun _ => ?_) _
  split
  · exact flags_pure
  · exact (flags_report _).then fun _ => flags_pure
  · exact (flags_halt _).then fun _ => flags_pure

end Check

namespace TypingContext

open Check

variable {c : TypingContext} {env : Env}

/-! ## Parts of statements -/

theorem flags_note (pos : Pos) (q : Problem) : (c.note pos q).Flags id := flags_report _

theorem flags_noted {α : Type} {b : Prop} [Decidable b] {pos : Pos} {q : Problem} {x : Check α}
    {g : Bool → Bool} (hx : x.Flags g) :
    (if b then (c.note pos q >>= fun _ => x) else x).Flags g :=
  .ite ((flags_note pos q).then fun _ => hx) hx

theorem flags_checkTest (kind : TestKind) (e : Expr) : (c.checkTest env kind e).Flags id := by
  refine (flags_ofInference _ _).then fun r => ?_
  dsimp only
  split
  · exact flags_pure
  · exact flags_pure
  · exact (flags_note _ _).then fun _ => flags_pure

theorem flags_checkExprStmt (pos : Pos) (e : Expr) : (c.checkExprStmt env pos e).Flags id := by
  refine (flags_ofInference _ _).then fun r => ?_
  dsimp only
  split
  · exact flags_pure
  · exact flags_pure
  · exact flags_pure
  · exact (flags_note _ _).then fun _ => flags_pure

theorem flags_checkInit (type : Ty) (name : String) (e : Expr) :
    (c.checkInit env type name e).Flags id := by
  refine .ite flags_pure ((flags_ofInference _ _).then fun r => ?_)
  dsimp only
  split
  · exact flags_pure
  · exact flags_noted flags_pure

theorem flags_checkLocals (scope : Nat) (type : Ty) (vars : List Local) :
    ∀ env, (c.checkLocals scope type env vars).Flags id := by
  induction vars with
  | nil => exact fun env => flags_pure
  | cons v vars ih =>
    intro env
    have hrest : ∀ init otherwise, (Check.unlessFault otherwise
        (Check.newLocal c.settings.wordSize >>= fun offset =>
          c.checkLocals scope type (⟨v.name, type, offset, false⟩ :: env) vars >>= fun r =>
            pure ({ v with init, binding := some ⟨v.name, type, offset, false⟩ } :: r.1,
              r.2))).Flags id := fun init otherwise =>
      .unlessFault ((flags_newLocal _).then fun _ => (ih _).then fun _ => flags_pure) _
    rw [checkLocals]
    refine (flags_checkInit _ _ _).then fun init => .ite ?_ (flags_noted (hrest init _))
    exact (flags_note _ _).then fun _ => hrest init _

theorem flags_checkReach (r : Reach) (s : Stmt) : (c.checkReach r s).Flags id := by
  unfold checkReach
  split
  · exact flags_halt _
  · exact flags_note _ _
  · exact flags_pure

theorem flags_checkLoopBody (kind : LoopKind) (body : Stmt) (step : Check (Stmt × Env)) :
    (c.checkLoopBody kind body step).Flags fun _ => false := by
  have hrest : (step.releasing >>= fun r => Check.setReturns false >>= fun _ => pure r.1).Flags
      fun _ => false :=
    flags_bind fun _ => (flags_setReturns false).last fun _ => flags_pure
  unfold checkLoopBody
  split
  · exact (flags_note _ _).then fun _ => hrest
  · exact hrest

/-! ## Statements -/

mutual

/-- The flag after a statement is computed from the tree. -/
theorem flags_checkStmt (f : Function) (inLoop : Bool) (scope : Nat) (env : Env) (s : Stmt) :
    (c.checkStmt f inLoop scope env s).Flags (s.returnsAfter ·) := by
  cases s with
  | absent =>
    rw [checkStmt]
    exact (flags_halt _).then fun _ => flags_pure
  | block pos stmts =>
    rw [checkStmt]
    exact (Flags.releasing (flags_checkStmts f inLoop _ env .reachable stmts)).last fun _ =>
      flags_pure
  | empty pos => exact flags_pure
  | expr pos e =>
    rw [checkStmt]
    exact (flags_checkExprStmt pos e).then fun _ => flags_pure
  | locals pos type vars =>
    rw [checkStmt]
    exact flags_noted ((flags_checkLocals scope type vars env).then fun _ => flags_pure)
  | cond pos test yes no =>
    have hno : (if no.isAbsent then pure (no, env) else c.checkStmt f inLoop scope env no).Flags
        (no.returnsAfter ·) := by
      cases no with
      | absent => exact flags_pure
      | _ => exact flags_checkStmt f inLoop scope env _
    have hbranches : ∀ test' yes', (Check.getReturns >>= fun yesReturns =>
        Check.setReturns false >>= fun _ =>
          if no.isAbsent then pure (no, env) >>= fun r => Check.getReturns >>= fun noReturns =>
            Check.setReturns (yesReturns && noReturns) >>= fun _ =>
              (pure (.cond pos test' yes' r.1, env) : Check (Stmt × Env))
          else c.checkStmt f inLoop scope env no >>= fun r => Check.getReturns >>= fun noReturns =>
            Check.setReturns (yesReturns && noReturns) >>= fun _ =>
              pure (.cond pos test' yes' r.1, env)).Flags
        fun b => b && no.returnsAfter false := fun test' yes' =>
      flags_getReturns fun yesReturns => (flags_setReturns false).bind fun _ =>
        hno.ite_bind (h := fun b => yesReturns && b) fun _ =>
          flags_getReturns (h := fun b _ => yesReturns && b) fun _ =>
            (flags_setReturns _).last fun _ => flags_pure
    rw [checkStmt]
    exact (flags_checkTest _ _).then fun test' => (flags_setReturns false).bind fun _ =>
      (flags_checkStmt f inLoop scope env yes).bind fun yes' => hbranches test' yes'.1
  | whileLoop pos test body =>
    rw [checkStmt]
    exact flags_bind fun _ => (flags_checkLoopBody _ _ _).last fun _ => flags_pure
  | forLoop pos init test step body =>
    rw [checkStmt]
    exact Flags.releasing <| flags_ite_bind fun _ => flags_ite_bind fun _ => flags_ite_bind fun _ =>
      (flags_checkLoopBody _ _ _).last fun _ => flags_pure
  | breakLoop pos =>
    rw [checkStmt]
    exact flags_noted ((flags_setReturns false).last fun _ => flags_pure)
  | continueLoop pos =>
    rw [checkStmt]
    exact flags_noted ((flags_setReturns false).last fun _ => flags_pure)
  | ret pos e =>
    rw [checkStmt]
    exact flags_bind fun _ => (flags_setReturns true).last fun _ => flags_pure

theorem flags_checkStmts (f : Function) (inLoop : Bool) (scope : Nat) (env : Env) (reach : Reach)
    (stmts : List Stmt) :
    (c.checkStmts f inLoop scope env reach stmts).Flags (Stmt.returnsAfterAll · stmts) := by
  cases stmts with
  | nil => exact flags_pure
  | cons s stmts =>
    rw [checkStmts]
    exact (flags_checkReach _ _).then fun _ => (flags_checkStmt f inLoop scope env s).bind fun r =>
      (flags_checkStmts f inLoop scope r.2 _ stmts).last fun _ => flags_pure

end

end TypingContext
end MiniCompiler
