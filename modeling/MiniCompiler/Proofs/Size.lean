import MiniCompiler.Proofs.Elaboration

/-!
# Sizes of trees

The size of a tree bounds how deep its code nests and how many locals it has. A tree is no larger than
the list of tokens that it was read from, and the checker does not change its size.
-/

namespace MiniCompiler

variable {ts : List Token} {c : TypingContext} {e : Expr} {env : Env} {allows : Feature → Bool}
  {fr fr' : Frame}

/-! ## Sizes -/

mutual

def Expr.size : Expr → Nat
  | .absent => 0
  | .int .. | .bool .. | .var .. => 1
  | .assign _ _ e | .unary _ _ e => e.size + 1
  | .call _ _ args _ => Expr.sizeAll args + 1
  | .arith _ _ l r | .comp _ _ l r | .logic _ _ l r => l.size + r.size + 1

/-- The size of the arguments of a call; each counts for itself too. -/
def Expr.sizeAll : List (Bool × Expr) → Nat
  | [] => 0
  | (_, e) :: args => e.size + 1 + Expr.sizeAll args

end

/-- The size of the variables of a declaration. -/
def Local.sizeAll : List Local → Nat
  | [] => 0
  | v :: vars => v.init.size + 1 + Local.sizeAll vars

mutual

def Stmt.size : Stmt → Nat
  | .absent | .empty _ | .breakLoop _ | .continueLoop _ => 0
  | .block _ stmts => Stmt.sizeAll stmts
  | .expr _ e | .ret _ e => e.size
  | .locals _ _ vars => Local.sizeAll vars
  | .cond _ test yes no => test.size + yes.size + no.size
  | .whileLoop _ test body => test.size + body.size
  | .forLoop _ init test step body => init.size + test.size + step.size + body.size

def Stmt.sizeAll : List Stmt → Nat
  | [] => 0
  | s :: stmts => s.size + Stmt.sizeAll stmts

end

def Function.size (f : Function) : Nat :=
  f.params.length + match f.body with
    | none => 0
    | some b => Stmt.sizeAll b.stmts

/-! ## Trees and tokens -/

theorem Expr.size_binary (p : Pos) (op : BinaryOp) (l r : Expr) :
    (Expr.binary p op l r).size = l.size + r.size + 1 := by
  cases op <;> rw [Expr.binary, Expr.size]

theorem Expr.sizeAll_map_le {more : List NextArg} (h : ∀ m ∈ more, m.arg.size ≤ m.tokens.length) :
    Expr.sizeAll ((more.map NextArg.arg).map (false, ·)) ≤
      (more.flatMap fun m => m.comma :: m.tokens).length := by
  induction more with
  | nil => simp [Expr.sizeAll]
  | cons m more ih =>
    have hm := h m (by simp)
    have hmore := ih fun m' hm' => h m' (by simp [hm'])
    simp only [List.map_cons, Expr.sizeAll, List.flatMap_cons, List.length_append, List.length_cons]
    omega

theorem Expr.Spelled.size_le {r : Rule} (h : Expr.Spelled r ts e) : e.size ≤ ts.length := by
  induction h with
  | assign _ _ _ ih | sign _ _ ih =>
    simp only [Expr.size, List.length_cons]
    omega
  | operators _ ih | operand _ _ ih | atom _ ih => exact ih
  | operation _ _ _ _ ihl ihr =>
    rw [Expr.size_binary]
    simp only [List.length_append, List.length_cons]
    omega
  | number | true | false | var => simp [Expr.size]
  | callEmpty => simp [Expr.size, Expr.sizeAll]
  | call _ _ _ _ _ _ ih ihmore =>
    have hmore := Expr.sizeAll_map_le ihmore
    simp only [List.map_cons, Expr.size, Expr.sizeAll, List.length_cons, List.length_append,
      List.length_nil]
    omega
  | parens _ _ _ ih =>
    simp only [List.length_cons, List.length_append, List.length_nil]
    omega

theorem Expr.SpelledOrAbsent.size_le (h : Expr.SpelledOrAbsent ts e) : e.size ≤ ts.length := by
  cases h with
  | absent => simp [Expr.size]
  | present he => exact he.size_le

theorem Local.Spelled.size_le {v : Local} (h : Local.Spelled ts v) :
    v.init.size + 1 ≤ ts.length := by
  cases h with
  | bare => simp [Expr.size]
  | init _ _ he =>
    have := he.size_le
    simp only [List.length_cons]
    omega

theorem Stmt.Declares.size_le {s : Stmt} (h : Stmt.Declares ts s) : s.size ≤ ts.length := by
  obtain ⟨-, hvars⟩ := h
  rw [Stmt.size]
  refine Nat.le_succ_of_le ?_
  induction hvars with
  | last hv =>
    have := hv.size_le
    simp only [Local.sizeAll]
    omega
  | next hv _ _ ih =>
    have := hv.size_le
    simp only [Local.sizeAll, List.length_append, List.length_cons]
    omega

theorem Stmt.SpelledInit.size_le {s : Stmt} (h : Stmt.SpelledInit ts s) : s.size ≤ ts.length := by
  cases h with
  | absent => simp [Stmt.size]
  | declares hs => exact hs.size_le
  | expr he => exact he.size_le

theorem Stmt.sizeAll_map_le {items : List (List Token × Stmt)}
    (h : ∀ i ∈ items, i.2.size ≤ i.1.length) :
    Stmt.sizeAll (items.map Prod.snd) ≤ (items.flatMap Prod.fst).length := by
  induction items with
  | nil => simp [Stmt.sizeAll]
  | cons i items ih =>
    have hi := h i (by simp)
    have hitems := ih fun j hj => h j (by simp [hj])
    simp only [List.map_cons, Stmt.sizeAll, List.flatMap_cons, List.length_append]
    omega

theorem Stmt.Spelled.size_le {s : Stmt} (h : Stmt.Spelled allows ts s) :
    s.size ≤ ts.length := by
  induction h with
  | block _ _ _ ih =>
    have := Stmt.sizeAll_map_le ih
    simp only [Stmt.size, List.length_cons, List.length_append]
    omega
  | empty | breakLoop | continueLoop => simp [Stmt.size]
  | locals hs =>
    have := hs.size_le
    rw [List.length_append]
    omega
  | cond _ _ htest _ _ ih =>
    have := htest.size_le
    simp only [Stmt.size, List.length_cons, List.length_append]
    omega
  | condElse _ _ htest _ _ _ _ _ ihyes ihno =>
    have := htest.size_le
    simp only [Stmt.size, List.length_cons, List.length_append]
    omega
  | whileLoop _ _ htest _ _ ih =>
    have := htest.size_le
    simp only [Stmt.size, List.length_cons, List.length_append]
    omega
  | forLoop _ _ _ hinit _ htest _ hstep _ _ ih =>
    have := hinit.size_le
    have := htest.size_le
    have := hstep.size_le
    simp only [Stmt.size, List.length_cons, List.length_append]
    omega
  | ret _ he =>
    have := he.size_le
    simp only [Stmt.size, List.length_cons, List.length_append]
    omega
  | expr he =>
    have := he.size_le
    simp only [Stmt.size, List.length_append]
    omega

theorem Param.SpelledAll.length_le {ps : List Param}
    (h : Param.SpelledAll allows ts ps) : ps.length ≤ ts.length := by
  cases h with
  | none => exact Nat.le_refl _
  | some hps =>
    induction hps with
    | last hp =>
      cases hp <;> simp
    | next _ _ _ ih =>
      simp only [List.length_cons, List.length_append]
      omega

/-- No function is larger than the text of its program. -/
theorem Program.Spelled.size_le {p : Program}
    (h : Program.Spelled allows ts p) : ∀ f ∈ p, f.size ≤ ts.length := by
  intro f hf
  obtain ⟨us, hus, hf⟩ := h.exists_function f hf
  refine Nat.le_trans ?_ hus.length_le
  cases hf with
  | prototype _ _ _ hps =>
    have := hps.length_le
    simp only [Function.size, List.length_cons, List.length_append]
    omega
  | definition _ _ _ hps _ hbody =>
    have := hps.length_le
    have := hbody.size_le
    simp only [Stmt.size] at this
    simp only [Function.size, List.length_cons, List.length_append]
    omega

/-! ## Sizes after checking -/

mutual

theorem Expr.Elab.size_eq {c : TypingContext} {env : Env} {e e' : Expr} {t : Ty}
    (h : Expr.Elab c env e e' t) : e'.size = e.size := by
  cases h with
  | int | bool | var => rfl
  | assign _ he => simp only [Expr.size, Expr.Elab.size_eq he]
  | neg he | not he => simp only [Expr.size, Expr.Elab.size_eq he]
  | call _ _ hargs => simp only [Expr.size, Expr.ElabArgs.size_eq hargs]
  | arith _ hl hr | order _ _ hl hr | equality _ hl hr | logic hl hr =>
    simp only [Expr.size, Expr.Elab.size_eq hl, Expr.Elab.size_eq hr]

theorem Expr.ElabArgs.size_eq {c : TypingContext} {env : Env} {ps : List Param}
    {args args' : List (Bool × Expr)} (h : Expr.ElabArgs c env ps args args') :
    Expr.sizeAll args' = Expr.sizeAll args := by
  cases h with
  | nil => rfl
  | cons he hargs => simp only [Expr.sizeAll, Expr.Elab.size_eq he, Expr.ElabArgs.size_eq hargs]

end

theorem Expr.ElabOrAbsent.size_eq {ok : Ty → Prop} {e' : Expr} (h : Expr.ElabOrAbsent c env ok e e') :
    e'.size = e.size := by
  cases h with
  | absent => rfl
  | present _ he => exact he.size_eq

theorem Expr.ElabEffect.size_eq {e' : Expr} (h : Expr.ElabEffect c env e e') :
    e'.size = e.size := by
  cases h with
  | value he => exact he.size_eq
  | call _ hargs => simp only [Expr.size, hargs.size_eq]

theorem Local.ElabAll.size_eq {type : Ty} {env' : Env} {vars vars' : List Local}
    (h : Local.ElabAll c type env fr vars vars' env' fr') :
    Local.sizeAll vars' = Local.sizeAll vars := by
  induction h with
  | nil => rfl
  | cons hinit _ _ ih => simp only [Local.sizeAll, hinit.size_eq, ih]

mutual

theorem Stmt.Elab.size_eq {c : TypingContext} {f : Function} {inLoop : Bool} {env env' : Env}
    {fr fr' : Frame} {s s' : Stmt} (h : Stmt.Elab c f inLoop env fr s s' env' fr') :
    s'.size = s.size := by
  cases h with
  | block hall => simp only [Stmt.size, Stmt.ElabAll.size_eq hall]
  | empty | breakLoop | continueLoop => rfl
  | expr he => simp only [Stmt.size, he.size_eq]
  | locals _ hvars => simp only [Stmt.size, hvars.size_eq]
  | cond htest hyes => simp only [Stmt.size, htest.size_eq, Stmt.Elab.size_eq hyes]
  | condElse htest hyes hno =>
    simp only [Stmt.size, htest.size_eq, Stmt.Elab.size_eq hyes, Stmt.Elab.size_eq hno]
  | whileLoop htest hbody => simp only [Stmt.size, htest.size_eq, Stmt.Elab.size_eq hbody]
  | forLoop htest hstep hbody =>
    simp only [Stmt.size, htest.size_eq, hstep.size_eq, Stmt.Elab.size_eq hbody]
  | forLoopInit hinit htest hstep hbody =>
    simp only [Stmt.size, Stmt.Elab.size_eq hinit, htest.size_eq, hstep.size_eq,
      Stmt.Elab.size_eq hbody]
  | ret he => simp only [Stmt.size, he.size_eq]

theorem Stmt.ElabAll.size_eq {c : TypingContext} {f : Function} {inLoop : Bool} {env env' : Env}
    {fr fr' : Frame} {stmts stmts' : List Stmt}
    (h : Stmt.ElabAll c f inLoop env fr stmts stmts' env' fr') :
    Stmt.sizeAll stmts' = Stmt.sizeAll stmts := by
  cases h with
  | nil => rfl
  | cons hs hall => simp only [Stmt.sizeAll, Stmt.Elab.size_eq hs, Stmt.ElabAll.size_eq hall]

end

/-! ## Frames -/

/-- A frame in which the locals in use are counted. -/
def Frame.Ok (fr : Frame) : Prop := 0 ≤ fr.live ∧ fr.live ≤ fr.peak

/-- Between two frames at most `k` places were taken. -/
structure Frame.Grows (fr fr' : Frame) (k : Nat) : Prop where
  live : fr.live ≤ fr'.live ∧ fr'.live ≤ fr.live + k
  peak : fr.peak ≤ fr'.peak ∧ fr'.peak ≤ max fr.peak (fr.live + k)
  ok : fr'.Ok

namespace Frame

theorem Grows.refl {fr : Frame} (h : fr.Ok) (k : Nat) : fr.Grows fr k := by
  obtain ⟨h₁, h₂⟩ := h
  exact ⟨⟨by omega, by omega⟩, ⟨by omega, by omega⟩, ⟨h₁, h₂⟩⟩

theorem Grows.trans {fr₁ fr₂ fr₃ : Frame} {k l : Nat} (h : fr₁.Grows fr₂ k) (h' : fr₂.Grows fr₃ l) :
    fr₁.Grows fr₃ (k + l) := by
  obtain ⟨⟨h₁, h₂⟩, ⟨h₃, h₄⟩, -⟩ := h
  obtain ⟨⟨h₁', h₂'⟩, ⟨h₃', h₄'⟩, hok⟩ := h'
  exact ⟨⟨by omega, by omega⟩, ⟨by omega, by omega⟩, hok⟩

theorem Grows.mono {k l : Nat} (h : fr.Grows fr' k) (hle : k ≤ l) :
    fr.Grows fr' l := by
  obtain ⟨⟨h₁, h₂⟩, ⟨h₃, h₄⟩, hok⟩ := h
  exact ⟨⟨by omega, by omega⟩, ⟨by omega, by omega⟩, hok⟩

theorem Grows.release {k : Nat} (h : fr.Grows fr' k) (hok : fr.Ok) :
    fr.Grows (fr'.release fr.live) k := by
  obtain ⟨⟨h₁, h₂⟩, ⟨h₃, h₄⟩, -⟩ := h
  obtain ⟨h₅, h₆⟩ := hok
  refine ⟨⟨by simp, ?_⟩, ⟨h₃, h₄⟩, ⟨h₅, ?_⟩⟩
  · simp only [release_live]
    omega
  · simp only [release_live, release_peak]
    omega

theorem grows_push {fr : Frame} (h : fr.Ok) (hlt : fr.live + 1 < wordBound) :
    fr.Grows fr.push 1 ∧ fr.push.live = fr.live + 1 := by
  obtain ⟨h₁, h₂⟩ := h
  have hlive : fr.push.live = fr.live + 1 := live_push (by unfold wordBound; omega) hlt
  have hpeak : fr.push.peak = max fr.peak (fr.live + 1) := by
    rw [← hlive]
    rfl
  refine ⟨⟨⟨by omega, by omega⟩, ⟨by omega, by omega⟩, ⟨by omega, by omega⟩⟩, hlive⟩

end Frame

theorem Local.ElabAll.grows {type : Ty} {env' : Env} {vars vars' : List Local}
    (h : Local.ElabAll c type env fr vars vars' env' fr') (hok : fr.Ok)
    (hlt : fr.live + Local.sizeAll vars < wordBound) : fr.Grows fr' (Local.sizeAll vars) := by
  -- the bound on what is live keeps the counters from wrapping
  induction h with
  | nil => exact .refl hok _
  | @cons env env' fr fr' v vars vars' init b hinit _ hall ih =>
    simp only [Local.sizeAll] at hlt ⊢
    obtain ⟨hpush, hlive⟩ := Frame.grows_push hok (by omega)
    have hrest := ih hpush.ok (by omega)
    exact (hpush.trans hrest).mono (by omega)

mutual

/-- The places that a statement takes are bounded by its size. -/
theorem Stmt.Elab.grows {c : TypingContext} {f : Function} {inLoop : Bool} {env env' : Env}
    {fr fr' : Frame} {s s' : Stmt} (h : Stmt.Elab c f inLoop env fr s s' env' fr') (hok : fr.Ok)
    (hlt : fr.live + s.size < wordBound) : fr.Grows fr' s.size := by
  cases h with
  | block hall => exact (Stmt.ElabAll.grows hall hok hlt).release hok
  | empty | expr | breakLoop | continueLoop | ret => exact .refl hok _
  | locals _ hvars => exact hvars.grows hok hlt
  | cond htest hyes =>
    simp only [Stmt.size] at hlt ⊢
    exact (Stmt.Elab.grows hyes hok (by omega)).mono (by omega)
  | condElse htest hyes hno =>
    simp only [Stmt.size] at hlt ⊢
    have h₁ := Stmt.Elab.grows hyes hok (by omega)
    have h₂ := Stmt.Elab.grows hno h₁.ok (by have := h₁.live.2; omega)
    exact (h₁.trans h₂).mono (by omega)
  | whileLoop htest hbody =>
    simp only [Stmt.size] at hlt ⊢
    exact ((Stmt.Elab.grows hbody hok (by omega)).mono (by omega)).release hok
  | forLoop htest hstep hbody =>
    simp only [Stmt.size] at hlt ⊢
    exact ((Stmt.Elab.grows hbody hok (by omega)).mono (by omega)).release hok
  | forLoopInit hinit htest hstep hbody =>
    simp only [Stmt.size] at hlt ⊢
    have h₁ := Stmt.Elab.grows hinit hok (by omega)
    have h₂ := Stmt.Elab.grows hbody h₁.ok (by have := h₁.live.2; omega)
    exact ((h₁.trans h₂).mono (by omega)).release hok

theorem Stmt.ElabAll.grows {c : TypingContext} {f : Function} {inLoop : Bool} {env env' : Env}
    {fr fr' : Frame} {stmts stmts' : List Stmt}
    (h : Stmt.ElabAll c f inLoop env fr stmts stmts' env' fr') (hok : fr.Ok)
    (hlt : fr.live + Stmt.sizeAll stmts < wordBound) : fr.Grows fr' (Stmt.sizeAll stmts) := by
  cases h with
  | nil => exact .refl hok _
  | cons hs hall =>
    simp only [Stmt.sizeAll] at hlt ⊢
    have h₁ := Stmt.Elab.grows hs hok (by omega)
    have h₂ := Stmt.ElabAll.grows hall h₁.ok (by have := h₁.live.2; omega)
    exact h₁.trans h₂

end

/-- The frame of a function has at most one word for each part of its size. -/
theorem Function.Elab.frameBytes_le {f f' : Function} (h : Function.Elab c f f')
    (hdef : f'.isPrototype = false) (hlt : f.size < wordBound) (hword : 0 ≤ c.settings.wordSize) :
    0 ≤ f'.frameBytes ∧ f'.frameBytes ≤ f.size * c.settings.wordSize := by
  cases h with
  | prototype hproto => simp [hdef] at hproto
  | @definition b params env env' reports stmts fr returns _ hbody _ hall =>
    have hsize : (Stmt.sizeAll b.stmts : Int) ≤ f.size := by
      simp only [Function.size, hbody]
      omega
    have hgrows := hall.grows ⟨Int.le_refl 0, Int.le_refl 0⟩ (by simp only; omega)
    have hpeak : 0 ≤ fr.peak ∧ fr.peak ≤ f.size := by
      have := hgrows.peak
      simp only at this
      omega
    exact ⟨Int.mul_nonneg hpeak.1 hword, Int.mul_le_mul_of_nonneg_right hpeak.2 hword⟩

end MiniCompiler
