import MiniCompiler.Proofs.Annotation
import MiniCompiler.Proofs.Size
import MiniCompiler.Token.Scan

/-!
# Places of variables

At every place of a function that the checker comes to, accepted or not, the variables in scope lie in
words that do not overlap: the parameters above the base pointer, the locals in the frame below it.

The places are read off the tree that the checker returns (`Stmt.points`): its declarations carry the
bindings, so the environment of a place follows from the tree. What the checker looks up at a place it
looks up in that environment (`Point.Looks`).

The frame counts the locals in use, and a scope that ends gives its places back. The branches of a
conditional do not: a local that they declare leaves the environment but keeps its place. So the
invariant is not that the environment has as many locals as the frame, but that all of them lie in the
words that are in use (`Env.Fits`).
-/

namespace MiniCompiler

variable {c : TypingContext} {ts : List Token} {fr fr' : Frame} {s : Stmt} {e : Expr}
  {env env' : Env}

/-! ## Points of a tree -/

/-- A place in the body of a function: the variables in scope, and the expression that is looked at
    there, if there is one. -/
structure Point where
  env : Env
  expr : Expr

/-- The environment after a variable of a declaration. -/
def Local.bind (env : Env) (v : Local) : Env := v.binding.toList ++ env

/-- The points of a declaration: before each variable and after the last. -/
def Local.points : Env → List Local → List Point
  | env, [] => [⟨env, .absent⟩]
  | env, v :: vars => ⟨env, v.init⟩ :: Local.points (v.bind env) vars

/-- The environment after a statement. -/
def Stmt.envAfter (env : Env) : Stmt → Env
  | .locals _ _ vars => vars.foldl Local.bind env
  | _ => env

mutual

/-- The points of a statement that starts with the variables of `env` in scope. -/
def Stmt.points (env : Env) : Stmt → List Point
  | .absent => []
  | .block _ stmts => Stmt.pointsAll env stmts
  | .empty _ | .breakLoop _ | .continueLoop _ => [⟨env, .absent⟩]
  | .expr _ e | .ret _ e => [⟨env, e⟩]
  | .locals _ _ vars => Local.points env vars
  | .cond _ test yes no => ⟨env, test⟩ :: (yes.points env ++ no.points env)
  | .whileLoop _ test body => ⟨env, test⟩ :: body.points env
  | .forLoop _ init test step body =>
    init.points env ++ ⟨init.envAfter env, test⟩ :: ⟨init.envAfter env, step⟩ ::
      body.points (init.envAfter env)

/-- The points of statements one after the other, and the one after the last of them. -/
def Stmt.pointsAll (env : Env) : List Stmt → List Point
  | [] => [⟨env, .absent⟩]
  | s :: stmts => s.points env ++ Stmt.pointsAll (s.envAfter env) stmts

end

mutual

/-- The variables that a statement declares, with their types. -/
def Stmt.declared : Stmt → List (Ty × Local)
  | .absent | .empty _ | .breakLoop _ | .continueLoop _ | .expr .. | .ret .. => []
  | .block _ stmts => Stmt.declaredAll stmts
  | .locals _ type vars => vars.map (type, ·)
  | .cond _ _ yes no => yes.declared ++ no.declared
  | .whileLoop _ _ body => body.declared
  | .forLoop _ init _ _ body => init.declared ++ body.declared

/-- The variables that statements declare. -/
def Stmt.declaredAll : List Stmt → List (Ty × Local)
  | [] => []
  | s :: stmts => s.declared ++ Stmt.declaredAll stmts

end

mutual

/-- The variables that an expression names. -/
def Expr.variables : Expr → List Variable
  | .absent | .int .. | .bool .. => []
  | .var v => [v]
  | .assign _ v e => v :: e.variables
  | .call _ _ args _ => Expr.variablesAll args
  | .unary _ _ e => e.variables
  | .arith _ _ l r | .comp _ _ l r | .logic _ _ l r => l.variables ++ r.variables

/-- The variables that arguments name. -/
def Expr.variablesAll : List (Bool × Expr) → List Variable
  | [] => []
  | (_, e) :: args => e.variables ++ Expr.variablesAll args

end

def Function.paramEnv (f : Function) : Env := (f.params.filterMap Param.binding).reverse

/-! ## Words that do not overlap -/

/-- The words of two variables do not overlap. -/
def Binding.Apart (wordSize : Int) (a b : Binding) : Prop :=
  a.offset + wordSize ≤ b.offset ∨ b.offset + wordSize ≤ a.offset

/-- The variables of `env` are those of `base` and locals, which lie in the first `live` words below the
    base pointer, and their words do not overlap. -/
structure Env.Fits (wordSize : Int) (base : Env) (live : Int) (env : Env) : Prop where
  apart : env.Pairwise (Binding.Apart wordSize)
  places : ∀ b ∈ env, b ∈ base ∨ ∃ k, 1 ≤ k ∧ k ≤ live ∧ b.offset = -(k * wordSize)

namespace Env.Fits

variable {W live live' : Int} {base env : Env} {vars vars' : List Local} {type : Ty}

theorem mono (h : Env.Fits W base live env) (hle : live ≤ live') : Env.Fits W base live' env := by
  refine ⟨h.apart, fun b hb => ?_⟩
  obtain hbase | ⟨k, hk, hlive, hoffset⟩ := h.places b hb
  · exact .inl hbase
  · exact .inr ⟨k, hk, Int.le_trans hlive hle, hoffset⟩

/-- The next word below those in use is apart from all of them. -/
theorem cons (h : Env.Fits W base live env) (hW : 0 < W) (hbase : ∀ b ∈ base, 0 ≤ b.offset)
    (hlive : 0 ≤ live) {b : Binding} (hb : b.offset = -((live + 1) * W)) :
    Env.Fits W base (live + 1) (b :: env) := by
  constructor
  · refine List.pairwise_cons.2 ⟨fun a ha => .inl ?_, h.apart⟩
    obtain hmem | ⟨k, -, hk, hoffset⟩ := h.places a ha
    · have h₁ := hbase a hmem
      have h₂ : 0 ≤ live * W := Int.mul_nonneg hlive (by omega)
      rw [hb, Int.add_mul]
      omega
    · have h₁ : k * W ≤ live * W := Int.mul_le_mul_of_nonneg_right hk (by omega)
      rw [hb, hoffset, Int.add_mul]
      omega
  · intro a ha
    obtain rfl | ha := List.mem_cons.1 ha
    · exact .inr ⟨live + 1, by omega, by omega, hb⟩
    · exact (h.mono (by omega)).places a ha

end Env.Fits

/-! ## Frames -/

theorem Local.AnnotatesAll.grows
    (h : Local.AnnotatesAll c type env fr vars vars' env' fr') (hok : fr.Ok)
    (hlt : fr.live + Local.sizeAll vars < wordBound) : fr.Grows fr' (Local.sizeAll vars) := by
  induction h with
  | nil => exact .refl hok _
  | cons _ _ ih =>
    simp only [Local.sizeAll] at hlt ⊢
    obtain ⟨hpush, hlive⟩ := Frame.grows_push hok (by omega)
    exact (hpush.trans (ih hpush.ok (by omega))).mono (by omega)

mutual

/-- The places that a statement takes are bounded by its size. -/
theorem Stmt.Annotates.grows {c : TypingContext} {env env' : Env} {fr fr' : Frame} {s s' : Stmt}
    (h : Stmt.Annotates c env fr s s' env' fr') (hok : fr.Ok)
    (hlt : fr.live + s.size < wordBound) : fr.Grows fr' s.size := by
  cases h with
  | block hall => exact (Stmt.AnnotatesAll.grows hall hok hlt).release hok
  | absent | empty | expr | breakLoop | continueLoop | ret => exact .refl hok _
  | locals hvars => exact hvars.grows hok hlt
  | cond hyes hno =>
    simp only [Stmt.size] at hlt ⊢
    have h₁ := Stmt.Annotates.grows hyes hok (by omega)
    have h₂ := Stmt.Annotates.grows hno h₁.ok (by have := h₁.live.2; omega)
    exact (h₁.trans h₂).mono (by omega)
  | whileLoop hbody =>
    simp only [Stmt.size] at hlt ⊢
    exact ((Stmt.Annotates.grows hbody hok (by omega)).mono (by omega)).release hok
  | forLoop hinit hbody =>
    simp only [Stmt.size] at hlt ⊢
    have h₁ := Stmt.Annotates.grows hinit hok (by omega)
    have h₂ := Stmt.Annotates.grows hbody h₁.ok (by have := h₁.live.2; omega)
    exact ((h₁.trans h₂).mono (by omega)).release hok

theorem Stmt.AnnotatesAll.grows {c : TypingContext} {env env' : Env} {fr fr' : Frame}
    {stmts stmts' : List Stmt} (h : Stmt.AnnotatesAll c env fr stmts stmts' env' fr') (hok : fr.Ok)
    (hlt : fr.live + Stmt.sizeAll stmts < wordBound) : fr.Grows fr' (Stmt.sizeAll stmts) := by
  cases h with
  | nil => exact .refl hok _
  | cons hs hall =>
    simp only [Stmt.sizeAll] at hlt ⊢
    have h₁ := Stmt.Annotates.grows hs hok (by omega)
    have h₂ := Stmt.AnnotatesAll.grows hall h₁.ok (by have := h₁.live.2; omega)
    exact h₁.trans h₂

end

/-! ## Environments -/

theorem Local.AnnotatesAll.env_eq
    (h : Local.AnnotatesAll c type env fr vars vars' env' fr') :
    env' = vars'.foldl Local.bind env := by
  induction h with
  | nil => rfl
  | cons _ _ ih => exact ih

/-- The environment after a statement follows from the tree. -/
theorem Stmt.Annotates.env_eq {s' : Stmt} (h : Stmt.Annotates c env fr s s' env' fr') :
    env' = s'.envAfter env := by
  cases h with
  | locals hvars => exact hvars.env_eq
  | _ => rfl

/-- At the second point the checker left what it found for the expression of the first, looking it up in
    the environment of the second. -/
def Point.Looks (c : TypingContext) (source checked : Point) : Prop :=
  checked.expr = (c.infer checked.env source.expr).expr ∨
    checked.expr = (c.inferStatement checked.env source.expr).expr

theorem Local.AnnotatesAll.looks
    (h : Local.AnnotatesAll c type env fr vars vars' env' fr') :
    ∀ start, List.Forall₂ (Point.Looks c) (Local.points start vars) (Local.points env vars') := by
  induction h with
  | nil => exact fun _ => .cons (.inl rfl) .nil
  | cons _ _ ih => exact fun _ => .cons (.inl rfl) (ih _)

mutual

theorem Stmt.Annotates.looks {c : TypingContext} {env env' : Env} {fr fr' : Frame} {s s' : Stmt}
    (h : Stmt.Annotates c env fr s s' env' fr') (start : Env) :
    List.Forall₂ (Point.Looks c) (s.points start) (s'.points env) := by
  cases h with
  | absent => exact .nil
  | block hall => exact Stmt.AnnotatesAll.looks hall start
  | empty | breakLoop | continueLoop | ret => exact .cons (.inl rfl) .nil
  | expr => exact .cons (.inr rfl) .nil
  | locals hvars => exact hvars.looks start
  | cond hyes hno =>
    exact .cons (.inl rfl) (List.rel_append (Stmt.Annotates.looks hyes start)
      (Stmt.Annotates.looks hno start))
  | whileLoop hbody => exact .cons (.inl rfl) (Stmt.Annotates.looks hbody start)
  | forLoop hinit hbody =>
    rw [Stmt.points, Stmt.points, ← hinit.env_eq]
    exact List.rel_append (Stmt.Annotates.looks hinit start)
      (.cons (.inl rfl) (.cons (.inl rfl) (Stmt.Annotates.looks hbody _)))

theorem Stmt.AnnotatesAll.looks {c : TypingContext} {env env' : Env} {fr fr' : Frame}
    {stmts stmts' : List Stmt} (h : Stmt.AnnotatesAll c env fr stmts stmts' env' fr') (start : Env) :
    List.Forall₂ (Point.Looks c) (Stmt.pointsAll start stmts) (Stmt.pointsAll env stmts') := by
  cases h with
  | nil => exact .cons (.inl rfl) .nil
  | cons hs hall =>
    rw [Stmt.pointsAll, Stmt.pointsAll, ← hs.env_eq]
    exact List.rel_append (Stmt.Annotates.looks hs start) (Stmt.AnnotatesAll.looks hall _)

end

/-! ## Places -/

/-- A declared variable has a place of its own among the first `peak` words below the base pointer. -/
def Local.Placed (wordSize peak : Int) (d : Ty × Local) : Prop :=
  ∃ k, 1 ≤ k ∧ k ≤ peak ∧ d.2.binding = some ⟨d.2.name, d.1, -(k * wordSize), false⟩

/-- What holds of the part of a tree that was checked up to the frame `fr` and the environment
    `env`. -/
structure Laid (wordSize : Int) (base : Env) (fr : Frame) (env : Env) (points : List Point)
    (declared : List (Ty × Local)) : Prop where
  fits : Env.Fits wordSize base fr.live env
  points : ∀ pt ∈ points, Env.Fits wordSize base fr.peak pt.env
  declared : ∀ d ∈ declared, Local.Placed wordSize fr.peak d

section Laid

variable {c : TypingContext} {base : Env} {env env' : Env} {fr fr' : Frame}
variable {W : Int} {declared : List (Ty × Local)} {points : List Point}

theorem Local.AnnotatesAll.laid (hW : 0 < c.settings.wordSize) (hbase : ∀ b ∈ base, 0 ≤ b.offset)
    (h : Local.AnnotatesAll c type env fr vars vars' env' fr') (hok : fr.Ok)
    (hlt : fr.live + Local.sizeAll vars < wordBound)
    (hfits : Env.Fits c.settings.wordSize base fr.live env) :
    Laid c.settings.wordSize base fr' env' (Local.points env vars') (vars'.map (type, ·)) := by
  induction h with
  | nil =>
    refine ⟨hfits, ?_, by simp⟩
    intro pt hpt
    cases List.mem_singleton.1 hpt
    exact hfits.mono hok.2
  | @cons env env' fr fr' v vars vars' b hb hall ih =>
    simp only [Local.sizeAll] at hlt
    obtain ⟨hpush, hlive⟩ := Frame.grows_push hok (by omega)
    have hoffset : b.offset = -((fr.live + 1) * c.settings.wordSize) := by
      rw [hb]
      simp only [Frame.offset, hlive]
      exact Int.neg_mul ..
    have hgrows := hall.grows hpush.ok (by omega)
    obtain ⟨hend, hpoints, hdeclared⟩ := ih hpush.ok (by omega)
      (hlive ▸ hfits.cons hW hbase hok.1 hoffset)
    have hpeak := hgrows.peak.1
    have hpeak' := hpush.peak.1
    have hok' := hok.2
    refine ⟨hend, ?_, ?_⟩
    · intro pt hpt
      obtain rfl | hpt := List.mem_cons.1 hpt
      · exact hfits.mono (by omega)
      · exact hpoints pt hpt
    · intro d hd
      obtain rfl | hd := List.mem_cons.1 hd
      · have hlast := hpush.ok.2
        refine ⟨fr.live + 1, by have := hok.1; omega, by omega, ?_⟩
        rw [← hoffset, hb]
      · exact hdeclared d hd

section

variable (h : Laid W base fr env points declared)

include h

/-- What was laid out stays so when the frame grows, and the environment may be any that fits. -/
theorem Laid.mono (hpeak : fr.peak ≤ fr'.peak)
    (hfits : Env.Fits W base fr'.live env') : Laid W base fr' env' points declared := by
  refine ⟨hfits, fun pt hpt => (h.points pt hpt).mono hpeak, fun d hd => ?_⟩
  obtain ⟨k, hk, hle, hb⟩ := h.declared d hd
  exact ⟨k, hk, Int.le_trans hle hpeak, hb⟩

/-- The end of a scope gives its places back. -/
theorem Laid.release {live : Int} (hfits : Env.Fits W base live env') :
    Laid W base (fr.release live) env' points declared := h.mono (Int.le_refl _) hfits

theorem Laid.append {points' : List Point} {declared' : List (Ty × Local)}
    (h' : Laid W base fr env points' declared') :
    Laid W base fr env (points ++ points') (declared ++ declared') := by
  refine ⟨h.fits, fun pt hpt => ?_, fun d hd => ?_⟩
  · obtain hpt | hpt := List.mem_append.1 hpt
    · exact h.points pt hpt
    · exact h'.points pt hpt
  · obtain hd | hd := List.mem_append.1 hd
    · exact h.declared d hd
    · exact h'.declared d hd

/-- Another point with an environment that fits. -/
theorem Laid.cons {pt : Point}
    (hpt : Env.Fits W base fr.peak pt.env) : Laid W base fr env (pt :: points) declared := by
  refine ⟨h.fits, fun pt' hmem => ?_, h.declared⟩
  obtain rfl | hmem := List.mem_cons.1 hmem
  · exact hpt
  · exact h.points pt' hmem

end

theorem laid_nil (h : Env.Fits W base fr.live env) : Laid W base fr env [] [] :=
  ⟨h, by simp, by simp⟩

end Laid

mutual

/-- At every point of a statement the variables in scope have places of their own. -/
theorem Stmt.Annotates.laid {c : TypingContext} {base env env' : Env} {fr fr' : Frame} {s s' : Stmt}
    (hW : 0 < c.settings.wordSize) (hbase : ∀ b ∈ base, 0 ≤ b.offset)
    (h : Stmt.Annotates c env fr s s' env' fr') (hok : fr.Ok) (hlt : fr.live + s.size < wordBound)
    (hfits : Env.Fits c.settings.wordSize base fr.live env) :
    Laid c.settings.wordSize base fr' env' (s'.points env) s'.declared := by
  have hstart := hfits.mono hok.2
  cases h with
  | absent => exact laid_nil hfits
  | block hall =>
    exact (Stmt.AnnotatesAll.laid hW hbase hall hok hlt hfits).release hfits
  | empty | breakLoop | continueLoop | expr | ret => exact (laid_nil hfits).cons hstart
  | locals hvars => exact hvars.laid hW hbase hok hlt hfits
  -- the second branch starts above the places of the first, which the environment does not have
  | @cond _ _ _ _ fr₁ _ _ _ _ _ _ _ hyes hno =>
    simp only [Stmt.size] at hlt
    have hgrows := hyes.grows hok (by omega)
    have hlive := hgrows.live
    have hgrows' := hno.grows hgrows.ok (by omega)
    have hfits' := hfits.mono hlive.1
    have hfits'' := hfits'.mono hgrows'.live.1
    have hyes' := Stmt.Annotates.laid hW hbase hyes hok (by omega) hfits
    have hno' := Stmt.Annotates.laid hW hbase hno hgrows.ok (by omega) hfits'
    exact ((hyes'.mono hgrows'.peak.1 hfits'').append (hno'.mono (Int.le_refl _) hfits'')).cons
      (hfits''.mono hgrows'.ok.2)
  | whileLoop hbody =>
    simp only [Stmt.size] at hlt
    have hgrows := hbody.grows hok (by omega)
    have hbody' := Stmt.Annotates.laid hW hbase hbody hok (by omega) hfits
    exact (hbody'.release hfits).cons (hstart.mono hgrows.peak.1)
  | forLoop hinit hbody =>
    simp only [Stmt.size] at hlt
    have hgrows := hinit.grows hok (by omega)
    have hlive := hgrows.live
    have hgrows' := hbody.grows hgrows.ok (by omega)
    have hinit' := Stmt.Annotates.laid hW hbase hinit hok (by omega) hfits
    have hbody' := Stmt.Annotates.laid hW hbase hbody hgrows.ok (by omega) hinit'.fits
    have hinner := (hinit'.fits.mono hgrows.ok.2).mono hgrows'.peak.1
    rw [Stmt.points, Stmt.declared, ← hinit.env_eq]
    exact ((hinit'.mono hgrows'.peak.1 hbody'.fits).append
      ((hbody'.cons hinner).cons hinner)).release hfits

theorem Stmt.AnnotatesAll.laid {c : TypingContext} {base env env' : Env} {fr fr' : Frame}
    {stmts stmts' : List Stmt} (hW : 0 < c.settings.wordSize) (hbase : ∀ b ∈ base, 0 ≤ b.offset)
    (h : Stmt.AnnotatesAll c env fr stmts stmts' env' fr') (hok : fr.Ok)
    (hlt : fr.live + Stmt.sizeAll stmts < wordBound)
    (hfits : Env.Fits c.settings.wordSize base fr.live env) :
    Laid c.settings.wordSize base fr' env' (Stmt.pointsAll env stmts') (Stmt.declaredAll stmts') := by
  cases h with
  | nil => exact (laid_nil hfits).cons (hfits.mono hok.2)
  | cons hs hall =>
    simp only [Stmt.sizeAll] at hlt
    have hgrows := hs.grows hok (by omega)
    have hlive := hgrows.live
    have hgrows' := hall.grows hgrows.ok (by omega)
    have hs' := Stmt.Annotates.laid hW hbase hs hok (by omega) hfits
    have hall' := Stmt.AnnotatesAll.laid hW hbase hall hgrows.ok (by omega) hs'.fits
    rw [Stmt.pointsAll, ← hs.env_eq]
    exact (hs'.mono hgrows'.peak.1 hall'.fits).append hall'

end

/-! ## Resolved variables -/

/-- The variables that have a binding have the one that `env` gives their name. -/
def Variable.ResolvedIn (env : Env) (vs : List Variable) : Prop :=
  ∀ v ∈ vs, ∀ b, v.binding = some b → env.find? v.name = some b

namespace Variable

variable {env : Env} {vs ws : List Variable}

@[simp]
theorem resolvedIn_nil : ResolvedIn env [] := by simp [ResolvedIn]

@[simp]
theorem resolvedIn_append : ResolvedIn env (vs ++ ws) ↔ ResolvedIn env vs ∧ ResolvedIn env ws := by
  simp only [ResolvedIn, List.mem_append]
  grind

@[simp]
theorem resolvedIn_cons {v : Variable} : ResolvedIn env (v :: vs) ↔
    (∀ b, v.binding = some b → env.find? v.name = some b) ∧ ResolvedIn env vs := by
  simp [ResolvedIn]

theorem resolve_resolved (v : Variable) (env : Env) :
    ∀ b, (v.resolve env).binding = some b → env.find? (v.resolve env).name = some b :=
  fun _ h => h

end Variable

namespace TypingContext

open Variable

variable {c : TypingContext} {env : Env}

theorem resolvedIn_pair {l r : Inference} {before : Expr} {node : Expr → Expr → Expr}
    {result : Ty → Ty → Except Halt Ty}
    (hnode : ∀ l r, (node l r).variables = l.variables ++ r.variables)
    (hl : ResolvedIn env l.expr.variables) (hr : ResolvedIn env r.expr.variables)
    (hbefore : ResolvedIn env before.variables) :
    ResolvedIn env (l.pair r before node result).expr.variables := by
  unfold Inference.pair
  split
  · rw [hnode, resolvedIn_append]
    exact ⟨hl, hbefore⟩
  · rw [hnode, resolvedIn_append]
    exact ⟨hl, hr⟩

theorem resolvedIn_inferCall {allowVoid : Bool} {pos : Pos} {name : String}
    {args : List (Bool × Expr)} {callee : Option Nat} {look : Function → ArgsInference}
    (hargs : ResolvedIn env (Expr.variablesAll args))
    (hlook : ∀ f, ResolvedIn env (Expr.variablesAll (look f).args)) :
    ResolvedIn env (c.inferCall allowVoid pos name args callee look).expr.variables := by
  unfold inferCall
  split
  · exact hargs
  · split
    · exact hargs
    · exact hlook _

mutual

/-- The search for a type binds variables as the environment says. -/
theorem resolvedIn_infer (e : Expr) (h : ResolvedIn env e.variables) :
    ResolvedIn env (c.infer env e).expr.variables := by
  cases e with
  | absent | int | bool => exact h
  | var v => simpa [infer, Expr.variables] using resolve_resolved v env
  | assign pos v e =>
    simp only [Expr.variables, resolvedIn_cons] at h
    rw [infer]
    split
    · simpa [Expr.variables, h.2] using resolve_resolved v env
    · simpa [Expr.variables, resolvedIn_infer e h.2] using resolve_resolved v env
  | call pos name args callee =>
    rw [infer]
    exact resolvedIn_inferCall h fun f => resolvedIn_inferArgs name 1 f.params args h
  | unary pos op e =>
    rw [Expr.variables] at h
    have he := resolvedIn_infer e h
    by_cases hint : op = .neg ∧ ∃ q n, e = .int q n
    · obtain ⟨rfl, q, n, rfl⟩ := hint
      exact h
    · rw [infer]
      · exact he
      · rintro q n rfl rfl
        exact hint ⟨rfl, q, n, rfl⟩
  | arith pos op l r =>
    simp only [Expr.variables, resolvedIn_append] at h
    rw [infer]
    exact resolvedIn_pair (fun _ _ => rfl) (resolvedIn_infer l h.1) (resolvedIn_infer r h.2) h.2
  | comp pos op l r =>
    simp only [Expr.variables, resolvedIn_append] at h
    have hl := resolvedIn_infer l h.1
    have hr := resolvedIn_infer r h.2
    rw [infer]
    split
    · exact resolvedIn_pair (fun _ _ => rfl) hl hr h.2
    · exact resolvedIn_pair (fun _ _ => rfl) hl hr h.2
  | logic pos op l r =>
    simp only [Expr.variables, resolvedIn_append] at h
    rw [infer]
    exact resolvedIn_pair (fun _ _ => rfl) (resolvedIn_infer l h.1) (resolvedIn_infer r h.2) h.2

theorem resolvedIn_inferArgs (name : String) (i : Nat) (ps : List Param)
    (args : List (Bool × Expr)) (h : ResolvedIn env (Expr.variablesAll args)) :
    ResolvedIn env (Expr.variablesAll (c.inferArgs env name i ps args).args) := by
  cases args with
  | nil =>
    rw [inferArgs]
    · exact h
    · simp
  | cons a args =>
    obtain ⟨mark, e⟩ := a
    simp only [Expr.variablesAll, resolvedIn_append] at h
    have he := resolvedIn_infer e h.1
    cases ps with
    | nil =>
      rw [inferArgs]
      · simpa only [Expr.variablesAll, resolvedIn_append] using h
      · simp
    | cons q ps =>
      rw [inferArgs]
      dsimp only
      split
      · simpa only [Expr.variablesAll, resolvedIn_append] using ⟨he, h.2⟩
      · split
        · simpa only [Expr.variablesAll, resolvedIn_append] using ⟨he, h.2⟩
        · simpa only [Expr.variablesAll, resolvedIn_append] using
            ⟨he, resolvedIn_inferArgs name (i + 1) ps args h.2⟩

end

theorem resolvedIn_inferStatement (e : Expr) (h : ResolvedIn env e.variables) :
    ResolvedIn env (c.inferStatement env e).expr.variables := by
  by_cases hcall : ∃ pos name args callee, e = .call pos name args callee
  · obtain ⟨pos, name, args, callee, rfl⟩ := hcall
    exact resolvedIn_inferCall h fun f => resolvedIn_inferArgs name 1 f.params args h
  · rw [inferStatement]
    · exact resolvedIn_infer e h
    · rintro pos name args callee rfl
      exact hcall ⟨pos, name, args, callee, rfl⟩

end TypingContext

theorem Point.Looks.resolvedIn {source checked : Point} (h : Point.Looks c source checked)
    (hsource : Variable.ResolvedIn checked.env source.expr.variables) :
    Variable.ResolvedIn checked.env checked.expr.variables := by
  obtain h | h := h
  · rw [h]
    exact TypingContext.resolvedIn_infer _ hsource
  · rw [h]
    exact TypingContext.resolvedIn_inferStatement _ hsource

/-! ## Trees as they are read -/

/-- An expression whose variables have no bindings yet. -/
def Expr.Unbound (e : Expr) : Prop := ∀ v ∈ e.variables, v.binding = none

theorem Expr.unbound_absent : Expr.absent.Unbound := by simp [Expr.Unbound, Expr.variables]

theorem Expr.Unbound.resolvedIn (h : e.Unbound) (env : Env) :
    Variable.ResolvedIn env e.variables := by
  intro v hv b hb
  rw [h v hv] at hb
  cases hb

theorem Expr.mem_variablesAll {v : Variable} {args : List (Bool × Expr)} :
    v ∈ Expr.variablesAll args ↔ ∃ a ∈ args, v ∈ a.2.variables := by
  induction args with
  | nil => simp [Expr.variablesAll]
  | cons a args ih => simp [Expr.variablesAll, ih]

theorem Expr.Spelled.unbound {r : Rule} (h : Expr.Spelled r ts e) : e.Unbound := by
  induction h with
  | assign _ _ _ ih =>
    intro v hv
    obtain rfl | hv := List.mem_cons.1 hv
    · rfl
    · exact ih v hv
  | operators _ ih | operand _ _ ih | atom _ ih | parens _ _ _ ih | sign _ _ ih => exact ih
  | @operation r r' op ts us left right _ _ _ _ ihl ihr =>
    intro v hv
    have hv : v ∈ left.variables ++ right.variables := by
      cases hop : BinaryOp.ofKind op.kind <;> simpa [hop, Expr.binary, Expr.variables] using hv
    obtain hv | hv := List.mem_append.1 hv
    · exact ihl v hv
    · exact ihr v hv
  | number | true | false | callEmpty => simp [Expr.Unbound, Expr.variables, Expr.variablesAll]
  | var => simp [Expr.Unbound, Expr.variables]
  | call _ _ _ _ _ _ ih ihmore =>
    intro v hv
    obtain ⟨a, ha, hv⟩ := Expr.mem_variablesAll.1 hv
    simp only [List.map_cons, List.map_map, List.mem_cons, List.mem_map, Function.comp] at ha
    obtain rfl | ⟨m, hm, rfl⟩ := ha
    · exact ih v hv
    · exact ihmore m hm v hv

theorem Expr.SpelledOrAbsent.unbound (h : Expr.SpelledOrAbsent ts e) : e.Unbound := by
  cases h with
  | absent => exact Expr.unbound_absent
  | present he => exact he.unbound

/-- A statement whose expressions have no bindings yet. -/
def Stmt.Unbound (s : Stmt) : Prop := ∀ start, ∀ pt ∈ s.points start, pt.expr.Unbound

theorem Stmt.Declares.unbound (h : Stmt.Declares ts s) : s.Unbound := by
  obtain ⟨-, hvars⟩ := h
  intro start pt hpt
  rw [Stmt.points] at hpt
  have hlocal {ts : List Token} {v : Local} (hv : Local.Spelled ts v) : v.init.Unbound := by
    cases hv with
    | bare => exact Expr.unbound_absent
    | init _ _ he => exact he.unbound
  induction hvars generalizing start with
  | last hv =>
    simp only [Local.points, List.mem_cons, List.not_mem_nil, or_false] at hpt
    obtain rfl | rfl := hpt
    · exact hlocal hv
    · exact Expr.unbound_absent
  | next hv _ _ ih =>
    obtain rfl | hpt := List.mem_cons.1 hpt
    · exact hlocal hv
    · exact ih _ hpt

theorem Stmt.unbound_pointsAll {stmts : List Stmt} (h : ∀ s ∈ stmts, s.Unbound) :
    ∀ start, ∀ pt ∈ Stmt.pointsAll start stmts, pt.expr.Unbound := by
  induction stmts with
  | nil =>
    intro start pt hpt
    cases List.mem_singleton.1 hpt
    exact Expr.unbound_absent
  | cons s stmts ih =>
    intro start pt hpt
    obtain hpt | hpt := List.mem_append.1 hpt
    · exact h s (by simp) start pt hpt
    · exact ih (fun q hq => h q (by simp [hq])) _ pt hpt

theorem Stmt.unbound_of_points (he : e.Unbound) (h : ∀ start, s.points start = [⟨start, e⟩]) :
    s.Unbound := by
  intro start pt hpt
  rw [h] at hpt
  cases List.mem_singleton.1 hpt
  exact he

theorem Stmt.SpelledInit.unbound (h : Stmt.SpelledInit ts s) : s.Unbound := by
  cases h with
  | absent => exact fun start pt hpt => absurd hpt (by simp [Stmt.points])
  | declares hs => exact hs.unbound
  | expr he => exact Stmt.unbound_of_points he.unbound fun _ => rfl

theorem Stmt.Spelled.unbound {allows : Feature → Bool} (h : Stmt.Spelled allows ts s) :
    s.Unbound := by
  induction h with
  | block _ _ _ ih =>
    refine Stmt.unbound_pointsAll fun s hs => ?_
    obtain ⟨i, hi, rfl⟩ := List.mem_map.1 hs
    exact ih i hi
  | empty | breakLoop | continueLoop =>
    exact Stmt.unbound_of_points Expr.unbound_absent fun _ => rfl
  | locals hs => exact hs.unbound
  | cond _ _ htest _ _ ih =>
    intro start pt hpt
    simp only [Stmt.points, List.append_nil, List.mem_cons] at hpt
    obtain rfl | hpt := hpt
    · exact htest.unbound
    · exact ih start pt hpt
  | condElse _ _ htest _ _ _ _ _ ihyes ihno =>
    intro start pt hpt
    simp only [Stmt.points, List.mem_append, List.mem_cons] at hpt
    obtain rfl | hpt | hpt := hpt
    · exact htest.unbound
    · exact ihyes start pt hpt
    · exact ihno start pt hpt
  | whileLoop _ _ htest _ _ ih =>
    intro start pt hpt
    obtain rfl | hpt := List.mem_cons.1 hpt
    · exact htest.unbound
    · exact ih start pt hpt
  | forLoop _ _ _ hinit _ htest _ hstep _ _ ih =>
    intro start pt hpt
    simp only [Stmt.points, List.mem_append, List.mem_cons] at hpt
    obtain hpt | rfl | rfl | hpt := hpt
    · exact hinit.unbound start pt hpt
    · exact htest.unbound
    · exact hstep.unbound
    · exact ih _ pt hpt
  | ret _ he => exact Stmt.unbound_of_points he.unbound fun _ => rfl
  | expr he => exact Stmt.unbound_of_points he.unbound fun _ => rfl

/-- A body as it is read has no bindings. -/
theorem Program.Spelled.unbound {allows : Feature → Bool} {p : Program}
    (h : Program.Spelled allows ts p) : ∀ f ∈ p, ∀ b, f.body = some b →
      ∀ start, ∀ pt ∈ Stmt.pointsAll start b.stmts, pt.expr.Unbound := by
  intro f hf b hb
  obtain ⟨_, -, hf⟩ := h.exists_function f hf
  cases hf with
  | prototype => cases hb
  | definition _ _ _ _ _ hbody =>
    cases hb
    exact hbody.unbound

/-! ## Parameters -/

/-- Each parameter is bound to the word above that of the one before it. -/
theorem bindParams_binding (s : Settings) : ∀ (ps : List Param) (i : Nat) (before : List String)
    (env : Env) (j : Nat) (q : Param), (bindParams s i before env ps).1[j]? = some q →
      q.binding = some ⟨q.name, q.type, Frame.paramOffset s.wordSize (i + j : Nat), q.byRef⟩ := by
  intro ps
  induction ps with
  | nil => simp [bindParams]
  | cons q ps ih =>
    intro i before env j q' hq'
    rw [bindParams] at hq'
    cases j with
    | zero =>
      cases hq'
      rfl
    | succ j =>
      have h := ih _ _ _ _ _ hq'
      rwa [Nat.add_assoc, Nat.add_comm 1] at h

theorem bindParams_env (s : Settings) : ∀ (ps : List Param) (i : Nat) (before : List String)
    (env : Env), (bindParams s i before env ps).2.1 =
      ((bindParams s i before env ps).1.filterMap Param.binding).reverse ++ env := by
  intro ps
  induction ps with
  | nil => exact fun _ _ _ => rfl
  | cons q ps ih =>
    intro i before env
    rw [bindParams]
    simp [ih]

/-- The words of the parameters lie above the base pointer and do not overlap. -/
theorem bindParams_apart {s : Settings} (hW : 0 < s.wordSize) : ∀ (ps : List Param) (i : Nat)
    (before : List String) (env : Env), env.Pairwise (Binding.Apart s.wordSize) →
      (∀ b ∈ env, 0 ≤ b.offset ∧ b.offset + s.wordSize ≤ Frame.paramOffset s.wordSize i) →
      (bindParams s i before env ps).2.1.Pairwise (Binding.Apart s.wordSize) ∧
        ∀ b ∈ (bindParams s i before env ps).2.1, 0 ≤ b.offset := by
  intro ps
  induction ps with
  | nil => exact fun i before env hpair henv => ⟨hpair, fun b hb => (henv b hb).1⟩
  | cons q ps ih =>
    intro i before env hpair henv
    have hi : 0 ≤ (i : Int) * s.wordSize := Int.mul_nonneg (by omega) (by omega)
    have hnext : Frame.paramOffset s.wordSize (i + 1 : Nat) =
        Frame.paramOffset s.wordSize i + s.wordSize := by
      simp only [Frame.paramOffset, Int.natCast_add, Int.natCast_one, Int.add_mul]
      omega
    rw [bindParams]
    refine ih _ _ _ (List.pairwise_cons.2 ⟨fun b hb => .inr (henv b hb).2, hpair⟩) ?_
    intro b hb
    obtain rfl | hb := List.mem_cons.1 hb
    · refine ⟨?_, Int.le_of_eq hnext.symm⟩
      simp only [Frame.paramOffset]
      omega
    · have := henv b hb
      exact ⟨this.1, by omega⟩

/-! ## Functions -/

/-- In the function `f` that the checker made of one with body `b`, every variable in scope has a word of
    its own: the parameters above the base pointer in their order, the locals in the frame. -/
structure Function.LaidOut (c : TypingContext) (b : Body) (f : Function) (b' : Body) : Prop where
  params : ∀ (i : Nat) (q : Param), f.params[i]? = some q → q.binding =
    some ⟨q.name, q.type, 2 * c.settings.wordSize + i * c.settings.wordSize, q.byRef⟩
  /-- The points are those that the checker comes to, with the environment it has there. -/
  looks : List.Forall₂ (Point.Looks c) (Stmt.pointsAll [] b.stmts)
    (Stmt.pointsAll f.paramEnv b'.stmts)
  apart : ∀ pt ∈ Stmt.pointsAll f.paramEnv b'.stmts,
    pt.env.Pairwise (Binding.Apart c.settings.wordSize)
  places : ∀ pt ∈ Stmt.pointsAll f.paramEnv b'.stmts, ∀ v ∈ pt.env, v ∈ f.paramEnv ∨
    ∃ k : Int, v.offset = k * -c.settings.wordSize ∧
      -f.frameBytes ≤ v.offset ∧ v.offset ≤ -c.settings.wordSize
  declared : ∀ d ∈ Stmt.declaredAll b'.stmts, ∃ k : Int,
    d.2.binding = some ⟨d.2.name, d.1, k * -c.settings.wordSize, false⟩ ∧
      -f.frameBytes ≤ k * -c.settings.wordSize ∧
      k * -c.settings.wordSize ≤ -c.settings.wordSize
  resolved : ∀ pt ∈ Stmt.pointsAll f.paramEnv b'.stmts,
    Variable.ResolvedIn pt.env pt.expr.variables

/-- One of the first words below the base pointer lies in the frame. -/
theorem Frame.place_mem {W k : Int} (hW : 0 < W) (hk : 1 ≤ k) (hle : k ≤ fr.peak) :
    -(k * W) = k * -W ∧ -fr.bytes W ≤ k * -W ∧ k * -W ≤ -W := by
  have h₁ : k * W ≤ fr.peak * W := Int.mul_le_mul_of_nonneg_right hle (by omega)
  have h₂ : 1 * W ≤ k * W := Int.mul_le_mul_of_nonneg_right hk (by omega)
  rw [Int.mul_neg, Frame.bytes]
  exact ⟨rfl, by omega, by omega⟩

theorem Function.Annotates.laidOut (hW : 0 < c.settings.wordSize) {f f' : Function}
    (h : Function.Annotates c f f') (hdef : f.isPrototype = false) (hlt : f.size < wordBound)
    {b : Body} (hb : f.body = some b)
    (hunbound : ∀ start, ∀ pt ∈ Stmt.pointsAll start b.stmts, pt.expr.Unbound) :
    ∃ b', f'.body = some b' ∧ Function.LaidOut c b f' b' := by
  cases h with
  | prototype hproto => simp [hdef] at hproto
  | @definition b₀ params env env' reports stmts fr _ hb₀ hparams hall =>
    cases hb.symm.trans hb₀
    have hsize : Stmt.sizeAll b.stmts ≤ f.size := by
      simp only [Function.size, hb]
      omega
    obtain ⟨hapart, hbase⟩ := bindParams_apart hW f.params 0 [] [] .nil (by simp)
    have hbinding := bindParams_binding c.settings f.params 0 [] []
    have henv := bindParams_env c.settings f.params 0 [] []
    rw [hparams] at hapart hbase hbinding henv
    rw [List.append_nil] at henv
    have hparamEnv : Function.paramEnv { f with
        params, body := some { b with stmts }, frameBytes := fr.bytes c.settings.wordSize
        returns := Stmt.returnsAfterAll false b.stmts } = env := henv.symm
    have hlaid := hall.laid hW hbase ⟨Int.le_refl 0, Int.le_refl 0⟩
      (by simp only; omega) ⟨hapart, fun b hb => .inl hb⟩
    have hlooks := hall.looks []
    refine ⟨_, rfl, ?_, ?_, ?_, ?_, ?_, ?_⟩
    · intro i q hq
      simpa [Frame.paramOffset] using hbinding i q hq
    · rwa [hparamEnv]
    · rw [hparamEnv]
      exact fun pt hpt => (hlaid.points pt hpt).apart
    · rw [hparamEnv]
      intro pt hpt v hv
      obtain hmem | ⟨k, hk, hle, hoffset⟩ := (hlaid.points pt hpt).places v hv
      · exact .inl hmem
      · obtain ⟨heq, hlow, hhigh⟩ := Frame.place_mem hW hk hle
        rw [heq] at hoffset
        exact .inr ⟨k, hoffset, hoffset ▸ hlow, hoffset ▸ hhigh⟩
    · intro d hd
      obtain ⟨k, hk, hle, hbound⟩ := hlaid.declared d hd
      obtain ⟨heq, hlow, hhigh⟩ := Frame.place_mem hW hk hle
      exact ⟨k, heq ▸ hbound, hlow, hhigh⟩
    · rw [hparamEnv]
      intro pt hpt
      obtain ⟨source, hsource, hlook⟩ := exists_mem_of_forall₂ hlooks hpt
      exact hlook.resolvedIn ((hunbound [] source hsource).resolvedIn _)

/-- Wherever the checker comes to in a function with a body, accepted or not, no two variables in scope
    share a word, and every variable that is resolved is bound to the innermost declaration of its name
    that is in scope. A list of tokens is shorter than the largest word. -/
theorem Program.check_laidOut {s : Settings} (hs : 0 < s.wordSize) {allows : Feature → Bool}
    {tokens : List Token} (hlength : tokens.length < wordBound) {p : Program}
    (hparse : Program.parse allows tokens = .ok p) :
    List.Forall₂ (fun f f' => ∀ b, f.body = some b →
      ∃ b', f'.body = some b' ∧ Function.LaidOut (p.declare s).1 b f' b') p (p.check s).program := by
  obtain ⟨ts, rest, rfl, hspelled⟩ := Program.spelled_prefix_of_parse hparse
  have hread : ∀ f ∈ p, f.Regular ∧ f.size < wordBound ∧ ∀ b, f.body = some b →
      ∀ start, ∀ pt ∈ Stmt.pointsAll start b.stmts, pt.expr.Unbound := by
    intro f hf
    have hsize := hspelled.size_le f hf
    rw [List.length_append] at hlength
    exact ⟨hspelled.regular f hf, by omega, hspelled.unbound f hf⟩
  refine ((List.forall₂_and_left _ _).2 ⟨hread, Program.check_annotates hspelled.whole⟩).imp ?_
  rintro f f' ⟨⟨hregular, hsize, hunbound⟩, hannotates⟩ b hb
  have hdef : f.isPrototype = false := by rw [hregular, hb]; rfl
  exact hannotates.laidOut hs hdef hsize hb (hunbound b hb)

/-- A local of an unbraced branch keeps its place, so the next one takes another. A name is declared
    again in an inner block, and two names are not in scope where they are used. -/
def branchSource : List Char := ("int f(int x, boolean &y) \x7b if (y) int z = x; int w = w; " ++
  "\x7b int x = w; return x + z; \x7d \x7d").toList

theorem Program.check_laidOut_branchSource :
    ∃ p, Program.parse (fun _ => true) (scan {} branchSource) = .ok p ∧
      (p.check {}).accepted = false ∧
      List.Forall₂ (fun f f' => ∀ b, f.body = some b →
        ∃ b', f'.body = some b' ∧ Function.LaidOut (p.declare {}).1 b f' b')
        p (p.check {}).program := by
  have hlength : ((scan {} branchSource).length : Int) < wordBound := by decide +kernel
  obtain ⟨p, hparse, heval⟩ := exists_of_any
    (show (Program.parse (fun _ => true) (scan {} branchSource)).toOption.any (fun p =>
      !(p.check {}).accepted) = true by decide +kernel)
  exact ⟨p, hparse, by simpa using heval,
    Program.check_laidOut (s := {}) (by decide) hlength hparse⟩

end MiniCompiler
