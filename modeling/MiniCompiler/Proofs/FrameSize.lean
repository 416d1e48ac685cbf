import MiniCompiler.Proofs.FrameLayout

/-!
# Sizes of frames

A frame has a word for each local that holds a place, at the point of the body where most of them do. A
local holds its place up to the end of the block, the loop or the `for` statement around its
declaration, which is where its scope ends, except in one case: the branch of a conditional is a
scope, but what it declares holds its place longer, up to the end of what is around the conditional.

So a frame is as large as the scopes ask for if no branch is a declaration without braces, and in
general it is at least as large.

Main statement: `Program.check_frameBytes`.
-/

namespace MiniCompiler

/-! ## Counting places -/

/-- The greatest of some numbers, or 0. -/
def greatest (ns : List Nat) : Nat := ns.foldr max 0

@[simp] theorem greatest_nil : greatest [] = 0 := rfl

@[simp] theorem greatest_cons (n : Nat) (ns : List Nat) :
    greatest (n :: ns) = max n (greatest ns) := rfl

@[simp] theorem greatest_append (ms ns : List Nat) :
    greatest (ms ++ ns) = max (greatest ms) (greatest ns) := by
  induction ms with
  | nil => simp
  | cons m ms ih => rw [List.cons_append, greatest_cons, greatest_cons, ih, Nat.max_assoc]

theorem greatest_range' (k n : Nat) : greatest (List.range' k (n + 1)) = k + n := by
  induction n generalizing k with
  | zero => simp
  | succ n ih =>
    rw [List.range'_succ, greatest_cons, ih]
    omega

theorem greatest_le_of_forall₂ {ms ns : List Nat} (h : List.Forall₂ (· ≤ ·) ms ns) :
    greatest ms ≤ greatest ns := by
  induction h with
  | nil => exact Nat.le_refl _
  | cons hle _ ih =>
    rw [greatest_cons, greatest_cons]
    omega

/-- The most locals that are in scope at one of these points of a function with the parameters
    `params`. -/
def Point.mostLocals (params : Env) (points : List Point) : Nat :=
  greatest (points.map fun pt => pt.env.length - params.length)

/-- How many of the places that a statement takes are still held after it. -/
def Stmt.kept : Stmt → Nat
  | .locals _ _ vars => vars.length
  | .cond _ _ yes no => yes.kept + no.kept
  | _ => 0

mutual

/-- How many places are held at each point of a statement that begins with `k` of them held. -/
def Stmt.held (k : Nat) : Stmt → List Nat
  | .absent => []
  | .block _ stmts => Stmt.heldAll k stmts
  | .empty _ | .breakLoop _ | .continueLoop _ | .expr .. | .ret .. => [k]
  | .locals _ _ vars => List.range' k (vars.length + 1)
  | .cond _ _ yes no => k :: (yes.held k ++ no.held (k + yes.kept))
  | .whileLoop _ _ body => k :: body.held k
  | .forLoop _ init _ _ body =>
    init.held k ++ (k + init.kept) :: (k + init.kept) :: body.held (k + init.kept)

/-- How many places are held at each point of statements one after the other. -/
def Stmt.heldAll (k : Nat) : List Stmt → List Nat
  | [] => [k]
  | s :: stmts => s.held k ++ Stmt.heldAll (k + s.kept) stmts

end

def Stmt.isDeclaration : Stmt → Bool
  | .locals .. => true
  | _ => false

mutual

/-- Is no branch of a conditional in the statement a declaration without braces? -/
def Stmt.braced : Stmt → Bool
  | .cond _ _ yes no => !yes.isDeclaration && !no.isDeclaration && yes.braced && no.braced
  | .block _ stmts => Stmt.bracedAll stmts
  | .whileLoop _ _ body => body.braced
  | .forLoop _ init _ _ body => init.braced && body.braced
  | _ => true

/-- Are all of these statements so? -/
def Stmt.bracedAll : List Stmt → Bool
  | [] => true
  | s :: stmts => s.braced && Stmt.bracedAll stmts

end

/-- In braces, only a declaration keeps places. -/
theorem Stmt.kept_eq_zero {s : Stmt} (h : s.braced = true) (hs : s.isDeclaration = false) :
    s.kept = 0 := by
  cases s with
  | cond p test yes no =>
    simp only [Stmt.braced, Bool.and_eq_true, Bool.not_eq_true'] at h
    obtain ⟨⟨⟨hyes, hno⟩, hyes'⟩, hno'⟩ := h
    rw [Stmt.kept, Stmt.kept_eq_zero hyes' hyes, Stmt.kept_eq_zero hno' hno]
  | locals => cases hs
  | _ => rfl

/-! ## Places held and locals in scope -/

section Counted

-- `R` compares the number of variables in scope with the number of places held. It is an equation or
-- an inequality; an inequality is not disturbed by places that are held for longer.
variable {c : TypingContext} {R : Nat → Nat → Prop} {env env' : Env} {fr fr' : Frame}

theorem Local.AnnotatesAll.counted (hsucc : ∀ m n, R m n → R (m + 1) (n + 1)) {type : Ty}
    {vars vars' : List Local} (h : Local.AnnotatesAll c type env fr vars vars' env' fr') {k : Nat}
    (hk : R env.length k) : R env'.length (k + vars.length) ∧
      List.Forall₂ (fun pt n => R pt.env.length n) (Local.points env vars')
        (List.range' k (vars.length + 1)) := by
  induction h generalizing k with
  | nil => exact ⟨hk, .cons hk .nil⟩
  | @cons env env' fr fr' v vars vars' b hb _ ih =>
    obtain ⟨hend, hpoints⟩ := ih (k := k + 1) (hsucc _ _ hk)
    rw [List.length_cons, List.range'_succ]
    refine ⟨?_, .cons hk hpoints⟩
    rwa [Nat.add_assoc, Nat.add_comm 1] at hend

mutual

/-- At each point of a statement the variables in scope compare with the places held as they do at its
    beginning. -/
theorem Stmt.Annotates.counted (hsucc : ∀ m n, R m n → R (m + 1) (n + 1)) {env env' : Env}
    {fr fr' : Frame} {s s' : Stmt} (h : Stmt.Annotates c env fr s s' env' fr')
    (hkeep : s.braced = true ∨ ∀ m n j, R m n → R m (n + j)) {k : Nat} (hk : R env.length k) :
    R env'.length (k + s.kept) ∧
      List.Forall₂ (fun pt n => R pt.env.length n) (s'.points env) (s.held k) := by
  cases h with
  | absent => exact ⟨hk, .nil⟩
  | block hall => exact ⟨hk, Stmt.AnnotatesAll.counted hsucc hall hkeep hk⟩
  | empty | breakLoop | continueLoop | expr | ret => exact ⟨hk, .cons hk .nil⟩
  | locals hvars => exact hvars.counted hsucc hk
  | @cond _ _ _ _ _ _ _ _ yes _ no _ hyes hno =>
    -- either no branch keeps a place, or `R` allows for those that are kept
    have hbranch : (yes.braced = true ∧ no.braced = true ∧ yes.kept = 0 ∧ no.kept = 0) ∨
        ∀ m n j, R m n → R m (n + j) := by
      refine hkeep.imp_left fun hbraced => ?_
      simp only [Stmt.braced, Bool.and_eq_true, Bool.not_eq_true'] at hbraced
      obtain ⟨⟨⟨hdecl, hdecl'⟩, hyes⟩, hno⟩ := hbraced
      exact ⟨hyes, hno, Stmt.kept_eq_zero hyes hdecl, Stmt.kept_eq_zero hno hdecl'⟩
    have hafter : R env.length (k + yes.kept) := by
      obtain ⟨-, -, hkept, -⟩ | hmore := hbranch
      · rwa [hkept]
      · exact hmore _ _ _ hk
    have hend : R env.length (k + (yes.kept + no.kept)) := by
      obtain ⟨-, -, hkept, hkept'⟩ | hmore := hbranch
      · rwa [hkept, hkept']
      · exact hmore _ _ _ hk
    have hyes' := Stmt.Annotates.counted hsucc hyes (hbranch.imp_left (·.1)) hk
    have hno' := Stmt.Annotates.counted hsucc hno (hbranch.imp_left (·.2.1)) hafter
    exact ⟨hend, .cons hk (List.rel_append hyes'.2 hno'.2)⟩
  | whileLoop hbody => exact ⟨hk, .cons hk (Stmt.Annotates.counted hsucc hbody hkeep hk).2⟩
  | forLoop hinit hbody =>
    have hparts := hkeep.imp_left fun hbraced => Bool.and_eq_true_iff.1 hbraced
    obtain ⟨hafter, hpoints⟩ := Stmt.Annotates.counted hsucc hinit (hparts.imp_left (·.1)) hk
    obtain ⟨-, hpoints'⟩ := Stmt.Annotates.counted hsucc hbody (hparts.imp_left (·.2)) hafter
    rw [Stmt.points, ← hinit.env_eq]
    exact ⟨hk, List.rel_append hpoints (.cons hafter (.cons hafter hpoints'))⟩

theorem Stmt.AnnotatesAll.counted (hsucc : ∀ m n, R m n → R (m + 1) (n + 1)) {env env' : Env}
    {fr fr' : Frame} {stmts stmts' : List Stmt}
    (h : Stmt.AnnotatesAll c env fr stmts stmts' env' fr')
    (hkeep : Stmt.bracedAll stmts = true ∨ ∀ m n j, R m n → R m (n + j)) {k : Nat}
    (hk : R env.length k) :
    List.Forall₂ (fun pt n => R pt.env.length n) (Stmt.pointsAll env stmts')
      (Stmt.heldAll k stmts) := by
  cases h with
  | nil => exact .cons hk .nil
  | cons hs hall =>
    have hparts := hkeep.imp_left fun hbraced => Bool.and_eq_true_iff.1 hbraced
    obtain ⟨hafter, hpoints⟩ := Stmt.Annotates.counted hsucc hs (hparts.imp_left (·.1)) hk
    rw [Stmt.pointsAll, ← hs.env_eq]
    exact List.rel_append hpoints (Stmt.AnnotatesAll.counted hsucc hall (hparts.imp_left (·.2)) hafter)

end

end Counted

/-- No point has more locals in scope than places are held there. -/
theorem Stmt.AnnotatesAll.mostLocals_le
    {stmts stmts' : List Stmt} (h : Stmt.AnnotatesAll c env fr stmts stmts' env' fr') :
    Point.mostLocals env (Stmt.pointsAll env stmts') ≤ greatest (Stmt.heldAll 0 stmts) := by
  have hcounted := h.counted (R := fun m n => m ≤ env.length + n) (k := 0) (by omega)
    (.inr (by omega)) (Nat.le_refl _)
  refine greatest_le_of_forall₂ (List.forall₂_map_left_iff.2 (hcounted.imp ?_))
  intro pt n hle
  omega

/-- In braces, each point has as many locals in scope as places are held there. -/
theorem Stmt.AnnotatesAll.mostLocals_eq
    {stmts stmts' : List Stmt} (h : Stmt.AnnotatesAll c env fr stmts stmts' env' fr')
    (hbraced : Stmt.bracedAll stmts = true) :
    Point.mostLocals env (Stmt.pointsAll env stmts') = greatest (Stmt.heldAll 0 stmts) := by
  have hcounted := h.counted (R := fun m n => m = env.length + n) (k := 0) (by omega) (.inl hbraced) rfl
  refine congrArg greatest (List.forall₂_eq_eq_eq ▸ List.forall₂_map_left_iff.2 (hcounted.imp ?_))
  intro pt n heq
  omega

/-! ## Places held and frames -/

/-- From one frame to the other, `n` more places are held at the end, and `held` are the numbers of
    places held on the way. -/
structure Frame.Passes (fr fr' : Frame) (n : Nat) (held : List Nat) : Prop where
  live : fr'.live = fr.live + n
  peak : fr'.peak = max fr.peak (greatest held)

namespace Frame.Passes

variable {fr fr₁ fr₂ : Frame} {n n' : Nat} {held held' : List Nat}

theorem trans (h : fr.Passes fr₁ n held) (h' : fr₁.Passes fr₂ n' held') :
    fr.Passes fr₂ (n + n') (held ++ held') := by
  obtain ⟨hlive, hpeak⟩ := h
  obtain ⟨hlive', hpeak'⟩ := h'
  refine ⟨by omega, ?_⟩
  rw [greatest_append, hpeak', hpeak]
  omega

/-- Places that are held at the beginning do not raise the peak. -/
theorem cons (h : fr.Passes fr₁ n held) {k : Nat} (hk : (k : Int) ≤ fr.peak) :
    fr.Passes fr₁ n (k :: held) := by
  refine ⟨h.live, ?_⟩
  rw [h.peak, greatest_cons]
  omega

theorem release (h : fr.Passes fr₁ n held) : fr.Passes (fr₁.release fr.live) 0 held :=
  ⟨by simp, h.peak⟩

end Frame.Passes

theorem Frame.passes_nil {fr : Frame} (hok : fr.Ok) : fr.Passes fr 0 [] :=
  ⟨by omega, by have := hok.1; have := hok.2; rw [greatest_nil]; omega⟩

theorem Frame.passes_single {fr : Frame} (hok : fr.Ok) {k : Nat} (hk : fr.live = k) :
    fr.Passes fr 0 [k] := (Frame.passes_nil hok).cons (hk ▸ hok.2)

theorem Local.AnnotatesAll.passes {type : Ty}
    {vars vars' : List Local} (h : Local.AnnotatesAll c type env fr vars vars' env' fr')
    (hok : fr.Ok) (hlt : fr.live + Local.sizeAll vars < wordBound) {k : Nat} (hk : fr.live = k) :
    fr.Passes fr' vars.length (List.range' k (vars.length + 1)) := by
  induction h generalizing k with
  | nil => exact Frame.passes_single hok hk
  | @cons env env' fr fr' v vars vars' b hb _ ih =>
    simp only [Local.sizeAll] at hlt
    obtain ⟨hpush, hlive⟩ := Frame.grows_push hok (by omega)
    have hrest := ih hpush.ok (by omega) (k := k + 1) (by omega)
    -- each variable raises the peak to the places held behind it, and the last one to the most
    have hpeak : fr.push.peak = max fr.peak (fr.live + 1) := by rw [← hlive]; rfl
    rw [List.length_cons, List.range'_succ]
    refine ⟨by have := hrest.live; omega, ?_⟩
    have hmost := greatest_range' (k + 1) vars.length
    rw [hrest.peak, hpeak, greatest_cons, hmost]
    have := hok.2
    omega

mutual

/-- A statement takes the frame through the numbers of places that are held at its points. -/
theorem Stmt.Annotates.passes {c : TypingContext} {env env' : Env} {fr fr' : Frame} {s s' : Stmt}
    (h : Stmt.Annotates c env fr s s' env' fr') (hok : fr.Ok)
    (hlt : fr.live + s.size < wordBound) {k : Nat} (hk : fr.live = k) :
    fr.Passes fr' s.kept (s.held k) := by
  have hstart : (k : Int) ≤ fr.peak := hk ▸ hok.2
  cases h with
  | absent => exact Frame.passes_nil hok
  | block hall => exact (Stmt.AnnotatesAll.passes hall hok hlt hk).release
  | empty | breakLoop | continueLoop | expr | ret => exact Frame.passes_single hok hk
  | locals hvars => exact hvars.passes hok hlt hk
  | cond hyes hno =>
    simp only [Stmt.size] at hlt
    have hgrows := hyes.grows hok (by omega)
    have hyes' := Stmt.Annotates.passes hyes hok (by omega) hk
    have hno' := Stmt.Annotates.passes hno hgrows.ok (by have := hgrows.live.2; omega)
      (by rw [hyes'.live, hk, Int.natCast_add])
    exact (hyes'.trans hno').cons hstart
  | whileLoop hbody =>
    simp only [Stmt.size] at hlt
    exact (Stmt.Annotates.passes hbody hok (by omega) hk).release.cons hstart
  | @forLoop _ env₁ _ _ fr₁ _ _ init _ _ _ body _ hinit hbody =>
    simp only [Stmt.size] at hlt
    have hgrows := hinit.grows hok (by omega)
    have hinit' := Stmt.Annotates.passes hinit hok (by omega) hk
    have hinner : fr₁.live = (k + init.kept : Nat) := by rw [hinit'.live, hk, Int.natCast_add]
    have hbody' := Stmt.Annotates.passes hbody hgrows.ok (by have := hgrows.live.2; omega) hinner
    have hinner' : ((k + init.kept : Nat) : Int) ≤ fr₁.peak := hinner ▸ hgrows.ok.2
    exact (hinit'.trans ((hbody'.cons hinner').cons hinner')).release

theorem Stmt.AnnotatesAll.passes {c : TypingContext} {env env' : Env} {fr fr' : Frame}
    {stmts stmts' : List Stmt} (h : Stmt.AnnotatesAll c env fr stmts stmts' env' fr') (hok : fr.Ok)
    (hlt : fr.live + Stmt.sizeAll stmts < wordBound) {k : Nat} (hk : fr.live = k) :
    fr.Passes fr' (stmts.foldr (·.kept + ·) 0) (Stmt.heldAll k stmts) := by
  cases h with
  | nil => exact Frame.passes_single hok hk
  | cons hs hall =>
    simp only [Stmt.sizeAll] at hlt
    have hgrows := hs.grows hok (by omega)
    have hs' := Stmt.Annotates.passes hs hok (by omega) hk
    have hall' := Stmt.AnnotatesAll.passes hall hgrows.ok (by have := hgrows.live.2; omega)
      (by rw [hs'.live, hk, Int.natCast_add])
    exact hs'.trans hall'

end

/-! ## Functions -/

/-- How large the frame of the function `f` is that the checker made of one with body `b`: as large as
    the places ask for that are held at once, which is at least as large as the scopes ask for, and
    just that in braces. -/
structure Function.Framed (wordSize : Int) (b : Body) (f : Function) (b' : Body) : Prop where
  held : f.frameBytes = greatest (Stmt.heldAll 0 b.stmts) * wordSize
  scopes : Point.mostLocals f.paramEnv (Stmt.pointsAll f.paramEnv b'.stmts) ≤
    greatest (Stmt.heldAll 0 b.stmts)
  exact : Stmt.bracedAll b.stmts = true → f.frameBytes =
    Point.mostLocals f.paramEnv (Stmt.pointsAll f.paramEnv b'.stmts) * wordSize

theorem Function.Annotates.framed {f f' : Function} (h : Function.Annotates c f f')
    (hdef : f.isPrototype = false) (hlt : f.size < wordBound) {b : Body} (hb : f.body = some b) :
    ∃ b', f'.body = some b' ∧ Function.Framed c.settings.wordSize b f' b' := by
  cases h with
  | prototype hproto => simp [hdef] at hproto
  | @definition b₀ params env env' reports stmts fr _ hb₀ hparams hall =>
    cases hb.symm.trans hb₀
    have hsize : Stmt.sizeAll b.stmts ≤ f.size := by
      simp only [Function.size, hb]
      omega
    have henv := bindParams_env c.settings f.params 0 [] []
    rw [hparams, List.append_nil] at henv
    have hparamEnv : Function.paramEnv { f with
        params, body := some { b with stmts }, frameBytes := fr.bytes c.settings.wordSize
        returns := Stmt.returnsAfterAll false b.stmts } = env := henv.symm
    have hpasses := hall.passes ⟨Int.le_refl 0, Int.le_refl 0⟩ (by simp only; omega) (k := 0) rfl
    have hpeak : fr.peak = greatest (Stmt.heldAll 0 b.stmts) := by
      rw [hpasses.peak]
      exact Int.max_eq_right (Int.natCast_nonneg _)
    have hbytes : fr.bytes c.settings.wordSize =
        greatest (Stmt.heldAll 0 b.stmts) * c.settings.wordSize := by rw [Frame.bytes, hpeak]
    refine ⟨_, rfl, hbytes, ?_, fun hbraced => ?_⟩
    · rw [hparamEnv]
      exact hall.mostLocals_le
    · rw [hparamEnv, hall.mostLocals_eq hbraced]
      exact hbytes

/-- The frame of every function with a body has a word for each of the places that are held at once,
    which are as many as the locals in scope where most of them are, if no branch of a conditional is a
    declaration without braces. A list of tokens is shorter than the largest word. -/
theorem Program.check_frameBytes {s : Settings} {allows : Feature → Bool} {tokens : List Token}
    (hlength : tokens.length < wordBound) {p : Program}
    (hparse : Program.parse allows tokens = .ok p) :
    List.Forall₂ (fun f f' => ∀ b, f.body = some b →
      ∃ b', f'.body = some b' ∧ Function.Framed s.wordSize b f' b') p (p.check s).program := by
  obtain ⟨ts, rest, rfl, hspelled⟩ := Program.spelled_prefix_of_parse hparse
  have hread : ∀ f ∈ p, f.Regular ∧ f.size < wordBound := by
    intro f hf
    have hsize := hspelled.size_le f hf
    rw [List.length_append] at hlength
    exact ⟨hspelled.regular f hf, by omega⟩
  refine ((List.forall₂_and_left _ _).2 ⟨hread, Program.check_annotates hspelled.whole⟩).imp ?_
  rintro f f' ⟨⟨hregular, hsize⟩, hannotates⟩ b hb
  have hdef : f.isPrototype = false := by rw [hregular, hb]; rfl
  exact hannotates.framed hdef hsize hb

/-- Three locals are in scope at once in the loop. Those of the two blocks share their places. -/
def sharedSource : List Char := ("int f(int n) \x7b if (n < 0) \x7b int x = n; return x; \x7d " ++
  "for (int i = 0; i < n; i = i + 1) \x7b int y = i, z; n = y; \x7d return n; \x7d").toList

theorem Program.check_frameBytes_sharedSource :
    ∃ p, Program.parse (fun _ => true) (scan {} sharedSource) = .ok p ∧
      (p.all fun f => f.body.all fun b => Stmt.bracedAll b.stmts) = true ∧
      (p.check {}).program.map Function.frameBytes = [12] ∧
      List.Forall₂ (fun f f' => ∀ b, f.body = some b →
        ∃ b', f'.body = some b' ∧ Function.Framed ({} : Settings).wordSize b f' b')
        p (p.check {}).program := by
  have hlength : ((scan {} sharedSource).length : Int) < wordBound := by decide +kernel
  obtain ⟨p, hparse, heval⟩ := exists_of_any
    (show (Program.parse (fun _ => true) (scan {} sharedSource)).toOption.any (fun p =>
      (p.all fun f => f.body.all fun b => Stmt.bracedAll b.stmts) &&
      (p.check {}).program.map Function.frameBytes == [12]) = true by decide +kernel)
  obtain ⟨hbraced, hbytes⟩ := Bool.and_eq_true_iff.1 heval
  exact ⟨p, hparse, hbraced, beq_iff_eq.1 hbytes,
    Program.check_frameBytes (s := {}) hlength hparse⟩

/-- The first local is out of scope where the second one is declared. -/
def bareBranchSource : List Char := "void f() \x7b if (true) int x; int y; \x7d".toList

/-- The frame has two words, where one local at most is in scope. -/
theorem Program.frameBytes_bareBranch :
    ∃ p, Program.parse (fun _ => true) (scan {} bareBranchSource) = .ok p ∧
      (p.check {}).accepted = true ∧
      (p.check {}).program.map (fun f => (f.frameBytes, f.body.map fun b =>
        Point.mostLocals f.paramEnv (Stmt.pointsAll f.paramEnv b.stmts))) = [(8, some 1)] := by
  obtain ⟨p, hparse, heval⟩ := exists_of_any
    (show (Program.parse (fun _ => true) (scan {} bareBranchSource)).toOption.any (fun p =>
      (p.check {}).accepted && (p.check {}).program.map (fun f => (f.frameBytes, f.body.map fun b =>
        Point.mostLocals f.paramEnv (Stmt.pointsAll f.paramEnv b.stmts))) == [(8, some 1)]) = true
      by decide +kernel)
  obtain ⟨haccepted, hframe⟩ := Bool.and_eq_true_iff.1 heval
  exact ⟨p, hparse, haccepted, beq_iff_eq.1 hframe⟩

end MiniCompiler
