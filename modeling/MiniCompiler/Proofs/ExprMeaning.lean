import MiniCompiler.Proofs.CallMeaning

/-!
# The meaning of expressions

The code of an expression does what the expression means (`Expr.Elab.means`), and the arguments of a
call are passed as the expressions of the call say (`Expr.ElabArgs.passes`). Both go by induction on the
rules of the checker, which relate the tree that has a meaning to the tree that code is made of.
-/

namespace MiniCompiler

open Emit

/-- A text in which the code of a program is to run: calls do what they mean there, and the checker
    took them for calls of the functions that they find. -/
structure Program.Linked (p : Program) (s : Settings) (text : List Line)
    (call : String → List Nat → Eval s.target.bits (Option (Value s.target.bits)))
    (c : TypingContext) : Prop where
  regular : s.Regular
  standard : s.target.Standard
  labels : (writtenLabels text).Nodup
  realized : p.Realized s text call
  settings : c.settings = s
  declared : ∀ {name f i g}, p.definition? name = some f → c.declared.find? name = some (i, g) → g = f

/-! ## Side effects -/

section

variable {w : Nat} {p : Program} {call : String → List Nat → Eval w (Option (Value w))}
  {ctx : TypingContext} {env : Env}

theorem Expr.shallow_of_joinDepth {l r : Nat} (h : joinDepth l r < deep) : l < deep ∧ r < deep := by
  unfold joinDepth at h
  split at h <;> omega

theorem Expr.shallow_of_shareDepth {l r : Nat} (h : shareDepth l r < deep) : l < deep ∧ r < deep := by
  unfold shareDepth at h
  split at h <;> omega

/-- An expression that is not deep has no side effect. -/
theorem Expr.Elab.pure_of_shallow {e e' : Expr} {type : Ty} (h : Expr.Elab ctx env e e' type)
    {scope : Naming} {σ σ' : Store w} {v : Value w} (hdepth : e'.depth < Expr.deep)
    (hends : Ends (e.eval p call scope) σ v σ') : σ' = σ := by
  cases h with
  | int | bool =>
    rw [Expr.eval] at hends
    exact (ends_pure.1 hends).2.symm
  | var =>
    obtain ⟨_, _, _, rfl⟩ := Expr.ends_var hends
    rfl
  | assign | call => exact absurd hdepth (Nat.lt_irrefl _)
  | neg he =>
    obtain ⟨_, hends, -⟩ := Expr.ends_neg hends
    exact Expr.Elab.pure_of_shallow he hdepth hends
  | not he =>
    obtain ⟨_, hends, -⟩ := Expr.ends_not hends
    exact Expr.Elab.pure_of_shallow he hdepth hends
  | arith _ hl hr =>
    obtain ⟨_, _, _, σ₁, hends₁, hends₂, -⟩ := Expr.ends_arith hends
    obtain ⟨hdl, hdr⟩ := Expr.shallow_of_joinDepth hdepth
    exact (Expr.Elab.pure_of_shallow hr hdr hends₂).trans (Expr.Elab.pure_of_shallow hl hdl hends₁)
  | order _ _ hl hr | equality _ hl hr =>
    obtain ⟨_, _, _, σ₁, hends₁, hends₂, -⟩ := Expr.ends_comp hends
    obtain ⟨hdl, hdr⟩ := Expr.shallow_of_joinDepth hdepth
    exact (Expr.Elab.pure_of_shallow hr hdr hends₂).trans (Expr.Elab.pure_of_shallow hl hdl hends₁)
  | logic hl hr =>
    obtain ⟨hdl, hdr⟩ := Expr.shallow_of_shareDepth hdepth
    obtain ⟨_, _, σ₁, hends₁, -, ⟨-, -, rfl⟩ | ⟨-, hends₂⟩⟩ := Expr.ends_logic hends
    · exact Expr.Elab.pure_of_shallow hl hdl hends₁
    · exact (Expr.Elab.pure_of_shallow hr hdr hends₂).trans
        (Expr.Elab.pure_of_shallow hl hdl hends₁)

theorem Expr.Elab.pure_of_both {l l' r r' : Expr} {type type' : Ty}
    (hl : Expr.Elab ctx env l l' type) (hr : Expr.Elab ctx env r r' type') {scope : Naming}
    {σ σ₁ σ₂ : Store w} {a b : Value w} (hends₁ : Ends (l.eval p call scope) σ a σ₁)
    (hends₂ : Ends (r.eval p call scope) σ₁ b σ₂) (hdl : l'.depth < Expr.deep)
    (hdr : r'.depth < Expr.deep) : σ₁ = σ ∧ σ₂ = σ := by
  obtain rfl := hl.pure_of_shallow hdl hends₁
  exact ⟨rfl, hr.pure_of_shallow hdr hends₂⟩

end

/-! ## Room on the stack -/

/-- On a stack of whole words there is room for the code of an expression of size `n`. -/
def Settings.FitsWords (s : Settings) (n : Nat) (h : Int) : Prop :=
  s.Fits n h ∧ s.target.wordSize ∣ h

namespace Settings.FitsWords

variable {s : Settings} (hs : s.Regular) {m n : Nat}

include hs

theorem le (hmn : m ≤ n) (h : Int) (hfits : s.FitsWords n h) : s.FitsWords m h :=
  ⟨hfits.1.le hs hmn, hfits.2⟩

theorem deepens : s.target.Deepens (s.FitsWords (n + 1)) (s.FitsWords n) := by
  intro h d hfits hpos hle hdvd
  have hword := hs.wordSize_cases
  exact ⟨hfits.1.part hs (by omega) (by omega) (by omega), Int.dvd_add hfits.2 hdvd⟩

end Settings.FitsWords

/-! ## Words for arguments -/

/-- The words for arguments from number `i` on, and for temporary values from number `k` on, are free.
    All arguments take `size` bytes from the stack pointer on, and temporary words lie up to `hi`. -/
structure Layout.Room (L : Layout) (t : Target) (sp size hi : Int) (i k : Nat)
    (args : List (Bool × Expr)) : Prop where
  size_eq : size = (i + args.length : Nat) * t.wordSize
  hi_eq : hi = sp + size + (k + temporaries args : Nat) * t.wordSize
  le_base : hi ≤ L.base
  lt : hi < sp + wordBound
  words : ∀ y, sp + i * t.wordSize ≤ y → y < sp + size → L.place.Free y
  temps : ∀ y, sp + size + k * t.wordSize ≤ y → y < hi → L.place.Free y

namespace Layout.Room

variable {L : Layout} {t : Target} {sp size hi : Int} {i k : Nat} {a : Bool × Expr}
  {args : List (Bool × Expr)}

theorem slot (h : L.Room t sp size hi i k (a :: args)) (ht : t.Standard) (hsp : t.wordSize ∣ sp) :
    L.Slot t sp hi (i * t.wordSize) (sp + i * t.wordSize) := by
  have hword := ht.wordSize
  obtain ⟨hsize, hhi, hbase, hlt, hwords, -⟩ := h
  have hbounds : 0 ≤ i * t.wordSize ∧ i * t.wordSize < size ∧ sp + size ≤ hi := by
    rw [hhi, hsize]
    obtain hw | hw := hword <;> rw [hw] <;> simp only [List.length_cons] <;> omega
  refine ⟨wrap_of_mem_range (by unfold wordBound; omega) (by omega), rfl, by omega, by omega,
    by omega, Int.dvd_add hsp (Int.dvd_mul_left ..), hwords _ (Int.le_refl _) (by omega)⟩

theorem tempSlot (h : L.Room t sp size hi i k (a :: args)) (ht : t.Standard)
    (hsp : t.wordSize ∣ sp) (ha : temporaries (a :: args) = temporaries args + 1) :
    L.Slot t sp hi (size + k * t.wordSize) (sp + (size + k * t.wordSize)) ∧
      sp + i * t.wordSize < sp + (size + k * t.wordSize) := by
  have hword := ht.wordSize
  obtain ⟨hsize, hhi, hbase, hlt, -, htemps⟩ := h
  rw [ha] at hhi
  have hbounds : 0 ≤ i * t.wordSize ∧ i * t.wordSize < size ∧ 0 ≤ k * t.wordSize ∧
      sp + (size + k * t.wordSize) < hi := by
    rw [hhi, hsize]
    obtain hw | hw := hword <;> rw [hw] <;> simp only [List.length_cons] <;> omega
  have hdvd : t.wordSize ∣ size + k * t.wordSize :=
    Int.dvd_add (hsize ▸ Int.dvd_mul_left ..) (Int.dvd_mul_left ..)
  refine ⟨⟨wrap_of_mem_range (by unfold wordBound; omega) (by omega), rfl, by omega, by omega,
    by omega, Int.dvd_add hsp hdvd, htemps _ (by omega) (by omega)⟩, by omega⟩

/-- The words that are left when the first argument has been passed. Its cell may have taken its word,
    or the word of a temporary value. -/
theorem next (h : L.Room t sp size hi i k (a :: args)) (ht : t.Standard) {k' : Nat}
    (hk : k' + temporaries args = k + temporaries (a :: args)) {place : Places}
    (hplace : ∀ y, L.place.Free y → y ≠ sp + i * t.wordSize →
      (k' = k + 1 → y ≠ sp + (size + k * t.wordSize)) → place.Free y) :
    { L with place }.Room t sp size hi (i + 1) k' args := by
  have hword := ht.wordSize
  obtain ⟨hsize, hhi, hbase, hlt, hwords, htemps⟩ := h
  have hk' : k ≤ k' ∧ k' ≤ k + 1 := by
    have hcount : temporaries args ≤ temporaries (a :: args) ∧
        temporaries (a :: args) ≤ temporaries args + 1 := by
      simp only [temporaries, List.countP_cons]
      split <;> omega
    omega
  refine ⟨?_, by rw [hhi, hk], hbase, hlt, ?_, ?_⟩
  · rw [hsize, List.length_cons]
    congr 2
    omega
  -- the words of arguments lie below all temporary ones
  · intro y hy hy'
    have hnext : sp + i * t.wordSize < y := by
      push_cast at hy
      rw [Int.add_mul] at hy
      have := ht.pos
      omega
    have htemp : 0 ≤ k * t.wordSize := Int.mul_nonneg (by omega) (Int.le_of_lt ht.pos)
    exact hplace y (hwords y (by omega) hy') (by omega) (by omega)
  · intro y hy hy'
    have hbounds : sp + i * t.wordSize < sp + size ∧ 0 ≤ k * t.wordSize ∧
        (k' = k + 1 → k' * t.wordSize = k * t.wordSize + t.wordSize) ∧
        (k' ≠ k + 1 → k' * t.wordSize = k * t.wordSize) := by
      rw [hsize]
      refine ⟨?_, ?_, ?_, ?_⟩
      · obtain hw | hw := hword <;> rw [hw] <;> simp only [List.length_cons] <;> omega
      · exact Int.mul_nonneg (by omega) (Int.le_of_lt ht.pos)
      · rintro rfl
        push_cast
        rw [Int.add_mul, Int.one_mul]
      · intro hne
        rw [show k' = k by omega]
    have hpos := ht.pos
    by_cases heq : k' = k + 1
    · have := hbounds.2.2.1 heq
      exact hplace y (htemps y (by omega) hy') (by omega) fun _ => by omega
    · have := hbounds.2.2.2 heq
      exact hplace y (htemps y (by omega) hy') (by omega) fun h => absurd h heq

end Layout.Room

/-! ## Expressions -/

section

variable {p : Program} {s : Settings} {text : List Line}
  {call : String → List Nat → Eval s.target.bits (Option (Value s.target.bits))}
  {ctx : TypingContext} {env : Env}

theorem Expr.Elab.isVariable_eq {e e' : Expr} {type : Ty} (h : Expr.Elab ctx env e e' type) :
    e'.isVariable = e.isVariable := by
  cases h <;> rfl

theorem Expr.Elab.var_inv {x : Variable} {e' : Expr} {type : Ty}
    (h : Expr.Elab ctx env (.var x) e' type) :
    ∃ b, env.find? x.name = some b ∧ e' = .var { x with binding := some b } := by
  cases h with
  | var hb => exact ⟨_, hb, rfl⟩

theorem passArgs_temporary {e : Expr} (he : e.isVariable = false) (size h : Int) (i k : Nat)
    (args : List (Bool × Expr)) : passArgs s size i k ((true, e) :: args) h = (do
      passTemporary s.target (e.code s) h (i * s.target.wordSize) (size + k * s.target.wordSize)
      passArgs s size (i + 1) (k + 1) args h) := by
  cases e <;> first | rfl | cases he

/-- A call whose arguments are passed one after the other. -/
theorem Layout.Holds.callArgs (hp : p.Linked s text call ctx) {L : Layout}
    {σ σ₁ σ' : Store s.target.bits} {name : String} {f : Function} {args : List (Bool × Expr)}
    {cells : List Nat} {v : Option (Value s.target.bits)}
    (hdef : p.definition? name = some f) (hcall : Ends (call name cells) σ₁ v σ')
    (hpass : ∀ {sp size hi h : Int} {c : Core s.target.bits}, L.Holds s.target sp σ c →
      (∀ a ∈ args, s.Fits a.2.size h) → s.target.wordSize ∣ h → L.Room s.target sp size hi 0 0 args →
      (passArgs s size 0 0 args h).Completes s.target text c fun _ c' =>
        (args.isEmpty = true → c' = c) ∧
          ∃ place, L.Passed s.target sp (sp + (0 : Nat) * s.target.wordSize) hi f.params cells σ₁ c c'
            place)
    {sp h : Int} {c : Core s.target.bits} (hL : L.Holds s.target sp σ c)
    (hfits : s.Fits (Expr.sizeAll args + 1) h) (haligned : s.target.wordSize ∣ h) (free : Nat) :
    (MiniCompiler.callCode s name args (passArgs s (argBytes s.target.wordSize args) 0 0 args) h
      free).Completes s.target text c fun _ c' =>
        L.place.Keeps (s.target.Kept free) (sp ≤ ·) σ' c c' ∧
          ∀ x, v = some x → c'.regs (s.target.registerName free) = x.word := by
  refine hL.callCode hp.regular hp.standard hp.realized hdef hcall ?_ hfits haligned free
  intro sp h c hL hfits haligned hi hbase hlt habove
  have htemps := Int.mul_nonneg (Int.natCast_nonneg (temporaries args))
    (Int.le_of_lt hp.standard.pos)
  have hroom : L.Room s.target sp (argBytes s.target.wordSize args) hi 0 0 args := by
    refine ⟨by simp [argBytes], by simp [hi], hbase, hlt, ?_, ?_⟩
    · intro y _ hy cell hcell
      have := habove cell y hcell
      omega
    · intro y _ hy cell hcell
      have := habove cell y hcell
      omega
  have hpassed := hpass hL hfits haligned hroom
  rwa [Int.natCast_zero, Int.zero_mul, Int.add_zero] at hpassed

mutual

/-- The code of an expression does what the expression means. -/
theorem Expr.Elab.means (hp : p.Linked s text call ctx) {e e' : Expr} {type : Ty}
    (he : Expr.Elab ctx env e e' type) {L : Layout} (henv : L.env = env)
    {σ σ' : Store s.target.bits} {v : Value s.target.bits}
    (hends : Ends (e.eval p call L.scope) σ v σ') :
    (e'.code s).Means s text L (s.FitsWords e'.size) σ v σ' := by
  have hs := hp.regular
  have ht := hp.standard
  cases he with
  | int =>
    rw [Expr.eval] at hends
    obtain ⟨rfl, rfl⟩ := ends_pure.1 hends
    exact Expr.means_int ht _ (ht.ofInt_wrap _)
  | bool =>
    rw [Expr.eval] at hends
    obtain ⟨rfl, rfl⟩ := ends_pure.1 hends
    exact Expr.means_bool ht ..
  | var hb =>
    obtain ⟨cell, hcell, hv, rfl⟩ := Expr.ends_var hends
    exact Expr.means_var ht (henv ▸ hb) hcell hv
  | assign hb he =>
    obtain ⟨σ₁, cell, hends₁, hcell, rfl⟩ := Expr.ends_assign hends
    exact Expr.means_assign ht ((Expr.Elab.means hp he henv hends₁).mono (.le hs (by simp [Expr.size])))
      (henv ▸ hb) hcell
  | call hfind _ hargs =>
    obtain ⟨f, cells, σ₁, hdef, hends₁, hcall⟩ := Expr.ends_call hends
    obtain rfl := hp.declared hdef hfind
    refine Code.means_ofValue ht fun free hL hok => ?_
    refine (hL.callArgs hp hdef hcall ?_ hok.1 hok.2 free).mono (fun _ _ => id) fun _ c' h => ?_
    · exact fun hL hfits haligned hroom =>
        Expr.ElabArgs.passes hp hargs henv hends₁ hL hfits haligned hroom
    · exact ⟨h.1, h.2 v rfl⟩
  | neg he =>
    obtain ⟨n, hends₁, rfl⟩ := Expr.ends_neg hends
    exact Expr.means_neg ht ((Expr.Elab.means hp he henv hends₁).mono (.le hs (by simp [Expr.size])))
  | not he =>
    obtain ⟨b, hends₁, rfl⟩ := Expr.ends_not hends
    exact Expr.means_not ht ((Expr.Elab.means hp he henv hends₁).mono (.le hs (by simp [Expr.size])))
  | arith _ hl hr =>
    obtain ⟨a, b, n, σ₁, hends₁, hends₂, happly, rfl⟩ := Expr.ends_arith hends
    refine Expr.means_arith ht (fun _ => ht) (.deepens hs)
      ((Expr.Elab.means hp hl henv hends₁).mono (.le hs (by omega)))
      ((Expr.Elab.means hp hr henv hends₂).mono (.le hs (by omega))) ?_ happly
    exact Expr.Elab.pure_of_both hl hr hends₁ hends₂
  | order _ _ hl hr | equality _ hl hr =>
    obtain ⟨a, b, q, σ₁, hends₁, hends₂, happly, rfl⟩ := Expr.ends_comp hends
    refine Expr.means_comp hp.labels ht (.deepens hs)
      ((Expr.Elab.means hp hl henv hends₁).mono (.le hs (by omega)))
      ((Expr.Elab.means hp hr henv hends₂).mono (.le hs (by omega))) ?_ happly
    exact Expr.Elab.pure_of_both hl hr hends₁ hends₂
  | logic hl hr =>
    obtain ⟨a, q, σ₁, hends₁, rfl, hcases⟩ := Expr.ends_logic hends
    refine Expr.means_logic hp.labels ht
      ⟨a, σ₁, (Expr.Elab.means hp hl henv hends₁).mono (.le hs (by simp [Expr.size]; omega)), ?_⟩
    rw [LogicOp.decisive_eq]
    exact hcases.imp_right fun h =>
      ⟨h.1, (Expr.Elab.means hp hr henv h.2).mono (.le hs (by simp [Expr.size]; omega))⟩

/-- The arguments of a call are passed in their words. -/
theorem Expr.ElabArgs.passes (hp : p.Linked s text call ctx) {ps : List Param}
    {args args' : List (Bool × Expr)} (hargs : Expr.ElabArgs ctx env ps args args') {L : Layout}
    (henv : L.env = env) {σ σ' : Store s.target.bits} {cells : List Nat}
    (hends : Ends (Expr.evalArgs p call L.scope args ps) σ cells σ') {sp size hi h : Int} {i k : Nat}
    {c : Core s.target.bits} (hL : L.Holds s.target sp σ c) (hfits : ∀ a ∈ args', s.Fits a.2.size h)
    (haligned : s.target.wordSize ∣ h) (hroom : L.Room s.target sp size hi i k args') :
    (passArgs s size i k args' h).Completes s.target text c fun _ c' =>
      (args'.isEmpty = true → c' = c) ∧
        ∃ place, L.Passed s.target sp (sp + i * s.target.wordSize) hi ps cells σ' c c' place := by
  have ht := hp.standard
  cases hargs with
  | nil =>
    rw [Expr.evalArgs] at hends
    obtain ⟨rfl, rfl⟩ := ends_pure.1 hends
    exact does_pure ⟨fun _ => rfl, L.place, .nil hL⟩
  | @cons q ps mark e e' args args' he hargs =>
    have hslot := hroom.slot ht hL.aligned
    have hfit : s.Fits e'.size h := hfits (q.byRef, e') (by simp)
    have hvar : e'.isVariable = e.isVariable := he.isVariable_eq
    -- the rest of the arguments, after the first has been passed
    have hrest {k' cell : Nat} {cells' : List Nat} {σ₁ : Store s.target.bits}
        {c₁ : Core s.target.bits} {place : Places}
        (hends' : Ends (Expr.evalArgs p call L.scope args ps) σ₁ cells' σ')
        (hfirst : L.Passed s.target sp (sp + i * s.target.wordSize) hi [q] [cell] σ₁ c c₁ place)
        (hroom' : { L with place }.Room s.target sp size hi (i + 1) k' args') :
        (passArgs s size (i + 1) k' args' h).Completes s.target text c₁ fun _ c' =>
          (((q.byRef, e') :: args').isEmpty = true → c' = c) ∧ ∃ place, L.Passed s.target sp
            (sp + i * s.target.wordSize) hi (q :: ps) (cell :: cells') σ' c c' place := by
      refine (Expr.ElabArgs.passes (L := { L with place }) hp hargs henv hends' hfirst.holds
        (fun a ha => hfits a (by simp [ha])) haligned hroom').mono (fun _ _ => id) ?_
      rintro _ c' ⟨-, place', hpassed⟩
      rw [Int.natCast_add, Int.add_mul, Int.natCast_one, Int.one_mul, ← Int.add_assoc] at hpassed
      exact ⟨by simp, place', hfirst.cons hslot.le ht.pos hpassed⟩
    -- by value, by reference to a word of its own, or by reference to a variable
    obtain ⟨u, σ₁, cells', hkind, hends₁, hends₂, rfl⟩ | ⟨x, cell, cells', hbyRef, rfl, hcell, hends₂,
      rfl⟩ := Expr.ends_evalArgs_cons hends
    · have hmeans := Expr.Elab.means hp he henv hends₁
      cases hbyRef : q.byRef with
      | false =>
        rw [hbyRef] at hroom
        refine Completes.bind (hL.passValue ht hmeans ⟨hfit, haligned⟩ hslot hbyRef) ?_
        intro _ c₁ hpassed
        refine hrest hends₂ hpassed (hroom.next ht (by simp [temporaries]) fun y hfree hne _ => ?_)
        exact Places.free_put hfree hne
      | true =>
        rw [hbyRef] at hroom
        have htemps : temporaries ((true, e') :: args') = temporaries args' + 1 := by
          simp [temporaries, hvar, hkind hbyRef]
        obtain ⟨htemp, hlt⟩ := hroom.tempSlot ht hL.aligned htemps
        rw [passArgs_temporary (hvar.trans (hkind hbyRef))]
        refine Completes.bind (hL.passTemporary ht hmeans ⟨hfit, haligned⟩ hslot htemp hlt hbyRef) ?_
        intro _ c₁ hpassed
        refine hrest hends₂ hpassed (hroom.next ht (by omega) fun y hfree _ hne => ?_)
        exact Places.free_put hfree (hne rfl)
    · obtain ⟨b, hb, rfl⟩ := he.var_inv
      rw [hbyRef] at hroom ⊢
      refine Completes.bind (hL.passVariable ht (henv ▸ hb) hcell hslot hbyRef) ?_
      intro _ c₁ hpassed
      refine hrest hends₂ hpassed (hroom.next ht ?_ fun y hfree _ _ => hfree)
      simp [temporaries, Expr.isVariable]

end

theorem Expr.ElabEffect.call_inv {pos : Pos} {name : String} {args : List (Bool × Expr)}
    {callee : Option Nat} {e' : Expr} (h : Expr.ElabEffect ctx env (.call pos name args callee) e') :
    ∃ i f args', ctx.declared.find? name = some (i, f) ∧ Expr.ElabArgs ctx env f.params args args' ∧
      e' = .call pos name args' (some i) := by
  cases h with
  | value he =>
    cases he with
    | call hfind _ hargs => exact ⟨_, _, _, hfind, hargs, rfl⟩
  | call hfind hargs => exact ⟨_, _, _, hfind, hargs, rfl⟩

/-- The code of an expression whose value is not used. -/
theorem Expr.ElabEffect.runs (hp : p.Linked s text call ctx) {e e' : Expr}
    (he : Expr.ElabEffect ctx env e e') {L : Layout} (henv : L.env = env)
    {σ σ' : Store s.target.bits} {u : Unit} (hends : Ends (e.run p call L.scope) σ u σ') {sp h : Int}
    {c : Core s.target.bits} (hL : L.Holds s.target sp σ c) (hfits : s.Fits e'.size h)
    (haligned : s.target.wordSize ∣ h) (free : Nat) :
    ((e'.code s).value h free).Completes s.target text c fun _ c' =>
      L.place.Keeps (s.target.Kept free) (sp ≤ ·) σ' c c' := by
  have hvalue {type : Ty} {v : Value s.target.bits} (he : Expr.Elab ctx env e e' type)
      (hends : Ends (e.eval p call L.scope) σ v σ') :=
    ((Expr.Elab.means hp he henv hends).value free hL ⟨hfits, haligned⟩).mono (fun _ _ => id)
      fun _ _ h => h.1
  cases e with
  | call pos name args callee =>
    obtain ⟨i, f, args', hfind, hargs, rfl⟩ := he.call_inv
    rw [Expr.run] at hends
    split at hends
    · exact absurd hends not_ends_stop
    · rename_i g hdef
      obtain ⟨cells, σ₁, hends₁, hends⟩ := ends_bind.1 hends
      obtain ⟨v, σ₂, hcall, hends⟩ := ends_bind.1 hends
      obtain ⟨-, rfl⟩ := ends_pure.1 hends
      obtain rfl := hp.declared hdef hfind
      refine (hL.callArgs hp hdef hcall ?_ hfits haligned free).mono (fun _ _ => id) fun _ c' h => h.1
      exact fun hL hfits haligned hroom =>
        Expr.ElabArgs.passes hp hargs henv hends₁ hL hfits haligned hroom
  | _ =>
    obtain ⟨v, σ₁, hends₁, hends⟩ := ends_bind.1 hends
    obtain ⟨-, rfl⟩ := ends_pure.1 hends
    cases he with
    | value he => exact hvalue he hends₁

end

end MiniCompiler
