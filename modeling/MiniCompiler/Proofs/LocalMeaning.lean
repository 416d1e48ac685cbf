import MiniCompiler.Proofs.ExprMeaning

/-!
# The meaning of declarations

A declaration puts the cells of its variables into words of the frame that are not in use. What a
statement leaves is said by `Layout.After`: the variables that it has added lie in the free part of the
frame, and nothing else has changed but the variables that were there before. The declarations of a
block follow one another in this way (`Layout.After.trans`), and at its end their words are free again.
-/

namespace MiniCompiler

open Emit

/-! ## Frames -/

/-- The frame of a function has `peak` words below the base pointer. Of these the first `live` are in
    use; no variable lies in the others or below them. -/
structure Layout.Framed (L : Layout) (t : Target) (sp peak live : Int) : Prop where
  nonneg : 0 ≤ live
  le_peak : live ≤ peak
  lt : peak * t.wordSize < wordBound
  aligned : t.wordSize ∣ L.base
  le : sp ≤ L.base - peak * t.wordSize
  above : ∀ cell x, L.place cell = some x → L.base - live * t.wordSize ≤ x

/-- The address `x` is not in the free part of the frame. -/
def Layout.Spared (L : Layout) (t : Target) (sp peak live x : Int) : Prop :=
  sp ≤ x ∧ (x < L.base - peak * t.wordSize ∨ L.base - live * t.wordSize ≤ x)

/-- What a statement leaves, as far as it can be said without the variables that it has added. -/
abbrev Layout.Keeps (L : Layout) (t : Target) (sp peak live : Int) (σ' : Store t.bits)
    (c c' : Core t.bits) : Prop :=
  L.place.Keeps (t.Kept 0) (L.Spared t sp peak live) σ' c c'

/-- What a statement leaves: the layout `L'` has the variables that it has added, in words of the frame
    that were free. -/
structure Layout.After (L L' : Layout) (t : Target) (sp peak live live' : Int) (σ' : Store t.bits)
    (c c' : Core t.bits) : Prop where
  base : L'.base = L.base
  framed : L'.Framed t sp peak live'
  holds : L'.Holds t sp σ' c'
  within : L.place.Within L'.place
  fresh : ∀ cell x, L'.place cell = some x → L.place cell = some x ∨ x < L.base - live * t.wordSize
  live_le : live ≤ live'
  agrees : c.Agrees (t.Kept 0) (fun x => L.Spared t sp peak live x ∧ L.place.Free x) c'

namespace Layout

variable {L L' L'' : Layout} {t : Target} {sp peak live live' live'' : Int} {σ σ' σ'' : Store t.bits}
  {c c' c'' : Core t.bits}

theorem Framed.mono (h : L.Framed t sp peak live) (ht : t.Standard) (hle : live ≤ live')
    (hle' : live' ≤ peak) : L.Framed t sp peak live' := by
  refine ⟨Int.le_trans h.nonneg hle, hle', h.lt, h.aligned, h.le, fun cell x hcell => ?_⟩
  have := h.above cell x hcell
  have := Int.mul_le_mul_of_nonneg_right hle (Int.le_of_lt ht.pos)
  omega

theorem Spared.mono (ht : t.Standard) (hle : live ≤ live') {x : Int}
    (h : L.Spared t sp peak live x) : L.Spared t sp peak live' x := by
  have := Int.mul_le_mul_of_nonneg_right hle (Int.le_of_lt ht.pos)
  exact ⟨h.1, h.2.imp_right fun h => by omega⟩

theorem Framed.spared (h : L.Framed t sp peak live) (ht : t.Standard) {x : Int} (hx : L.base ≤ x) :
    L.Spared t sp peak live x := by
  have := Int.mul_nonneg h.nonneg (Int.le_of_lt ht.pos)
  have := Int.mul_nonneg (Int.le_trans h.nonneg h.le_peak) (Int.le_of_lt ht.pos)
  have := h.le
  exact ⟨by omega, .inr (by omega)⟩

theorem Keeps.refl (hL : L.Holds t sp σ c) : L.Keeps t sp peak live σ c c :=
  ⟨.refl _ _ c, hL.hold⟩

theorem Keeps.ofExpr (h : L.place.Keeps (t.Kept 0) (sp ≤ ·) σ' c c') :
    L.Keeps t sp peak live σ' c c' := h.mono (fun _ => id) fun _ hx => hx.1

theorem Holds.keep (hL : L.Holds t sp σ c) (hframed : L.Framed t sp peak live) (ht : t.Standard)
    (h : L.Keeps t sp peak live σ' c c') : L.Holds t sp σ' c' :=
  hL.after h .stackPointer .basePointer fun _ hx => hframed.spared ht hx

namespace After

/-- A statement that has added no variable that is still in scope. -/
theorem ofKeeps (ht : t.Standard) (hL : L.Holds t sp σ c) (hframed : L.Framed t sp peak live)
    (h : L.Keeps t sp peak live σ' c c') (hle : live ≤ live') (hle' : live' ≤ peak) :
    L.After L t sp peak live live' σ' c c' :=
  ⟨rfl, hframed.mono ht hle hle', hL.keep hframed ht h, fun _ _ => id, fun _ _ => .inl, hle, h.agrees⟩

theorem keeps (h : L.After L' t sp peak live live' σ' c c') : L.Keeps t sp peak live σ' c c' :=
  ⟨h.agrees, h.within.hold h.holds.hold⟩

theorem spared_free (ht : t.Standard) (h : L.After L' t sp peak live live' σ' c c') {x : Int}
    (hx : L.Spared t sp peak live x) (hfree : L.place.Free x) :
    L'.Spared t sp peak live' x ∧ L'.place.Free x := by
  have hword := Int.le_of_lt ht.pos
  have hle := Int.mul_le_mul_of_nonneg_right h.live_le hword
  have hpeak := Int.mul_le_mul_of_nonneg_right h.framed.le_peak hword
  have hbase := h.base
  refine ⟨⟨hx.1, ?_⟩, fun cell hcell => ?_⟩
  · rw [hbase]
    exact hx.2.imp_right fun h => by omega
  · obtain hold | hlt := h.fresh cell x hcell
    · exact hfree cell hold
    · have := h.framed.above cell x hcell
      obtain hx | hx := hx.2
      · omega
      · omega

theorem trans_keeps (ht : t.Standard) (h : L.After L' t sp peak live live' σ' c c')
    (h' : L'.Keeps t sp peak live' σ'' c' c'') : L.Keeps t sp peak live σ'' c c'' where
  agrees := h.agrees.trans (h'.agrees.mono (fun _ => id) fun _ hx => h.spared_free ht hx.1 hx.2)
  hold := h.within.hold h'.hold

theorem trans (ht : t.Standard) (h : L.After L' t sp peak live live' σ' c c')
    (h' : L'.After L'' t sp peak live' live'' σ'' c' c'') :
    L.After L'' t sp peak live live'' σ'' c c'' where
  base := h'.base.trans h.base
  framed := h'.framed
  holds := h'.holds
  within := fun cell x hcell => h'.within cell x (h.within cell x hcell)
  fresh := by
    intro cell x hcell
    have hle := Int.mul_le_mul_of_nonneg_right h.live_le (Int.le_of_lt ht.pos)
    have hbase := h.base
    obtain hold | hlt := h'.fresh cell x hcell
    · exact h.fresh cell x hold
    · rw [hbase] at hlt
      exact .inr (by omega)
  live_le := Int.le_trans h.live_le h'.live_le
  agrees := (h.trans_keeps ht h'.keeps).agrees

end After

/-! ## One variable -/

theorem Framed.offset (ht : t.Standard) (h : L.Framed t sp peak live) (hpeak : live + 1 ≤ peak)
    {offset : Int} (hoffset : offset = -(live + 1) * t.wordSize) :
    wrap offset = offset ∧ t.wordSize ∣ L.base + offset := by
  have hlt := h.lt
  have hbounds : -(peak * t.wordSize) ≤ offset ∧ offset ≤ 0 := by
    have hle := Int.mul_le_mul_of_nonneg_right hpeak (Int.le_of_lt ht.pos)
    have hnonneg := Int.mul_nonneg (show 0 ≤ live + 1 by have := h.nonneg; omega)
      (Int.le_of_lt ht.pos)
    rw [hoffset, Int.neg_mul]
    omega
  refine ⟨wrap_of_mem_range (by omega) (by unfold wordBound; omega), ?_⟩
  exact Int.dvd_add h.aligned (hoffset ▸ Int.dvd_mul_left ..)

/-- A new variable takes the next word of the frame, where its value has been stored. -/
theorem Holds.declare (ht : t.Standard) (hL : L.Holds t sp σ c) (hframed : L.Framed t sp peak live)
    (hpeak : live + 1 ≤ peak) {b : Binding} (hb : b.byRef = false)
    (hoffset : b.offset = -(live + 1) * t.wordSize) {v : Value t.bits}
    (hregs : ∀ r, t.Kept 0 r → c'.regs r = c.regs r) (hv : c'.mem (L.base + b.offset) = v.word)
    (hmem : ∀ y, y ≠ L.base + b.offset → c'.mem y = c.mem y) :
    L.After ⟨L.base, L.place.put σ.length (L.base + b.offset), b :: L.env,
      (b.name, σ.length) :: L.scope⟩ t sp peak live (live + 1) (σ ++ [v]) c c' := by
  have hword := Int.le_of_lt ht.pos
  have hlive := hframed.nonneg
  -- the word lies in the frame, right below those in use
  obtain ⟨hlow, hhigh, hbase⟩ : L.base - peak * t.wordSize ≤ L.base + b.offset ∧
      L.base + b.offset < L.base - live * t.wordSize ∧ L.base - live * t.wordSize ≤ L.base := by
    have hle := Int.mul_le_mul_of_nonneg_right hpeak hword
    have hnonneg := Int.mul_nonneg hlive hword
    have hpos := ht.pos
    rw [hoffset, Int.neg_mul]
    rw [Int.add_mul, Int.one_mul] at hle ⊢
    omega
  have heq : L.base + b.offset = L.base - (live + 1) * t.wordSize := by
    rw [hoffset, Int.neg_mul]
    rfl
  have hbelow := hframed.le
  obtain ⟨hwrap, haligned⟩ := hframed.offset ht hpeak hoffset
  generalize hx : L.base + b.offset = x at hlow hhigh heq haligned hv hmem ⊢
  have hfree : L.place.Free x := by
    intro cell hcell
    have := hframed.above cell _ hcell
    omega
  have hput := hL.put (by omega) (by omega) haligned hfree v
    (fun r hr => hregs r (hr.imp_right .inl)) hv hmem
  have hnone := hL.hold.none_of_length (Nat.le_refl σ.length)
  refine ⟨rfl, ⟨by omega, hpeak, hframed.lt, hframed.aligned, hbelow, ?_⟩, ?_,
    Places.within_put hnone, ?_, by omega, hregs, ?_⟩
  · intro cell y hcell
    show L.base - _ ≤ y
    obtain ⟨-, rfl⟩ | hold := Places.put_eq_some hcell
    · omega
    · have := hframed.above cell y hold
      omega
  · refine ⟨hput.stackPointer, hput.basePointer, hput.aligned, hput.le_base, hput.proper, hput.hold,
      .cons ⟨rfl, hwrap, hx ▸ haligned, fun _ => ?_, by simp [hb]⟩ ?_⟩
    · exact hx ▸ Places.put_self
    · exact hput.binds.imp fun _ _ hb => ⟨hb.name, hb.offset, hb.aligned, hb.direct, hb.indirect⟩
  · intro cell y hcell
    obtain ⟨-, rfl⟩ | hold := Places.put_eq_some hcell
    · exact .inr hhigh
    · exact .inl hold
  · intro y hy
    refine hmem y ?_
    rintro rfl
    obtain hlow' | hhigh' := hy.1.2
    · omega
    · omega

end Layout

/-! ## Declarations -/

theorem Expr.Elab.not_absent {ctx : TypingContext} {env : Env} {e e' : Expr} {type : Ty}
    (h : Expr.Elab ctx env e e' type) : e.isAbsent = false ∧ e'.isAbsent = false := by
  cases h <;> exact ⟨rfl, rfl⟩

theorem Expr.ElabOrAbsent.absent_or {ctx : TypingContext} {env : Env} {ok : Ty → Prop} {e e' : Expr}
    (h : Expr.ElabOrAbsent ctx env ok e e') : e.isAbsent = true ∧ e'.isAbsent = true ∨
      e.isAbsent = false ∧ e'.isAbsent = false ∧ ∃ type, ok type ∧ Expr.Elab ctx env e e' type := by
  cases h with
  | absent => exact .inl ⟨rfl, rfl⟩
  | present hok he => exact .inr ⟨he.not_absent.1, he.not_absent.2, _, hok, he⟩

theorem Ty.word_zero {w : Nat} (type : Ty) : (type.zero : Value w).word = .num 0 := by
  cases type <;> rfl

section

variable {p : Program} {s : Settings} {text : List Line}
  {call : String → List Nat → Eval s.target.bits (Option (Value s.target.bits))}
  {ctx : TypingContext} {sp peak h : Int}

/-- The code of a declaration puts its variables into the frame. -/
theorem Local.ElabAll.means (hp : p.Linked s text call ctx) (haligned : s.target.wordSize ∣ h)
    {type : Ty} {env env' : Env} {fr fr' : Frame} {vars vars' : List Local}
    (hvars : Local.ElabAll ctx type env fr vars vars' env' fr') : ∀ {L : Layout}, L.env = env →
    ∀ {scope' : Naming} {σ σ' : Store s.target.bits} {c : Core s.target.bits},
    Ends (Local.declareAll p call type vars L.scope) σ scope' σ' → L.Holds s.target sp σ c →
    L.Framed s.target sp peak fr.live → fr.Ok → fr.live + Local.sizeAll vars < wordBound →
    fr'.peak ≤ peak → s.Fits (Local.sizeAll vars) h →
    (localsCode s h vars').Completes s.target text c fun _ c' => ∃ L' : Layout, L'.env = env' ∧
      L'.scope = scope' ∧ L.After L' s.target sp peak fr.live fr'.live σ' c c' := by
  have ht := hp.standard
  induction hvars with
  | nil =>
    intro L henv scope' σ σ' c hends hL hframed _ _ _ _
    rw [Local.declareAll] at hends
    obtain ⟨rfl, rfl⟩ := ends_pure.1 hends
    exact does_pure ⟨L, henv, rfl, .ofKeeps ht hL hframed (.refl hL) (Int.le_refl _) hframed.le_peak⟩
  | @cons env env' fr fr' v vars vars' init b hinit hb hvars ih =>
    intro L henv scope' σ σ' c hends hL hframed hok hlt hpeak hfits
    obtain ⟨x, σ₁, hx, hends⟩ := Local.ends_declareAll_cons hends
    simp only [Local.sizeAll] at hlt hfits
    obtain ⟨hpush, hlive⟩ := Frame.grows_push hok (by omega)
    have hgrows := hvars.grows hpush.ok (by omega)
    have hpeak' : fr.live + 1 ≤ peak := by
      have := hpush.ok.2
      have := hgrows.peak.1
      omega
    have hoffset : b.offset = -(fr.live + 1) * s.target.wordSize := by
      rw [hb, ← hlive, hp.settings, hp.regular.wordSize]
      rfl
    have hname : b.name = v.name ∧ b.byRef = false := by simp [hb]
    obtain ⟨hwrap, hslot⟩ := hframed.offset ht hpeak' hoffset
    -- the value is stored from a state in which only the initial expression has been evaluated
    have hstore {c₁ : Core s.target.bits} {word : Word s.target.bits} (hword : word = x.word)
        (hkeeps : L.Keeps s.target sp peak fr.live σ₁ c c₁) :
        (localsCode s h vars').Completes s.target text (c₁.setMem (L.base + b.offset) word)
          fun _ c' => ∃ L' : Layout, L'.env = env' ∧ L'.scope = scope' ∧
            L.After L' s.target sp peak fr.live fr'.live σ' c c' := by
      have hx : (c₁.setMem (L.base + b.offset) word).mem (L.base + b.offset) = x.word := by
        rw [Core.mem_setMem_self, hword]
      have hmem : ∀ y, y ≠ L.base + b.offset →
          (c₁.setMem (L.base + b.offset) word).mem y = c₁.mem y :=
        fun y hy => Core.mem_setMem_of_ne _ hy _
      have hregs : ∀ r, s.target.Kept 0 r →
          (c₁.setMem (L.base + b.offset) word).regs r = c₁.regs r := fun _ _ => rfl
      have hfirst := Layout.After.ofKeeps ht hL hframed hkeeps (Int.le_refl _) hframed.le_peak
      have hdeclared := hfirst.trans ht
        (hfirst.holds.declare ht hfirst.framed hpeak' hname.2 hoffset hregs hx hmem)
      rw [hname.1, ← hlive] at hdeclared
      refine (ih (by rw [henv]) hends hdeclared.holds hdeclared.framed hpush.ok (by omega) hpeak
        (hfits.le hp.regular (by omega))).mono (fun _ _ => id) ?_
      rintro _ c' ⟨L', henv', hscope', hafter⟩
      exact ⟨L', henv', hscope', hdeclared.trans ht hafter⟩
    obtain ⟨habs, habs'⟩ | ⟨hpresent, hpresent', type', -, he⟩ := hinit.absent_or
    · obtain ⟨-, rfl, rfl⟩ | ⟨hpresent, -⟩ := hx
      · refine Does.ite (fun _ => Does.bind (does_bindingOf ?_)) fun hnot => absurd habs' hnot
        rintro _ ⟨⟩
        refine Does.bind (does_instr (Instr.effect_putConst hL.basePointer (hwrap.symm ▸ hslot)) ?_)
        rw [hwrap]
        exact hstore (by rw [Ty.word_zero]; rfl) (.refl hL)
      · simp [habs] at hpresent
    · obtain ⟨habs, -⟩ | ⟨-, hx⟩ := hx
      · simp [hpresent] at habs
      · have hfits' : s.Fits init.size h := he.size_eq ▸ hfits.le hp.regular (by omega)
        refine Does.ite (fun habs => by simp [hpresent'] at habs) fun _ => ?_
        refine Completes.bind ((he.means hp henv hx).value 0 hL ⟨hfits', haligned⟩) ?_
        rintro _ c₁ ⟨hkeeps, hword⟩
        have hL₁ := hL.keep hframed ht (.ofExpr hkeeps)
        refine Does.reg_bind ht 0 (Does.bind (does_bindingOf ?_))
        rintro _ ⟨⟩
        refine Does.bind (does_instr (Instr.effect_put hL₁.basePointer (hwrap.symm ▸ hslot)) ?_)
        rw [hwrap]
        exact hstore hword (.ofExpr hkeeps)

end

end MiniCompiler
