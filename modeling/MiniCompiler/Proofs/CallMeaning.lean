import MiniCompiler.Proofs.OperatorMeaning

/-!
# The meaning of calls

A call passes each argument in a word above the return address: its value, or the address of a
variable. The value of an argument that is passed by reference and is no variable gets a word of its
own. `Program.Realized` says that the text of every function does what the function means; from it
follows the same for the code of a call.
-/

namespace MiniCompiler

open Emit

/-! ## Arguments and results -/

/-- The argument for a parameter is passed in the word at `x`: its cell lies there, or it has the
    address of the cell. -/
def Places.Passes {w : Nat} (place : Places) (mem : Int → Word w) (x : Int) (q : Param)
    (cell : Nat) : Prop :=
  (q.byRef = false → place cell = some x) ∧
    (q.byRef = true → place.Free x ∧ ∃ y, place cell = some y ∧ mem x = .addr y)

/-- Arguments are passed in consecutive words, from the address `x` on. -/
def Places.PassesAll {w : Nat} (place : Places) (wordSize : Int) (mem : Int → Word w) :
    Int → List Param → List Nat → Prop
  | _, [], [] => True
  | x, q :: ps, cell :: cells => place.Passes mem x q cell ∧
    place.PassesAll wordSize mem (x + wordSize) ps cells
  | _, _, _ => False

theorem Places.PassesAll.congr {w : Nat} {place : Places} {wordSize : Int}
    (hword : 0 ≤ wordSize) {mem mem' : Int → Word w} {ps : List Param} :
    ∀ {x : Int} {cells : List Nat}, place.PassesAll wordSize mem x ps cells →
      (∀ y, x ≤ y → mem' y = mem y) → place.PassesAll wordSize mem' x ps cells := by
  induction ps with
  | nil =>
    intro x cells h _
    cases cells with
    | nil => trivial
    | cons => exact h
  | cons q ps ih =>
    intro x cells h heq
    cases cells with
    | nil => exact h
    | cons cell cells =>
      refine ⟨⟨h.1.1, fun hbyRef => ?_⟩, ih h.2 fun y hy => heq y (by omega)⟩
      obtain ⟨hfree, y, hcell, hmem⟩ := h.1.2 hbyRef
      exact ⟨hfree, y, hcell, (heq x (Int.le_refl x)).trans hmem⟩

/-- The registers that a function keeps. -/
def Target.KeptByCall (t : Target) (r : String) : Prop :=
  r = t.stackPointer ∨ r = t.basePointer ∨ r ∈ t.calleeSaved

/-- The state when a function is about to return, from the state when it was entered, with its return
    address at `a`. -/
def Places.Returns (place : Places) (t : Target) (a : Int) (v : Option (Value t.bits))
    (σ' : Store t.bits) (c c' : Core t.bits) : Prop :=
  place.Keeps t.KeptByCall (a ≤ ·) σ' c c' ∧ ∀ x, v = some x → c'.regs (t.registerName 0) = x.word

/-- From the lines `body` on, a function returns the value `v` and leaves the store `σ'`, if it finds
    its arguments in the words above the return address. -/
def Function.Performs (f : Function) (t : Target) (text body : List Line) (cells : List Nat)
    (σ : Store t.bits) (v : Option (Value t.bits)) (σ' : Store t.bits) : Prop :=
  ∀ {place : Places} {a : Int} {c : Core t.bits}, c.regs t.stackPointer = .addr a →
    t.wordSize ∣ a → place.Proper t (a + t.wordSize) → place.Hold σ c.mem →
    place.PassesAll t.wordSize c.mem (a + t.wordSize) f.params cells →
    ∃ rest c', Machine.Reaches t text ⟨body, c⟩ ⟨.instr .ret :: rest, c'⟩ ∧
      place.Returns t a v σ' c c'

/-- The text of every function does what `call` says about the function. -/
def Program.Realized (p : Program) (s : Settings) (text : List Line)
    (call : String → List Nat → Eval s.target.bits (Option (Value s.target.bits))) : Prop :=
  ∀ {name f cells σ v σ'}, p.definition? name = some f → Ends (call name cells) σ v σ' →
    ∃ body, resolve (.symbol (s.symbolStart ++ name)) text = some body ∧
      f.Performs s.target text body cells σ v σ'

/-! ## Calling and returning -/

section

variable {t : Target} {text : List Line} {sp : Int} {c : Core t.bits}
  {J : List Line → Core t.bits → Prop} {Q : Core t.bits → Prop}

theorem Machine.step_call (ht : t.Standard) {symbol : String} {pushed : Int} {body rest : List Line}
    (hsymbol : resolve (.symbol symbol) text = some body)
    (hsp : c.regs t.stackPointer = .addr sp) (haligned : t.wordSize ∣ sp) :
    Machine.step t text ⟨.instr (.call symbol pushed) :: rest, c⟩ =
      some ⟨body, c.pushed sp (.code rest)⟩ := by
  simp [Machine.step, hsymbol, Core.push_eq ht hsp haligned]

theorem Machine.step_ret {rest rest' : List Line} (hsp : c.regs t.stackPointer = .addr sp)
    (haligned : t.wordSize ∣ sp) (hreturn : c.mem sp = .code rest) :
    Machine.step t text ⟨.instr .ret :: rest', c⟩ =
      some ⟨rest, c.setReg t.stackPointer (.addr (sp + t.wordSize))⟩ := by
  simp [Machine.step, Core.pop_eq hsp haligned, hreturn]

/-- A call goes on in the next line if the function returns there. -/
theorem executes_call (ht : t.Standard) {symbol : String} {pushed : Int} {body : List Line}
    (hsymbol : resolve (.symbol symbol) text = some body)
    (hsp : c.regs t.stackPointer = .addr sp) (haligned : t.wordSize ∣ sp)
    (hbody : ∀ rest, ∃ rest' c',
      Machine.Reaches t text ⟨body, c.pushed sp (.code rest)⟩ ⟨.instr .ret :: rest', c'⟩ ∧
      c'.regs t.stackPointer = .addr (sp - t.wordSize) ∧ c'.mem (sp - t.wordSize) = .code rest ∧
      Q (c'.setReg t.stackPointer (.addr sp))) :
    Executes t text [.instr (.call symbol pushed)] c J Q := by
  intro rest _
  obtain ⟨rest', c', hreaches, hsp', hreturn, hQ⟩ := hbody rest
  have haligned' : t.wordSize ∣ sp - t.wordSize := Int.dvd_sub haligned (Int.dvd_refl _)
  have hret : Machine.step t text ⟨.instr .ret :: rest', c'⟩ = _ :=
    Machine.step_ret hsp' haligned' hreturn
  rw [Int.sub_add_cancel] at hret
  refine ⟨rest, _, .head (Machine.step_call ht hsymbol hsp haligned) (hreaches.trans ?_),
    .inl ⟨rfl, hQ⟩⟩
  exact .single hret

/-- The registers that a call saves, and the ones that it need not save. -/
theorem savedAtCall_spec (ht : t.Standard) {noArgs : Bool} {free : Nat} {saved : List String}
    (h : savedAtCall t noArgs free = .ok saved) : t.stackPointer ∉ saved ∧
      t.registerName free ∉ saved ∧ ∀ r, t.Kept free r → r ∉ saved →
        r = t.stackPointer ∨ r = t.basePointer ∨ noArgs = true ∧ r ∈ t.calleeSaved := by
  rw [Target.savedAtCall_eq ht.registers_ne_nil, ht.length] at h
  cases h
  -- there are six registers, so only the last five numbers below `free` can stand for others
  have hmem {k : Nat} : k ∈ (List.range free).drop (free + 1 - 6) ↔ free < k + 6 ∧ k < free := by
    rw [List.mem_drop_iff_getElem]
    constructor
    · rintro ⟨i, hi, rfl⟩
      simp at hi ⊢
      omega
    · rintro ⟨hlo, hhi⟩
      refine ⟨k - (free + 1 - 6), by simp; omega, ?_⟩
      simp
      omega
  refine ⟨?_, ?_, ?_⟩
  · intro hin
    obtain ⟨k, -, hk⟩ := List.mem_map.1 (List.mem_filter.1 hin).1
    exact ht.registerName_ne_stackPointer k hk
  · intro hin
    obtain ⟨k, hrange, hk⟩ := List.mem_map.1 (List.mem_filter.1 hin).1
    rw [hmem] at hrange
    rw [ht.registerName_inj] at hk
    omega
  · rintro r (hr | hr | ⟨hne, k, hk, rfl⟩) hout
    · exact .inl hr
    · exact .inr (.inl hr)
    · rw [Ne, ht.registerName_inj] at hne
      -- the last number below `free` that has the same register
      obtain ⟨k', hk', hrange⟩ : ∃ k', t.registerName k = t.registerName k' ∧
          free < k' + 6 ∧ k' < free := by
        refine ⟨free - 1 - (free - 1 - k) % 6, ?_, by omega, by omega⟩
        rw [ht.registerName_inj]
        omega
      have hfilter : (!noArgs || t.isCallerSaved (t.registerName k)) = false := by
        rw [← Bool.not_eq_true]
        intro hsaved
        exact hout (List.mem_filter.2 ⟨List.mem_map.2 ⟨k', hmem.2 hrange, hk'.symm⟩, hsaved⟩)
      rw [Bool.or_eq_false_iff, Bool.not_eq_false'] at hfilter
      refine .inr (.inr ⟨hfilter.1, ?_⟩)
      have hsaved := ht.saved _ (ht.mem_registers k)
      rw [hfilter.2] at hsaved
      exact hsaved.resolve_left Bool.false_ne_true

end

/-! ## Room on the stack -/

section

variable {α : Type} {t : Target} {text : List Line} {sp n : Int} {c : Core t.bits}
  {J : List Line → Core t.bits → Prop} {Q : α → Core t.bits → Prop} {x : Emit α}

/-- An instruction that moves the stack pointer by `n` bytes is left out where it would not. -/
theorem Does.shift_bind {i : Instr} {sp' : Int} (hsp : c.regs t.stackPointer = .addr sp)
    (hi : i.effect t c = some ((c.setReg t.stackPointer (.addr sp')).setFlags none))
    (hstay : ¬ 0 < n → sp' = sp)
    (hx : ∀ c', c.Agrees (· ≠ t.stackPointer) (fun _ => True) c' →
      c'.regs t.stackPointer = .addr sp' → x.Does t text c' J Q) :
    (if 0 < n then instr i >>= fun _ => x else x).Does t text c J Q := by
  refine Does.ite (fun _ => Does.bind (does_instr hi (hx _ ?_ ?_))) fun hn => ?_
  · exact ⟨fun r hr => by simp [hr], fun _ _ => rfl⟩
  · simp
  · exact hx c (.refl _ _ c) (by rw [hsp, hstay hn])

theorem Does.lower_bind (hpos : 0 ≤ n) (hlt : n < wordBound)
    (hsp : c.regs t.stackPointer = .addr sp)
    (hx : ∀ c', c.Agrees (· ≠ t.stackPointer) (fun _ => True) c' →
      c'.regs t.stackPointer = .addr (sp - n) → x.Does t text c' J Q) :
    (if 0 < n then instr (.sub (.imm n) t.sp) >>= fun _ => x else x).Does t text c J Q := by
  have hwrap : wrap n = n := wrap_of_mem_range (by unfold wordBound; omega) hlt
  exact Does.shift_bind hsp ((Instr.effect_lower hsp).trans (by rw [hwrap])) (by omega) hx

theorem Does.raise_bind (hpos : 0 ≤ n) (hlt : n < wordBound)
    (hsp : c.regs t.stackPointer = .addr sp)
    (hx : ∀ c', c.Agrees (· ≠ t.stackPointer) (fun _ => True) c' →
      c'.regs t.stackPointer = .addr (sp + n) → x.Does t text c' J Q) :
    (if 0 < n then instr (.add (.imm n) t.sp) >>= fun _ => x else x).Does t text c J Q := by
  have hwrap : wrap n = n := wrap_of_mem_range (by unfold wordBound; omega) hlt
  exact Does.shift_bind hsp ((Instr.effect_raise hsp).trans (by rw [hwrap])) (by omega) hx

end

/-! ## Calls -/

/-- What passing arguments leaves, in the words from `x` up to `hi`: new cells lie there. -/
structure Layout.Passed (L : Layout) (t : Target) (sp x hi : Int) (ps : List Param)
    (cells : List Nat) (σ' : Store t.bits) (c c' : Core t.bits) (place : Places) : Prop where
  within : L.place.Within place
  holds : { L with place }.Holds t sp σ' c'
  passes : place.PassesAll t.wordSize c'.mem x ps cells
  fresh : ∀ cell y, place cell = some y → L.place cell = some y ∨ x ≤ y ∧ y < hi
  mem : ∀ y, sp ≤ y → L.place.Free y → ¬ (x ≤ y ∧ y < hi) → c'.mem y = c.mem y

/-- A free word for an argument, at an offset from the stack pointer and below `hi`. -/
structure Layout.Slot (L : Layout) (t : Target) (sp hi offset x : Int) : Prop where
  wraps : wrap offset = offset
  eq : sp + offset = x
  le : sp ≤ x
  lt : x < hi
  lt_base : x < L.base
  aligned : t.wordSize ∣ x
  free : L.place.Free x

namespace Layout

variable {s : Settings} {text : List Line} {L : Layout} {sp h x hi offset : Int} {ok : Int → Prop}
  {cell : Nat} {q : Param} {σ σ₁ σ' : Store s.target.bits} {v : Value s.target.bits}
  {c c₁ c' : Core s.target.bits}

theorem Passed.nil (hL : L.Holds s.target sp σ c) : L.Passed s.target sp x hi [] [] σ c c L.place :=
  ⟨fun _ _ => id, hL, trivial, fun _ _ => .inl, fun _ _ _ _ => rfl⟩

/-- The first argument stays as it is while the others are passed. -/
theorem Passed.cons {place place' : Places} {ps : List Param} {cells : List Nat} (hx : sp ≤ x)
    (hpos : 0 < s.target.wordSize) (h : L.Passed s.target sp x hi [q] [cell] σ₁ c c₁ place)
    (h' : { L with place }.Passed s.target sp (x + s.target.wordSize) hi ps cells σ' c₁ c' place') :
    L.Passed s.target sp x hi (q :: ps) (cell :: cells) σ' c c' place' where
  within := fun n y hn => h'.within n y (h.within n y hn)
  holds := h'.holds
  passes := by
    refine ⟨⟨fun hvalue => h'.within _ _ (h.passes.1.1 hvalue), fun hbyRef => ?_⟩, h'.passes⟩
    obtain ⟨hfree, y, hcell, hmem⟩ := h.passes.1.2 hbyRef
    refine ⟨?_, y, h'.within _ _ hcell, ?_⟩
    · intro n hn
      obtain hold | ⟨hle, -⟩ := h'.fresh n x hn
      · exact hfree n hold
      · omega
    · exact (h'.mem x hx hfree (by omega)).trans hmem
  fresh := by
    intro n y hn
    obtain hold | ⟨hle, hlt⟩ := h'.fresh n y hn
    · exact h.fresh n y hold
    · exact .inr ⟨by omega, hlt⟩
  mem := by
    intro y hy hfree hout
    have hfree' : place.Free y := by
      intro n hn
      obtain hold | hin := h.fresh n y hn
      · exact hfree n hold
      · exact hout hin
    exact (h'.mem y hy hfree' (by omega)).trans (h.mem y hy hfree hout)

theorem Holds.passValue (ht : s.target.Standard) {code : Code}
    (he : code.Means s text L ok σ v σ₁) (hL : L.Holds s.target sp σ c) (hok : ok h)
    (hx : L.Slot s.target sp hi offset x) (hq : q.byRef = false) :
    (MiniCompiler.passValue s.target code h offset).Completes s.target text c fun _ c' =>
      L.Passed s.target sp x hi [q] [σ₁.length] (σ₁ ++ [v]) c c' (L.place.put σ₁.length x) := by
  refine Completes.bind (he.value 0 hL hok) ?_
  rintro _ c₁ ⟨hkeeps, hv⟩
  have hL₁ := hL.after hkeeps .stackPointer .basePointer fun z hz => Int.le_trans hL.le_base hz
  refine Does.reg_bind ht 0 (does_instr (Instr.effect_put hL₁.stackPointer ?_) ?_)
  · rw [hx.wraps, hx.eq]
    exact hx.aligned
  rw [hx.wraps, hx.eq, hv]
  have hmem : ∀ y, y ≠ x → (c₁.setMem x v.word).mem y = c₁.mem y :=
    fun y hy => Core.mem_setMem_of_ne _ hy _
  refine ⟨Places.within_put (hL₁.hold.none_of_length (Nat.le_refl _)), ?_, ⟨⟨?_, ?_⟩, trivial⟩, ?_, ?_⟩
  · exact hL₁.put hx.le hx.lt_base hx.aligned hx.free v (fun _ _ => rfl) (Core.mem_setMem_self ..)
      hmem
  · exact fun _ => Places.put_self
  · simp [hq]
  · intro m y hm
    obtain ⟨-, rfl⟩ | hold := Places.put_eq_some hm
    · exact .inr ⟨Int.le_refl _, hx.lt⟩
    · exact .inl hold
  · intro y hy hfree hout
    have hne : y ≠ x := by
      rintro rfl
      exact hout ⟨Int.le_refl y, hx.lt⟩
    rw [hmem y hne, hkeeps.agrees.mem y ⟨hy, hfree⟩]

theorem Holds.passVariable (ht : s.target.Standard) (hL : L.Holds s.target sp σ c) {z : Variable}
    {b : Binding} (hb : L.env.find? z.name = some b) (hcell : L.scope.lookup z.name = some cell)
    (hx : L.Slot s.target sp hi offset x) (hq : q.byRef = true) :
    (MiniCompiler.passVariable s.target { z with binding := some b } offset).Completes s.target
      text c fun _ c' => L.Passed s.target sp x hi [q] [cell] σ c c' L.place := by
  have hbinds := hL.find hb hcell
  refine Does.reg_bind ht 0 (Does.bind (does_bindingOf ?_))
  rintro _ ⟨⟩
  -- the address of the cell, which is either computed or found in the word of a parameter
  obtain ⟨y, hplace, heffect⟩ : ∃ y, L.place cell = some y ∧
      (if b.byRef then Instr.mov (s.target.slot b) (.reg (s.target.registerName 0))
        else .lea (s.target.slot b) (.reg (s.target.registerName 0))).effect s.target c =
        some (c.setReg (s.target.registerName 0) (.addr y)) := by
    cases hbyRef : b.byRef with
    | false =>
      refine ⟨_, hbinds.direct hbyRef, ?_⟩
      have hlea : (Instr.lea (s.target.slot b) (.reg (s.target.registerName 0))).effect s.target c =
        _ := Instr.effect_lea hL.basePointer
      rwa [hbinds.offset] at hlea
    | true =>
      obtain ⟨-, -, y, hplace, hmem⟩ := hbinds.indirect hbyRef
      refine ⟨y, hplace, ?_⟩
      have hfetch : (Instr.mov (s.target.slot b) (.reg (s.target.registerName 0))).effect s.target
          c = _ := Instr.effect_fetch hL.basePointer (by
        rw [hbinds.offset]
        exact hbinds.aligned)
      rwa [hbinds.offset, hmem] at hfetch
  refine Does.bind (does_instr heffect ?_)
  have hL₁ := hL.setReg (ht.registerName_ne_stackPointer 0) (ht.registerName_ne_basePointer 0)
    (.addr y)
  refine does_instr (Instr.effect_put hL₁.stackPointer ?_) ?_
  · rw [hx.wraps, hx.eq]
    exact hx.aligned
  rw [hx.wraps, hx.eq, Core.regs_setReg_self]
  refine ⟨fun _ _ => id, hL₁.setMem hx.lt_base hx.free _, ⟨⟨?_, ?_⟩, trivial⟩, fun _ _ => .inl, ?_⟩
  · simp [hq]
  · exact fun _ => ⟨hx.free, y, hplace, Core.mem_setMem_self ..⟩
  · intro z hz _ hout
    have hne : z ≠ x := by
      rintro rfl
      exact hout ⟨Int.le_refl z, hx.lt⟩
    exact Core.mem_setMem_of_ne _ hne _

theorem Holds.passTemporary (ht : s.target.Standard) {code : Code} {temp y : Int}
    (he : code.Means s text L ok σ v σ₁) (hL : L.Holds s.target sp σ c) (hok : ok h)
    (hx : L.Slot s.target sp hi offset x) (hy : L.Slot s.target sp hi temp y) (hlt : x < y)
    (hq : q.byRef = true) :
    (MiniCompiler.passTemporary s.target code h offset temp).Completes s.target text c fun _ c' =>
      L.Passed s.target sp x hi [q] [σ₁.length] (σ₁ ++ [v]) c c' (L.place.put σ₁.length y) := by
  refine Does.reg_bind ht 0 (Completes.bind (he.value 0 hL hok) ?_)
  rintro _ c₁ ⟨hkeeps, hv⟩
  have hL₁ := hL.after hkeeps .stackPointer .basePointer fun z hz => Int.le_trans hL.le_base hz
  refine Does.bind (does_instr (Instr.effect_put hL₁.stackPointer ?_) ?_)
  · rw [hy.wraps, hy.eq]
    exact hy.aligned
  rw [hy.wraps, hy.eq, hv]
  have hL₂ : Holds _ s.target sp _ (c₁.setMem y v.word) := hL₁.put hy.le hy.lt_base hy.aligned hy.free
    v (fun _ _ => rfl) (Core.mem_setMem_self ..) fun z hz => Core.mem_setMem_of_ne _ hz _
  have hL₃ := hL₂.setReg (ht.registerName_ne_stackPointer 0) (ht.registerName_ne_basePointer 0)
    (.addr y)
  have hfree : (L.place.put σ₁.length y).Free x := Places.free_put hx.free (by omega)
  refine Does.bind (does_instr (Instr.effect_lea hL₂.stackPointer) ?_)
  rw [hy.wraps, hy.eq]
  refine does_instr (Instr.effect_put hL₃.stackPointer ?_) ?_
  · rw [hx.wraps, hx.eq]
    exact hx.aligned
  rw [hx.wraps, hx.eq, Core.regs_setReg_self]
  refine ⟨Places.within_put (hL₁.hold.none_of_length (Nat.le_refl _)),
    hL₃.setMem hx.lt_base hfree _, ⟨⟨?_, ?_⟩, trivial⟩, ?_, ?_⟩
  · simp [hq]
  · exact fun _ => ⟨hfree, y, Places.put_self, Core.mem_setMem_self ..⟩
  · intro m z hm
    obtain ⟨-, rfl⟩ | hold := Places.put_eq_some hm
    · exact .inr ⟨Int.le_of_lt hlt, hy.lt⟩
    · exact .inl hold
  · intro z hz hfree' hout
    have hne : z ≠ x ∧ z ≠ y := by
      have := hx.lt
      have := hy.lt
      omega
    rw [Core.mem_setMem_of_ne _ hne.1, Core.mem_setReg, Core.mem_setMem_of_ne _ hne.2,
      hkeeps.agrees.mem z ⟨hz, hfree'⟩]

end Layout

/-- The last part of a call, which restores what the first part has saved. -/
theorem Layout.Holds.afterCall {L : Layout} {t : Target} {text : List Line} {sp area : Int}
    {σ σ' : Store t.bits} {c c' : Core t.bits} (ht : t.Standard) (hL : L.Holds t sp σ c)
    {noArgs : Bool} {free : Nat} {saved : List String} {v : Option (Value t.bits)}
    (hsaved : savedAtCall t noArgs free = .ok saved) (hpos : 0 ≤ area) (hlt : area < wordBound)
    (hsp : c'.regs t.stackPointer = .addr (sp - saved.length * t.wordSize - area))
    (hbp : c'.regs t.basePointer = c.regs t.basePointer)
    (hkept : noArgs = true → ∀ r ∈ t.calleeSaved, c'.regs r = c.regs r)
    (hstacked : Stacked t.wordSize c'.mem c.regs sp saved)
    (hmem : ∀ x, sp ≤ x → L.place.Free x → c'.mem x = c.mem x) (hhold : L.place.Hold σ' c'.mem)
    (hresult : ∀ x, v = some x → c'.regs (t.registerName 0) = x.word) :
    let tail := t.reg 0 >>= fun result => if Operand.reg (t.registerName free) ≠ result then
        instr (.mov result (.reg (t.registerName free))) >>= fun _ =>
          lines (saved.reverse.map fun r => .instr (.pop (.reg r)))
      else lines (saved.reverse.map fun r => .instr (.pop (.reg r)))
    (if 0 < area then instr (.add (.imm area) t.sp) >>= fun _ => tail else tail).Completes t text c'
      fun _ c'' => L.place.Keeps (t.Kept free) (sp ≤ ·) σ' c c'' ∧
        ∀ x, v = some x → c''.regs (t.registerName free) = x.word := by
  obtain ⟨hnot, hdst, hother⟩ := savedAtCall_spec ht hsaved
  have hstack := ht.registerName_ne_stackPointer free
  refine Does.raise_bind hpos hlt hsp fun c₁ hagrees₁ hsp₁ => Does.reg_bind ht 0 ?_
  rw [Int.sub_add_cancel] at hsp₁
  refine Does.move_bind (fun h => by simpa [eq_comm] using h) (does_lines ?_)
  refine (executes_pops (v := c.regs) saved hnot sp _ ?_ hL.aligned ?_).mono (fun _ _ => id) ?_
  · rw [Core.regs_setReg_of_ne _ hstack.symm, hsp₁]
  · exact hstacked.congr ht.pos (fun _ _ => rfl) fun x _ _ => hagrees₁.mem x trivial
  rintro c₂ ⟨hagrees₂, hsp₂, hrestored, -⟩
  refine ⟨⟨⟨?_, ?_⟩, ?_⟩, ?_⟩
  · intro r hr
    by_cases hin : r ∈ saved
    · exact hrestored r hin
    · by_cases hrsp : r = t.stackPointer
      · rw [hrsp, hsp₂, hL.stackPointer]
      · rw [hagrees₂.regs r ⟨hrsp, hin⟩, Core.regs_setReg_of_ne _ (hr.ne ht), hagrees₁.regs r hrsp]
        obtain h | rfl | ⟨hargs, hcallee⟩ := hother r hr hin
        · exact absurd h hrsp
        · exact hbp
        · exact hkept hargs r hcallee
  · rintro x ⟨hx, hfree⟩
    rw [hagrees₂.mem x trivial, Core.mem_setReg, hagrees₁.mem x trivial, hmem x hx hfree]
  · refine hhold.congr fun cell x _ => ?_
    rw [hagrees₂.mem x trivial, Core.mem_setReg, hagrees₁.mem x trivial]
  · intro x hx
    rw [hagrees₂.regs _ ⟨hstack, hdst⟩, Core.regs_setReg_self,
      hagrees₁.regs _ (ht.registerName_ne_stackPointer 0), hresult x hx]

/-- A call does what the function means. -/
theorem Layout.Holds.callCode {p : Program} {s : Settings} {text : List Line}
    {call : String → List Nat → Eval s.target.bits (Option (Value s.target.bits))} {L : Layout}
    {sp h : Int} {σ σ₁ σ' : Store s.target.bits} {c : Core s.target.bits} (hs : s.Regular)
    (ht : s.target.Standard) (hcalls : p.Realized s text call) {name : String} {f : Function}
    (hdef : p.definition? name = some f) {cells : List Nat} {v : Option (Value s.target.bits)}
    (hcall : Ends (call name cells) σ₁ v σ') {args : List (Bool × Expr)} {pass : Int → Emit Unit}
    (hpass : ∀ {sp h c}, L.Holds s.target sp σ c → (∀ a ∈ args, s.Fits a.2.size h) →
      s.target.wordSize ∣ h →
      let hi := sp + argBytes s.target.wordSize args + temporaries args * s.target.wordSize
      hi ≤ L.base → hi < sp + wordBound → (∀ cell x, L.place cell = some x → hi ≤ x) →
      (pass h).Completes s.target text c fun _ c' => (args.isEmpty = true → c' = c) ∧
        ∃ place, L.Passed s.target sp sp hi f.params cells σ₁ c c' place)
    (hL : L.Holds s.target sp σ c) (hfits : s.Fits (Expr.sizeAll args + 1) h)
    (haligned : s.target.wordSize ∣ h) (free : Nat) :
    (MiniCompiler.callCode s name args pass h free).Completes s.target text c fun _ c' =>
      L.place.Keeps (s.target.Kept free) (sp ≤ ·) σ' c c' ∧
        ∀ x, v = some x → c'.regs (s.target.registerName free) = x.word := by
  have hpos := ht.pos
  have hword := hs.wordSize_cases
  refine Does.reg_bind ht free (Does.bind (does_ofExcept fun saved hsaved => ?_))
  have hlength := length_savedAtCall hs hsaved
  obtain ⟨hnot, -, -⟩ := savedAtCall_spec ht hsaved
  have hbytes : 0 ≤ saved.length * s.target.wordSize ∧ saved.length * s.target.wordSize ≤ 40 := by
    obtain hw | hw := hword <;> rw [hw] <;> omega
  -- the saved registers first, then room for the arguments down to an aligned address
  refine Completes.bind (R := fun _ c' => c.Agrees (· ≠ s.target.stackPointer) (sp ≤ ·) c' ∧
    c'.regs s.target.stackPointer = .addr (sp - saved.length * s.target.wordSize) ∧
    Stacked s.target.wordSize c'.mem c.regs sp saved)
    (does_lines (executes_pushes ht saved hnot sp c hL.stackPointer hL.aligned)) ?_
  rintro _ c₁ ⟨hagrees₁, hsp₁, hstacked⟩
  obtain ⟨hdvd, hspace, hle, hlt, hargs⟩ := hfits.call hs
    (show h ≤ h + saved.length * s.target.wordSize by omega) (by omega)
  dsimp only
  have haligned₁ : s.target.wordSize ∣ h + saved.length * s.target.wordSize :=
    Int.dvd_add haligned (Int.dvd_mul_left ..)
  generalize harea : callArea s.target _ _ = area at hdvd hle hlt hargs ⊢
  generalize hfrom : h + saved.length * s.target.wordSize + area = from' at hdvd hargs ⊢
  have haligned₂ : s.target.wordSize ∣ from' := Int.dvd_trans ht.alignment hdvd
  have haligned₃ : s.target.wordSize ∣ area := by
    have hdiff := Int.dvd_sub haligned₂ haligned₁
    rwa [← hfrom, show h + saved.length * s.target.wordSize + area -
      (h + saved.length * s.target.wordSize) = area by omega] at hdiff
  have hpos₂ : 0 ≤ area := Int.le_trans hspace hle
  refine Does.lower_bind hpos₂ hlt hsp₁ fun c₂ hagrees₂ hsp₂ => ?_
  generalize hsp₂' : sp - saved.length * s.target.wordSize - area = sp₂ at hsp₂
  have haligned' : s.target.wordSize ∣ sp₂ := hsp₂' ▸ Int.dvd_sub
    (Int.dvd_sub hL.aligned (Int.dvd_mul_left ..)) haligned₃
  have hL₂ : L.Holds s.target sp₂ σ c₂ := hL.lower ht
    (hagrees₁.trans (hagrees₂.mono (fun _ => id) fun _ _ => trivial)) hsp₂ haligned' (by omega)
  generalize hhi : argBytes s.target.wordSize args + temporaries args * s.target.wordSize = space
    at hspace hle
  have hbase := hL.le_base
  refine Completes.bind (hpass hL₂ hargs haligned₂ (by omega) (by omega) fun cell x hcell => ?_) ?_
  · have := hL.proper.above cell x hcell
    omega
  -- the callee sees the cells of the caller and the new ones of the arguments
  rintro _ c₃ ⟨hsame, place, hpassed⟩
  obtain ⟨body, hsymbol, hbody⟩ := hcalls hdef hcall
  have hL₃ := hpassed.holds
  refine Does.bind (does_lines (executes_call ht hsymbol hL₃.stackPointer haligned' fun rest => ?_))
  have hpushed : c₃.Agrees (· ≠ s.target.stackPointer) (sp₂ ≤ ·) (c₃.pushed sp₂ (.code rest)) :=
    Core.agrees_pushed ht _
  obtain ⟨rest', c₄, hreaches, hkeeps, hresult⟩ := hbody (a := sp₂ - s.target.wordSize)
    (Core.stackPointer_pushed _) (Int.dvd_sub haligned' (Int.dvd_refl _))
    (show place.Proper s.target _ by rw [Int.sub_add_cancel]; exact hL₃.proper)
    (hL₃.hold.congr fun cell x hcell => hpushed.mem x (hL₃.proper.above cell x hcell))
    (by rw [Int.sub_add_cancel]; exact hpassed.passes.congr (Int.le_of_lt hpos) hpushed.mem)
  -- what lies above the words of the arguments and is no cell of the caller stays as it was
  have hfree : ∀ x, sp - saved.length * s.target.wordSize ≤ x → L.place.Free x → place.Free x := by
    intro x hx hfree cell hcell
    obtain hold | ⟨-, hlt⟩ := hpassed.fresh cell x hcell
    · exact hfree cell hold
    · omega
  have hmem : ∀ x, sp - saved.length * s.target.wordSize ≤ x → L.place.Free x →
      c₄.mem x = c₁.mem x := by
    intro x hx hfree'
    rw [hkeeps.agrees.mem x ⟨by omega, hfree x hx hfree'⟩, hpushed.mem x (by omega),
      hpassed.mem x (by omega) hfree' (by omega), hagrees₂.mem x trivial]
  have hsp₄ : c₄.regs s.target.stackPointer = .addr (sp₂ - s.target.wordSize) := by
    rw [hkeeps.agrees.regs _ (.inl rfl), Core.stackPointer_pushed]
  have hreturn : c₄.mem (sp₂ - s.target.wordSize) = .code rest := by
    rw [hkeeps.agrees.mem _ ⟨Int.le_refl _, hL₃.proper.free_of_lt (by omega)⟩, Core.mem_pushed]
  refine ⟨rest', c₄, hreaches, hsp₄, hreturn, ?_⟩
  refine hL.afterCall ht hsaved hpos₂ hlt ?_ ?_ ?_ ?_ ?_ ?_ ?_
  · rw [Core.regs_setReg_self, hsp₂']
  · rw [Core.regs_setReg_of_ne _ ht.pointers, hkeeps.agrees.regs _ (.inr (.inl rfl)),
      hpushed.regs _ ht.pointers, hL₃.basePointer, hL.basePointer]
  · intro hnoArgs r hr
    have hne : r ≠ s.target.stackPointer := by
      rintro rfl
      exact ht.stackPointer (ht.calleeSaved _ hr).1
    rw [Core.regs_setReg_of_ne _ hne, hkeeps.agrees.regs r (.inr (.inr hr)), hpushed.regs r hne,
      hsame hnoArgs, hagrees₂.regs r hne, hagrees₁.regs r hne]
  · exact hstacked.congr hpos (fun _ _ => rfl) fun x hx hx' =>
      hmem x hx (hL.proper.free_of_lt hx')
  · intro x hx hfree'
    rw [Core.mem_setReg, hmem x (by omega) hfree', hagrees₁.mem x hx]
  · exact hpassed.within.hold hkeeps.hold
  · intro x hx
    rw [Core.regs_setReg_of_ne _ (ht.registerName_ne_stackPointer 0), hresult x hx]

end MiniCompiler
