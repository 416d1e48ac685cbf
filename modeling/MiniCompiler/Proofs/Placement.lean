import MiniCompiler.Proofs.Execution

/-!
# The store in memory

Where the variables of the language are while code runs. Places give cells their addresses; memory has
the value of a cell at its place. A `Layout` adds the names that are in scope, which code finds through
their bindings.

The stack grows downwards. What lies below the stack pointer is free, and code keeps what lies above
it, apart from the places of variables.
-/

namespace MiniCompiler

/-! ## Places -/

def Value.word {w : Nat} : Value w → Word w
  | .int n => .num n
  | .bool b => .num (if b then 1 else 0)

/-- The addresses of cells. A cell that is not needed any more has none. -/
abbrev Places := Nat → Option Int

namespace Places

/-- No cell lies at this address. -/
def Free (place : Places) (x : Int) : Prop := ∀ cell, place cell ≠ some x

/-- Cells have addresses of their own, which are multiples of the word size and not below `sp`. -/
structure Proper (place : Places) (t : Target) (sp : Int) : Prop where
  above : ∀ cell x, place cell = some x → sp ≤ x
  aligned : ∀ cell x, place cell = some x → t.wordSize ∣ x
  inj : ∀ cell cell' x, place cell = some x → place cell' = some x → cell = cell'

/-- Memory has the values of the store. -/
def Hold {w : Nat} (place : Places) (σ : Store w) (mem : Int → Word w) : Prop :=
  ∀ cell x, place cell = some x → ∃ v, σ[cell]? = some v ∧ mem x = v.word

/-- Puts a cell at an address. -/
def put (place : Places) (cell : Nat) (x : Int) : Places :=
  fun n => if n = cell then some x else place n

/-- Every cell that has an address here has it there. -/
def Within (place place' : Places) : Prop := ∀ cell x, place cell = some x → place' cell = some x

variable {place place' : Places} {t : Target} {sp sp' x : Int} {cell : Nat}

theorem Proper.free_of_lt (h : place.Proper t sp) (hx : x < sp) : place.Free x := by
  intro cell hcell
  have := h.above cell x hcell
  omega

theorem Proper.lower (h : place.Proper t sp) (hle : sp' ≤ sp) : place.Proper t sp' :=
  ⟨fun cell x hcell => Int.le_trans hle (h.above cell x hcell), h.aligned, h.inj⟩

theorem Within.hold {w : Nat} {σ : Store w} {mem : Int → Word w} (h : place.Within place')
    (hhold : place'.Hold σ mem) : place.Hold σ mem :=
  fun cell x hcell => hhold cell x (h cell x hcell)

theorem within_put (h : place cell = none) : place.Within (place.put cell x) := by
  intro n y hn
  have hne : n ≠ cell := by
    rintro rfl
    simp [h] at hn
  simp [put, hne, hn]

theorem put_self : place.put cell x cell = some x := by simp [put]

theorem put_eq_some {n : Nat} {y : Int} (h : place.put cell x n = some y) :
    n = cell ∧ y = x ∨ place n = some y := by
  unfold put at h
  split at h
  · cases h
    exact .inl ⟨‹_›, rfl⟩
  · exact .inr h

theorem free_put {y : Int} (h : place.Free y) (hne : y ≠ x) : (place.put cell x).Free y := by
  intro n hn
  obtain ⟨-, rfl⟩ | hn := put_eq_some hn
  · exact hne rfl
  · exact h n hn

theorem Proper.put (h : place.Proper t sp) (hx : sp ≤ x) (haligned : t.wordSize ∣ x)
    (hfree : place.Free x) : (place.put cell x).Proper t sp := by
  refine ⟨?_, ?_, ?_⟩
  · intro n y hn
    obtain ⟨-, rfl⟩ | hn := put_eq_some hn
    · exact hx
    · exact h.above n y hn
  · intro n y hn
    obtain ⟨-, rfl⟩ | hn := put_eq_some hn
    · exact haligned
    · exact h.aligned n y hn
  · intro n n' y hn hn'
    obtain ⟨rfl, hy⟩ | hold := put_eq_some hn <;> obtain ⟨rfl, hy'⟩ | hold' := put_eq_some hn'
    · rfl
    · exact absurd (hy ▸ hold') (hfree n')
    · exact absurd (hy' ▸ hold) (hfree n)
    · exact h.inj n n' y hold hold'

section

variable {w : Nat} {σ : Store w} {mem : Int → Word w} {mem' : Int → Word w}

/-- A cell that is not in the store has no place. -/
theorem Hold.none_of_length (h : place.Hold σ mem) (hcell : σ.length ≤ cell) :
    place cell = none := by
  cases hplace : place cell with
  | none => rfl
  | some x =>
    obtain ⟨v, hv, -⟩ := h cell x hplace
    simp [List.getElem?_eq_none hcell] at hv

theorem Hold.congr (h : place.Hold σ mem)
    (heq : ∀ cell x, place cell = some x → mem' x = mem x) : place.Hold σ mem' := by
  intro cell x hcell
  obtain ⟨v, hv, hmem⟩ := h cell x hcell
  exact ⟨v, hv, (heq cell x hcell).trans hmem⟩

theorem Hold.put (h : place.Hold σ mem) (v : Value w) (hfree : place.Free x)
    (hx : mem' x = v.word) (hmem : ∀ y, y ≠ x → mem' y = mem y) :
    (place.put σ.length x).Hold (σ ++ [v]) mem' := by
  intro n y hn
  obtain ⟨rfl, rfl⟩ | hold := put_eq_some hn
  · exact ⟨v, by simp, hx⟩
  · obtain ⟨u, hu, hword⟩ := h n y hold
    have hlt : n < σ.length := (List.getElem?_eq_some_iff.1 hu).1
    have hne : y ≠ x := by
      rintro rfl
      exact hfree n hold
    exact ⟨u, by rw [List.getElem?_append_left hlt, hu], (hmem y hne).trans hword⟩

theorem Hold.set (h : place.Hold σ mem) (hproper : place.Proper t sp) (hcell : place cell = some x)
    (v : Value w) (hx : mem' x = v.word)
    (hmem : ∀ y, y ≠ x → mem' y = mem y) : place.Hold (σ.set cell v) mem' := by
  intro n y hn
  obtain ⟨u, hu, hword⟩ := h n y hn
  have hlt : n < σ.length := (List.getElem?_eq_some_iff.1 hu).1
  by_cases hne : n = cell
  · subst hne
    rw [hcell] at hn
    cases hn
    exact ⟨v, List.getElem?_set_self hlt, hx⟩
  · have hne' : y ≠ x := by
      rintro rfl
      exact hne (hproper.inj n cell y hn hcell)
    exact ⟨u, by rw [List.getElem?_set_ne (Ne.symm hne), hu], (hmem y hne').trans hword⟩

end

end Places

/-! ## What a run keeps -/

/-- Two states agree on the registers of `K` and the addresses of `U`. -/
structure Core.Agrees {w : Nat} (K : String → Prop) (U : Int → Prop) (c c' : Core w) : Prop where
  regs : ∀ r, K r → c'.regs r = c.regs r
  mem : ∀ x, U x → c'.mem x = c.mem x

/-- A run keeps the registers of `K` and the addresses of `U`, apart from cells: these have the values
    of the store `σ'`. -/
structure Places.Keeps {w : Nat} (place : Places) (K : String → Prop) (U : Int → Prop)
    (σ' : Store w) (c c' : Core w) : Prop where
  agrees : c.Agrees K (fun x => U x ∧ place.Free x) c'
  hold : place.Hold σ' c'.mem

section

variable {w : Nat} {K K' : String → Prop} {U U' : Int → Prop} {c c' c'' : Core w}

theorem Core.Agrees.refl (K : String → Prop) (U : Int → Prop) (c : Core w) : c.Agrees K U c :=
  ⟨fun _ _ => rfl, fun _ _ => rfl⟩

theorem Core.Agrees.trans (h : c.Agrees K U c') (h' : c'.Agrees K U c'') : c.Agrees K U c'' :=
  ⟨fun r hr => (h'.regs r hr).trans (h.regs r hr), fun x hx => (h'.mem x hx).trans (h.mem x hx)⟩

theorem Core.Agrees.mono (h : c.Agrees K U c') (hK : ∀ r, K' r → K r) (hU : ∀ x, U' x → U x) :
    c.Agrees K' U' c' :=
  ⟨fun r hr => h.regs r (hK r hr), fun x hx => h.mem x (hU x hx)⟩

namespace Places

variable {place place' : Places} {σ σ' σ'' : Store w}

theorem Hold.keeps {t : Target} {sp : Int} (h : place.Hold σ c.mem) (hproper : place.Proper t sp)
    (hagrees : c.Agrees K (sp ≤ ·) c') : place.Keeps K (sp ≤ ·) σ c c' :=
  ⟨hagrees.mono (fun _ => id) fun _ hx => hx.1,
    h.congr fun cell x hcell => hagrees.mem x (hproper.above cell x hcell)⟩

theorem Keeps.trans (h : place.Keeps K U σ' c c') (h' : place.Keeps K U σ'' c' c'') :
    place.Keeps K U σ'' c c'' := ⟨h.agrees.trans h'.agrees, h'.hold⟩

theorem Keeps.then (h : place.Keeps K U σ' c c') (h' : c'.Agrees K (fun _ => True) c'') :
    place.Keeps K U σ' c c'' :=
  ⟨h.agrees.trans (h'.mono (fun _ => id) fun _ _ => trivial),
    h.hold.congr fun _ x _ => h'.mem x trivial⟩

theorem Keeps.mono (h : place.Keeps K U σ' c c') (hK : ∀ r, K' r → K r) (hU : ∀ x, U' x → U x) :
    place.Keeps K' U' σ' c c' := ⟨h.agrees.mono hK fun x hx => ⟨hU x hx.1, hx.2⟩, h.hold⟩

end Places

end

/-! ## Layouts -/

/-- What code is compiled for: the names in scope, the cells that they stand for and where these lie.
    `base` is the address in the base pointer. -/
structure Layout where
  base : Int
  place : Places
  env : Env
  scope : Naming

namespace Layout

/-- A cell is found through a binding: at its offset from the base pointer, or at the address that is
    there. -/
structure Binds (L : Layout) (t : Target) (mem : Int → Word t.bits) (b : Binding)
    (entry : String × Nat) : Prop where
  name : b.name = entry.1
  offset : wrap b.offset = b.offset
  aligned : t.wordSize ∣ L.base + b.offset
  direct : b.byRef = false → L.place entry.2 = some (L.base + b.offset)
  indirect : b.byRef = true → 0 ≤ b.offset ∧ L.place.Free (L.base + b.offset) ∧
    ∃ x, L.place entry.2 = some x ∧ mem (L.base + b.offset) = .addr x

/-- A state in which memory has the values of the store, and names are found through their
    bindings. -/
structure Holds (L : Layout) (t : Target) (sp : Int) (σ : Store t.bits) (c : Core t.bits) :
    Prop where
  stackPointer : c.regs t.stackPointer = .addr sp
  basePointer : c.regs t.basePointer = .addr L.base
  aligned : t.wordSize ∣ sp
  le_base : sp ≤ L.base
  proper : L.place.Proper t sp
  hold : L.place.Hold σ c.mem
  binds : List.Forall₂ (L.Binds t c.mem) L.env L.scope

variable {L : Layout} {t : Target} {sp sp' : Int} {σ σ' : Store t.bits} {c c' : Core t.bits}

theorem Binds.congr {mem mem' : Int → Word t.bits} {b : Binding} {entry : String × Nat}
    (h : L.Binds t mem b entry) (heq : ∀ x, L.base ≤ x → L.place.Free x → mem' x = mem x) :
    L.Binds t mem' b entry := by
  refine ⟨h.name, h.offset, h.aligned, h.direct, ?_⟩
  intro hbyRef
  obtain ⟨hpos, hfree, x, hcell, hmem⟩ := h.indirect hbyRef
  exact ⟨hpos, hfree, x, hcell, (heq _ (by omega) hfree).trans hmem⟩

theorem Holds.after {K : String → Prop} {U : Int → Prop} (h : L.Holds t sp σ c)
    (hkeeps : L.place.Keeps K U σ' c c') (hsp : K t.stackPointer) (hbp : K t.basePointer)
    (hU : ∀ x, L.base ≤ x → U x) : L.Holds t sp σ' c' where
  stackPointer := (hkeeps.agrees.regs _ hsp).trans h.stackPointer
  basePointer := (hkeeps.agrees.regs _ hbp).trans h.basePointer
  aligned := h.aligned
  le_base := h.le_base
  proper := h.proper
  hold := hkeeps.hold
  binds := h.binds.imp fun _ _ hb => hb.congr fun x hx hfree => hkeeps.agrees.mem x ⟨hU x hx, hfree⟩

theorem Holds.lower (ht : t.Workable) (h : L.Holds t sp σ c)
    (hagrees : c.Agrees (· ≠ t.stackPointer) (sp ≤ ·) c') (hsp : c'.regs t.stackPointer = .addr sp')
    (haligned : t.wordSize ∣ sp') (hle : sp' ≤ sp) : L.Holds t sp' σ c' where
  stackPointer := hsp
  basePointer := (hagrees.regs _ ht.pointers).trans h.basePointer
  aligned := haligned
  le_base := Int.le_trans hle h.le_base
  proper := h.proper.lower hle
  hold := h.hold.congr fun cell x hcell => hagrees.mem x (h.proper.above cell x hcell)
  binds := h.binds.imp fun _ _ hb => hb.congr fun x hx _ =>
    hagrees.mem x (Int.le_trans h.le_base hx)

theorem Holds.setReg (h : L.Holds t sp σ c) {r : String} (hsp : r ≠ t.stackPointer)
    (hbp : r ≠ t.basePointer) (v : Word t.bits) : L.Holds t sp σ (c.setReg r v) :=
  ⟨(Core.regs_setReg_of_ne _ hsp.symm _).trans h.stackPointer,
    (Core.regs_setReg_of_ne _ hbp.symm _).trans h.basePointer, h.aligned, h.le_base, h.proper,
    h.hold, h.binds⟩

theorem Holds.setMem (h : L.Holds t sp σ c) {x : Int} (hlt : x < L.base) (hfree : L.place.Free x)
    (v : Word t.bits) : L.Holds t sp σ (c.setMem x v) where
  stackPointer := h.stackPointer
  basePointer := h.basePointer
  aligned := h.aligned
  le_base := h.le_base
  proper := h.proper
  hold := by
    refine h.hold.congr fun cell y hcell => Core.mem_setMem_of_ne _ ?_ _
    rintro rfl
    exact hfree cell hcell
  binds := h.binds.imp fun _ _ hb => hb.congr fun y hy _ =>
    Core.mem_setMem_of_ne _ (by omega) _

/-- A new cell is put at a free address, where its value has been stored. -/
theorem Holds.put (h : L.Holds t sp σ c) {x : Int} (hle : sp ≤ x) (hlt : x < L.base)
    (haligned : t.wordSize ∣ x) (hfree : L.place.Free x) (v : Value t.bits)
    (hregs : ∀ r, r = t.stackPointer ∨ r = t.basePointer → c'.regs r = c.regs r)
    (hx : c'.mem x = v.word) (hmem : ∀ y, y ≠ x → c'.mem y = c.mem y) :
    { L with place := L.place.put σ.length x }.Holds t sp (σ ++ [v]) c' where
  stackPointer := (hregs _ (.inl rfl)).trans h.stackPointer
  basePointer := (hregs _ (.inr rfl)).trans h.basePointer
  aligned := h.aligned
  le_base := h.le_base
  proper := h.proper.put hle haligned hfree
  hold := h.hold.put v hfree hx hmem
  binds := by
    refine h.binds.imp fun b entry hb => ⟨hb.name, hb.offset, hb.aligned, ?_, ?_⟩
    · intro hbyRef
      exact Places.within_put (h.hold.none_of_length (Nat.le_refl _)) _ _ (hb.direct hbyRef)
    · intro hbyRef
      obtain ⟨hpos, hfree', y, hcell, hword⟩ := hb.indirect hbyRef
      have hne : L.base + b.offset ≠ x := by omega
      refine ⟨hpos, Places.free_put hfree' hne, y, ?_, (hmem _ hne).trans hword⟩
      exact Places.within_put (h.hold.none_of_length (Nat.le_refl _)) _ _ hcell

/-- The innermost binding of a name and its innermost cell belong together. -/
theorem Holds.find (h : L.Holds t sp σ c) {name : String} {b : Binding} {cell : Nat}
    (hb : L.env.find? name = some b) (hcell : L.scope.lookup name = some cell) :
    L.Binds t c.mem b (name, cell) := by
  have hbinds := h.binds
  generalize L.env = env at hb hbinds
  generalize L.scope = scope at hcell hbinds
  induction hbinds with
  | nil => simp at hb
  | @cons b' entry env scope hfirst _ ih =>
    obtain ⟨name', cell'⟩ := entry
    have hname : b'.name = name' := hfirst.name
    rw [Env.find?_cons] at hb
    by_cases heq : b'.name = name
    · rw [if_pos heq] at hb
      cases hb
      rw [← hname, heq, List.lookup_cons_self] at hcell
      cases hcell
      rwa [← heq, hname]
    · rw [if_neg heq] at hb
      have hne : (name == name') = false := by simp [← hname, Ne.symm heq]
      rw [List.lookup_cons, hne] at hcell
      exact ih hb hcell

end Layout

/-! ## Registers -/

/-- The registers that the code of a value keeps if it leaves it in the register of number `free`. -/
def Target.Kept (t : Target) (free : Nat) (r : String) : Prop :=
  r = t.stackPointer ∨ r = t.basePointer ∨
    r ≠ t.registerName free ∧ ∃ k < free, r = t.registerName k

/-- The registers that code keeps if it uses the next register too. -/
def Target.KeptBoth (t : Target) (free : Nat) (r : String) : Prop :=
  t.Kept free r ∧ r ≠ t.registerName (free + 1)

namespace Target.Kept

variable {t : Target} {free : Nat} {r : String}

theorem stackPointer : t.Kept free t.stackPointer := .inl rfl

theorem basePointer : t.Kept free t.basePointer := .inr (.inl rfl)

theorem ne (ht : t.Workable) (h : t.Kept free r) : r ≠ t.registerName free := by
  obtain rfl | rfl | ⟨hne, -⟩ := h
  · exact (ht.registerName_ne_stackPointer free).symm
  · exact (ht.registerName_ne_basePointer free).symm
  · exact hne

/-- The next register is kept only if it is the register of a lower number too. -/
theorem succ_ne (ht : t.Workable) (h : t.Kept free r) (hlt : free + 1 < t.registers.length) :
    r ≠ t.registerName (free + 1) := by
  obtain rfl | rfl | ⟨-, k, hk, rfl⟩ := h
  · exact (ht.registerName_ne_stackPointer _).symm
  · exact (ht.registerName_ne_basePointer _).symm
  · exact (ht.registerName_ne (by omega) (by omega)).symm

/-- The second of two values is put into the next register. -/
theorem of_both (h : t.KeptBoth free r) : t.Kept (free + 1) r := by
  obtain ⟨h | h | ⟨-, k, hk, rfl⟩, hne⟩ := h
  · exact .inl h
  · exact .inr (.inl h)
  · exact .inr (.inr ⟨hne, k, by omega, rfl⟩)

theorem self_succ (ht : t.Workable) : t.Kept (free + 1) (t.registerName free) :=
  .inr (.inr ⟨(ht.registerName_succ_ne free).symm, free, by omega, rfl⟩)

end Target.Kept

/-! ## Saved registers -/

namespace Core

variable {t : Target} {c : Core t.bits} {sp : Int}

theorem stackPointer_pushed (v : Word t.bits) :
    (c.pushed sp v).regs t.stackPointer = .addr (sp - t.wordSize) := by simp [pushed]

theorem mem_pushed (v : Word t.bits) : (c.pushed sp v).mem (sp - t.wordSize) = v := by
  simp [pushed]

theorem agrees_pushed (ht : t.Workable) (v : Word t.bits) :
    c.Agrees (· ≠ t.stackPointer) (sp ≤ ·) (c.pushed sp v) := by
  have hpos := ht.pos
  refine ⟨fun r hr => by simp [pushed, hr], fun x hx => ?_⟩
  have hne : x ≠ sp - t.wordSize := by omega
  simp [pushed, hne]

end Core

/-- The words of registers, one below the other from the address `sp` on. -/
def Stacked {w : Nat} (wordSize : Int) (mem : Int → Word w) (v : String → Word w) :
    Int → List String → Prop
  | _, [] => True
  | sp, r :: rs => mem (sp - wordSize) = v r ∧ Stacked wordSize mem v (sp - wordSize) rs

section

variable {t : Target} {text : List Line} {J : List Line → Core t.bits → Prop}

theorem Stacked.congr {w : Nat} {wordSize : Int} (hpos : 0 < wordSize) {mem mem' : Int → Word w}
    {v v' : String → Word w} {rs : List String} (hv : ∀ r ∈ rs, v' r = v r) : ∀ {sp : Int},
    Stacked wordSize mem v sp rs →
    (∀ x, sp - rs.length * wordSize ≤ x → x < sp → mem' x = mem x) →
    Stacked wordSize mem' v' sp rs := by
  induction rs with
  | nil => exact fun _ _ => trivial
  | cons r rs ih =>
    intro sp h hmem
    have hlen := Int.mul_nonneg (Int.natCast_nonneg rs.length) (Int.le_of_lt hpos)
    simp only [List.length_cons, Int.natCast_add, Int.add_mul] at hmem
    refine ⟨?_, ih (fun q hq => hv q (by simp [hq])) h.2 ?_⟩
    · rw [hmem _ (by omega) (by omega), h.1, hv r (by simp)]
    · exact fun x hx hx' => hmem x (by omega) (by omega)

theorem executes_pushes (ht : t.Workable) (rs : List String) (hrs : t.stackPointer ∉ rs) :
    ∀ (sp : Int) (c : Core t.bits), c.regs t.stackPointer = .addr sp → t.wordSize ∣ sp →
    Executes t text (rs.map fun r => .instr (.push (.reg r))) c J fun c' =>
      c.Agrees (· ≠ t.stackPointer) (sp ≤ ·) c' ∧
      c'.regs t.stackPointer = .addr (sp - rs.length * t.wordSize) ∧
      Stacked t.wordSize c'.mem c.regs sp rs := by
  induction rs with
  | nil => exact fun sp c hsp _ => executes_nil ⟨.refl _ _ _, by simpa using hsp, trivial⟩
  | cons r rs ih =>
    intro sp c hsp haligned
    have hpos := ht.pos
    rw [List.map_cons, ← List.singleton_append]
    refine Executes.append (executes_effect (Instr.effect_push ht hsp haligned) rfl) ?_
    rintro _ rfl
    have hpushed : c.Agrees (· ≠ t.stackPointer) (sp ≤ ·) (c.pushed sp (c.regs r)) :=
      Core.agrees_pushed ht _
    refine (ih (fun h => hrs (by simp [h])) (sp - t.wordSize) _ (Core.stackPointer_pushed _)
      (Int.dvd_sub haligned (Int.dvd_refl _))).mono (fun _ _ => id) ?_
    rintro c' ⟨hagrees, hsp', hstacked⟩
    refine ⟨hpushed.trans (hagrees.mono (fun _ => id) fun x (hx : sp ≤ x) => ?_), ?_, ?_, ?_⟩
    · omega
    · rw [hsp', List.length_cons]
      congr 1
      push_cast
      rw [Int.add_mul]
      omega
    · rw [hagrees.mem _ (Int.le_refl _), Core.mem_pushed]
    · refine hstacked.congr hpos (fun q hq => (hpushed.regs q ?_).symm) fun _ _ _ => rfl
      rintro rfl
      exact hrs (by simp [hq])

theorem executes_pops {v : String → Word t.bits} (rs : List String)
    (hrs : t.stackPointer ∉ rs) : ∀ (sp : Int) (c : Core t.bits),
    c.regs t.stackPointer = .addr (sp - rs.length * t.wordSize) → t.wordSize ∣ sp →
    Stacked t.wordSize c.mem v sp rs →
    Executes t text (rs.reverse.map fun r => .instr (.pop (.reg r))) c J fun c' =>
      c.Agrees (fun r => r ≠ t.stackPointer ∧ r ∉ rs) (fun _ => True) c' ∧
      c'.regs t.stackPointer = .addr sp ∧ (∀ r ∈ rs, c'.regs r = v r) ∧ c'.flags = c.flags := by
  induction rs with
  | nil =>
    exact fun sp c hsp _ _ => executes_nil ⟨.refl _ _ _, by simpa using hsp, by simp, rfl⟩
  | cons r rs ih =>
    intro sp c hsp haligned hstacked
    have hr : t.stackPointer ≠ r := fun h => hrs (by simp [h])
    have hlower : c.regs t.stackPointer = .addr (sp - t.wordSize - rs.length * t.wordSize) := by
      rw [hsp, List.length_cons]
      congr 1
      push_cast
      rw [Int.add_mul]
      omega
    rw [List.reverse_cons, List.map_append]
    refine (ih (fun h => hrs (by simp [h])) (sp - t.wordSize) c hlower
      (Int.dvd_sub haligned (Int.dvd_refl _)) hstacked.2).append ?_
    rintro c₁ ⟨hagrees, hsp₁, hregs, hflags⟩
    refine executes_effect (Instr.effect_pop hsp₁ (Int.dvd_sub haligned (Int.dvd_refl _))) ?_
    refine ⟨⟨?_, ?_⟩, ?_, ?_, hflags⟩
    · rintro q ⟨hq, hmem⟩
      rw [List.mem_cons, not_or] at hmem
      rw [Core.regs_setReg_of_ne _ hmem.1, Core.regs_setReg_of_ne _ hq,
        hagrees.regs q ⟨hq, hmem.2⟩]
    · exact fun x _ => hagrees.mem x trivial
    · rw [Core.regs_setReg_of_ne _ hr, Core.regs_setReg_self, Int.sub_add_cancel]
    · intro q hq
      by_cases heq : q = r
      · rw [heq, Core.regs_setReg_self, hagrees.mem _ trivial, hstacked.1]
      · have hmem : q ∈ rs := (List.mem_cons.1 hq).resolve_left heq
        have hne : q ≠ t.stackPointer := by
          rintro rfl
          exact hrs hq
        rw [Core.regs_setReg_of_ne _ heq, Core.regs_setReg_of_ne _ hne, hregs q hmem]

end

/-! ## One more register -/

namespace Layout.Holds

variable {L : Layout} {t : Target} {text : List Line} {sp h : Int} {σ σ' : Store t.bits}
  {c : Core t.bits} {free : Nat}

/-- A step that needs one more register keeps it where it is in use. -/
theorem withSpill (ht : t.Workable) (hL : L.Holds t sp σ c) {step : Int → Emit Unit}
    {Q : Word t.bits → Option Ordering → Prop}
    (hstep : ∀ sp' c', sp - t.wordSize ≤ sp' → sp' ≤ sp → L.Holds t sp' σ c' →
      (∀ r, r ≠ t.stackPointer → c'.regs r = c.regs r) →
      (step (h + (sp - sp'))).Completes t text c' fun _ c'' =>
        L.place.Keeps (t.KeptBoth free) (sp' ≤ ·) σ' c' c'' ∧
        Q (c''.regs (t.registerName free)) c''.flags) :
    (t.withSpill (free + 1) h step).Completes t text c fun _ c' =>
      L.place.Keeps (t.Kept free) (sp ≤ ·) σ' c c' ∧ Q (c'.regs (t.registerName free)) c'.flags := by
  have hpos := ht.pos
  unfold Target.withSpill Target.spill Target.unspill
  by_cases hr : (t.registers.length : Int) ≤ free + 1
  · simp only [if_pos hr]
    have hpushed : c.Agrees (· ≠ t.stackPointer) (sp ≤ ·)
        (c.pushed sp (c.regs (t.registerName (free + 1)))) := Core.agrees_pushed ht _
    have haligned : t.wordSize ∣ sp - t.wordSize := Int.dvd_sub hL.aligned (Int.dvd_refl _)
    have hL' := hL.lower ht hpushed (Core.stackPointer_pushed _) haligned (by omega)
    refine Emit.Completes.bind (R := fun inner c' => inner = h + t.wordSize ∧
      c' = c.pushed sp (c.regs (t.registerName (free + 1)))) ?_ ?_
    · refine Emit.Does.reg_bind ht (free + 1) (Emit.Does.bind ?_)
      refine Emit.does_instr (Instr.effect_push ht hL.stackPointer hL.aligned) ?_
      exact Emit.does_pure ⟨rfl, rfl⟩
    · rintro _ _ ⟨rfl, rfl⟩
      have hrun := hstep _ _ (by omega) (by omega) hL' hpushed.regs
      rw [show h + (sp - (sp - t.wordSize)) = h + t.wordSize by omega] at hrun
      refine Emit.Does.ensuring (hrun.mono (fun _ _ => id) ?_)
      rintro _ c₂ ⟨hkeeps, hQ⟩
      refine Emit.Does.reg_bind ht (free + 1) ?_
      have hL₂ := hL'.after hkeeps ⟨.stackPointer, (ht.registerName_ne_stackPointer _).symm⟩
        ⟨.basePointer, (ht.registerName_ne_basePointer _).symm⟩
        fun x hx => Int.le_trans hL'.le_base hx
      refine Emit.does_instr (Instr.effect_pop hL₂.stackPointer haligned) ?_
      -- the saved word is free, so that it is still there
      have hfree : L.place.Free (sp - t.wordSize) := hL.proper.free_of_lt (by omega)
      have hsaved : c₂.mem (sp - t.wordSize) = c.regs (t.registerName (free + 1)) := by
        rw [hkeeps.agrees.mem _ ⟨Int.le_refl _, hfree⟩, Core.mem_pushed]
      refine ⟨⟨⟨?_, ?_⟩, hkeeps.hold⟩, ?_⟩
      · intro r hkept
        by_cases heq : r = t.registerName (free + 1)
        · rw [heq, Core.regs_setReg_self, hsaved]
        · rw [Core.regs_setReg_of_ne _ heq]
          by_cases hsp : r = t.stackPointer
          · rw [hsp, Core.regs_setReg_self, hL.stackPointer, Int.sub_add_cancel]
          · rw [Core.regs_setReg_of_ne _ hsp, hkeeps.agrees.regs r ⟨hkept, heq⟩,
              hpushed.regs r hsp]
      · rintro x ⟨hx, hfree⟩
        have := hkeeps.agrees.mem x ⟨by omega, hfree⟩
        exact this.trans (hpushed.mem x hx)
      · rwa [Core.regs_setReg_of_ne _ (ht.registerName_succ_ne free).symm,
          Core.regs_setReg_of_ne _ (ht.registerName_ne_stackPointer free)]
  · simp only [if_neg hr]
    refine Emit.Completes.bind (R := fun inner c' => inner = h ∧ c' = c)
      (Emit.does_pure ⟨rfl, rfl⟩) ?_
    rintro _ _ ⟨rfl, rfl⟩
    have hrun := hstep sp _ (by omega) (Int.le_refl sp) hL fun _ _ => rfl
    rw [Int.sub_self, Int.add_zero] at hrun
    refine Emit.Does.ensuring (hrun.mono (fun _ _ => id) ?_)
    rintro _ c₂ ⟨hkeeps, hQ⟩
    refine Emit.does_pure ⟨hkeeps.mono (fun r hkept => ⟨hkept, ?_⟩) fun _ => id, hQ⟩
    exact hkept.succ_ne ht (by omega)

theorem withVariable (ht : t.Workable) (hL : L.Holds t sp σ c) {b : Binding} {name : String}
    {cell : Nat} (hb : L.env.find? name = some b) (hcell : L.scope.lookup name = some cell)
    {access : Operand → Instr} {Q : Word t.bits → Option Ordering → Prop}
    (haccess : ∀ c' offset base x y, L.place cell = some x → c'.regs base = .addr y →
      y + wrap offset = x → c'.regs (t.registerName free) = c.regs (t.registerName free) →
      L.place.Hold σ c'.mem → ∃ c'', (access (.mem offset base)).effect t c' = some c'' ∧
        L.place.Keeps (· ≠ t.registerName free) (fun _ => True) σ' c' c'' ∧
        Q (c''.regs (t.registerName free)) c''.flags) :
    (MiniCompiler.withVariable t b h free access).Completes t text c fun _ c' =>
      L.place.Keeps (t.Kept free) (sp ≤ ·) σ' c c' ∧ Q (c'.regs (t.registerName free)) c'.flags := by
  refine Emit.Does.ite (fun hbyRef => hL.withSpill ht ?_) fun hbyRef => ?_
  · intro sp' c₁ _ _ hL₁ hregs
    have hbinds := hL₁.find hb hcell
    obtain ⟨hpos, hfree, x, hplace, hmem⟩ := hbinds.indirect hbyRef
    refine Emit.Does.bind (Emit.does_ofExcept fun address haddress => ?_)
    have hname : address = t.registerName (free + 1) := by
      have heq := Target.register_eq ht.registers_ne_nil (free + 1)
      rw [show ((free + 1 : Nat) : Int) = free + 1 from rfl, haddress] at heq
      exact Except.ok.inj heq
    subst hname
    refine Emit.Does.bind (Emit.does_instr (Instr.effect_fetch hL₁.basePointer ?_) ?_)
    · rw [hbinds.offset]
      exact hbinds.aligned
    · rw [hbinds.offset, hmem]
      -- the address is in the next register
      obtain ⟨c₂, heffect, hkeeps, hQ⟩ := haccess (c₁.setReg (t.registerName (free + 1)) (.addr x)) 0
        (t.registerName (free + 1)) x x hplace (Core.regs_setReg_self ..)
        (by rw [show wrap 0 = 0 by decide, Int.add_zero])
        (by rw [Core.regs_setReg_of_ne _ (ht.registerName_succ_ne free).symm,
          hregs _ (ht.registerName_ne_stackPointer free)]) hL₁.hold
      refine Emit.does_instr heffect ⟨⟨⟨?_, ?_⟩, hkeeps.hold⟩, hQ⟩
      · rintro r ⟨hkept, hne⟩
        rw [hkeeps.agrees.regs r (hkept.ne ht), Core.regs_setReg_of_ne _ hne]
      · exact fun y hy => hkeeps.agrees.mem y ⟨trivial, hy.2⟩
  · have hbinds := hL.find hb hcell
    obtain ⟨c₂, heffect, hkeeps, hQ⟩ := haccess c b.offset t.basePointer _ _
      (hbinds.direct (by simpa using hbyRef)) hL.basePointer (by rw [hbinds.offset]) rfl hL.hold
    exact Emit.does_instr heffect ⟨hkeeps.mono (fun _ hkept => hkept.ne ht) fun _ _ => trivial, hQ⟩

end Layout.Holds

end MiniCompiler
