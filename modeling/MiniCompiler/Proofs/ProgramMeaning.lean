import MiniCompiler.Proofs.StackDiscipline
import MiniCompiler.Proofs.StmtMeaning

/-!
# The meaning of programs in the machine

The prologue of a function puts the words of the caller that it has to keep below the return address,
its body runs in the frame between them (`Target.Entered`), and the epilogue takes them back. Each
function does what it means if the functions that it calls do; the depth of calls is bounded, so that
all functions do (`Program.realized`).

Main statement: `Compilation.run_preserves`.
-/

namespace MiniCompiler

open Emit

variable {t : Target} {s : Settings}

/-! ## Entering and leaving a function -/

namespace Target

/-- The prologue behind the label of the function. -/
def entry (t : Target) (frameBytes : Int) : List Line :=
  [.instr (.push t.bp), .instr (.mov t.sp t.bp)] ++
  (if 0 < wrap frameBytes then [.instr (.sub (.imm frameBytes) t.sp)] else []) ++
  t.calleeSaved.map fun r => .instr (.push (.reg r))

def leave (t : Target) : List Line :=
  (t.calleeSaved.reverse.map fun r => .instr (.pop (.reg r))) ++
  [.instr (.mov t.bp t.sp), .instr (.pop t.bp)]

theorem prologue_eq (t : Target) (symbol : String) (frameBytes : Int) :
    t.prologue symbol frameBytes =
      [.directive ".globl" [symbol]] ++ .label (.symbol symbol) :: t.entry frameBytes := by
  simp [prologue, entry]

theorem epilogue_eq (t : Target) : t.epilogue = t.leave ++ [.instr .ret] := by
  simp [epilogue, leave]

/-- A state in the body of a function with its return address at `a`, which was entered in the
    state `c`. -/
structure Entered (t : Target) (a frameBytes : Int) (c c' : Core t.bits) : Prop where
  stackPointer : c'.regs t.stackPointer =
    .addr (a - t.wordSize - frameBytes - t.calleeSaved.length * t.wordSize)
  basePointer : c'.regs t.basePointer = .addr (a - t.wordSize)
  link : c'.mem (a - t.wordSize) = c.regs t.basePointer
  saved : Stacked t.wordSize c'.mem c.regs (a - t.wordSize - frameBytes) t.calleeSaved

variable {t : Target} {text : List Line} {a frameBytes : Int} {c c' : Core t.bits}
  {J : List Line → Core t.bits → Prop}

theorem Standard.ne_pointers (ht : t.Standard) {r : String} (h : r ∈ t.calleeSaved) :
    r ≠ t.stackPointer ∧ r ≠ t.basePointer := by
  have hregister := (ht.calleeSaved r h).1
  constructor
  · rintro rfl
    exact ht.stackPointer hregister
  · rintro rfl
    exact ht.basePointer hregister

/-- The base pointer of the caller is saved, and set to where it was saved. -/
theorem executes_link (ht : t.Standard) (hsp : c.regs t.stackPointer = .addr a)
    (ha : t.wordSize ∣ a) :
    Executes t text [.instr (.push t.bp), .instr (.mov t.sp t.bp)] c J fun c' =>
      c.Agrees (fun r => r ≠ t.stackPointer ∧ r ≠ t.basePointer) (a ≤ ·) c' ∧
      c'.regs t.stackPointer = .addr (a - t.wordSize) ∧
      c'.regs t.basePointer = .addr (a - t.wordSize) ∧
      c'.mem (a - t.wordSize) = c.regs t.basePointer := by
  have hpushed : c.Agrees (· ≠ t.stackPointer) (a ≤ ·) (c.pushed a (c.regs t.basePointer)) :=
    Core.agrees_pushed ht _
  refine executes_cons (Instr.effect_push ht hsp ha) (executes_effect Instr.effect_move ?_)
  refine ⟨⟨fun r hr => ?_, hpushed.mem⟩, ?_, ?_, Core.mem_pushed _⟩
  · rw [Core.regs_setReg_of_ne _ hr.2, hpushed.regs r hr.1]
  · rw [Core.regs_setReg_of_ne _ ht.pointers.symm, Core.stackPointer_pushed]
  · rw [Core.regs_setReg_self, Core.stackPointer_pushed]

theorem executes_lower {sp : Int} (hpos : 0 ≤ frameBytes) (hlt : frameBytes < wordBound)
    (hsp : c.regs t.stackPointer = .addr sp) :
    Executes t text (if 0 < wrap frameBytes then [.instr (.sub (.imm frameBytes) t.sp)] else []) c J
      fun c' => c.Agrees (· ≠ t.stackPointer) (fun _ => True) c' ∧
        c'.regs t.stackPointer = .addr (sp - frameBytes) := by
  have hwrap : wrap frameBytes = frameBytes := wrap_of_mem_range (by unfold wordBound; omega) hlt
  rw [hwrap]
  split
  · refine executes_effect (Instr.effect_lower hsp) ⟨⟨fun r hr => by simp [hr], fun _ _ => rfl⟩, ?_⟩
    simp [hwrap]
  -- an empty frame takes no instruction
  · refine executes_nil ⟨.refl _ _ _, ?_⟩
    rw [hsp, show frameBytes = 0 by omega, Int.sub_zero]

theorem executes_entry (ht : t.Standard) (hpos : 0 ≤ frameBytes) (hlt : frameBytes < wordBound)
    (hdvd : t.wordSize ∣ frameBytes) (hsp : c.regs t.stackPointer = .addr a)
    (ha : t.wordSize ∣ a) :
    Executes t text (t.entry frameBytes) c J fun c' =>
      t.Entered a frameBytes c c' ∧ ∀ x, a ≤ x → c'.mem x = c.mem x := by
  have hword := ht.pos
  have ha' : t.wordSize ∣ a - t.wordSize := Int.dvd_sub ha (Int.dvd_refl _)
  refine Executes.append (R := fun c' =>
    c.Agrees (fun r => r ≠ t.stackPointer ∧ r ≠ t.basePointer) (a ≤ ·) c' ∧
    c'.regs t.stackPointer = .addr (a - t.wordSize - frameBytes) ∧
    c'.regs t.basePointer = .addr (a - t.wordSize) ∧
    c'.mem (a - t.wordSize) = c.regs t.basePointer) ?_ ?_
  · refine Executes.append (executes_link ht hsp ha) ?_
    rintro c₁ ⟨hagrees₁, hsp₁, hbp₁, hlink₁⟩
    refine (executes_lower hpos hlt hsp₁).mono (fun _ _ => id) ?_
    rintro c₂ ⟨hagrees₂, hsp₂⟩
    refine ⟨?_, hsp₂, ?_, ?_⟩
    · exact hagrees₁.trans (hagrees₂.mono (fun _ hr => hr.1) fun _ _ => trivial)
    · rw [hagrees₂.regs _ ht.pointers, hbp₁]
    · rw [hagrees₂.mem _ trivial, hlink₁]
  · rintro c₂ ⟨hagrees₂, hsp₂, hbp₂, hlink₂⟩
    have hnot : t.stackPointer ∉ t.calleeSaved := fun h => (ht.ne_pointers h).1 rfl
    refine (executes_pushes ht t.calleeSaved hnot _ c₂ hsp₂ (Int.dvd_sub ha' hdvd)).mono
      (fun _ _ => id) ?_
    rintro c₃ ⟨hagrees₃, hsp₃, hsaved⟩
    refine ⟨⟨hsp₃, ?_, ?_, ?_⟩, fun x hx => ?_⟩
    · rw [hagrees₃.regs _ ht.pointers, hbp₂]
    · rw [hagrees₃.mem _ (by omega), hlink₂]
    · refine hsaved.congr hword (fun r hr => ?_) fun _ _ _ => rfl
      exact (hagrees₂.regs r (ht.ne_pointers hr)).symm
    · rw [hagrees₃.mem x (by omega), hagrees₂.mem x hx]

/-- The epilogue restores what the prologue has saved. -/
theorem executes_leave (ht : t.Standard) (hdvd : t.wordSize ∣ frameBytes)
    (hsp : c.regs t.stackPointer = .addr a) (ha : t.wordSize ∣ a) (h : t.Entered a frameBytes c c') :
    Executes t text t.leave c' J fun c'' => (∀ r, t.KeptByCall r → c''.regs r = c.regs r) ∧
      c''.mem = c'.mem ∧ c''.regs (t.registerName 0) = c'.regs (t.registerName 0) := by
  have ha' : t.wordSize ∣ a - t.wordSize := Int.dvd_sub ha (Int.dvd_refl _)
  have hnot : t.stackPointer ∉ t.calleeSaved := fun h => (ht.ne_pointers h).1 rfl
  refine Executes.append (executes_pops t.calleeSaved hnot _ c' h.stackPointer (Int.dvd_sub ha' hdvd)
    h.saved) ?_
  rintro c₁ ⟨hagrees, -, hsaved, -⟩
  have hbp₁ : c₁.regs t.basePointer = .addr (a - t.wordSize) := by
    rw [hagrees.regs _ ⟨ht.pointers, fun h => (ht.ne_pointers h).2 rfl⟩, h.basePointer]
  have hmem : c₁.mem = c'.mem := funext fun x => hagrees.mem x trivial
  have hmoved : (c₁.setReg t.stackPointer (c₁.regs t.basePointer)).regs t.stackPointer =
      .addr (a - t.wordSize) := by
    rw [Core.regs_setReg_self, hbp₁]
  refine executes_cons Instr.effect_move (executes_effect (Instr.effect_pop hmoved ha') ?_)
  refine ⟨?_, hmem, ?_⟩
  · rintro r (rfl | rfl | hr)
    · rw [Core.regs_setReg_of_ne _ ht.pointers.symm, Core.regs_setReg_self, hsp, Int.sub_add_cancel]
    · rw [Core.regs_setReg_self, Core.mem_setReg, hmem, h.link]
    · obtain ⟨hne, hne'⟩ := ht.ne_pointers hr
      rw [Core.regs_setReg_of_ne _ hne', Core.regs_setReg_of_ne _ hne, Core.regs_setReg_of_ne _ hne,
        hsaved r hr]
  · have hne := ht.registerName_ne_stackPointer 0
    rw [Core.regs_setReg_of_ne _ (ht.registerName_ne_basePointer 0), Core.regs_setReg_of_ne _ hne,
      Core.regs_setReg_of_ne _ hne, hagrees.regs _ ⟨hne, fun h => (ht.calleeSaved _ h).2 rfl⟩]

end Target

/-! ## Functions -/

/-- The body of a function finds its arguments through the bindings of its parameters. -/
theorem Layout.binds_params {L : Layout} {mem : Int → Word t.bits} (hword : s.wordSize = t.wordSize)
    (hpos : 0 < t.wordSize) (haligned : t.wordSize ∣ L.base) {ps : List Param} :
    ∀ {i : Nat} {before : List String} {env : Env} {scope : Naming} {cells : List Nat}, (i + ps.length + 2) * t.wordSize < wordBound →
    List.Forall₂ (L.Binds t mem) env scope →
    L.place.PassesAll t.wordSize mem (L.base + Frame.paramOffset t.wordSize i) ps cells →
    List.Forall₂ (L.Binds t mem) (bindParams s i before env ps).2.1
      (((ps.map Param.name).zip cells).reverse ++ scope) := by
  -- the offset of a parameter does not wrap, as all of them are below the bound
  induction ps with
  | nil => exact fun _ henv _ => henv
  | cons q ps ih =>
    intro i before env scope cells hlt henv hpasses
    cases cells with
    | nil => exact hpasses.elim
    | cons cell cells =>
      obtain ⟨hfirst, hrest⟩ := hpasses
      rw [List.map_cons, List.zip_cons_cons, List.reverse_cons, List.append_assoc]
      have hoffset : Frame.paramOffset t.wordSize i = (i + 2) * t.wordSize := by
        rw [Frame.paramOffset, Int.add_mul, Int.add_comm]
      have hnext : Frame.paramOffset t.wordSize (i + 1 : Nat) =
          Frame.paramOffset t.wordSize i + t.wordSize := by
        rw [Frame.paramOffset, Frame.paramOffset, Int.natCast_add, Int.add_mul]
        omega
      have hnonneg : 0 ≤ Frame.paramOffset t.wordSize i :=
        hoffset ▸ Int.mul_nonneg (by omega) (Int.le_of_lt hpos)
      have hbound : Frame.paramOffset t.wordSize i < wordBound := by
        refine Int.lt_of_le_of_lt ?_ hlt
        rw [hoffset]
        exact Int.mul_le_mul_of_nonneg_right (by omega) (Int.le_of_lt hpos)
      refine ih ?_ (.cons ⟨rfl, ?_, ?_, ?_, ?_⟩ henv) ?_
      · rw [List.length_cons] at hlt
        rwa [show ((i + 1 : Nat) : Int) + ps.length + 2 = i + (ps.length + 1 : Nat) + 2 by omega]
      · simp only [hword]
        exact wrap_of_mem_range (by unfold wordBound; omega) hbound
      · simp only [hword]
        exact Int.dvd_add haligned (hoffset ▸ Int.dvd_mul_left ..)
      · simp only [hword]
        exact hfirst.1
      · simp only [hword]
        intro hbyRef
        obtain ⟨hfree, x, hcell, hmem⟩ := hfirst.2 hbyRef
        exact ⟨hnonneg, hfree, x, hcell, hmem⟩
      · rw [hnext, ← Int.add_assoc]
        exact hrest

/-- The body of a function starts with its parameters in scope and an empty frame. -/
theorem Target.Entered.starts (ht : t.Standard) {a peak : Int} {c c' : Core t.bits}
    (h : t.Entered a (peak * t.wordSize) c c') (hmem : ∀ x, a ≤ x → c'.mem x = c.mem x)
    (hpeak : 0 ≤ peak) (hlt : peak * t.wordSize < wordBound) (ha : t.wordSize ∣ a) {place : Places}
    (hproper : place.Proper t (a + t.wordSize)) {σ : Store t.bits} (hhold : place.Hold σ c.mem)
    {f : Function} {cells : List Nat} (hparams : (f.params.length + 2) * t.wordSize < wordBound)
    (hpasses : place.PassesAll t.wordSize c.mem (a + t.wordSize) f.params cells)
    (hword : s.wordSize = t.wordSize) :
    let sp := a - t.wordSize - peak * t.wordSize - t.calleeSaved.length * t.wordSize
    let L : Layout := ⟨a - t.wordSize, place, (bindParams s 0 [] [] f.params).2.1, f.naming cells⟩
    L.Holds t sp σ c' ∧ L.Framed t sp peak 0 := by
  intro sp L
  have hpos := ht.pos
  have hframe := Int.mul_nonneg hpeak (Int.le_of_lt hpos)
  have hsaved := Int.mul_nonneg (Int.natCast_nonneg t.calleeSaved.length) (Int.le_of_lt hpos)
  have hbase : t.wordSize ∣ a - t.wordSize := Int.dvd_sub ha (Int.dvd_refl _)
  have hbinds : List.Forall₂ (L.Binds t c'.mem) L.env (L.scope ++ []) := by
    refine L.binds_params hword hpos hbase (i := 0) (by simpa using hparams) .nil ?_
    show place.PassesAll _ _ (a - t.wordSize + (2 * t.wordSize + 0 * t.wordSize)) _ _
    rw [show a - t.wordSize + (2 * t.wordSize + 0 * t.wordSize) = a + t.wordSize by omega]
    exact hpasses.congr (Int.le_of_lt hpos) fun y hy => hmem y (by omega)
  refine ⟨⟨h.stackPointer, h.basePointer, ?_, ?_, ?_, ?_, ?_⟩, ⟨Int.le_refl 0, hpeak, hlt, hbase, ?_, ?_⟩⟩
  · exact Int.dvd_sub (Int.dvd_sub hbase (Int.dvd_mul_left ..)) (Int.dvd_mul_left ..)
  · show sp ≤ a - t.wordSize
    omega
  · exact hproper.lower (by omega)
  · refine hhold.congr fun cell x hcell => hmem x ?_
    have := hproper.above cell x hcell
    omega
  · rwa [List.append_nil] at hbinds
  · show sp ≤ a - t.wordSize - _
    omega
  · intro cell x hcell
    have := hproper.above cell x hcell
    show a - t.wordSize - _ ≤ x
    omega

theorem Target.dvd_entryBytes {frameBytes : Int} (h : t.wordSize ∣ frameBytes) :
    t.wordSize ∣ t.entryBytes frameBytes :=
  Int.dvd_add (Int.dvd_add (Int.dvd_mul_left ..) h) (Int.dvd_mul_left ..)

theorem LoopLabels.resolve_none (text : List Line) : LoopLabels.Resolve text none := by
  intro k l hl
  cases k <;> cases hl

/-- A body keeps what the prologue has saved. -/
theorem Target.Entered.keep (ht : t.Standard) {a peak : Int} {c c' c'' : Core t.bits}
    (h : t.Entered a (peak * t.wordSize) c c') (hpeak : 0 ≤ peak) {L : Layout}
    (hbase : L.base = a - t.wordSize) (hproper : L.place.Proper t (a + t.wordSize))
    {σ' : Store t.bits} (hkeeps : L.Keeps t
      (a - t.wordSize - peak * t.wordSize - t.calleeSaved.length * t.wordSize) peak 0 σ' c' c'') :
    t.Entered a (peak * t.wordSize) c c'' := by
  have hword := ht.pos
  have hframe := Int.mul_nonneg hpeak (Int.le_of_lt hword)
  have hsaved := Int.mul_nonneg (Int.natCast_nonneg t.calleeSaved.length) (Int.le_of_lt hword)
  refine ⟨?_, ?_, ?_, ?_⟩
  · rw [hkeeps.agrees.regs _ .stackPointer, h.stackPointer]
  · rw [hkeeps.agrees.regs _ .basePointer, h.basePointer]
  -- the saved words are outside the frame, and no variable of the caller is below `a`
  · refine (hkeeps.agrees.mem _ ⟨⟨by omega, .inr (by omega)⟩, ?_⟩).trans h.link
    exact hproper.free_of_lt (by omega)
  · refine h.saved.congr hword (fun _ _ => rfl) fun x hx hx' => hkeeps.agrees.mem x ?_
    exact ⟨⟨hx, .inl (by omega)⟩, hproper.free_of_lt (by omega)⟩

/-- The lines of a body come to the label of the exit, by a jump or at their end. -/
theorem Flow.Directs.exits {text : List Line} (htext : (writtenLabels text).Nodup)
    {flow : Flow t.bits} {exit : Label} {ls rest : List Line} {c : Core t.bits}
    {P : Core t.bits → Prop} (h : flow.Directs text exit none ls c P P)
    {v : Option (Value t.bits)} (hflow : flow = .returned v ∨ flow = .next ∧ v = none)
    (hsuffix : ls ++ .label exit :: rest <:+ text) : ∃ c',
      Machine.Reaches t text ⟨ls ++ .label exit :: rest, c⟩ ⟨rest, c'⟩ ∧ P c' ∧
        ∀ x, v = some x → c'.regs (t.registerName 0) = x.word := by
  obtain ⟨rest', c', hreaches, ⟨rfl, hnext, hP⟩ | ⟨hleaves, hP⟩⟩ := h _ hsuffix
  · obtain rfl | ⟨-, rfl⟩ := hflow
    · cases hnext
    · refine ⟨c', hreaches.trans (.single (Machine.step_label exit)), hP, ?_⟩
      rintro _ ⟨⟩
  · obtain rfl | ⟨rfl, -⟩ := hflow
    · obtain ⟨hdest, hresult⟩ := hleaves
      rw [resolve_of_suffix htext ((List.suffix_append _ _).trans hsuffix)] at hdest
      cases hdest
      exact ⟨c', hreaches, hP, hresult⟩
    · exact hleaves.elim

section

variable {p : Program} {s : Settings} {text : List Line}
  {call : String → List Nat → Eval s.target.bits (Option (Value s.target.bits))}
  {ctx : TypingContext} {limit : Nat}

/-- The text of a function does what its body means. -/
theorem Function.Elab.performs (hp : p.Linked s text call ctx) {f f' : Function}
    (h : Function.Elab ctx f f') (hdef : f'.isPrototype = false)
    (hsize : (s.target.stackAlignment + 128) * f.size < wordBound) {block rest : List Line}
    {m m' : Nat} (hrun : Emits (f'.code s) m () block m') (hsuffix : block ++ rest <:+ text) {b : Body}
    (hbody : f.body = some b) {cells : List Nat} {flow : Flow s.target.bits}
    {σ σ' : Store s.target.bits} {v : Option (Value s.target.bits)}
    (hends : Ends (Stmt.execAll p call limit b.stmts (f.naming cells)) σ flow σ')
    (hflow : flow = .returned v ∨ flow = .next ∧ v = none) :
    ∃ body, resolve (.symbol (s.symbolStart ++ f.name)) text = some body ∧
      f.Performs s.target text body cells σ v σ' := by
  have ht := hp.standard
  have hs := hp.regular
  have hword := ht.pos
  have halign := hs.alignment
  have hone : 1 * (f.size : Int) ≤ (s.target.stackAlignment + 128) * f.size :=
    Int.mul_le_mul_of_nonneg_right (by omega) (by omega)
  have hframe := h.frameBytes_le hdef (by omega) (by rw [hp.settings, hs.wordSize]; omega)
  rw [hp.settings, hs.wordSize] at hframe
  obtain ⟨hlt, hfits⟩ := hs.fits_entryBytes hframe.1 hframe.2 hsize
  have hsizes : Stmt.sizeAll b.stmts ≤ f.size ∧ f.params.length ≤ f.size := by
    rw [Function.size, hbody]
    exact ⟨Nat.le_add_left .., Nat.le_add_right ..⟩
  have hargs : (f.params.length + 2) * s.target.wordSize < wordBound := by
    rw [Int.add_mul] at hsize
    have := Int.mul_nonneg (show 0 ≤ s.target.stackAlignment by omega) (Int.natCast_nonneg f.size)
    obtain hw | hw := ht.wordSize <;> rw [hw] <;> unfold wordBound at hsize ⊢ <;> omega
  cases h with
  | prototype hproto => simp [hdef] at hproto
  | @definition b' params env env' reports stmts fr returns _ hbody' hparams hall =>
    cases hbody.symm.trans hbody'
    have hpeak : 0 ≤ fr.peak :=
      (hall.grows ⟨Int.le_refl 0, Int.le_refl 0⟩ (by simp only; omega)).peak.1
    obtain ⟨_, exit, bodyLines, ⟨⟩, rfl, htext⟩ := (Function.labelDiscipline rfl hrun).text
    cases htext with
    | @block _ _ items hitems =>
      -- the parts of the text, from the label of the function to its return
      rw [Target.prologue_eq, Target.epilogue_eq] at hsuffix
      simp only [List.append_assoc, List.cons_append, List.nil_append] at hsuffix
      have hlabel := (List.suffix_cons _ _).trans hsuffix
      have hentry := (List.suffix_cons _ _).trans hlabel
      have hinner := (List.suffix_append _ _).trans hentry
      have hexit := (List.suffix_append _ _).trans hinner
      have hleave := (List.suffix_cons _ _).trans hexit
      refine ⟨_, resolve_of_suffix hp.labels hlabel, ?_⟩
      intro place a c hsp ha hproper hhold hpasses
      simp only [hp.settings, hs.wordSize, Frame.bytes] at hframe hlt hfits hentry hitems hparams ⊢
      obtain ⟨_, c₁, hreaches₁, ⟨rfl, hentered, hmem⟩ | hfalse⟩ := Target.executes_entry ht hframe.1
        hlt (Int.dvd_mul_left ..) hsp ha (J := fun _ _ => False) _ hentry
      · obtain ⟨hL, hframed⟩ := hentered.starts ht hmem hpeak hlt ha hproper hhold hargs hpasses
          hs.wordSize
        rw [hparams] at hL hframed
        have hrun := Stmt.ElabAll.means hp (Target.dvd_entryBytes (Int.dvd_mul_left ..))
          ⟨_, resolve_of_suffix hp.labels hexit⟩ hall rfl hitems (LoopLabels.resolve_none text) rfl
          hends hL hframed ⟨Int.le_refl 0, Int.le_refl 0⟩ (by simp only; omega) (Int.le_refl _)
          (hfits.le hs hsizes.1)
        obtain ⟨c₂, hreaches₂, hkeeps, hresult⟩ := hrun.exits hp.labels hflow hinner
        have hentered₂ := hentered.keep ht hpeak rfl hproper hkeeps
        obtain ⟨_, c₃, hreaches₃, ⟨rfl, hregs, hmem₃, hresult₃⟩ | hfalse⟩ := Target.executes_leave ht
          (Int.dvd_mul_left ..) hsp ha hentered₂ (J := fun _ _ => False) _ hleave
        · refine ⟨rest, c₃, (hreaches₁.trans hreaches₂).trans hreaches₃,
            ⟨⟨hregs, fun x hx => ?_⟩, hmem₃ ▸ hkeeps.hold⟩, fun x hx => hresult₃.trans (hresult x hx)⟩
          have hspared := hframed.spared ht (show a - s.target.wordSize ≤ x by have := hx.1; omega)
          rw [hmem₃, hkeeps.agrees.mem x ⟨hspared, hx.2⟩, hmem x hx.1]
        · exact hfalse.elim
      · exact hfalse.elim

end

/-! ## Programs -/

theorem Program.mem_of_definition? {p : Program} {name : String} {f : Function}
    (h : p.definition? name = some f) : f ∈ p.definitions ∧ f.name = name := by
  have hcond := List.find?_some h
  rw [Bool.and_eq_true, Bool.not_eq_true', beq_iff_eq] at hcond
  exact ⟨Program.mem_definitions.2 ⟨List.mem_of_find?_eq_some h, hcond.1⟩, hcond.2⟩

theorem exists_suffix_of_mem_flatten {blocks : List (List Line)} {block : List Line}
    (h : block ∈ blocks) (pre post : List Line) :
    ∃ rest, block ++ rest <:+ pre ++ blocks.flatten ++ post := by
  obtain ⟨as, bs, rfl⟩ := List.append_of_mem h
  exact ⟨bs.flatten ++ post, pre ++ as.flatten, by simp⟩

/-- All functions of a program do what they mean, up to any depth of calls. -/
theorem Program.realized {p p' : Program} (hs : s.Regular)
    (ht : s.target.Standard) (haccepted : (p.check s).accepted = true)
    (helaborated : List.Forall₂ (Function.Elab (p.declare s).1) p p')
    (hsize : ∀ f ∈ p, (s.target.stackAlignment + 128) * f.size < wordBound)
    {blocks : List (List Line)} {pre post : List Line}
    (hlabels : (writtenLabels (pre ++ blocks.flatten ++ post)).Nodup)
    (hblocks : List.Forall₂ (fun f block => ∃ m m', Emits (f.code s) m () block m')
      p'.definitions blocks) (n : Nat) :
    p.Realized s (pre ++ blocks.flatten ++ post) (p.call n) := by
  -- on the depth of calls; a body that runs at depth `n + 1` calls at depth `n`
  induction n with
  | zero => exact fun _ hends => absurd hends not_ends_stop
  | succ n ih =>
    intro name f cells σ v σ' hdef hends
    obtain ⟨b, flow, hbody, hexec, hflow⟩ := Program.ends_call hdef hends
    obtain ⟨hmem, rfl⟩ := Program.mem_of_definition? hdef
    obtain ⟨f', hmem', hrule⟩ :=
      exists_mem_of_forall₂ (Program.elaborated_definitions helaborated).flip hmem
    obtain ⟨block, hblock, m, m', hrun⟩ := exists_mem_of_forall₂ hblocks.flip hmem'
    obtain ⟨rest, hsuffix⟩ := exists_suffix_of_mem_flatten hblock pre post
    have hp : p.Linked s (pre ++ blocks.flatten ++ post) (p.call n) (p.declare s).1 := by
      refine ⟨hs, ht, hlabels, ih, rfl, fun hdef hfound => ?_⟩
      obtain ⟨hmem, rfl⟩ := Program.mem_of_definition? hdef
      obtain ⟨j, hj⟩ := (Program.definitions_of_accepted haccepted).1 _ hmem
      cases hfound.symm.trans hj
      rfl
    exact hrule.performs hp (Program.mem_definitions.1 hmem').2
      (hsize f (Program.mem_definitions.1 hmem).1) hrun hsuffix hbody hexec hflow

theorem Settings.regular_of_supported (ht : s.target ∈ Target.supported)
    (hword : s.wordSize = s.target.wordSize) : s.Regular ∧ s.target.stackAlignment = 16 := by
  have halign : s.target.stackAlignment = 16 := by
    simp only [Target.supported, List.mem_cons, List.not_mem_nil, or_false] at ht
    obtain heq | heq := ht <;> rw [heq] <;> rfl
  exact ⟨⟨⟨_, ht, rfl⟩, hword, by omega⟩, halign⟩

/-- The assembly of an accepted program for a supported target does what the program means. If a
    function ends with the value `v` and the store `σ'`, its text returns with this value in the first
    register and with the values of this store in the variables of its caller; the stack pointer, the
    base pointer, the registers that a function has to keep and all other words of the caller are as
    they were. The number of tokens is bounded so that all sizes are signed words. -/
theorem Compilation.run_preserves {s : Settings} (ht : s.target ∈ Target.supported)
    (hword : s.wordSize = s.target.wordSize) {allows : Feature → Bool}
    {read : String → Except FileError Content} {paths : List String} {files : List SourceFile}
    {tokens : List Token} (hgather : s.gather read 0 paths = .ok (files, tokens))
    (hsize : 256 * tokens.length < wordBound) {p : Program}
    (hparse : Program.parse allows tokens = .ok p)
    (haccepted : (p.check s).accepted = true) :
    ∃ lines, Compilation.run s allows tokens = .lowered p (p.check s).reports (.ok lines) ∧
      ∀ {limit name f cells σ v σ'}, p.definition? name = some f →
        Ends (p.call limit name cells) σ v σ' → ∃ body,
          resolve (.symbol (s.symbolStart ++ name)) lines = some body ∧
          f.Performs s.target lines body cells σ v σ' := by
  obtain ⟨hs, halign⟩ := Settings.regular_of_supported ht hword
  -- first the lines and their labels, then the sizes, then the functions in these lines
  have htokens := Settings.endsOnce_gather hgather
  obtain ⟨helaborated, _, blocks, hrun, rfl, -, hlabels, hblocks⟩ :=
    Compilation.run_eq_blocks hs.registers_ne_nil htokens hparse haccepted
  have hfits : ∀ f ∈ p, (s.target.stackAlignment + 128) * f.size < wordBound := by
    intro f hf
    have hle := Program.size_le_of_parse htokens hparse f hf
    rw [halign]
    omega
  refine ⟨_, hrun, ?_⟩
  intro limit name f cells σ v σ' hdef hends
  exact Program.realized hs (Target.standard_of_mem ht) haccepted helaborated hfits hlabels
    (hblocks.imp fun _ _ => Program.HasBlock.emits) limit hdef hends

/-- A loop that calls a recursive function and changes a variable of its caller. -/
def sumSource : Content := Text.encodeUtf8 ("int fact(int n) \x7b if (n <= 1) return 1; " ++
  "return n * fact(n - 1); \x7d boolean sum(int &x, int k) \x7b for (int i = 0; ; i = i + 1) \x7b " ++
  "if (i > k || fact(i) / (i - 9) < -1) break; x = x + fact(i); \x7d return x == 11; \x7d")

/-- The state of a caller of `sum`: the return address is at 100, the first argument is the address of
    a variable with the value 1, and the second one is 3. -/
def sumCaller : Core Target.i386.bits where
  regs := fun r => if r = "%esp" then .addr 100 else .num 7
  mem := fun x => if x = 104 then .addr 200 else if x = 108 then .num 3 else .num 1

def sumStore : Store Target.i386.bits := [.int 1, .int 3]

def sumPlaces : Places
  | 0 => some 200
  | 1 => some 108
  | _ => none

theorem sumPlaces_proper : sumPlaces.Proper .i386 104 ∧ sumPlaces.Hold sumStore sumCaller.mem := by
  have hcases {cell : Nat} {x : Int} (h : sumPlaces cell = some x) :
      cell = 0 ∧ x = 200 ∨ cell = 1 ∧ x = 108 := by
    unfold sumPlaces at h
    split at h <;> cases h <;> simp
  refine ⟨⟨fun cell x h => ?_, fun cell x h => ?_, fun cell cell' x h h' => ?_⟩, fun cell x h => ?_⟩
  · obtain ⟨-, rfl⟩ | ⟨-, rfl⟩ := hcases h <;> decide
  · obtain ⟨-, rfl⟩ | ⟨-, rfl⟩ := hcases h <;> decide
  · obtain ⟨rfl, rfl⟩ | ⟨rfl, rfl⟩ := hcases h <;> obtain ⟨rfl, hx⟩ | ⟨rfl, hx⟩ := hcases h'
    all_goals omega
  · obtain ⟨rfl, rfl⟩ | ⟨rfl, rfl⟩ := hcases h
    · exact ⟨.int 1, rfl, rfl⟩
    · exact ⟨.int 3, rfl, rfl⟩

theorem sumPlaces_passes {ps : List Param} (h : ps.map Param.byRef = [true, false]) :
    sumPlaces.PassesAll 4 sumCaller.mem 104 ps [0, 1] := by
  obtain ⟨q, ps, rfl, hq, h⟩ := List.map_eq_cons_iff.1 h
  obtain ⟨q', ps, rfl, hq', h⟩ := List.map_eq_cons_iff.1 h
  cases List.map_eq_nil_iff.1 h
  refine ⟨⟨by simp [hq], fun _ => ⟨fun cell => ?_, 200, rfl, rfl⟩⟩, ⟨fun _ => rfl, by simp [hq']⟩,
    trivial⟩
  unfold sumPlaces
  split <;> decide

theorem Compilation.run_preserves_sumSource : ∃ files tokens p lines body rest c' σ',
    Settings.gather {} (fun _ => .ok sumSource) 0 ["sum"] = .ok (files, tokens) ∧
    Compilation.run {} (fun _ => true) tokens = .lowered p (p.check {}).reports (.ok lines) ∧
    Ends (p.call 9 "sum" [0, 1]) sumStore (some (.bool true)) σ' ∧ σ'[0]? = some (.int 11) ∧
    resolve (.symbol "sum") lines = some body ∧
    Machine.Reaches .i386 lines ⟨body, sumCaller⟩ ⟨.instr .ret :: rest, c'⟩ ∧
    c'.regs "%eax" = .num 1 ∧ c'.mem 200 = .num 11 ∧ c'.regs "%ebx" = .num 7 := by
  have heval : ((Settings.gather {} (fun _ => .ok sumSource) 0 ["sum"]).toOption.any fun g =>
      (Program.parse (fun _ => true) g.2).toOption.any fun p =>
        (p.check {}).accepted && decide (256 * g.2.length < wordBound) &&
        ((p.definition? "sum").any fun f => f.params.map Param.byRef == [true, false]) &&
        (p.call 9 "sum" [0, 1] sumStore).toOption.any fun r =>
          r.1 == some (.bool true) && r.2[0]? == some (.int 11)) = true := by decide +kernel
  obtain ⟨⟨files, tokens⟩, hgather, heval⟩ := exists_of_any heval
  obtain ⟨p, hparse, heval⟩ := exists_of_any heval
  simp only [Bool.and_eq_true, decide_eq_true_eq] at heval
  obtain ⟨⟨⟨haccepted, hsize⟩, hdef⟩, hcall⟩ := heval
  obtain ⟨f, hdef, hparams⟩ := (Option.any_eq_true _ _).1 hdef
  obtain ⟨⟨v, σ'⟩, hends, hcall⟩ := exists_of_any hcall
  simp only [Bool.and_eq_true, beq_iff_eq] at hparams hcall
  obtain ⟨rfl, hvalue⟩ := hcall
  obtain ⟨lines, hrun, hrealized⟩ :=
    Compilation.run_preserves (s := {}) (by decide) rfl hgather hsize hparse haccepted
  obtain ⟨body, hbody, hperforms⟩ := hrealized hdef hends
  obtain ⟨rest, c', hreaches, ⟨hagrees, hhold⟩, hresult⟩ := hperforms (a := 100)
    (c := sumCaller) rfl (by decide) sumPlaces_proper.1 sumPlaces_proper.2
    (sumPlaces_passes hparams)
  obtain ⟨u, hu, hmem⟩ := hhold 0 200 rfl
  cases hvalue.symm.trans hu
  exact ⟨files, tokens, p, lines, body, rest, c', σ', hgather, hrun, hends, hvalue, hbody,
    hreaches, hresult _ rfl, hmem, hagrees.regs "%ebx" (.inr (.inr (by decide)))⟩

end MiniCompiler
