import MiniCompiler.Proofs.LabelDiscipline

/-!
# The discipline of the stack

In the text of a function, jumps keep the height of the stack, so that it is the same along every path,
and the exit is as high as the end of the prologue, so that the epilogue pops what the prologue pushed.
Calls find the stack aligned exactly if every sum of bytes that is rounded up for them stays a signed
word when it is (`Function.rounded`).
-/

namespace MiniCompiler

open Emit

variable {s : Settings}

/-! ## What is meant -/

/-- The height of the stack before line `i` of a function, counted through its lines in order. At the
    first line there is only the return address. -/
def stackHeight (t : Target) (block : List Line) (i : Nat) : Int :=
  t.wordSize + growthAll t (block.take i)

/-- Can the line after this one be next? -/
def Line.fallsThrough : Line → Bool
  | .instr (.jump _) | .instr .ret => false
  | _ => true

/-- Control can go from line `i` of a function to line `j`. -/
inductive Flows (block : List Line) : Nat → Nat → Prop where
  | next {i : Nat} {l : Line} : block[i]? = some l → l.fallsThrough = true → Flows block i (i + 1)
  | jump {i j : Nat} {l : Line} {target : Label} : block[i]? = some l → l.jump? = some target →
    block[j]? = some (.label target) → Flows block i j

/-- A path through a function, from its first line, comes to line `i` with `h` bytes on the stack. -/
inductive Arrives (t : Target) (block : List Line) : Nat → Int → Prop where
  | entry : Arrives t block 0 t.wordSize
  | step {i j : Nat} {h : Int} {l : Line} : Arrives t block i h → block[i]? = some l →
    Flows block i j → Arrives t block j (h + l.growth t)

/-- The text of a function keeps the discipline of the stack. -/
structure StackDiscipline (s : Settings) (f : Function) (block : List Line) : Prop where
  /-- A jump is as high as the one label that it goes to. -/
  jumps : ∀ i l target, block[i]? = some l → l.jump? = some target →
    ∃ j, (∀ j', block[j']? = some (.label target) ↔ j' = j) ∧
      stackHeight s.target block i = stackHeight s.target block j
  /-- A line is as high along every path. -/
  paths : ∀ i h, Arrives s.target block i h → h = stackHeight s.target block i
  /-- The exit is as high as the prologue left the stack. -/
  exits : ∃ body exit, block = s.target.prologue (s.symbolStart ++ f.name) f.frameBytes ++ body ++
      .label exit :: s.target.epilogue ∧
    stackHeight s.target block
      ((s.target.prologue (s.symbolStart ++ f.name) f.frameBytes).length + body.length) =
        s.target.entryBytes f.frameBytes
  /-- The epilogue pops each register where the prologue pushed it. -/
  restores : ∀ r ∈ s.target.calleeSaved, ∃ i j,
    i < (s.target.prologue (s.symbolStart ++ f.name) f.frameBytes).length ∧
    block.length ≤ j + s.target.epilogue.length ∧
    block[i]? = some (.instr (.push (.reg r))) ∧ block[j]? = some (.instr (.pop (.reg r))) ∧
    stackHeight s.target block j = stackHeight s.target block (i + 1)

/-- At each call in the text of a function the stack is aligned, and as high as the signed word that the
    arguments were passed with. -/
def CallsAligned (t : Target) (block : List Line) : Prop :=
  ∀ i symbol pushed, block[i]? = some (.instr (.call symbol pushed)) →
    stackHeight t block i = wrap pushed ∧ t.stackAlignment ∣ stackHeight t block i

/-- What the calls in a function round up: for each, the bytes on the stack when it is compiled, with the
    registers that it saves, its arguments and their temporaries. -/
def Function.rounded (s : Settings) (f : Function) : List Int :=
  f.body.elim [] fun b => Stmt.roundedAll s (s.target.entryBytes f.frameBytes) b.stmts

section

variable {t : Target} {block : List Line}

theorem callsAligned_iff :
    CallsAligned t block ↔ CallsRight t t.wordSize block := by
  constructor
  · intro haligned symbol pushed k hmem
    obtain ⟨i, hi, rfl⟩ := getElem?_of_mem_heights hmem
    exact haligned i symbol pushed hi
  · intro hright i symbol pushed hi
    exact hright symbol pushed _ (mem_heights_of_getElem? t.wordSize hi)

theorem stackHeight_append (ls ms : List Line) :
    stackHeight t (ls ++ ms) ls.length = t.wordSize + growthAll t ls := by
  rw [stackHeight, List.take_left]

theorem stackHeight_succ {i : Nat} {l : Line} (hl : block[i]? = some l) :
    stackHeight t block (i + 1) = stackHeight t block i + l.growth t := by
  rw [stackHeight, stackHeight, List.take_add_one, hl, growthAll_append]
  simp [Int.add_assoc]

/-- A label that is written once stands in one place. -/
theorem index_label_unique (h : (writtenLabels block).Nodup) {l : Label} :
    ∀ {i j : Nat}, block[i]? = some (.label l) → block[j]? = some (.label l) → i = j := by
  induction block with
  | nil => intro i j hi; simp at hi
  | cons m block ih =>
    have hmem {i : Nat} (hi : block[i]? = some (.label l)) : l ∈ writtenLabels block :=
      List.mem_filterMap.2 ⟨_, List.mem_of_getElem? hi, rfl⟩
    rw [writtenLabels_cons] at h
    intro i j hi hj
    cases i with
    | zero =>
      cases j with
      | zero => rfl
      | succ j =>
        cases hi
        exact absurd (hmem hj) (List.nodup_cons.1 h).1
    | succ i =>
      cases j with
      | zero =>
        cases hj
        exact absurd (hmem hi) (List.nodup_cons.1 h).1
      | succ j => rw [ih (List.nodup_append.1 h).2.1 hi hj]

theorem growth_of_jump? {l : Line} {target : Label} (h : l.jump? = some target) :
    l.growth t = 0 := by
  cases l with
  | instr i => cases i <;> first | rfl | cases h
  | _ => cases h

/-- Where jumps keep the height, it does not depend on the path. -/
theorem Arrives.height_eq (hjumps : ∀ i j l target, block[i]? = some l →
      l.jump? = some target → block[j]? = some (.label target) →
      stackHeight t block i = stackHeight t block j) {i : Nat} {h : Int}
    (harrives : Arrives t block i h) : h = stackHeight t block i := by
  induction harrives with
  | entry => simp [stackHeight]
  | @step i j h l _ hl hflows ih =>
    cases hflows with
    | next _ _ => rw [stackHeight_succ hl, ih]
    | jump hl' htarget hj =>
      rw [hl] at hl'
      cases hl'
      rw [growth_of_jump? htarget, Int.add_zero, ih]
      exact hjumps i j l _ hl htarget hj

end

/-! ## Functions -/

section

variable {t : Target} {out : Label → Int → Prop} {frameBytes : Int}

/-- A prologue goes from the height of the return address to that of the body. -/
theorem Target.runs_prologue (symbol : String) (hpos : 0 ≤ frameBytes)
    (hlt : frameBytes < wordBound) :
    Runs t out t.wordSize (t.prologue symbol frameBytes) (t.entryBytes frameBytes) := by
  have hwrap : wrap frameBytes = frameBytes := wrap_of_mem_range (by unfold wordBound; omega) hlt
  have hframe : Runs t out (2 * t.wordSize)
      (if 0 < wrap frameBytes then [.instr (.sub (.imm frameBytes) t.sp)] else [])
      (2 * t.wordSize + frameBytes) := by
    rw [hwrap]
    split
    · have hsub : Runs t out (2 * t.wordSize) [.instr (.sub (.imm frameBytes) t.sp)] _ :=
        Runs.instr rfl
      simpa [Line.growth, hwrap] using hsub
    · have hzero : frameBytes = 0 := by omega
      simpa [hzero] using Runs.nil
  have hstart : Runs t out t.wordSize [.directive ".globl" [symbol], .label (.symbol symbol),
      .instr (.push t.bp), .instr (.mov t.sp t.bp)] (2 * t.wordSize) := by
    have hpush : Runs t out t.wordSize [.instr (.push t.bp)] _ := Runs.instr rfl
    have hmov : Runs t out (2 * t.wordSize) [.instr (.mov t.sp t.bp)] _ := Runs.instr rfl
    simp only [Line.growth, Int.add_zero, ← Int.two_mul] at hpush hmov
    exact (Runs.directive ..).append ((Runs.label _).append (hpush.append hmov))
  exact (hstart.append hframe).append (runs_pushes Operand.reg t.calleeSaved _)

theorem Target.callsRight_prologue (symbol : String) (frameBytes h : Int) :
    CallsRight t h (t.prologue symbol frameBytes) :=
  callsRight_of_no_call fun _ _ => by unfold Target.prologue; split <;> simp

theorem Target.callsRight_epilogue (h : Int) : CallsRight t h t.epilogue :=
  callsRight_of_no_call fun _ _ => by simp [Target.epilogue]

theorem Target.runs_epilogue (h : Int) : ∃ h', Runs t out h t.epilogue h' := by
  have hpops : Runs t out h _ _ := runs_pops Operand.reg t.calleeSaved.reverse h
  exact ⟨_, hpops.append ((Runs.instr rfl).append ((Runs.instr rfl).append (Runs.instr rfl)))⟩

end

/-- The text of a function keeps the discipline of the stack, from the return address on. -/
theorem Function.runs_code (hs : s.Regular) {f : Function} {b : Body} (hb : f.body = some b)
    (hpos : 0 ≤ f.frameBytes) (hlt : f.frameBytes < wordBound) {entry : Int}
    (hentry : s.target.entryBytes f.frameBytes = entry)
    (hin : InStep (Stmt.sizeAll b.stmts) entry entry) {n n' : Nat}
    (hrun : Emits (f.code s) n () block n') :
    ∃ body exit, block = s.target.prologue (s.symbolStart ++ f.name) f.frameBytes ++ body ++
        .label exit :: s.target.epilogue ∧
      growthAll s.target body = 0 ∧
      (CallsRight s.target s.target.wordSize block ↔ s.RoundsUp (f.rounded s)) ∧
      ∃ h', Runs s.target (fun _ _ => False) s.target.wordSize block h' := by
  obtain ⟨exit, loop, body, m, m', hbody, rfl⟩ := Function.emits_code hb hrun
  rw [hentry] at hbody
  -- no loop is open where the body starts, so that it jumps to no label but its exit
  let out : Label → Int → Prop := fun l k => (l = exit ∧ k = entry) ∨ False
  have hhands : Hands s.target out [] entry _ none _ :=
    Stmt.hands_codeAll hs b.stmts hin (.inl ⟨rfl, rfl⟩) none
  obtain ⟨hgrows, hruns⟩ := hhands m loop body m' hbody
  obtain ⟨hmid, hcalls, -⟩ := hruns (by simp [hgrows.none rfl, LoopLabels.held])
  have hprologue : Runs s.target out s.target.wordSize
      (s.target.prologue (s.symbolStart ++ f.name) f.frameBytes) entry :=
    hentry ▸ Target.runs_prologue _ hpos hlt
  obtain ⟨h', hepilogue⟩ := Target.runs_epilogue (t := s.target) entry
  have hstart := hprologue.append hmid
  refine ⟨body, exit, rfl, by have := hmid.height; omega, ?_, h', ?_⟩
  · have hlabel : CallsRight s.target entry [.label exit] := callsRight_of_no_call (by simp)
    rw [← List.singleton_append, callsRight_append, callsRight_append, callsRight_append,
      ← hstart.height, ← hprologue.height, hcalls, Function.rounded, hb, Option.elim_some, hentry]
    exact ⟨fun hall => hall.1.2, fun hup => ⟨⟨Target.callsRight_prologue _ _ _, hup⟩, hlabel,
      Target.callsRight_epilogue _⟩⟩
  refine (hstart.append ((Runs.label exit).append hepilogue)).bindLabels ?_
  rintro l k ⟨rfl, rfl⟩
  rw [heights_append, ← hstart.height]
  exact List.mem_append_right _ (by simp [heights])

theorem growthAll_pushes {t : Target} (rs : List String) :
    growthAll t (rs.map fun r => .instr (.push (.reg r))) = rs.length * t.wordSize := by
  have hruns : Runs t (fun _ _ => False) 0 _ _ := runs_pushes Operand.reg rs 0
  have hheight := hruns.height
  omega

theorem growthAll_pops {t : Target} (rs : List String) :
    growthAll t (rs.map fun r => .instr (.pop (.reg r))) = -(rs.length * t.wordSize) := by
  have hruns : Runs t (fun _ _ => False) 0 _ _ := runs_pops Operand.reg rs 0
  have hheight := hruns.height
  omega

/-- A register that a prologue pushes is popped by the epilogue at the same height, if the lines
    between them keep the height. -/
theorem Target.restores_of_growth {t : Target} {symbol : String} {body : List Line} {exit : Label}
    (hbody : growthAll t body = 0) {r : String} (hr : r ∈ t.calleeSaved)
    (hblock : block = t.prologue symbol frameBytes ++ body ++ .label exit :: t.epilogue) :
    ∃ i j, i < (t.prologue symbol frameBytes).length ∧ block.length ≤ j + t.epilogue.length ∧
      block[i]? = some (.instr (.push (.reg r))) ∧ block[j]? = some (.instr (.pop (.reg r))) ∧
      stackHeight t block j = stackHeight t block (i + 1) := by
  obtain ⟨before, after, hsaved⟩ := List.append_of_mem hr
  obtain ⟨start, hprologue⟩ : ∃ start, t.prologue symbol frameBytes =
      start ++ .instr (.push (.reg r)) :: after.map fun r => .instr (.push (.reg r)) := by
    rw [Target.prologue, hsaved, List.map_append, List.map_cons, ← List.append_assoc]
    exact ⟨_, rfl⟩
  obtain ⟨rest, hepilogue⟩ : ∃ rest, t.epilogue =
      (after.reverse.map fun r => .instr (.pop (.reg r))) ++ .instr (.pop (.reg r)) :: rest := by
    rw [Target.epilogue, hsaved, List.reverse_append, List.reverse_cons, List.map_append,
      List.map_append, List.append_assoc, List.append_assoc]
    exact ⟨_, rfl⟩
  have hpush : block = start ++ .instr (.push (.reg r)) ::
      ((after.map fun r => .instr (.push (.reg r))) ++ body ++ .label exit :: t.epilogue) := by
    simp [hblock, hprologue]
  have hpop : block = (t.prologue symbol frameBytes ++ body ++ [.label exit] ++
      after.reverse.map fun r => .instr (.pop (.reg r))) ++ .instr (.pop (.reg r)) :: rest := by
    simp [hblock, hepilogue]
  have hpushed : block[start.length]? = some (.instr (.push (.reg r))) := by simp [hpush]
  refine ⟨start.length, (t.prologue symbol frameBytes ++ body ++ [Line.label exit] ++
    after.reverse.map fun r => Line.instr (.pop (.reg r))).length, ?_, ?_, hpushed, ?_, ?_⟩
  · simp [hprologue]
  · simp only [hblock, List.length_append, List.length_cons, List.length_nil]
    omega
  · rw [hpop]
    simp
  · rw [stackHeight_succ hpushed]
    nth_rewrite 1 [hpop]
    rw [hpush, stackHeight_append, stackHeight_append]
    simp only [growthAll_append, growthAll_cons, growthAll_pushes, growthAll_pops, growthAll_nil,
      hprologue, hbody, Line.growth, List.length_reverse]
    omega

/-- The text of a function keeps the discipline of the stack, and its calls find the stack aligned if
    what they round up allows it. -/
theorem Function.stackDiscipline (hs : s.Regular) {f : Function} {b : Body} (hb : f.body = some b)
    (hpos : 0 ≤ f.frameBytes) (hlt : f.frameBytes < wordBound) {entry : Int}
    (hentry : s.target.entryBytes f.frameBytes = entry)
    (hin : InStep (Stmt.sizeAll b.stmts) entry entry) {n n' : Nat}
    (hrun : Emits (f.code s) n () block n') (hlabels : (writtenLabels block).Nodup) :
    StackDiscipline s f block ∧ (CallsAligned s.target block ↔ s.RoundsUp (f.rounded s)) := by
  obtain ⟨body, exit, hblock, hbody, hcalls, h', hruns⟩ :=
    Function.runs_code hs hb hpos hlt hentry hin hrun
  have hjumps : ∀ i l target, block[i]? = some l → l.jump? = some target →
      ∃ j, (∀ j', block[j']? = some (.label target) ↔ j' = j) ∧
        stackHeight s.target block i = stackHeight s.target block j := by
    intro i l target hl htarget
    have hmem := mem_heights_of_getElem? (t := s.target) s.target.wordSize hl
    obtain hlabel | hfalse := hruns.jumps _ _ hmem target htarget
    · obtain ⟨j, hj, hheight⟩ := getElem?_of_mem_heights hlabel
      refine ⟨j, fun j' => ⟨fun hj' => index_label_unique hlabels hj' hj, ?_⟩, hheight⟩
      rintro rfl
      exact hj
    · exact hfalse.elim
  refine ⟨⟨hjumps, ?_, ⟨body, exit, hblock, ?_⟩, ?_⟩, callsAligned_iff.trans hcalls⟩
  · intro i h harrives
    refine Arrives.height_eq ?_ harrives
    intro i j l target hl htarget hj
    obtain ⟨j', hunique, hheight⟩ := hjumps i l target hl htarget
    rw [hheight, (hunique j).1 hj]
  · have hprologue : Runs s.target (fun _ _ => False) _ _ _ :=
      Target.runs_prologue (s.symbolStart ++ f.name) hpos hlt
    rw [hblock, ← List.length_append, stackHeight_append, growthAll_append, hbody, Int.add_zero]
    exact hprologue.height.symm
  · intro r hr
    exact Target.restores_of_growth hbody hr hblock

/-! ## Programs -/

theorem Settings.regular_default : ({} : Settings).Regular :=
  ⟨⟨.i386, by decide, rfl⟩, rfl, by decide⟩

theorem Settings.regular_select {system processor name : String}
    (h : (s.select system processor name).2 = none) :
    (s.select system processor name).1.Regular := by
  unfold Settings.select at h ⊢
  cases ht : Target.ofName? name with
  | none => simp [ht] at h
  | some t =>
    have hmem := Target.mem_supported_of_ofName? ht
    have halign : 1 < t.stackAlignment := by
      simp only [Target.supported, List.mem_cons, List.not_mem_nil, or_false] at hmem
      obtain rfl | rfl := hmem <;> decide
    exact ⟨⟨t, hmem, rfl⟩, rfl, halign⟩

theorem Settings.Regular.align (hs : s.Regular) {alignment : Int} (h : 1 < alignment) :
    { s with target := { s.target with stackAlignment := alignment } }.Regular := by
  obtain ⟨t, ht, heq⟩ := hs.supported
  exact ⟨⟨t, ht, by rw [heq]⟩, hs.wordSize, h⟩

theorem Settings.Regular.entryBytes_bounds (hs : s.Regular)
    (hpos : 0 ≤ frameBytes) : 0 < s.target.entryBytes frameBytes ∧
      s.target.entryBytes frameBytes ≤ frameBytes + 40 := by
  rw [Target.entryBytes, hs.length_calleeSaved]
  obtain hw | hw := hs.wordSize_cases <;> rw [hw] <;> omega

/-- A frame of one word for each part of a function leaves room for its body. -/
theorem Settings.Regular.fits_entryBytes (hs : s.Regular) {n : Nat}
    (hpos : 0 ≤ frameBytes) (hle : frameBytes ≤ n * s.target.wordSize)
    (hsize : (s.target.stackAlignment + 128) * n < wordBound) :
    frameBytes < wordBound ∧ s.Fits n (s.target.entryBytes frameBytes) := by
  have halign := hs.alignment
  have hbytes : n * s.target.wordSize ≤ 8 * n := by
    obtain hw | hw := hs.wordSize_cases <;> rw [hw] <;> omega
  have hentry := hs.entryBytes_bounds hpos
  have hunits : 0 ≤ s.target.stackAlignment * n := Int.mul_nonneg (by omega) (by omega)
  rw [Int.add_mul] at hsize
  refine ⟨by omega, by omega, ?_⟩
  rw [Int.add_mul]
  obtain rfl | hn := Nat.eq_zero_or_pos n
  · unfold wordBound
    omega
  · omega

/-- Such a frame is counted right, whatever the alignment is. -/
theorem Settings.Regular.inStep_entryBytes (hs : s.Regular) {n : Nat}
    (hpos : 0 ≤ frameBytes) (hle : frameBytes ≤ n * s.target.wordSize) (hsize : 64 * n < wordBound) :
    frameBytes < wordBound ∧
      InStep n (s.target.entryBytes frameBytes) (s.target.entryBytes frameBytes) := by
  have hbytes : n * s.target.wordSize ≤ 8 * n := by
    obtain hw | hw := hs.wordSize_cases <;> rw [hw] <;> omega
  have hentry := hs.entryBytes_bounds hpos
  unfold InStep
  unfold wordBound at hsize ⊢
  omega

/-- A checked function of bounded size. -/
theorem Function.Elab.stackDiscipline (hs : s.Regular) {c : TypingContext}
    (hc : c.settings = s) {f f' : Function} (h : Function.Elab c f f')
    (hdef : f'.isPrototype = false) (hsize : 64 * f.size < wordBound) {n n' : Nat}
    (hrun : Emits (f'.code s) n () block n') (hlabels : (writtenLabels block).Nodup) :
    StackDiscipline s f' block ∧ (CallsAligned s.target block ↔ s.RoundsUp (f'.rounded s)) := by
  have hword := hs.wordSize_cases
  have hframe := h.frameBytes_le hdef (by omega) (by rw [hc, hs.wordSize]; omega)
  rw [hc, hs.wordSize] at hframe
  obtain ⟨hlt, hin⟩ := hs.inStep_entryBytes hframe.1 hframe.2 hsize
  cases h with
  | prototype hproto => simp [hdef] at hproto
  | @definition b params env env' reports stmts fr returns _ hbody _ hall =>
    have hstmts : Stmt.sizeAll stmts ≤ f.size := by
      rw [hall.size_eq, Function.size, hbody]
      exact Nat.le_add_left ..
    exact Function.stackDiscipline hs rfl hframe.1 hlt rfl (hin.le hstmts) hrun hlabels

theorem Program.size_le_of_parse {allows : Feature → Bool} {tokens : List Token}
    (htokens : EndsOnce tokens) {p : Program} (h : Program.parse allows tokens = .ok p) :
    ∀ f ∈ p, f.size ≤ tokens.length := by
  obtain ⟨ts, last, rfl, hlast, hts⟩ := htokens
  intro f hf
  have hle := (Program.spelled_of_parse hlast hts h).2.size_le f hf
  rw [List.length_append]
  omega

/-- In the assembly of an accepted program, the text of every function keeps the discipline of the
    stack, and its calls find the stack aligned exactly if what they round up stays signed words. The
    bound on the number of tokens keeps frames and spills signed words; the alignment is not in it. -/
theorem Compilation.run_stackDiscipline {s : Settings} (hs : s.Regular) {allows : Feature → Bool}
    {read : String → Except FileError Content} {paths : List String} {files : List SourceFile}
    {tokens : List Token} (hgather : s.gather read 0 paths = .ok (files, tokens)) {p : Program}
    (hparse : Program.parse allows tokens = .ok p) (haccepted : (p.check s).accepted = true)
    (hsize : 64 * tokens.length < wordBound) :
    ∃ lines blocks, Compilation.run s allows tokens =
        .lowered p (p.check s).reports (.ok lines) ∧
      lines = s.header ++ blocks.flatten ++ s.footer ∧ (writtenLabels lines).Nodup ∧
      List.Forall₂ (fun f block => StackDiscipline s f block ∧
        (CallsAligned s.target block ↔ s.RoundsUp (f.rounded s)))
        (p.check s).program.definitions blocks := by
  have htokens := Settings.endsOnce_gather hgather
  obtain ⟨-, lines, blocks, hrun, hframed, -, hlabels, hblocks⟩ :=
    Compilation.run_eq_blocks hs.registers_ne_nil htokens hparse haccepted
  refine ⟨lines, blocks, hrun, hframed, hlabels, hblocks.imp ?_⟩
  rintro f' block ⟨hdef, ⟨f, hf, helaborated⟩, hnodup, m, m', hemits⟩
  have hle := Program.size_le_of_parse htokens hparse f hf
  exact helaborated.stackDiscipline hs rfl hdef (by omega) hemits hnodup

/-- Settings for `amd64` with a large alignment that is no power of two. -/
def Settings.oddlyAligned : Settings :=
  let s := (({} : Settings).select "linux" "amd64" "amd64").1
  { s with target := { s.target with stackAlignment := 1000000000000000000 } }

/-- Calls in the operands and in the arguments of calls, in a loop with a jump out of it. -/
def nestedSource : Content := Text.encodeUtf8 ("int f(int &n, int k) \x7b while (k > 0) \x7b " ++
  "if (k == 3 || n < k) break; n = n + f(k + 1, f(n, n)) / (2 - f(n, 0)); k = k - 1; \x7d return n; \x7d")

theorem Compilation.run_stackDiscipline_nestedSource : ∃ files tokens p f block,
    Settings.oddlyAligned.gather (fun _ => .ok nestedSource) 0 ["f"] = .ok (files, tokens) ∧
    (p.check Settings.oddlyAligned).program.definitions = [f] ∧
    Compilation.run Settings.oddlyAligned (fun _ => true) tokens =
      .lowered p (p.check Settings.oddlyAligned).reports
        (.ok (Settings.oddlyAligned.header ++ block ++ Settings.oddlyAligned.footer)) ∧
    StackDiscipline Settings.oddlyAligned f block ∧ CallsAligned Settings.oddlyAligned.target block := by
  have hregular : Settings.oddlyAligned.Regular := (Settings.regular_select rfl).align (by decide)
  obtain ⟨⟨files, tokens⟩, hgather, heval⟩ := exists_of_any
    (x := Settings.oddlyAligned.gather (fun _ => .ok nestedSource) 0 ["f"])
    (b := fun r => (Program.parse (fun _ => true) r.2).toOption.any fun p =>
      (p.check Settings.oddlyAligned).accepted &&
      (p.check Settings.oddlyAligned).program.definitions.length == 1 && r.2.length < 100 &&
      (p.check Settings.oddlyAligned).program.definitions.all fun f =>
        Settings.oddlyAligned.RoundsUp (f.rounded Settings.oddlyAligned)) (by decide +kernel)
  obtain ⟨p, hparse, heval⟩ := exists_of_any heval
  simp only [Bool.and_eq_true, beq_iff_eq, decide_eq_true_eq, List.all_eq_true] at heval
  obtain ⟨⟨⟨haccepted, hlength⟩, htokens⟩, hup⟩ := heval
  obtain ⟨f, hf⟩ := List.length_eq_one_iff.1 hlength
  obtain ⟨lines, blocks, hrun, rfl, -, hblocks⟩ := Compilation.run_stackDiscipline hregular
    hgather hparse haccepted (by unfold wordBound; omega)
  rw [hf] at hblocks hup
  obtain _ | ⟨⟨hdiscipline, haligned⟩, hnil⟩ := hblocks
  cases hnil
  rw [List.flatten_singleton] at hrun
  exact ⟨files, tokens, p, f, _, hgather, hf, hrun, hdiscipline, haligned.2 (hup f (by simp))⟩

/-- Settings with the largest alignment that is a signed word. -/
def Settings.widelyAligned : Settings where
  target := { Target.i386 with stackAlignment := wordBound - 1 }

/-- A function that calls itself. -/
def recursiveSource : Content := Text.encodeUtf8 "void f() \x7b f(); \x7d"

/-- The text of that function. No bytes are subtracted before the call. -/
def recursiveBlock : List Line :=
  [.directive ".globl" ["f"], .label (.symbol "f"), .instr (.push (.reg "%ebp")),
    .instr (.mov (.reg "%esp") (.reg "%ebp")), .instr (.push (.reg "%ebx")),
    .instr (.push (.reg "%esi")), .instr (.push (.reg "%edi")), .instr (.call "f" 0),
    .label (.fresh 1), .instr (.pop (.reg "%edi")), .instr (.pop (.reg "%esi")),
    .instr (.pop (.reg "%ebx")), .instr (.mov (.reg "%ebp") (.reg "%esp")),
    .instr (.pop (.reg "%ebp")), .instr .ret]

/-- Rounding up to a multiple of a large alignment leaves the signed words, and a call finds the stack
    unaligned. -/
theorem Compilation.run_widelyAligned : Settings.widelyAligned.Regular ∧
    ∃ files tokens p,
      Settings.widelyAligned.gather (fun _ => .ok recursiveSource) 0 ["f"] = .ok (files, tokens) ∧
      Program.parse (fun _ => true) tokens = .ok p ∧
      (p.check Settings.widelyAligned).accepted = true ∧
      Compilation.run Settings.widelyAligned (fun _ => true) tokens =
        .lowered p (p.check Settings.widelyAligned).reports
          (.ok (Settings.widelyAligned.header ++ recursiveBlock ++ Settings.widelyAligned.footer)) ∧
      ¬ CallsAligned Settings.widelyAligned.target recursiveBlock := by
  refine ⟨Settings.regular_default.align (by decide), ?_⟩
  obtain ⟨⟨files, tokens⟩, hgather, heval⟩ := exists_of_any
    (x := Settings.widelyAligned.gather (fun _ => .ok recursiveSource) 0 ["f"])
    (b := fun r => (Program.parse (fun _ => true) r.2).toOption.any fun p =>
      (p.check Settings.widelyAligned).accepted && (p.check Settings.widelyAligned).fault.isNone &&
      ((p.check Settings.widelyAligned).program.assembly Settings.widelyAligned).toOption.any (· ==
        Settings.widelyAligned.header ++ recursiveBlock ++ Settings.widelyAligned.footer))
    (by decide +kernel)
  obtain ⟨p, hparse, heval⟩ := exists_of_any heval
  simp only [Bool.and_eq_true, Option.isNone_iff_eq_none] at heval
  obtain ⟨⟨haccepted, hfault⟩, hassembly⟩ := heval
  obtain ⟨lines, hlines, heq⟩ := exists_of_any hassembly
  rw [beq_iff_eq] at heq
  subst heq
  refine ⟨files, tokens, p, hgather, hparse, haccepted, ?_, ?_⟩
  · simp [Compilation.run, hparse, hfault, haccepted, hlines]
  · intro haligned
    exact absurd (haligned 7 "f" 0 rfl).1 (by decide)

end MiniCompiler
