import Mathlib.Data.List.Basic
import MiniCompiler.Proofs.CodeTotal
import MiniCompiler.Proofs.Declarations
import MiniCompiler.Proofs.Labels
import MiniCompiler.Proofs.Lexemes
import MiniCompiler.Proofs.ReadPrefix
import MiniCompiler.Proofs.StackLevel

/-!
# Labels and jumps of a program

Each label of a program is written once, and jumps stay in the text of their function. `Stmt.Text`
says how the text of a statement is put together: `break` and `continue` jump to the labels of the
innermost loop, which stand behind its test and behind its body. The code takes these labels on the
way, when it first needs them; the text has them from the start, as a parameter.
-/

namespace MiniCompiler

open Emit

variable {s : Settings} {p : Program}

/-! ## What is meant -/

/-- The two ways to jump out of the body of a loop. -/
inductive LoopJump where
  | continueLoop
  | breakLoop
  deriving DecidableEq

/-- The label that a loop has for one of its jumps. -/
def LoopLabels.label (labels : LoopLabels) : LoopJump → Option Label
  | .continueLoop => labels.continueLabel
  | .breakLoop => labels.breakLabel

mutual

/-- Is there such a jump for the loop around a statement? Loops in it have their own. -/
def Stmt.hasJump (k : LoopJump) : Stmt → Bool
  | .block _ stmts => Stmt.hasJumpAny k stmts
  | .cond _ _ yes no => yes.hasJump k || no.hasJump k
  | .forLoop _ init _ _ _ => init.hasJump k
  | .breakLoop _ => k = .breakLoop
  | .continueLoop _ => k = .continueLoop
  | _ => false

def Stmt.hasJumpAny (k : LoopJump) : List Stmt → Bool
  | [] => false
  | st :: stmts => st.hasJump k || Stmt.hasJumpAny k stmts

end

/-- Lines that a step writes. -/
def Emit.Writes {α : Type} (x : Emit α) (ls : List Line) : Prop := ∃ n a n', Emits x n a ls n'

/-- The lines of the step of a loop. -/
def StepText (s : Settings) (pushed : Int) (step : Expr) (ls : List Line) : Prop :=
  if step.isAbsent then ls = [] else ((step.code s).value pushed 0).Writes ls

/-- The lines of the test of a loop, which go back to its start. -/
def TestText (s : Settings) (pushed : Int) (start : Label) (test : Expr) (ls : List Line) : Prop :=
  if test.isAbsent then ls = [.instr (.jump start)]
  else ((test.code s).branch start true pushed 0).Writes ls

/-- The line of a label, if there is one. -/
def labelLines (l : Option Label) : List Line := l.toList.map Line.label

/-- The lines of a loop. Its label for `continue` is directly behind the body, its label for `break`
    directly behind the test. -/
def loopLines (labels : LoopLabels) (start check : Label) (body step test : List Line) :
    List Line :=
  [.instr (.jump check), .label start] ++ body ++ labelLines labels.continueLabel ++ step ++
    [.label check] ++ test ++ labelLines labels.breakLabel

/-- The lines of a statement in a function whose last part has the label `exit`. The parameter before
    the statement is the innermost loop around it. -/
inductive Stmt.Text (s : Settings) (exit : Label) (pushed : Int) :
    Option LoopLabels → Stmt → List Line → Prop where
  /-- The first part of a `for` header may be left out. -/
  | absent {loop : Option LoopLabels} : Text s exit pushed loop .absent []
  | block {loop : Option LoopLabels} {p : Pos} {items : List (Stmt × List Line)} :
    (∀ i ∈ items, Text s exit pushed loop i.1 i.2) →
    Text s exit pushed loop (.block p (items.map Prod.fst)) (items.flatMap Prod.snd)
  | empty {loop : Option LoopLabels} {p : Pos} : Text s exit pushed loop (.empty p) []
  | expr {loop : Option LoopLabels} {p : Pos} {e : Expr} {ls : List Line} :
    ((e.code s).value pushed 0).Writes ls → Text s exit pushed loop (.expr p e) ls
  | locals {loop : Option LoopLabels} {p : Pos} {type : Ty} {vars : List Local} {ls : List Line} :
    (localsCode s pushed vars).Writes ls → Text s exit pushed loop (.locals p type vars) ls
  | cond {loop : Option LoopLabels} {p : Pos} {test : Expr} {yes : Stmt} {done : Label}
      {ls ms : List Line} :
    ((test.code s).branch done false pushed 0).Writes ls → Text s exit pushed loop yes ms →
    Text s exit pushed loop (.cond p test yes .absent) (ls ++ ms ++ [.label done])
  | condElse {loop : Option LoopLabels} {p : Pos} {test : Expr} {yes no : Stmt}
      {done otherwise : Label} {ls ms ns : List Line} :
    no ≠ .absent → ((test.code s).branch otherwise false pushed 0).Writes ls →
    Text s exit pushed loop yes ms → Text s exit pushed loop no ns →
    Text s exit pushed loop (.cond p test yes no)
      (ls ++ ms ++ [.instr (.jump done), .label otherwise] ++ ns ++ [.label done])
  | whileLoop {loop : Option LoopLabels} {inner : LoopLabels} {p : Pos} {test : Expr} {body : Stmt}
      {start check : Label} {ls ms : List Line} :
    Text s exit pushed (some inner) body ls → (∀ k, (inner.label k).isSome = body.hasJump k) →
    TestText s pushed start test ms →
    Text s exit pushed loop (.whileLoop p test body) (loopLines inner start check ls [] ms)
  | forLoop {loop : Option LoopLabels} {inner : LoopLabels} {p : Pos} {init : Stmt}
      {test step : Expr} {body : Stmt} {start check : Label} {ks ls ms ns : List Line} :
    Text s exit pushed loop init ks → Text s exit pushed (some inner) body ls →
    (∀ k, (inner.label k).isSome = body.hasJump k) → StepText s pushed step ms →
    TestText s pushed start test ns →
    Text s exit pushed loop (.forLoop p init test step body)
      (ks ++ loopLines inner start check ls ms ns)
  | breakLoop {labels : LoopLabels} {p : Pos} {l : Label} :
    labels.breakLabel = some l →
    Text s exit pushed (some labels) (.breakLoop p) [.instr (.jump l)]
  | continueLoop {labels : LoopLabels} {p : Pos} {l : Label} :
    labels.continueLabel = some l →
    Text s exit pushed (some labels) (.continueLoop p) [.instr (.jump l)]
  | ret {loop : Option LoopLabels} {p : Pos} {e : Expr} {ls : List Line} :
    StepText s pushed e ls → Text s exit pushed loop (.ret p e) (ls ++ [.instr (.jump exit)])

/-- The labels in the text of a function. -/
structure LabelDiscipline (s : Settings) (f : Function) (block : List Line) : Prop where
  /-- Jumps go to labels of the function. -/
  jumps : ∀ l ∈ block, ∀ target ∈ l.jump?, target ∈ writtenLabels block
  /-- Between prologue and epilogue, the body stands in its text, outside of all loops. -/
  text : ∃ b exit body, f.body = some b ∧
    block = s.target.prologue (s.symbolStart ++ f.name) f.frameBytes ++ body ++
      .label exit :: s.target.epilogue ∧
    Stmt.Text s exit (s.target.entryBytes f.frameBytes) none (.block b.pos b.stmts) body

/-! ## Jumps in a text -/

section

variable {s : Settings} {exit : Label} {pushed : Int} {out : List Label} {ls : List Line}
  {loop : Option LoopLabels}

theorem Emit.Tidy.jumpsWithin {α : Type} {x : Emit α} {own : List Label} (hx : Tidy out own x)
    (h : x.Writes ls) : JumpsWithin out ls := by
  obtain ⟨n, a, n', hrun⟩ := h
  exact (hx n a ls n' hrun).2.1

theorem JumpsWithin.label (l : Label) : JumpsWithin out [.label l] :=
  .still (by simp [Line.jump?])

theorem StepText.jumpsWithin {step : Expr} (h : StepText s pushed step ls) :
    JumpsWithin out ls := by
  unfold StepText at h
  split at h
  · rw [h]
    exact .nil
  · exact ((step.tidy_code s).value _ _ _).jumpsWithin h

theorem TestText.jumpsWithin {start : Label} {test : Expr} (h : TestText s pushed start test ls)
    (hstart : start ∈ out) : JumpsWithin out ls := by
  unfold TestText at h
  split at h
  · rw [h]
    exact .jump rfl hstart
  · exact ((test.tidy_code s).branch _ _ _ _ _ hstart).jumpsWithin h

theorem writtenLabels_labelLines (l : Option Label) : writtenLabels (labelLines l) = l.toList := by
  cases l <;> rfl

/-- A loop writes the labels that its body and its test jump to. -/
theorem jumpsWithin_loopLines {labels : LoopLabels} {start check : Label}
    {body step test : List Line} (hbody : JumpsWithin (LoopLabels.held (some labels) ++ out) body)
    (hstep : JumpsWithin out step) (htest : JumpsWithin (start :: out) test) :
    JumpsWithin out (loopLines labels start check body step test) := by
  -- all parts jump within the labels of the loop and `out`; the loop writes the former itself
  let all := LoopLabels.held (some labels) ++ start :: check :: out
  have hlabels (l : Option Label) : JumpsWithin all (labelLines l) :=
    .still (by simp [labelLines, Line.jump?])
  have hfirst : JumpsWithin all [.instr (.jump check), .label start] :=
    .append (.jump (l := .instr (.jump check)) rfl (by simp [all])) (.label start)
  have hbody : JumpsWithin all body := hbody.mono fun l hl => .inr (by
    simp only [all, List.mem_append, List.mem_cons] at hl ⊢
    tauto)
  have hstep : JumpsWithin all step := hstep.mono fun l hl => .inr (by simp [all, hl])
  have htest : JumpsWithin all test := htest.mono fun l hl => .inr (by
    simp only [all, List.mem_append, List.mem_cons] at hl ⊢
    tauto)
  have hlines : JumpsWithin all (loopLines labels start check body step test) :=
    (((((hfirst.append hbody).append (hlabels _)).append hstep).append (.label check)).append
      htest).append (hlabels _)
  refine hlines.mono fun l hl => ?_
  simp only [loopLines, writtenLabels_append, writtenLabels_labelLines, all, LoopLabels.held,
    writtenLabels_cons, Line.label?, List.mem_append, List.mem_cons] at hl ⊢
  simp only [Option.toList_none, Option.toList_some, List.not_mem_nil, List.mem_singleton] at *
  tauto

/-- Jumps in the text of a statement go to its own labels, to those of the loop around it and to the
    exit of the function. -/
theorem Stmt.Text.jumpsWithin {st : Stmt}
    (h : Stmt.Text s exit pushed loop st ls) : JumpsWithin (LoopLabels.held loop ++ [exit]) ls := by
  -- on the text; what a jump goes to beyond the statement only grows on the way out
  induction h with
  | absent | empty => exact .nil
  | block _ ih => exact .flatMap ih
  | @expr loop p e ls hls => exact ((e.tidy_code s).value _ _ _).jumpsWithin hls
  | locals hls => exact (tidy_localsCode s _ _ _).jumpsWithin hls
  | @cond loop p test yes done ls ms hls _ ih =>
    have htest := ((test.tidy_code s).branch [done] _ _ _ _ List.mem_cons_self).jumpsWithin hls
    have hall : JumpsWithin (done :: (LoopLabels.held loop ++ [exit])) (ls ++ ms ++ [.label done]) :=
      ((htest.mono (by simp)).append (ih.mono fun l hl => .inr (List.mem_cons_of_mem _ hl))).append
        (.label done)
    refine hall.mono fun l hl => ?_
    obtain rfl | hl := List.mem_cons.1 hl
    · exact .inl (by simp [writtenLabels_cons, Line.label?])
    · exact .inr hl
  | @condElse loop p test yes no done otherwise ls ms ns _ hls _ _ ihYes ihNo =>
    have htest :=
      ((test.tidy_code s).branch [otherwise] _ _ _ _ List.mem_cons_self).jumpsWithin hls
    let all := done :: otherwise :: (LoopLabels.held loop ++ [exit])
    have hmore : ∀ l ∈ LoopLabels.held loop ++ [exit], l ∈ all := fun l hl =>
      List.mem_cons_of_mem _ (List.mem_cons_of_mem _ hl)
    have hjump : JumpsWithin all [.instr (.jump done), .label otherwise] :=
      .append (.jump (l := .instr (.jump done)) rfl (by simp [all])) (.label otherwise)
    have hall : JumpsWithin all
        (ls ++ ms ++ [.instr (.jump done), .label otherwise] ++ ns ++ [.label done]) :=
      ((((htest.mono (by simp [all])).append (ihYes.mono fun l hl => .inr (hmore l hl))).append
        hjump).append (ihNo.mono fun l hl => .inr (hmore l hl))).append (.label done)
    refine hall.mono fun l hl => ?_
    simp only [all, List.mem_cons] at hl
    obtain rfl | rfl | hl := hl
    · exact .inl (by simp [writtenLabels_cons, Line.label?])
    · exact .inl (by simp [writtenLabels_cons, Line.label?])
    · exact .inr hl
  | @whileLoop loop inner _ _ _ start _ _ _ _ _ htest ih =>
    refine jumpsWithin_loopLines (ih.mono ?_) .nil (htest.jumpsWithin List.mem_cons_self)
    intro l hl
    simp only [List.mem_append] at hl ⊢
    tauto
  | @forLoop loop inner _ _ _ _ _ _ _ _ _ _ _ _ _ _ hstep htest ihInit ih =>
    refine ihInit.append
      (jumpsWithin_loopLines (ih.mono ?_) hstep.jumpsWithin (htest.jumpsWithin List.mem_cons_self))
    intro l hl
    simp only [List.mem_append] at hl ⊢
    tauto
  | breakLoop hl => exact .jump rfl (by simp [LoopLabels.held, hl])
  | continueLoop hl => exact .jump rfl (by simp [LoopLabels.held, hl])
  | ret hls => exact hls.jumpsWithin.append (.jump rfl (by simp))

end

/-! ## Text of the code -/

/-- Has a loop taken its label for a jump? -/
def LoopLabels.taken (loop : Option LoopLabels) (k : LoopJump) : Bool :=
  ((loop.getD {}).label k).isSome

/-- What the code of a statement makes of the labels of the loop around it. The lines are its text
    for the labels that the loop has in the end, which may be more than those it has so far. -/
structure Stmt.Spells (s : Settings) (exit : Label) (pushed : Int) (loop loop' : Option LoopLabels)
    (st : Stmt) (ls : List Line) : Prop where
  grows : LoopLabels.Grows loop loop'
  isSome : loop'.isSome = loop.isSome
  taken : ∀ k, LoopLabels.taken loop' k = (LoopLabels.taken loop k || st.hasJump k)
  text : ∀ final : Option LoopLabels, LoopLabels.Grows loop' final →
    Stmt.Text s exit pushed final st ls

section

variable {s : Settings} {exit : Label} {pushed : Int} {n n' : Nat} {ls : List Line}
  {allows : Feature → Bool} {tokens : List Token}

theorem Stmt.Spells.same {st : Stmt} (hjump : ∀ k, st.hasJump k = false)
    (htext : ∀ final : Option LoopLabels, Stmt.Text s exit pushed final st ls) :
    Stmt.Spells s exit pushed loop loop st ls :=
  ⟨.refl loop, rfl, fun k => by rw [hjump, Bool.or_false], fun final _ => htext final⟩

theorem emits_labelIfTaken {l : Option Label} {u : Unit}
    (h : Emits (labelIfTaken l) n u ls n') : ls = labelLines l := by
  cases l with
  | none => exact (emits_pure.1 h).2.1
  | some l => exact (emits_label.1 h).1

theorem emits_unlessAbsent {α : Type} {e : Expr} {x : Emit α} {a : α}
    (h : Emits (if !e.isAbsent then (e.code s).value pushed 0 >>= fun _ => x else x) n a ls n') :
    ∃ ms ns m, StepText s pushed e ms ∧ Emits x m a ns n' ∧ ls = ms ++ ns := by
  cases habs : e.isAbsent with
  | true =>
    rw [habs] at h
    exact ⟨[], ls, n, by rw [StepText, habs]; rfl, h, rfl⟩
  | false =>
    rw [habs] at h
    obtain ⟨u, ms, m, ns, hms, hns, rfl⟩ := emits_bind.1 h
    exact ⟨ms, ns, m, by rw [StepText, habs]; exact ⟨n, u, m, hms⟩, hns, rfl⟩

/-- The lines of a loop, for the labels that its body has taken. -/
theorem emits_loopCode {test step : Expr} {body : Option LoopLabels → Emit (Option LoopLabels)}
    {u : Unit} (h : Emits (loopCode s test step pushed body) n u ls n') :
    ∃ start check loop bodyLines stepLines testLines m m',
      Emits (body (some {})) m loop bodyLines m' ∧ StepText s pushed step stepLines ∧
      TestText s pushed start test testLines ∧
      ls = loopLines (loop.getD {}) start check bodyLines stepLines testLines := by
  have h₁ := emits_newLabel_bind.1 (emits_newLabel_bind.1 h)
  obtain ⟨_, h₂, rfl⟩ := emits_instr_bind.1 h₁
  obtain ⟨_, h₃, rfl⟩ := emits_label_bind.1 h₂
  obtain ⟨loop, bodyLines, m', _, hbody, h₄, rfl⟩ := emits_bind.1 h₃
  obtain ⟨_, ks, m₁, _, hcontinue, h₅, rfl⟩ := emits_bind.1 h₄
  obtain rfl := emits_labelIfTaken hcontinue
  obtain ⟨stepLines, _, m₂, hstep, h₆, rfl⟩ := emits_unlessAbsent h₅
  obtain ⟨_, h₇, rfl⟩ := emits_label_bind.1 h₆
  refine ⟨.fresh (n + 1), .fresh (n + 1 + 1), loop, bodyLines, stepLines, ?_⟩
  cases habs : test.isAbsent with
  | true =>
    simp only [habs, if_true] at h₇
    obtain ⟨_, h₈, rfl⟩ := emits_instr_bind.1 h₇
    obtain rfl := emits_labelIfTaken h₈
    exact ⟨_, _, m', hbody, hstep, by rw [TestText, habs]; rfl, by simp [loopLines]⟩
  | false =>
    simp only [habs, Bool.false_eq_true, if_false] at h₇
    obtain ⟨_, testLines, m₃, _, htest, h₈, rfl⟩ := emits_bind.1 h₇
    obtain rfl := emits_labelIfTaken h₈
    exact ⟨testLines, _, m', hbody, hstep, by rw [TestText, habs]; exact ⟨_, _, _, htest⟩,
      by simp [loopLines]⟩

/-- The body of a loop, with the labels that the loop has in the end. -/
theorem Stmt.Spells.body {body : Stmt} (h : Stmt.Spells s exit pushed (some {}) loop body ls) :
    Stmt.Text s exit pushed (some (loop.getD {})) body ls ∧
      ∀ k, ((loop.getD {}).label k).isSome = body.hasJump k := by
  obtain ⟨labels, rfl⟩ := Option.isSome_iff_exists.1 h.isSome
  refine ⟨h.text _ (.refl _), fun k => ?_⟩
  have htaken := h.taken k
  cases k <;> simpa [LoopLabels.taken, LoopLabels.label] using htaken

theorem LoopLabels.emits_jumpBreak {loop loop' : Option LoopLabels} {p : Pos}
    (h : Emits (LoopLabels.jumpBreak loop) n loop' ls n') :
    Stmt.Spells s exit pushed loop loop' (.breakLoop p) ls := by
  cases loop with
  | none => exact absurd h not_emits_fail
  | some labels =>
    obtain ⟨l, hl, rfl, rfl⟩ := emits_jumpOut h
    refine ⟨⟨fun _ => id, ?_, nofun⟩, rfl, ?_, ?_⟩
    · intro k hk
      rw [hl k hk]
      rfl
    · intro k
      cases k <;> simp [taken, label, Stmt.hasJump]
    · intro final hfinal
      have hlast := hfinal.breakLabel l rfl
      cases final with
      | none => cases hlast
      | some labels' => exact .breakLoop hlast

theorem LoopLabels.emits_jumpContinue {loop loop' : Option LoopLabels} {p : Pos}
    (h : Emits (LoopLabels.jumpContinue loop) n loop' ls n') :
    Stmt.Spells s exit pushed loop loop' (.continueLoop p) ls := by
  cases loop with
  | none => exact absurd h not_emits_fail
  | some labels =>
    obtain ⟨l, hl, rfl, rfl⟩ := emits_jumpOut h
    refine ⟨⟨?_, fun _ => id, nofun⟩, rfl, ?_, ?_⟩
    · intro k hk
      rw [hl k hk]
      rfl
    · intro k
      cases k <;> simp [taken, label, Stmt.hasJump]
    · intro final hfinal
      have hlast := hfinal.continueLabel l rfl
      cases final with
      | none => cases hlast
      | some labels' => exact .continueLoop hlast

end

mutual

/-- The lines that the code of a statement writes are its text. -/
theorem Stmt.spells_code {s : Settings} {exit : Label} {pushed : Int} {st : Stmt}
    {loop loop' : Option LoopLabels} {n n' : Nat} {ls : List Line}
    (h : Emits (st.code s exit pushed loop) n loop' ls n') :
    Stmt.Spells s exit pushed loop loop' st ls := by
  cases st with
  | absent => exact absurd h not_emits_fail
  | block p stmts =>
    obtain ⟨items, rfl, rfl, hgrows, hsome, htaken, htext⟩ := Stmt.spells_codeAll h
    exact ⟨hgrows, hsome, htaken, fun final hfinal => .block (htext final hfinal)⟩
  | empty p =>
    obtain ⟨rfl, rfl, -⟩ := emits_pure.1 h
    exact .same (fun _ => rfl) fun _ => .empty
  | expr p e =>
    obtain ⟨u, _, m, _, hrun, h₁, rfl⟩ := emits_bind.1 h
    obtain ⟨rfl, rfl, -⟩ := emits_pure.1 h₁
    rw [List.append_nil]
    exact .same (fun _ => rfl) fun _ => .expr ⟨n, u, m, hrun⟩
  | locals p type vars =>
    obtain ⟨u, _, m, _, hrun, h₁, rfl⟩ := emits_bind.1 h
    obtain ⟨rfl, rfl, -⟩ := emits_pure.1 h₁
    rw [List.append_nil]
    exact .same (fun _ => rfl) fun _ => .locals ⟨n, u, m, hrun⟩
  -- the equations of `Stmt.code` for an absent part overlap with the general ones
  | cond p test yes no =>
    by_cases habs : no = .absent
    · subst habs
      have h₁ := emits_newLabel_bind.1 h
      obtain ⟨u, tests, m, _, htest, h₂, rfl⟩ := emits_bind.1 h₁
      obtain ⟨loop₁, ms, m₁, _, hyes, h₃, rfl⟩ := emits_bind.1 h₂
      obtain ⟨_, h₄, rfl⟩ := emits_label_bind.1 h₃
      obtain ⟨rfl, rfl, -⟩ := emits_pure.1 h₄
      obtain ⟨hgrows, hsome, htaken, htext⟩ := Stmt.spells_code hyes
      refine ⟨hgrows, hsome, fun k => ?_, fun final hfinal => ?_⟩
      · rw [htaken k]
        simp [Stmt.hasJump]
      · rw [← List.append_assoc]
        exact .cond ⟨_, u, m, htest⟩ (htext final hfinal)
    · rw [Stmt.code] at h
      · have h₁ := emits_newLabel_bind.1 (emits_newLabel_bind.1 h)
        obtain ⟨u, tests, m, _, htest, h₂, rfl⟩ := emits_bind.1 h₁
        obtain ⟨loop₁, ms, m₁, _, hyes, h₃, rfl⟩ := emits_bind.1 h₂
        obtain ⟨_, h₄, rfl⟩ := emits_instr_bind.1 h₃
        obtain ⟨_, h₅, rfl⟩ := emits_label_bind.1 h₄
        obtain ⟨loop₂, ns, m₂, _, hno, h₆, rfl⟩ := emits_bind.1 h₅
        obtain ⟨_, h₇, rfl⟩ := emits_label_bind.1 h₆
        obtain ⟨rfl, rfl, -⟩ := emits_pure.1 h₇
        have hfirst := Stmt.spells_code hyes
        have hsecond := Stmt.spells_code hno
        refine ⟨hfirst.grows.trans hsecond.grows, hsecond.isSome.trans hfirst.isSome,
          fun k => ?_, fun final hfinal => ?_⟩
        · rw [hsecond.taken k, hfirst.taken k, Stmt.hasJump, Bool.or_assoc]
        · have htext : Stmt.Text s exit pushed final (.cond p test yes no)
              (tests ++ ms ++ [.instr (.jump (.fresh (n + 1))), .label (.fresh (n + 1 + 1))] ++ ns ++
                [.label (.fresh (n + 1))]) :=
            .condElse habs ⟨_, u, m, htest⟩ (hfirst.text final (hsecond.grows.trans hfinal))
              (hsecond.text final hfinal)
          simpa using htext
      · exact habs
  | whileLoop p test body =>
    obtain ⟨_, _, m, _, hloop, h₁, rfl⟩ := emits_bind.1 h
    obtain ⟨rfl, rfl, -⟩ := emits_pure.1 h₁
    obtain ⟨start, check, inner, _, stepLines, _, m₁, m₂, hbody, hstep, htest, rfl⟩ :=
      emits_loopCode hloop
    obtain ⟨htext, htaken⟩ := (Stmt.spells_code hbody).body
    obtain rfl : stepLines = [] := hstep
    rw [List.append_nil]
    exact .same (fun _ => rfl) fun _ => .whileLoop htext htaken htest
  | forLoop p init test step body =>
    have hrest {loop loop' : Option LoopLabels} {m m' : Nat} {ms : List Line}
        (h : Emits (loopCode s test step pushed (body.code s exit pushed) >>= fun _ => pure loop)
          m loop' ms m') : loop' = loop ∧ ∀ (final : Option LoopLabels) (ks : List Line),
          Stmt.Text s exit pushed final init ks →
          Stmt.Text s exit pushed final (.forLoop p init test step body) (ks ++ ms) := by
      obtain ⟨_, _, _, _, hloop, h₁, rfl⟩ := emits_bind.1 h
      obtain ⟨rfl, rfl, -⟩ := emits_pure.1 h₁
      obtain ⟨start, check, inner, _, _, _, m₁, m₂, hbody, hstep, htest, rfl⟩ :=
        emits_loopCode hloop
      obtain ⟨htext, htaken⟩ := (Stmt.spells_code hbody).body
      rw [List.append_nil]
      exact ⟨rfl, fun final ks hks => .forLoop hks htext htaken hstep htest⟩
    by_cases habs : init = .absent
    · subst habs
      obtain ⟨rfl, htext⟩ := hrest h
      exact .same (fun _ => rfl) fun final => htext final [] .absent
    · rw [Stmt.code] at h
      · obtain ⟨loop₁, ks, m, ms, hinit, h₁, rfl⟩ := emits_bind.1 h
        obtain ⟨rfl, htext⟩ := hrest h₁
        have hfirst := Stmt.spells_code hinit
        exact ⟨hfirst.grows, hfirst.isSome, hfirst.taken, fun final hfinal =>
          htext final ks (hfirst.text final hfinal)⟩
      · exact habs
  | breakLoop p => exact LoopLabels.emits_jumpBreak h
  | continueLoop p => exact LoopLabels.emits_jumpContinue h
  | ret p e =>
    rw [Stmt.code] at h
    obtain ⟨ms, _, m, hms, h₁, rfl⟩ := emits_unlessAbsent h
    obtain ⟨_, h₂, rfl⟩ := emits_instr_bind.1 h₁
    obtain ⟨rfl, rfl, -⟩ := emits_pure.1 h₂
    exact .same (fun _ => rfl) fun _ => .ret hms

theorem Stmt.spells_codeAll {s : Settings} {exit : Label} {pushed : Int} {stmts : List Stmt}
    {loop loop' : Option LoopLabels} {n n' : Nat} {ls : List Line}
    (h : Emits (Stmt.codeAll s exit pushed stmts loop) n loop' ls n') :
    ∃ items : List (Stmt × List Line), stmts = items.map Prod.fst ∧ ls = items.flatMap Prod.snd ∧
      LoopLabels.Grows loop loop' ∧ loop'.isSome = loop.isSome ∧
      (∀ k, LoopLabels.taken loop' k = (LoopLabels.taken loop k || Stmt.hasJumpAny k stmts)) ∧
      ∀ final : Option LoopLabels, LoopLabels.Grows loop' final →
        ∀ i ∈ items, Stmt.Text s exit pushed final i.1 i.2 := by
  cases stmts with
  | nil =>
    obtain ⟨rfl, rfl, -⟩ := emits_pure.1 h
    exact ⟨[], rfl, rfl, .refl _, rfl, by simp [Stmt.hasJumpAny], by simp⟩
  | cons st stmts =>
    obtain ⟨loop₁, l₁, m, l₂, hst, hstmts, rfl⟩ := emits_bind.1 h
    have hfirst := Stmt.spells_code hst
    obtain ⟨items, rfl, rfl, hgrows, hsome, htaken, htext⟩ := Stmt.spells_codeAll hstmts
    refine ⟨(st, l₁) :: items, rfl, rfl, hfirst.grows.trans hgrows, hsome.trans hfirst.isSome,
      fun k => ?_, fun final hfinal => ?_⟩
    · rw [htaken k, hfirst.taken k, Stmt.hasJumpAny, Bool.or_assoc]
    · intro i hi
      obtain rfl | hi := List.mem_cons.1 hi
      · exact hfirst.text final (hgrows.trans hfinal)
      · exact htext final hfinal i hi

end

/-! ## Functions -/

theorem Target.jumpsWithin_prologue (t : Target) {out : List Label} (symbol : String)
    (frameBytes : Int) : JumpsWithin out (t.prologue symbol frameBytes) := by
  refine .append (.append (.still ?_) (.still ?_)) (.instrs _ fun _ => rfl)
  · simp [Line.jump?]
  · split <;> simp [Line.jump?]

theorem Target.jumpsWithin_epilogue (t : Target) {out : List Label} :
    JumpsWithin out t.epilogue :=
  .append (.instrs _ fun _ => rfl) (.still (by simp [Line.jump?]))

/-- The text of a function keeps the discipline of labels. -/
theorem Function.labelDiscipline {f : Function} {b : Body} (hb : f.body = some b)
    {block : List Line} {n n' : Nat} (hrun : Emits (f.code s) n () block n') :
    LabelDiscipline s f block := by
  obtain ⟨exit, loop, body, m, m', hbody, rfl⟩ := Function.emits_code hb hrun
  obtain ⟨items, hstmts, rfl, hgrows, -, -, htext⟩ := Stmt.spells_codeAll hbody
  obtain rfl : loop = none := hgrows.none rfl
  have hblock : Stmt.Text s exit (s.target.entryBytes f.frameBytes) none (.block b.pos b.stmts)
      (items.flatMap Prod.snd) := hstmts ▸ .block (htext none (.refl none))
  refine ⟨?_, b, exit, _, hb, rfl, hblock⟩
  have hall : JumpsWithin [exit]
      (s.target.prologue (s.symbolStart ++ f.name) f.frameBytes ++ items.flatMap Prod.snd ++
        .label exit :: s.target.epilogue) :=
    ((s.target.jumpsWithin_prologue _ _).append hblock.jumpsWithin).append
      ((JumpsWithin.label exit).append s.target.jumpsWithin_epilogue)
  intro l hl target htarget
  obtain hwritten | hexit := hall l hl target htarget
  · exact hwritten
  · cases List.mem_singleton.1 hexit
    simp [writtenLabels_cons, Line.label?]

/-! ## Spelling of labels -/

theorem Function.Spelled.isName {ts : List Token} {f : Function}
    (h : Function.Spelled allows ts f) (hts : ∀ t ∈ ts, t.Legible) : IsName f.name := by
  cases h with
  | prototype _ hx => exact (hts _ (by simp)).identifier hx
  | definition _ hx => exact (hts _ (by simp)).identifier hx

/-- Functions in source files have names. -/
theorem Program.Spelled.isName {ts : List Token}
    (h : Program.Spelled allows ts p) (hts : ∀ t ∈ ts, t.Legible) : ∀ f ∈ p, IsName f.name := by
  intro f hf
  obtain ⟨us, hus, hf⟩ := h.exists_function f hf
  exact hf.isName fun t ht => hts t (hus.subset ht)

theorem Program.isName_of_parse {read : String → Except FileError Content} {paths : List String}
    {files : List SourceFile} (hgather : s.gather read 0 paths = .ok (files, tokens))
    (hparse : Program.parse allows tokens = .ok p) : ∀ f ∈ p, IsName f.name := by
  obtain ⟨ts, rest, rfl, hspelled⟩ := Program.spelled_prefix_of_parse hparse
  have hlegible := Settings.legible_gather hgather
  exact hspelled.isName fun t ht => hlegible t (List.mem_append_left _ ht)

/-- The label that is spelled in this way. -/
def Label.read : List Char → Label
  | '.' :: 'L' :: digits => .fresh ((decimal? digits).getD 0)
  | cs => .symbol (String.ofList cs)

/-- A label is read back from its text, unless it is a symbol that starts with the dot of labels that
    are made. -/
theorem Label.read_text {l : Label}
    (h : ∀ symbol, l = .symbol symbol → symbol.toList.head? ≠ some '.') :
    Label.read l.text.toList = l := by
  cases l with
  | fresh n =>
    have htext : (Label.fresh n).text.toList = '.' :: 'L' :: n.repr.toList := String.toList_append ..
    rw [htext, Label.read, decimal?_repr, Option.getD_some]
  | symbol a =>
    have hdot := h a rfl
    rw [Label.text, Label.read]
    · rw [String.ofList_toList]
    · intro digits hdigits
      simp [hdigits] at hdot

/-- The symbol of a function does not start with a dot, unless all symbols do. -/
theorem IsName.head?_symbol {start name : String} (hname : IsName name)
    (hstart : start.toList.head? ≠ some '.') : (start ++ name).toList.head? ≠ some '.' := by
  obtain ⟨c, cs, hcs, hc⟩ := hname.start
  have hdot : isWordStart '.' = false := by decide
  rw [String.toList_append, hcs, List.head?_append, List.head?_cons]
  cases hhead : start.toList.head? with
  | none =>
    rw [Option.none_or, ne_eq, Option.some.injEq]
    rintro rfl
    rw [hdot] at hc
    contradiction
  | some d =>
    rw [Option.some_or, ← hhead]
    exact hstart

/-- A symbol that is written as a label is that of a function. -/
theorem Program.mem_definitions_of_written {lines : List Line} (h : p.assembly s = .ok lines)
    {symbol : String} (hmem : Label.symbol symbol ∈ writtenLabels lines) :
    ∃ f ∈ p.definitions, symbol = s.symbolStart ++ f.name := by
  obtain ⟨body, n, hbody, rfl⟩ := Program.emits_of_assembly h
  rw [writtenLabels_framed] at hmem
  have hcount := (Program.owns_functionsCode s p 0 () body n hbody).2 (.symbol symbol)
  have hpos := List.count_pos_iff.2 hmem
  simp only [takenCount] at hcount
  have hown : Label.symbol symbol ∈ p.definitions.map (Function.label s) :=
    List.count_pos_iff.1 (by omega)
  obtain ⟨f, hf, heq⟩ := List.mem_map.1 hown
  cases heq
  exact ⟨f, hf, rfl⟩

/-- Different labels of a program are spelled in different ways. -/
theorem Program.nodup_labelTexts {lines : List Line}
    (h : p.assembly s = .ok lines) (hstart : s.symbolStart.toList.head? ≠ some '.')
    (hnames : ∀ f ∈ p, IsName f.name) (hlabels : (writtenLabels lines).Nodup) :
    ((writtenLabels lines).map Label.text).Nodup := by
  have hread : ∀ l ∈ writtenLabels lines, Label.read l.text.toList = l := by
    intro l hl
    refine Label.read_text ?_
    rintro symbol rfl
    obtain ⟨f, hf, rfl⟩ := Program.mem_definitions_of_written h hl
    exact (hnames f (Program.mem_definitions.1 hf).1).head?_symbol hstart
  refine List.Nodup.map_on ?_ hlabels
  intro l hl l' hl' heq
  rw [← hread l hl, ← hread l' hl', heq]

/-! ## Programs -/

/-- The text of a function that is defined in a program. -/
structure Program.HasBlock (s : Settings) (p : Program) (f' : Function) (block : List Line) : Prop where
  defined : f'.isPrototype = false
  rule : ∃ f ∈ p, Function.Elab (p.declare s).1 f f'
  labels : (writtenLabels block).Nodup
  emits : ∃ m m', Emits (f'.code s) m () block m'

/-- An accepted program is lowered to the texts of its functions, one after the other. -/
theorem Compilation.run_eq_blocks (hs : s.target.registers ≠ []) (htokens : EndsOnce tokens)
    (hparse : Program.parse allows tokens = .ok p) (haccepted : (p.check s).accepted = true) :
    List.Forall₂ (Function.Elab (p.declare s).1) p (p.check s).program ∧
    ∃ lines blocks, Compilation.run s allows tokens = .lowered p (p.check s).reports (.ok lines) ∧
      lines = s.header ++ blocks.flatten ++ s.footer ∧
      (p.check s).program.assembly s = .ok lines ∧ (writtenLabels lines).Nodup ∧
      List.Forall₂ (p.HasBlock s) (p.check s).program.definitions blocks := by
  have ⟨hfault, hrules⟩ := Program.check_elaborates (s := s) (Program.whole_of_parse htokens hparse)
  have helaborated := hrules haccepted
  obtain ⟨lines, hlines⟩ := Program.exists_assembly hs helaborated
  have hlabels := Program.nodup_writtenLabels hlines
    (Program.nodup_names_of_elaborated helaborated (Program.definitions_of_accepted haccepted).2)
  obtain ⟨text, n, htext, hframed⟩ := Program.emits_of_assembly hlines
  obtain ⟨blocks, rfl, hblocks⟩ := Program.emits_functionsCode htext
  refine ⟨helaborated, lines, blocks, by simp [Compilation.run, hparse, hfault, haccepted, hlines],
    hframed, hlines, hlabels, ?_⟩
  obtain ⟨hlength, hzip⟩ := List.forall₂_iff_zip.1 hblocks
  refine List.forall₂_iff_zip.2 ⟨hlength, ?_⟩
  intro f' block hmem
  obtain ⟨hf', hblock⟩ := List.of_mem_zip hmem
  obtain ⟨hf', hdef⟩ := Program.mem_definitions.1 hf'
  refine ⟨hdef, exists_mem_of_forall₂ helaborated hf', ?_, hzip hmem⟩
  rw [hframed, writtenLabels_framed] at hlabels
  exact hlabels.sublist (.filterMap _ (List.sublist_flatten_of_mem hblock))

/-- Functions keep the names that they have in source files. -/
theorem Program.isName_of_elaborated {read : String → Except FileError Content}
    {paths : List String} {files : List SourceFile}
    (hgather : s.gather read 0 paths = .ok (files, tokens)) {p p' : Program}
    (hparse : Program.parse allows tokens = .ok p) {c : TypingContext}
    (h : List.Forall₂ (Function.Elab c) p p') : ∀ f' ∈ p', IsName f'.name := by
  intro f' hf'
  obtain ⟨f, hf, hrule⟩ := exists_mem_of_forall₂ h hf'
  rw [hrule.name_eq]
  exact Program.isName_of_parse hgather hparse f hf

theorem Program.HasBlock.labelDiscipline {f' : Function}
    {block : List Line} (h : p.HasBlock s f' block) : LabelDiscipline s f' block := by
  obtain ⟨⟨f, -, hrule⟩, m, m', hrun⟩ := And.intro h.rule h.emits
  cases hrule with
  | prototype hproto => simp [h.defined] at hproto
  | definition => exact Function.labelDiscipline rfl hrun

/-- In the assembly of an accepted program no two labels are spelled alike, and the text of every
    function keeps the discipline of labels, if symbols do not start with the dot of labels that are
    made. -/
theorem Compilation.run_labelDiscipline {s : Settings} (hs : s.target.registers ≠ [])
    (hstart : s.symbolStart.toList.head? ≠ some '.') {allows : Feature → Bool}
    {read : String → Except FileError Content} {paths : List String} {files : List SourceFile}
    {tokens : List Token} (hgather : s.gather read 0 paths = .ok (files, tokens)) {p : Program}
    (hparse : Program.parse allows tokens = .ok p) (haccepted : (p.check s).accepted = true) :
    ∃ lines blocks, Compilation.run s allows tokens =
        .lowered p (p.check s).reports (.ok lines) ∧
      lines = s.header ++ blocks.flatten ++ s.footer ∧
      ((writtenLabels lines).map Label.text).Nodup ∧
      List.Forall₂ (LabelDiscipline s) (p.check s).program.definitions blocks := by
  obtain ⟨helaborated, lines, blocks, hrun, hframed, hlines, hlabels, hblocks⟩ :=
    Compilation.run_eq_blocks hs (Settings.endsOnce_gather hgather) hparse haccepted
  have hnames := Program.isName_of_elaborated hgather hparse helaborated
  exact ⟨lines, blocks, hrun, hframed, Program.nodup_labelTexts hlines hstart hnames hlabels,
    hblocks.imp fun _ _ => Program.HasBlock.labelDiscipline⟩

/-- Loops in one another, each with both jumps, one of them behind a loop in its body. -/
def jumpingSource : Content := Text.encodeUtf8 ("void f(int n) \x7b while (n > 0) \x7b " ++
  "for (int i = 0; ; i = i + 1) \x7b if (i == 3) continue; else if (i > n || n == 7) break; \x7d " ++
  "if (n == 5) break; n = n - 1; continue; \x7d \x7d")

theorem Compilation.run_labelDiscipline_jumpingSource : ∃ files tokens p lines blocks,
    Settings.gather {} (fun _ => .ok jumpingSource) 0 ["f"] = .ok (files, tokens) ∧
    Compilation.run {} (fun _ => true) tokens = .lowered p (p.check {}).reports (.ok lines) ∧
    lines = Settings.header {} ++ blocks.flatten ++ Settings.footer {} ∧ blocks.length = 1 ∧
    ((writtenLabels lines).map Label.text).Nodup ∧
    List.Forall₂ (LabelDiscipline {}) (p.check {}).program.definitions blocks := by
  obtain ⟨⟨files, tokens⟩, hgather, heval⟩ := exists_of_any
    (x := Settings.gather {} (fun _ => .ok jumpingSource) 0 ["f"])
    (b := fun r => (Program.parse (fun _ => true) r.2).toOption.any fun p =>
      (p.check {}).accepted && (p.check {}).program.definitions.length == 1) (by decide +kernel)
  obtain ⟨p, hparse, heval⟩ := exists_of_any heval
  rw [Bool.and_eq_true, beq_iff_eq] at heval
  obtain ⟨lines, blocks, hrun, hlines, hlabels, hblocks⟩ :=
    Compilation.run_labelDiscipline (by decide) (by decide) hgather hparse heval.1
  exact ⟨files, tokens, p, lines, blocks, hgather, hrun, hlines, hblocks.length_eq ▸ heval.2,
    hlabels, hblocks⟩

end MiniCompiler
