import MiniCompiler.Proofs.LabelDiscipline
import MiniCompiler.Proofs.LocalMeaning

/-!
# The meaning of statements

The lines of a statement do what the statement means. If it ends with `next`, the machine runs to the
end of the lines; otherwise it jumps to where the flow of control goes on, which is a label of the
innermost loop or the exit of the function (`Flow.Directs`). A loop goes by induction on its rounds.
-/

namespace MiniCompiler

open Emit

/-! ## Flow of control -/

section

variable {t : Target} {text : List Line} {exit : Label} {loop : Option LoopLabels}

/-- Where a statement goes on that does not end with `next`. -/
def Flow.Leaves (flow : Flow t.bits) (text : List Line) (exit : Label) (loop : Option LoopLabels)
    (rest : List Line) (c : Core t.bits) : Prop :=
  match flow with
  | .next => False
  | .broke => ∃ l, (loop.getD {}).breakLabel = some l ∧ resolve l text = some rest
  | .continued => ∃ l, (loop.getD {}).continueLabel = some l ∧ resolve l text = some rest
  | .returned v =>
    resolve exit text = some rest ∧ ∀ x, v = some x → c.regs (t.registerName 0) = x.word

/-- Lines go on as the flow says: to their end, where `Q` holds, or to where it leaves them, where `P`
    holds. -/
def Flow.Directs (flow : Flow t.bits) (text : List Line) (exit : Label)
    (loop : Option LoopLabels) (ls : List Line) (c : Core t.bits) (P Q : Core t.bits → Prop) : Prop :=
  Executes t text ls c (fun rest c' => flow.Leaves text exit loop rest c' ∧ P c')
    fun c' => flow = .next ∧ Q c'

/-- The labels that a statement may jump to are in the text. -/
def LoopLabels.Resolve (text : List Line) (loop : Option LoopLabels) : Prop :=
  ∀ k l, (loop.getD {}).label k = some l → ∃ dest, resolve l text = some dest

variable {flow : Flow t.bits} {ls ms : List Line} {c : Core t.bits} {P Q R : Core t.bits → Prop}
  {b : Bool}

theorem Flow.Directs.mono {P' Q' : Core t.bits → Prop} (h : flow.Directs text exit loop ls c P Q)
    (hP : ∀ c', P c' → P' c') (hQ : ∀ c', Q c' → Q' c') :
    flow.Directs text exit loop ls c P' Q' :=
  Executes.mono h (fun _ c' h => ⟨h.1, hP c' h.2⟩) fun c' h => ⟨h.1, hQ c' h.2⟩

theorem Flow.Directs.cons (h : Executes t text ls c (fun _ _ => False) R)
    (h' : ∀ c', R c' → flow.Directs text exit loop ms c' P Q) :
    flow.Directs text exit loop (ls ++ ms) c P Q := Executes.then h h'

theorem Flow.Directs.append {P' : Core t.bits → Prop}
    (h : (Flow.next : Flow t.bits).Directs text exit loop ls c P' R)
    (h' : ∀ c', R c' → flow.Directs text exit loop ms c' P Q) :
    flow.Directs text exit loop (ls ++ ms) c P Q :=
  Executes.append (Executes.mono h (fun _ _ h => h.1.elim) fun _ h => h.2) h'

/-- Lines that are not run, since the flow leaves the lines before them. -/
theorem Flow.Directs.skip (h : flow.Directs text exit loop ls c P R) (hne : flow ≠ .next) :
    flow.Directs text exit loop (ls ++ ms) c P Q :=
  Executes.append (Executes.mono h (fun _ _ => id) fun _ h => hne h.1) fun _ h => h.elim

theorem Flow.directs_next (h : Executes t text ls c (fun _ _ => False) Q) :
    (Flow.next : Flow t.bits).Directs text exit loop ls c P Q :=
  Executes.mono h (fun _ _ h => h.elim) fun _ h => ⟨rfl, h⟩

theorem Flow.directs_leave {l : Label} {dest : List Line} (hl : resolve l text = some dest)
    (hleaves : flow.Leaves text exit loop dest c) (hP : P c) :
    flow.Directs text exit loop [.instr (.jump l)] c P Q :=
  executes_jump hl ⟨hleaves, hP⟩

theorem Flow.directs_cond (htext : (writtenLabels text).Nodup) {done : Label}
    (htest : ∀ dest, resolve done text = some dest → Executes t text ls c
      (fun rest c' => rest = dest ∧ b = false ∧ R c') fun c' => b ≠ false ∧ R c')
    (hyes : b = true → ∀ c', R c' → flow.Directs text exit loop ms c' P Q)
    (hno : b = false → flow = .next ∧ ∀ c', R c' → Q c') :
    flow.Directs text exit loop (ls ++ ms ++ [.label done]) c P Q := by
  refine Executes.label htext fun dest hdest => Executes.append ((htest dest hdest).mono ?_ ?_)
    (R := fun c' => b = true ∧ R c') ?_
  · rintro rest c' ⟨rfl, hb, hR⟩
    exact .inl ⟨rfl, (hno hb).1, (hno hb).2 c' hR⟩
  · rintro c' ⟨hb, hR⟩
    exact ⟨by simpa using hb, hR⟩
  · rintro c' ⟨hb, hR⟩
    exact Executes.mono (hyes hb c' hR) (fun _ _ => .inr) fun _ => id

theorem Flow.directs_condElse (htext : (writtenLabels text).Nodup) {done otherwise : Label}
    {ns : List Line} (htest : ∀ dest, resolve otherwise text = some dest → Executes t text ls c
      (fun rest c' => rest = dest ∧ b = false ∧ R c') fun c' => b ≠ false ∧ R c')
    (hyes : b = true → ∀ c', R c' → flow.Directs text exit loop ms c' P Q)
    (hno : b = false → ∀ c', R c' → flow.Directs text exit loop ns c' P Q) :
    flow.Directs text exit loop
      (ls ++ ms ++ [.instr (.jump done), .label otherwise] ++ ns ++ [.label done]) c P Q := by
  refine Executes.label htext fun dest hdest => Executes.append
    (R := fun c' => b = false ∧ R c') ?_ ?_
  -- up to the label of the second part the lines end with a jump over it, so only a false test
  -- gets there
  · rw [show [Line.instr (.jump done), .label otherwise] =
      [.instr (.jump done)] ++ [.label otherwise] from rfl, ← List.append_assoc]
    refine Executes.label htext fun dest' hdest' => Executes.append
      (R := fun c' => flow = .next ∧ Q c') (Executes.append ((htest dest' hdest').mono ?_ ?_)
        (R := fun c' => b = true ∧ R c') ?_) ?_
    · exact fun _ _ h => .inl h
    · rintro c' ⟨hb, hR⟩
      exact ⟨by simpa using hb, hR⟩
    · rintro c' ⟨hb, hR⟩
      exact Executes.mono (hyes hb c' hR) (fun _ _ h => .inr (.inr h)) fun _ => id
    · exact fun c' hQ => executes_jump hdest (.inr (.inl ⟨rfl, hQ⟩))
  · rintro c' ⟨hb, hR⟩
    exact Executes.mono (hno hb c' hR) (fun _ _ => .inr) fun _ => id

theorem Emit.Does.writes {x : Emit Unit} {J : List Line → Core t.bits → Prop}
    {Q : Unit → Core t.bits → Prop} (hx : x.Does t text c J Q) (h : x.Writes ls) :
    Executes t text ls c J (Q ()) := by
  obtain ⟨n, u, n', hrun⟩ := h
  exact hx n u ls n' hrun

theorem Machine.reaches_labelLines (l : Option Label) (rest : List Line) :
    Machine.Reaches t text ⟨labelLines l ++ rest, c⟩ ⟨rest, c⟩ := by
  cases l with
  | none => exact .refl _
  | some l => exact .single (Machine.step_label l)

end

/-! ## Loops -/

namespace LoopLabels

/-- The lines from the test of a loop on, with `rest` behind the loop. -/
abbrev fromTest (inner : LoopLabels) (test rest : List Line) : List Line :=
  test ++ (labelLines inner.breakLabel ++ rest)

abbrev fromStep (inner : LoopLabels) (check : Label) (step test rest : List Line) : List Line :=
  step ++ .label check :: inner.fromTest test rest

abbrev fromBody (inner : LoopLabels) (check : Label) (body step test rest : List Line) : List Line :=
  body ++ (labelLines inner.continueLabel ++ inner.fromStep check step test rest)

/-- Where the labels of a loop lead. -/
structure Stands (inner : LoopLabels) (text : List Line) (start check : Label)
    (body step test rest : List Line) : Prop where
  resolve_start : resolve start text = some (inner.fromBody check body step test rest)
  resolve_check : resolve check text = some (inner.fromTest test rest)
  resolve_continue : ∀ l, inner.continueLabel = some l →
    resolve l text = some (inner.fromStep check step test rest)
  resolve_break : ∀ l, inner.breakLabel = some l → resolve l text = some rest
  fromBody_suffix : inner.fromBody check body step test rest <:+ text
  fromStep_suffix : inner.fromStep check step test rest <:+ text
  fromTest_suffix : inner.fromTest test rest <:+ text

end LoopLabels

theorem LoopLabels.stands {inner : LoopLabels} {text : List Line} (htext : (writtenLabels text).Nodup)
    {start check : Label} {body step test rest : List Line}
    (h : loopLines inner start check body step test ++ rest <:+ text) :
    inner.Stands text start check body step test rest := by
  have heq : loopLines inner start check body step test ++ rest = [.instr (.jump check)] ++
      .label start :: inner.fromBody check body step test rest := by
    simp [loopLines]
  rw [heq] at h
  have hstart := (List.suffix_append _ _).trans h
  have hbody := (List.suffix_cons _ _).trans hstart
  have hcontinue := (List.suffix_append _ _).trans hbody
  have hstep := (List.suffix_append _ _).trans hcontinue
  have hcheck := (List.suffix_append _ _).trans hstep
  have htest := (List.suffix_cons _ _).trans hcheck
  have hbreak := (List.suffix_append _ _).trans htest
  refine ⟨resolve_of_suffix htext hstart, resolve_of_suffix htext hcheck, ?_, ?_, hbody, hstep, htest⟩
  · intro l hl
    rw [hl] at hcontinue
    exact resolve_of_suffix htext hcontinue
  · intro l hl
    rw [hl] at hbreak
    exact resolve_of_suffix htext hbreak

section

variable {t : Target} {text : List Line} {exit : Label} {loop : Option LoopLabels}
  {inner : LoopLabels} {start check : Label} {bodyLines stepLines testLines : List Line}
  {L : Layout} {sp peak live : Int} {test : Eval t.bits Bool} {body : Eval t.bits (Flow t.bits)}
  {step : Eval t.bits Unit} {ls : List Line} {env : Env} {n : Nat}

/-- The parts of a loop do what they mean. -/
structure Layout.Loops (L : Layout) (t : Target) (text : List Line) (exit : Label)
    (inner : LoopLabels) (start : Label) (bodyLines stepLines testLines : List Line)
    (sp peak live : Int) (test : Eval t.bits Bool) (body : Eval t.bits (Flow t.bits))
    (step : Eval t.bits Unit) : Prop where
  test : ∀ {σ b σ' c dest}, Ends test σ b σ' → L.Holds t sp σ c → resolve start text = some dest →
    Executes t text testLines c
      (fun rest c' => rest = dest ∧ b = true ∧ L.Keeps t sp peak live σ' c c')
      fun c' => b = false ∧ L.Keeps t sp peak live σ' c c'
  body : ∀ {σ flow σ' c}, Ends body σ flow σ' → L.Holds t sp σ c →
    LoopLabels.Resolve text (some inner) →
    flow.Directs text exit (some inner) bodyLines c (L.Keeps t sp peak live σ' c)
      (L.Keeps t sp peak live σ' c)
  step : ∀ {σ u σ' c}, Ends step σ u σ' → L.Holds t sp σ c →
    Executes t text stepLines c (fun _ _ => False) (L.Keeps t sp peak live σ' c)

/-- The rounds of a loop, from its test on. -/
theorem Layout.Loops.rounds (ht : t.Standard) (hframed : L.Framed t sp peak live)
    (h : L.Loops t text exit inner start bodyLines stepLines testLines sp peak live test body step)
    {rest : List Line} (hstands : inner.Stands text start check bodyLines stepLines testLines rest)
    : ∀ {σ σ' : Store t.bits} {flow : Flow t.bits} {c : Core t.bits}, Ends
    (iterate test body step n) σ flow σ' → L.Holds t sp σ c → ∃ rest' c', Machine.Reaches t text
    ⟨inner.fromTest testLines rest, c⟩ ⟨rest', c'⟩ ∧ L.Keeps t sp peak live σ' c c' ∧
    (rest' = rest ∧ flow = .next ∨ flow.Leaves text exit loop rest' c') := by
  have hresolve : LoopLabels.Resolve text (some inner) := by
    intro k l hl
    cases k with
    | breakLoop => exact ⟨_, hstands.resolve_break l hl⟩
    | continueLoop => exact ⟨_, hstands.resolve_continue l hl⟩
  -- on the rounds that are left; the layout holds again before each test
  induction n with
  | zero => exact fun hends => absurd hends not_ends_stop
  | succ n ih =>
    intro σ σ' flow c hends hL
    obtain ⟨b, σ₁, htest, hcases⟩ := ends_iterate_succ hends
    obtain ⟨_, c₁, hreaches₁, hend₁⟩ := h.test htest hL hstands.resolve_start _ hstands.fromTest_suffix
    obtain ⟨rfl, rfl, hkeeps₁⟩ | ⟨rfl, rfl, hkeeps₁⟩ := hend₁
    · -- the test is false
      obtain ⟨-, rfl, rfl⟩ | ⟨hfalse, -⟩ := hcases
      · exact ⟨rest, c₁, hreaches₁.trans (Machine.reaches_labelLines _ _), hkeeps₁, .inl ⟨rfl, rfl⟩⟩
      · cases hfalse
    · obtain ⟨hfalse, -⟩ | ⟨-, out, σ₂, hbody, hcases⟩ := hcases
      · cases hfalse
      have hL₁ := hL.keep hframed ht hkeeps₁
      -- another round, from the step on
      have hnext {c₂ : Core t.bits} (hkeeps₂ : L.Keeps t sp peak live σ₂ c₁ c₂)
          (hreaches₂ : Machine.Reaches t text ⟨inner.fromTest testLines rest, c⟩
            ⟨inner.fromStep check stepLines testLines rest, c₂⟩)
          {u : Unit} {σ₃ : Store t.bits} (hstep : Ends step σ₂ u σ₃)
          (hends : Ends (iterate test body step n) σ₃ flow σ') : ∃ rest' c',
            Machine.Reaches t text ⟨inner.fromTest testLines rest, c⟩
              ⟨rest', c'⟩ ∧ L.Keeps t sp peak live σ' c c' ∧
            (rest' = rest ∧ flow = .next ∨ flow.Leaves text exit loop rest' c') := by
        have hL₂ := hL₁.keep hframed ht hkeeps₂
        obtain ⟨_, c₃, hreaches₃, ⟨rfl, hkeeps₃⟩ | hfalse⟩ := h.step hstep hL₂ _ hstands.fromStep_suffix
        · obtain ⟨rest', c', hreaches', hkeeps', hend⟩ := ih hends (hL₂.keep hframed ht hkeeps₃)
          refine ⟨rest', c', ?_, ((hkeeps₁.trans hkeeps₂).trans hkeeps₃).trans hkeeps', hend⟩
          exact ((hreaches₂.trans hreaches₃).trans (.single (Machine.step_label check))).trans hreaches'
        · exact hfalse.elim
      obtain ⟨rest₂, c₂, hreaches₂, hend₂⟩ := h.body hbody hL₁ hresolve _ hstands.fromBody_suffix
      have hreaches := hreaches₁.trans hreaches₂
      obtain ⟨rfl, rfl, hkeeps₂⟩ | ⟨hleaves, hkeeps₂⟩ := hend₂
      · -- the body has come to its end
        obtain ⟨hbroke, -⟩ | ⟨v, hreturned, -⟩ | ⟨-, u, σ₃, hstep, hends⟩ := hcases
        · cases hbroke
        · cases hreturned
        · exact hnext hkeeps₂ (hreaches.trans (Machine.reaches_labelLines _ _)) hstep hends
      -- the body has jumped: behind the loop, to the exit of the function or to the step
      · obtain ⟨rfl, rfl, rfl⟩ | ⟨v, rfl, rfl, rfl⟩ | ⟨rfl | rfl, u, σ₃, hstep, hends⟩ := hcases
        · obtain ⟨l, hl, hdest⟩ := hleaves
          rw [hstands.resolve_break l hl] at hdest
          cases hdest
          exact ⟨_, c₂, hreaches, hkeeps₁.trans hkeeps₂, .inl ⟨rfl, rfl⟩⟩
        · exact ⟨rest₂, c₂, hreaches, hkeeps₁.trans hkeeps₂, .inr hleaves⟩
        · exact hleaves.elim
        · obtain ⟨l, hl, hdest⟩ := hleaves
          rw [hstands.resolve_continue l hl] at hdest
          cases hdest
          exact hnext hkeeps₂ hreaches hstep hends

/-- A loop does what it means, from the jump to its test on. -/
theorem Layout.Loops.executes (htext : (writtenLabels text).Nodup) (ht : t.Standard)
    (hframed : L.Framed t sp peak live)
    (h : L.Loops t text exit inner start bodyLines stepLines testLines sp peak live test body step)
    {σ σ' : Store t.bits} {flow : Flow t.bits} {c : Core t.bits}
    (hends : Ends (iterate test body step n) σ flow σ') (hL : L.Holds t sp σ c) :
    flow.Directs text exit loop (loopLines inner start check bodyLines stepLines testLines) c
      (L.Keeps t sp peak live σ' c) (L.Keeps t sp peak live σ' c) := by
  intro rest hsuffix
  have hstands := LoopLabels.stands htext hsuffix
  obtain ⟨rest', c', hreaches, hkeeps, hend⟩ := h.rounds ht hframed hstands hends hL
  refine ⟨rest', c', .head ?_ hreaches, hend.imp (fun h => ⟨h.1, h.2, hkeeps⟩) fun h => ⟨h, hkeeps⟩⟩
  exact Machine.step_jump hstands.resolve_check

/-- A loop after a first part. If that does not end with `next`, the loop is left out. -/
theorem Flow.directs_loop (htext : (writtenLabels text).Nodup) (ht : t.Standard)
    {σ σ' : Store t.bits} {first flow : Flow t.bits} {c : Core t.bits} {scope : Naming} {live' : Int}
    (hfirst : first.Directs text exit loop ls c
      (L.Keeps t sp peak live σ c) fun c' => ∃ L' : Layout, L'.env = env ∧ L'.scope = scope ∧
        L.After L' t sp peak live live' σ c c')
    (hloop : ∀ L' : Layout, L'.env = env → L'.scope = scope → L'.Framed t sp peak live' →
      L'.Loops t text exit inner start bodyLines stepLines testLines sp peak live' test body step)
    (hcases : first ≠ .next ∧ flow = first ∧ σ' = σ ∨
      first = .next ∧ Ends (iterate test body step n) σ flow σ') :
    flow.Directs text exit loop (ls ++ loopLines inner start check bodyLines stepLines testLines) c
      (L.Keeps t sp peak live σ' c) (L.Keeps t sp peak live σ' c) := by
  obtain ⟨hne, rfl, rfl⟩ | ⟨rfl, hends⟩ := hcases
  · exact hfirst.skip hne
  refine hfirst.append ?_
  rintro c₁ ⟨L', henv, hscope, hafter⟩
  refine ((hloop L' henv hscope hafter.framed).executes htext ht hafter.framed hends
    hafter.holds).mono ?_ ?_
  · exact fun _ => hafter.trans_keeps ht
  · exact fun _ => hafter.trans_keeps ht

end

/-! ## Statements -/

section

variable {p : Program} {s : Settings} {text : List Line}
  {call : String → List Nat → Eval s.target.bits (Option (Value s.target.bits))}
  {ctx : TypingContext} {f : Function} {exit : Label} {sp peak h : Int} {limit : Nat}
  {c : Core s.target.bits} {σ σ' : Store s.target.bits} {L : Layout}

section

variable (hp : p.Linked s text call ctx) {live : Int}

include hp

/-- The test of a conditional or a loop jumps if it has the value `sense`. -/
theorem Expr.Elab.tests (haligned : s.target.wordSize ∣ h) {e e' : Expr} {type : Ty}
    (he : Expr.Elab ctx env e e' type) (henv : L.env = env)
    (hends : Ends (e.holds p call L.scope) σ b σ') (hL : L.Holds s.target sp σ c)
    (hfits : s.Fits e.size h) {label : Label} {dest ls : List Line}
    (hdest : resolve label text = some dest) {sense : Bool}
    (hls : ((e'.code s).branch label sense h 0).Writes ls) :
    Executes s.target text ls c
      (fun rest c' => rest = dest ∧ b = sense ∧ L.Keeps s.target sp peak live σ' c c')
      fun c' => b ≠ sense ∧ L.Keeps s.target sp peak live σ' c c' := by
  obtain ⟨habs, -⟩ | ⟨-, hends⟩ := Expr.ends_holds hends
  · simp [he.not_absent.1] at habs
  · refine (((he.means hp henv hends).branch sense 0 hL ⟨he.size_eq ▸ hfits, haligned⟩ rfl
      hdest).writes hls).mono ?_ ?_
    · rintro rest c' ⟨hrest, hb, hkeeps⟩
      exact ⟨hrest, hb, .ofExpr hkeeps⟩
    · rintro c' ⟨hb, hkeeps⟩
      exact ⟨hb, .ofExpr hkeeps⟩

theorem Expr.ElabOrAbsent.tests (haligned : s.target.wordSize ∣ h) {ok : Ty → Prop} {e e' : Expr}
    (he : Expr.ElabOrAbsent ctx env ok e e') (henv : L.env = env) {start : Label}
    (hls : TestText s h start e' ls) (hfits : s.Fits e.size h) {dest : List Line}
    (hends : Ends (e.holds p call L.scope) σ b σ') (hL : L.Holds s.target sp σ c)
    (hdest : resolve start text = some dest) :
    Executes s.target text ls c
      (fun rest c' => rest = dest ∧ b = true ∧ L.Keeps s.target sp peak live σ' c c')
      fun c' => b = false ∧ L.Keeps s.target sp peak live σ' c c' := by
  obtain ⟨habs, habs'⟩ | ⟨-, hpresent, type, -, he⟩ := he.absent_or
  · rw [TestText, if_pos habs'] at hls
    subst hls
    obtain ⟨-, rfl, rfl⟩ | ⟨hpresent, -⟩ := Expr.ends_holds hends
    · exact executes_jump hdest ⟨rfl, rfl, .refl hL⟩
    · simp [habs] at hpresent
  · rw [TestText, hpresent] at hls
    refine (he.tests hp haligned henv hends hL hfits hdest hls).mono (fun _ _ => id) ?_
    rintro c' ⟨hb, hkeeps⟩
    exact ⟨by simpa using hb, hkeeps⟩

theorem Expr.ElabOrAbsent.steps (haligned : s.target.wordSize ∣ h) {ok : Ty → Prop} {e e' : Expr}
    (he : Expr.ElabOrAbsent ctx env ok e e') (henv : L.env = env) (hls : StepText s h e' ls)
    (hfits : s.Fits e.size h) {u : Unit} (hends : Ends (Stmt.advance p call L.scope e) σ u σ')
    (hL : L.Holds s.target sp σ c) :
    Executes s.target text ls c (fun _ _ => False) (L.Keeps s.target sp peak live σ' c) := by
  obtain ⟨habs, habs'⟩ | ⟨hpresent, hpresent', type, -, he⟩ := he.absent_or
  · rw [StepText, if_pos habs'] at hls
    rw [Stmt.advance, if_pos habs] at hends
    obtain ⟨-, rfl⟩ := ends_pure.1 hends
    subst hls
    exact executes_nil (.refl hL)
  · rw [StepText, hpresent'] at hls
    rw [Stmt.advance, hpresent] at hends
    obtain ⟨v, σ₁, hv, hends⟩ := ends_bind.1 hends
    obtain ⟨-, rfl⟩ := ends_pure.1 hends
    refine (((he.means hp henv hv).value 0 hL ⟨he.size_eq ▸ hfits, haligned⟩).writes hls).mono
      (fun _ _ => id) fun _ h => .ofExpr h.1

/-- Lines do what a statement means wherever the layout holds; the words from `live` on are free for its
    variables. -/
def Layout.Follows (L : Layout) (t : Target) (text : List Line) (exit : Label)
    (loop : Option LoopLabels) (sp peak live : Int) (x : Eval t.bits (Flow t.bits × Naming))
    (ls : List Line) : Prop :=
  ∀ {σ flow inner σ' c}, Ends x σ (flow, inner) σ' → L.Holds t sp σ c →
    flow.Directs text exit loop ls c (L.Keeps t sp peak live σ' c) (L.Keeps t sp peak live σ' c)

/-- A loop whose test and step are expressions, either of which may be left out. -/
theorem Layout.Loops.ofExprs (haligned : s.target.wordSize ∣ h) {ok ok' : Ty → Prop}
    {test test' step step' : Expr} {body : Stmt} (htest : Expr.ElabOrAbsent ctx L.env ok test test')
    (hstep : Expr.ElabOrAbsent ctx L.env ok' step step') {inner : LoopLabels} {start : Label}
    {bodyLines stepLines testLines : List Line} (htestText : TestText s h start test' testLines)
    (hstepText : StepText s h step' stepLines) (htestFits : s.Fits test.size h)
    (hstepFits : s.Fits step.size h) (hbody : LoopLabels.Resolve text (some inner) →
      L.Follows s.target text exit (some inner) sp peak live (body.exec p call limit L.scope) bodyLines) :
    L.Loops s.target text exit inner start bodyLines stepLines testLines sp peak live
      (test.holds p call L.scope) (Stmt.round p call limit L.scope body)
      (Stmt.advance p call L.scope step) where
  test := fun hends hL hdest => htest.tests hp haligned rfl htestText htestFits hends hL hdest
  body := fun hround hL hresolve => (Stmt.ends_round hround).elim fun _ hends => hbody hresolve hends hL
  step := fun hends hL => hstep.steps hp haligned rfl hstepText hstepFits hends hL

end

section Conditionals

variable (hp : p.Linked s text call ctx) (haligned : s.target.wordSize ∣ h) {live : Int}
  (hframed : L.Framed s.target sp peak live) {loop : Option LoopLabels} {pos : Pos} {test test' : Expr}
  {type : Ty} (htest : Expr.Elab ctx L.env test test' type) (hfits : s.Fits test.size h) {label : Label}
  {ls ms ns : List Line} (hls : ((test'.code s).branch label false h 0).Writes ls) {yes no : Stmt}
  (hyes : L.Follows s.target text exit loop sp peak live (yes.exec p call limit L.scope) ms)

include hp haligned hframed htest hfits hls hyes

theorem Stmt.follows_cond : L.Follows s.target text exit loop sp peak live
    ((Stmt.cond pos test yes .absent).exec p call limit L.scope) (ls ++ ms ++ [.label label]) := by
  intro σ flow inner σ' c hends hL
  obtain ⟨-, b, σ₁, hb, hcases⟩ := Stmt.ends_cond hends
  refine Flow.directs_cond hp.labels (R := L.Keeps s.target sp peak live σ₁ c)
    (fun dest hdest => htest.tests hp haligned rfl hb hL hfits hdest hls) ?_ ?_
  · intro hb c₁ hkeeps
    obtain ⟨-, inner, hends⟩ | ⟨hfalse, -⟩ := hcases
    · exact (hyes hends (hL.keep hframed hp.standard hkeeps)).mono (fun _ => hkeeps.trans)
        fun _ => hkeeps.trans
    · cases hb.symm.trans hfalse
  · intro hb
    obtain ⟨htrue, -⟩ | ⟨-, ⟨-, rfl, rfl⟩ | ⟨habs, -⟩⟩ := hcases
    · cases hb.symm.trans htrue
    · exact ⟨rfl, fun _ => id⟩
    · cases habs

theorem Stmt.follows_condElse (hpresent : no.isAbsent = false) {done : Label}
    (hno : L.Follows s.target text exit loop sp peak live (no.exec p call limit L.scope) ns) :
    L.Follows s.target text exit loop sp peak live
      ((Stmt.cond pos test yes no).exec p call limit L.scope)
      (ls ++ ms ++ [.instr (.jump done), .label label] ++ ns ++ [.label done]) := by
  intro σ flow inner σ' c hends hL
  obtain ⟨-, b, σ₁, hb, hcases⟩ := Stmt.ends_cond hends
  refine Flow.directs_condElse hp.labels (R := L.Keeps s.target sp peak live σ₁ c)
    (fun dest hdest => htest.tests hp haligned rfl hb hL hfits hdest hls) ?_ ?_
  · intro hb c₁ hkeeps
    obtain ⟨-, inner, hends⟩ | ⟨hfalse, -⟩ := hcases
    · exact (hyes hends (hL.keep hframed hp.standard hkeeps)).mono (fun _ => hkeeps.trans)
        fun _ => hkeeps.trans
    · cases hb.symm.trans hfalse
  · intro hb c₁ hkeeps
    obtain ⟨htrue, -⟩ | ⟨-, ⟨habs, -⟩ | ⟨-, inner, hends⟩⟩ := hcases
    · cases hb.symm.trans htrue
    · simp [hpresent] at habs
    · exact (hno hends (hL.keep hframed hp.standard hkeeps)).mono (fun _ => hkeeps.trans)
        fun _ => hkeeps.trans

end Conditionals

theorem Stmt.follows_ret (hp : p.Linked s text call ctx) (haligned : s.target.wordSize ∣ h)
    (hexit : ∃ dest, resolve exit text = some dest) {loop : Option LoopLabels} {pos : Pos}
    {ok : Ty → Prop} {e e' : Expr} (he : Expr.ElabOrAbsent ctx L.env ok e e') (hfits : s.Fits e.size h)
    (hls : StepText s h e' ls) : L.Follows s.target text exit loop sp peak live
      ((Stmt.ret pos e).exec p call limit L.scope) (ls ++ [.instr (.jump exit)]) := by
  intro σ flow inner σ' c hends hL
  obtain ⟨dest, hdest⟩ := hexit
  obtain ⟨-, hcases⟩ := Stmt.ends_ret hends
  obtain ⟨habs, habs'⟩ | ⟨hpresent, hpresent', type, -, he⟩ := he.absent_or
  · obtain ⟨-, rfl, rfl⟩ | ⟨hpresent, -⟩ := hcases
    · rw [StepText, if_pos habs'] at hls
      subst hls
      exact Flow.directs_leave hdest ⟨hdest, fun _ h => by cases h⟩ (.refl hL)
    · simp [habs] at hpresent
  · obtain ⟨habs, -⟩ | ⟨-, v, rfl, hv⟩ := hcases
    · simp [hpresent] at habs
    · rw [StepText, hpresent'] at hls
      refine .cons (((he.means hp rfl hv).value 0 hL ⟨he.size_eq ▸ hfits, haligned⟩).writes hls) ?_
      rintro c₁ ⟨hkeeps, hword⟩
      refine Flow.directs_leave hdest ⟨hdest, ?_⟩ (.ofExpr hkeeps)
      rintro _ ⟨⟩
      exact hword

theorem Stmt.Elab.isAbsent_eq {inLoop : Bool} {env env' : Env} {fr fr' : Frame} {st st' : Stmt}
    (h : Stmt.Elab ctx f inLoop env fr st st' env' fr') :
    st.isAbsent = false ∧ st'.isAbsent = false := by
  cases h <;> exact ⟨rfl, rfl⟩

/-- A statement whose variables are out of scope behind it. -/
theorem Flow.Directs.scoped {flow : Flow s.target.bits} {loop : Option LoopLabels}
    {P : Core s.target.bits → Prop} {env' : Env} {scope' : Naming} {live live' : Int}
    {σ' : Store s.target.bits}
    (h : flow.Directs text exit loop ls c P fun c' => ∃ L' : Layout, L'.env = env' ∧
      L'.scope = scope' ∧ L.After L' s.target sp peak live live' σ' c c') :
    flow.Directs text exit loop ls c P (L.Keeps s.target sp peak live σ' c) :=
  h.mono (fun _ => id) fun _ ⟨_, _, _, hafter⟩ => hafter.keeps

mutual

/-- The lines of a statement do what the statement means. -/
theorem Stmt.Elab.means (hp : p.Linked s text call ctx) (haligned : s.target.wordSize ∣ h)
    (hexit : ∃ dest, resolve exit text = some dest) {inLoop : Bool} {env env' : Env} {fr fr' : Frame}
    {st st' : Stmt} (hst : Stmt.Elab ctx f inLoop env fr st st' env' fr') {loop : Option LoopLabels}
    {ls : List Line} (hls : Stmt.Text s exit h loop st' ls) (hloop : LoopLabels.Resolve text loop)
    {L : Layout} (henv : L.env = env) {flow : Flow s.target.bits} {scope' : Naming}
    {σ σ' : Store s.target.bits} {c : Core s.target.bits}
    (hends : Ends (st.exec p call limit L.scope) σ (flow, scope') σ') (hL : L.Holds s.target sp σ c)
    (hframed : L.Framed s.target sp peak fr.live) (hok : fr.Ok) (hlt : fr.live + st.size < wordBound)
    (hpeak : fr'.peak ≤ peak) (hfits : s.Fits st.size h) :
    flow.Directs text exit loop ls c (L.Keeps s.target sp peak fr.live σ' c) fun c' =>
      ∃ L' : Layout, L'.env = env' ∧ L'.scope = scope' ∧
        L.After L' s.target sp peak fr.live fr'.live σ' c c' := by
  have ht := hp.standard
  have hs := hp.regular
  have hgrows := hst.grows hok hlt
  -- a statement whose variables are out of scope at its end
  have hscoped (hkeeps : flow.Directs text exit loop ls c (L.Keeps s.target sp peak fr.live σ' c)
      (L.Keeps s.target sp peak fr.live σ' c)) (henv' : L.env = env') (hscope' : L.scope = scope') :
      flow.Directs text exit loop ls c (L.Keeps s.target sp peak fr.live σ' c) fun c' =>
        ∃ L' : Layout, L'.env = env' ∧ L'.scope = scope' ∧
          L.After L' s.target sp peak fr.live fr'.live σ' c c' := by
    refine hkeeps.mono (fun _ => id) fun c' h => ⟨L, henv', hscope', ?_⟩
    exact .ofKeeps ht hL hframed h hgrows.live.1 (Int.le_trans hgrows.ok.2 hpeak)
  -- along the rules of the check; each has the lines of its statement as its text
  cases hst with
  | block hall =>
    cases hls with
    | block hls =>
      obtain ⟨hends, hscope⟩ := ends_scoped hends
      refine hscoped ?_ henv hscope.symm
      exact Stmt.ElabAll.means hp haligned hexit hall rfl hls hloop henv hends hL hframed hok hlt hpeak
        hfits
  | empty =>
    cases hls with
    | empty =>
      obtain ⟨heq, rfl⟩ := ends_pure.1 hends
      cases heq
      exact hscoped (executes_nil ⟨rfl, .refl hL⟩) henv rfl
  | expr he =>
    cases hls with
    | expr hls =>
      obtain ⟨u, σ₁, hu, hends⟩ := ends_bind.1 hends
      obtain ⟨heq, rfl⟩ := ends_pure.1 hends
      cases heq
      refine hscoped (Flow.directs_next (Executes.mono ((he.runs hp henv hu hL (he.size_eq ▸ hfits)
        haligned 0).writes hls) (fun _ _ => id) fun _ h => .ofExpr h)) henv rfl
  | locals _ hvars =>
    cases hls with
    | locals hls =>
      obtain ⟨inner, σ₁, hends₁, hends⟩ := ends_bind.1 hends
      obtain ⟨heq, rfl⟩ := ends_pure.1 hends
      cases heq
      exact Flow.directs_next ((hvars.means hp haligned henv hends₁ hL hframed hok hlt hpeak
        hfits).writes hls)
  | cond htest hyes =>
    cases hls with
    | condElse hne => exact absurd rfl hne
    | cond hls hms =>
      simp only [Stmt.size] at hlt hfits
      have hyes : L.Follows s.target text exit loop sp peak fr.live _ _ := fun hends hL =>
        (Stmt.Elab.means hp haligned hexit hyes hms hloop henv hends hL hframed hok (by omega) hpeak
          (hfits.le hs (by omega))).scoped
      exact hscoped (Stmt.follows_cond hp haligned hframed (henv ▸ htest) (hfits.le hs (by omega)) hls
        hyes hends hL) henv (Stmt.ends_cond hends).1.symm
  | @condElse _ _ _ _ _ fr₁ _ _ _ _ _ _ _ _ htest hyes hno =>
    cases hls with
    | cond => cases hno
    | condElse hne hls hms hns =>
      simp only [Stmt.size] at hlt hfits
      have hgrows₁ := hyes.grows hok (by omega)
      have hgrows₂ := hno.grows hgrows₁.ok (by have := hgrows₁.live.2; omega)
      have hpeak₁ : fr₁.live ≤ peak := Int.le_trans hgrows₂.live.1 (Int.le_trans hgrows₂.ok.2 hpeak)
      have hyes : L.Follows s.target text exit loop sp peak fr.live _ _ := fun hends hL =>
        (Stmt.Elab.means hp haligned hexit hyes hms hloop henv hends hL hframed hok (by omega)
          (Int.le_trans hgrows₂.peak.1 hpeak) (hfits.le hs (by omega))).scoped
      -- the words of the variables of the first part are not used again
      have hspared {σ' : Store s.target.bits} {c c' : Core s.target.bits}
          (h : L.Keeps s.target sp peak fr₁.live σ' c c') : L.Keeps s.target sp peak fr.live σ' c c' :=
        h.mono (fun _ => id) fun _ hx => hx.mono ht hgrows₁.live.1
      have hno' : L.Follows s.target text exit loop sp peak fr.live _ _ := fun hends hL =>
        (Stmt.Elab.means hp haligned hexit hno hns hloop henv hends hL
          (hframed.mono ht hgrows₁.live.1 hpeak₁) hgrows₁.ok (by have := hgrows₁.live.2; omega) hpeak
          (hfits.le hs (by omega))).scoped.mono (fun _ => hspared) fun _ => hspared
      exact hscoped (Stmt.follows_condElse hp haligned hframed (henv ▸ htest) (hfits.le hs (by omega))
        hls hyes hno.isAbsent_eq.1 hno' hends hL) henv (Stmt.ends_cond hends).1.symm
  | whileLoop htest hbody =>
    cases hls with
    | whileLoop hbodyText _ htestText =>
      simp only [Stmt.size] at hlt hfits
      obtain ⟨hends, hscope⟩ := ends_scoped hends
      have htest : Expr.ElabOrAbsent ctx L.env (· = .boolean) _ _ := .present rfl (henv ▸ htest)
      have hstep : Expr.ElabOrAbsent ctx L.env (fun _ => True) .absent .absent := .absent
      refine hscoped (Layout.Loops.executes hp.labels ht hframed (.ofExprs hp haligned htest hstep
        htestText rfl (hfits.le hs (by omega)) (hfits.le hs (Nat.zero_le _)) ?_) hends hL) henv
        hscope.symm
      exact fun hresolve _ _ _ _ _ hround hL => (Stmt.Elab.means hp haligned hexit hbody hbodyText
        hresolve henv hround hL hframed hok (by omega) hpeak (hfits.le hs (by omega))).scoped
  | forLoop htest hstep hbody =>
    cases hls with
    | forLoop hinitText hbodyText _ hstepText htestText =>
      cases hinitText
      simp only [Stmt.size] at hlt hfits
      obtain ⟨hscope, first, inner, σ₁, ⟨-, rfl, rfl, rfl⟩ | ⟨habs, -⟩, hcases⟩ :=
        Stmt.ends_forLoop hends
      · obtain ⟨hne, -⟩ | ⟨-, hends⟩ := hcases
        · exact absurd rfl hne
        refine hscoped (Layout.Loops.executes hp.labels ht hframed (.ofExprs hp haligned
          (henv ▸ htest) (henv ▸ hstep) htestText hstepText (hfits.le hs (by omega))
          (hfits.le hs (by omega)) ?_) hends hL) henv hscope.symm
        exact fun hresolve _ _ _ _ _ hround hL => (Stmt.Elab.means hp haligned hexit hbody hbodyText
          hresolve henv hround hL hframed hok (by omega) hpeak (hfits.le hs (by omega))).scoped
      · cases habs
  | @forLoopInit _ _ _ _ _ fr₁ _ _ _ _ _ _ _ _ _ _ hinit htest hstep hbody =>
    cases hls with
    | forLoop hinitText hbodyText _ hstepText htestText =>
      simp only [Stmt.size] at hlt hfits
      have hgrows₁ := hinit.grows hok (by omega)
      have hgrows₂ := hbody.grows hgrows₁.ok (by have := hgrows₁.live.2; omega)
      obtain ⟨hscope, first, inner, σ₁, ⟨habs, -⟩ | ⟨-, hfirst⟩, hcases⟩ := Stmt.ends_forLoop hends
      · simp [hinit.isAbsent_eq.1] at habs
      refine hscoped (Flow.directs_loop hp.labels ht (Stmt.Elab.means hp haligned hexit hinit
        hinitText hloop henv hfirst hL hframed hok (by omega) (Int.le_trans hgrows₂.peak.1 hpeak)
        (hfits.le hs (by omega))) ?_ hcases) henv hscope.symm
      rintro L₁ rfl rfl hframed₁
      refine .ofExprs hp haligned htest hstep htestText hstepText (hfits.le hs (by omega))
        (hfits.le hs (by omega)) ?_
      exact fun hresolve _ _ _ _ _ hround hL => (Stmt.Elab.means hp haligned hexit hbody hbodyText
        hresolve rfl hround hL hframed₁ hgrows₁.ok (by have := hgrows₁.live.2; omega) hpeak
        (hfits.le hs (by omega))).scoped
  | breakLoop =>
    cases hls with
    | breakLoop hl =>
      obtain ⟨heq, rfl⟩ := ends_pure.1 hends
      cases heq
      obtain ⟨dest, hdest⟩ := hloop .breakLoop _ hl
      exact hscoped (Flow.directs_leave hdest ⟨_, hl, hdest⟩ (.refl hL)) henv rfl
  | continueLoop =>
    cases hls with
    | continueLoop hl =>
      obtain ⟨heq, rfl⟩ := ends_pure.1 hends
      cases heq
      obtain ⟨dest, hdest⟩ := hloop .continueLoop _ hl
      exact hscoped (Flow.directs_leave hdest ⟨_, hl, hdest⟩ (.refl hL)) henv rfl
  | ret he =>
    cases hls with
    | ret hls =>
      exact hscoped (Stmt.follows_ret hp haligned hexit (henv ▸ he) hfits hls hends hL) henv
        (Stmt.ends_ret hends).1.symm

theorem Stmt.ElabAll.means (hp : p.Linked s text call ctx) (haligned : s.target.wordSize ∣ h)
    (hexit : ∃ dest, resolve exit text = some dest) {inLoop : Bool} {env env' : Env} {fr fr' : Frame}
    {stmts stmts' : List Stmt} (hall : Stmt.ElabAll ctx f inLoop env fr stmts stmts' env' fr')
    {loop : Option LoopLabels} {items : List (Stmt × List Line)} (hitems : stmts' = items.map Prod.fst)
    (hls : ∀ i ∈ items, Stmt.Text s exit h loop i.1 i.2) (hloop : LoopLabels.Resolve text loop)
    {L : Layout} (henv : L.env = env) {flow : Flow s.target.bits} {σ σ' : Store s.target.bits}
    {c : Core s.target.bits} (hends : Ends (Stmt.execAll p call limit stmts L.scope) σ flow σ')
    (hL : L.Holds s.target sp σ c) (hframed : L.Framed s.target sp peak fr.live) (hok : fr.Ok)
    (hlt : fr.live + Stmt.sizeAll stmts < wordBound) (hpeak : fr'.peak ≤ peak)
    (hfits : s.Fits (Stmt.sizeAll stmts) h) :
    flow.Directs text exit loop (items.flatMap Prod.snd) c (L.Keeps s.target sp peak fr.live σ' c)
      (L.Keeps s.target sp peak fr.live σ' c) := by
  have ht := hp.standard
  have hs := hp.regular
  cases hall with
  | nil =>
    obtain rfl : items = [] := by simpa using hitems.symm
    rw [Stmt.execAll] at hends
    obtain ⟨rfl, rfl⟩ := ends_pure.1 hends
    exact executes_nil ⟨rfl, .refl hL⟩
  | @cons _ _ env₁ _ _ fr₁ _ st st' stmts stmts' hst hall =>
    obtain _ | ⟨⟨st', ls⟩, items⟩ := items
    · cases hitems
    cases hitems
    simp only [Stmt.sizeAll] at hlt hfits
    obtain ⟨first, inner, σ₁, hfirst, hcases⟩ := Stmt.ends_execAll_cons hends
    have hgrows₁ := hst.grows hok (by omega)
    have hgrows₂ := hall.grows hgrows₁.ok (by have := hgrows₁.live.2; omega)
    have hpeak₁ : fr₁.peak ≤ peak := Int.le_trans hgrows₂.peak.1 hpeak
    have hrun := Stmt.Elab.means hp haligned hexit hst (hls (st', ls) (by simp)) hloop henv hfirst hL
      hframed hok (by omega) hpeak₁ (hfits.le hs (by omega))
    rw [List.flatMap_cons]
    obtain ⟨rfl, hrest⟩ | ⟨hne, rfl, rfl⟩ := hcases
    · refine hrun.append ?_
      rintro c₁ ⟨L', henv', rfl, hafter⟩
      refine (Stmt.ElabAll.means hp haligned hexit hall rfl (fun i hi => hls i (by simp [hi])) hloop
        henv' hrest hafter.holds hafter.framed hgrows₁.ok ?_ hpeak (hfits.le hs (by omega))).mono ?_ ?_
      · have := hgrows₁.live.2
        omega
      · exact fun _ h => hafter.trans_keeps ht h
      · exact fun _ h => hafter.trans_keeps ht h
    · exact hrun.skip hne

end

end

end MiniCompiler
