import MiniCompiler.Proofs.CheckRetelling
import MiniCompiler.Proofs.CodeRetelling
import MiniCompiler.Proofs.CodeTotal
import MiniCompiler.Proofs.Labels

/-!
# Functions are compiled one by one

What the checker makes of a function depends on the other functions only through their signatures, and
so does its code, but for the numbers of its labels: those count on from the functions before it.

Main statement: `Program.check_separately`, for two programs that differ in one body.
-/

namespace MiniCompiler

/-! ## Checking one function -/

namespace TypingContext

/-- What is reported for one function of a program. -/
def reportsFor (c : TypingContext) (f : Function) : List Report :=
  if f.isPrototype then [] else (c.checkFunction f).reports

/-- What becomes of one function of a program. -/
def checked (c : TypingContext) (f : Function) : Function :=
  if f.isPrototype then f else (c.checkFunction f).function

variable {c c' : TypingContext}

/-- Functions without gaps are checked one by one. -/
theorem checkFunctions_eq {fs : List Function} (h : ∀ f ∈ fs, f.Whole) :
    c.checkFunctions fs = ⟨fs.map c.checked, (fs.map c.reportsFor).flatten, none⟩ := by
  induction fs with
  | nil => rfl
  | cons f fs ih =>
    rw [checkFunctions, ih fun g hg => h g (by simp [hg])]
    cases hf : f.isPrototype with
    | true => simp [checked, reportsFor, hf]
    | false =>
      have hfault := (checkFunction_elaborates (c := c) (h f (by simp)) hf).1
      simp [checked, reportsFor, hf, hfault]

/-- A context in which names stand for functions of the same signatures and numbers. -/
theorem Retold.checkFunction_same (h : c.Retold .same c') (f : Function) :
    c'.checkFunction f = c.checkFunction f := by
  have hcheck := h.checkFunction f
  rw [Function.retell_eq_self Retelling.still_same] at hcheck
  rw [hcheck, FunctionCheck.retell, Function.retell_eq_self Retelling.still_same,
    Retelling.reports_same]

theorem Retold.reportsFor_same (h : c.Retold .same c') : c'.reportsFor = c.reportsFor := by
  funext f
  rw [reportsFor, reportsFor, h.checkFunction_same]

theorem Retold.checked_same (h : c.Retold .same c') : c'.checked = c.checked := by
  funext f
  rw [checked, checked, h.checkFunction_same]

end TypingContext

/-- What is reported for each function of a program. -/
def Program.reportsByFunction (s : Settings) (p : Program) : List (List Report) :=
  p.map (p.declare s).1.reportsFor

/-- The reports of a program are those of its declarations and those of its functions, in order. -/
theorem Program.check_eq {s : Settings} {p : Program} (h : ∀ f ∈ p, f.Whole) :
    p.check s = ⟨p.map (p.declare s).1.checked, (p.declare s).2 ++ (p.reportsByFunction s).flatten,
      none⟩ := by
  simp only [Program.check, TypingContext.checkFunctions_eq h, Program.reportsByFunction]

/-! ## The text of one function -/

/-- The text of each function of a program, of which `n` labels were taken before. A prototype has
    none. -/
def Program.texts (s : Settings) : Nat → List Function → List (List Line)
  | _, [] => []
  | n, f :: fs =>
    if f.isPrototype then [] :: texts s n fs
    else (f.code s n).lines :: texts s (f.code s n).labels fs

theorem Program.lines_functionsCode {s : Settings} {fs : List Function} : ∀ {n n' : Nat}
    {ls : List Line}, Emits (Program.functionsCode s fs) n () ls n' →
      ls = (Program.texts s n fs).flatten := by
  induction fs with
  | nil =>
    intro n n' ls h
    exact (emits_pure.1 h).2.1
  | cons f fs ih =>
    intro n n' ls h
    rw [Program.functionsCode] at h
    cases hf : f.isPrototype with
    | true =>
      simp only [hf, Bool.not_true, Bool.false_eq_true, if_false] at h
      rw [ih h, Program.texts, if_pos hf]
      rfl
    | false =>
      simp only [hf, Bool.not_false, if_true] at h
      obtain ⟨_, first, n₁, rest, hfirst, hrest, rfl⟩ := emits_bind.1 h
      rw [Emits] at hfirst
      rw [ih hrest, Program.texts, hfirst]
      simp [hf]

/-- The assembly of a program holds the texts of its functions in order. -/
theorem Program.assembly_eq_texts {s : Settings} {p : Program} {lines : List Line}
    (h : p.assembly s = .ok lines) :
    lines = s.header ++ (Program.texts s 0 p).flatten ++ s.footer := by
  obtain ⟨body, n, hbody, rfl⟩ := Program.emits_of_assembly h
  rw [Program.lines_functionsCode hbody]

/-- The text of a function is its code from some number of labels on. -/
theorem Program.getElem?_texts (s : Settings) (fs : List Function) : ∀ (n i : Nat),
    ∃ n', (Program.texts s n fs)[i]? =
      fs[i]?.map fun f => if f.isPrototype then [] else (f.code s n').lines := by
  induction fs with
  | nil => exact fun n i => ⟨n, rfl⟩
  | cons f fs ih =>
    intro n i
    rw [Program.texts]
    cases i with
    | zero =>
      refine ⟨n, ?_⟩
      split <;> simp [*]
    | succ i =>
      split
      · exact ih n i
      · exact ih (f.code s n).labels i

/-- From `k` more labels on, a function has the same text with `k` added to each of its labels. -/
theorem Function.lines_code_add (s : Settings) (f : Function) (n k : Nat) :
    (f.code s (n + k)).lines = (f.code s n).lines.map (Line.shift k) := by
  have hcode := f.alike_code (k := k) .same s s.switches.warning n
  rw [Function.retell_eq_self Retelling.still_same] at hcode
  exact congrArg Emitted.lines hcode

/-- Texts that differ by one constant in the numbers of all their labels. -/
def SameUpToLabels (ls ls' : List Line) : Prop :=
  ∃ k, ls' = ls.map (Line.shift k) ∨ ls = ls'.map (Line.shift k)

theorem SameUpToLabels.refl (ls : List Line) : SameUpToLabels ls ls := by
  have hshift : Line.shift 0 = id := funext Line.shift_zero
  exact ⟨0, .inl (by rw [hshift, List.map_id])⟩

theorem Function.sameUpToLabels_code (s : Settings) (f : Function) (n n' : Nat) :
    SameUpToLabels (f.code s n).lines (f.code s n').lines := by
  obtain hle | hle := Nat.le_total n n'
  · obtain ⟨k, rfl⟩ := Nat.exists_eq_add_of_le hle
    exact ⟨k, .inl (f.lines_code_add s n k)⟩
  · obtain ⟨k, rfl⟩ := Nat.exists_eq_add_of_le hle
    exact ⟨k, .inr (f.lines_code_add s n' k)⟩

theorem Program.sameUpToLabels_texts (s : Settings) {p q : Program} {i : Nat} (h : p[i]? = q[i]?) :
    Option.Rel SameUpToLabels (Program.texts s 0 p)[i]? (Program.texts s 0 q)[i]? := by
  obtain ⟨n, hn⟩ := Program.getElem?_texts s p 0 i
  obtain ⟨n', hn'⟩ := Program.getElem?_texts s q 0 i
  rw [hn, hn', h]
  cases q[i]? with
  | none => exact .none
  | some f =>
    refine .some ?_
    dsimp only
    split
    · exact .refl []
    · exact f.sameUpToLabels_code s n n'

/-! ## Programs that differ in one body -/

/-- Declarations do not look into bodies. -/
theorem Program.declare_sameHead {p q : Program}
    (h : List.Forall₂ (Function.SameHead .same) p q) (s : Settings) :
    (p.declare s).1.Retold .same (q.declare s).1 ∧ (q.declare s).2 = (p.declare s).2 := by
  obtain ⟨hc, hreports⟩ := Program.declare_retold Retelling.still_same.callee s.retold_same h
  exact ⟨hc, hreports.trans (Retelling.reports_same _)⟩

/-- Programs with the same functions that differ in the body of function `j` at most. -/
structure Program.DifferAt (j : Nat) (p q : Program) : Prop where
  heads : List.Forall₂ (fun f g : Function => g = { f with body := g.body }) p q
  others : ∀ i, i ≠ j → p[i]? = q[i]?

theorem Program.DifferAt.declare {j : Nat} {p q : Program} (h : p.DifferAt j q) (s : Settings) :
    (p.declare s).1.Retold .same (q.declare s).1 ∧ (q.declare s).2 = (p.declare s).2 := by
  refine Program.declare_sameHead (h.heads.imp fun f g hg => ?_) s
  rw [hg]
  exact ⟨rfl, rfl, rfl, rfl⟩

/-- If the body of one function is changed, the others are checked and compiled as before: they get the
    same reports and annotations, and the same text up to one constant in the numbers of their
    labels. -/
theorem Program.check_separately {s : Settings} {j : Nat} {p q : Program} (hp : ∀ f ∈ p, f.Whole)
    (hq : ∀ f ∈ q, f.Whole) (h : p.DifferAt j q) :
    (p.check s).reports = (p.declare s).2 ++ (p.reportsByFunction s).flatten ∧
    (q.check s).reports = (p.declare s).2 ++ (q.reportsByFunction s).flatten ∧
    (∀ i, i ≠ j → (q.reportsByFunction s)[i]? = (p.reportsByFunction s)[i]? ∧
      (q.check s).program[i]? = (p.check s).program[i]?) ∧
    ((p.check s).accepted = true → (q.check s).accepted = true →
      (s.target.registers ≠ [] → ∃ lines lines', (p.check s).program.assembly s = .ok lines ∧
        (q.check s).program.assembly s = .ok lines') ∧
      ∀ lines lines', (p.check s).program.assembly s = .ok lines →
        (q.check s).program.assembly s = .ok lines' →
        lines = s.header ++ (Program.texts s 0 (p.check s).program).flatten ++ s.footer ∧
        lines' = s.header ++ (Program.texts s 0 (q.check s).program).flatten ++ s.footer ∧
        ∀ i, i ≠ j → Option.Rel SameUpToLabels (Program.texts s 0 (p.check s).program)[i]?
          (Program.texts s 0 (q.check s).program)[i]?) := by
  obtain ⟨hc, hdeclared⟩ := h.declare s
  have hprograms : ∀ i, i ≠ j → (q.check s).program[i]? = (p.check s).program[i]? := by
    intro i hi
    simp only [Program.check_eq hp, Program.check_eq hq, List.getElem?_map, ← h.others i hi,
      hc.checked_same]
  refine ⟨?_, ?_, fun i hi => ⟨?_, hprograms i hi⟩, fun haccepted haccepted' => ⟨fun hs => ?_, ?_⟩⟩
  · rw [Program.check_eq hp]
  · rw [Program.check_eq hq, hdeclared]
  · simp only [Program.reportsByFunction, List.getElem?_map, ← h.others i hi, hc.reportsFor_same]
  · obtain ⟨lines, hlines⟩ := Program.exists_assembly hs ((Program.check_elaborates hp).2 haccepted)
    obtain ⟨lines', hlines'⟩ := Program.exists_assembly hs ((Program.check_elaborates hq).2 haccepted')
    exact ⟨lines, lines', hlines, hlines'⟩
  · intro lines lines' hlines hlines'
    refine ⟨Program.assembly_eq_texts hlines, Program.assembly_eq_texts hlines', fun i hi => ?_⟩
    exact Program.sameUpToLabels_texts s (hprograms i hi).symm

/-- A function with the given body, and one that calls it and compares its result. -/
def comparingProgram (body : List Stmt) : Program :=
  let n : Variable := ⟨{}, "n", none⟩
  let f : Function :=
    { pos := {}, name := "f", result := .int, params := [⟨{}, .int, "n", false, none⟩],
      body := some ⟨{}, body⟩, isPrototype := false }
  let test : Expr := .comp {} .lt (.call {} "f" [(false, .var n)] none) (.var n)
  [f, { f with name := "g", result := .boolean, body := some ⟨{}, [.ret {} test]⟩ }]

/-- A body without labels of its own, and one with a loop. -/
def shortBody : List Stmt := [.ret {} (.var ⟨{}, "n", none⟩)]

def loopBody : List Stmt := .whileLoop {} (.bool {} true) (.breakLoop {}) :: shortBody

theorem comparingProgram_whole {body : List Stmt} (h : ∀ s ∈ body, s.Whole) :
    ∀ f ∈ comparingProgram body, f.Whole := by
  intro f hf
  simp only [comparingProgram, List.mem_cons, List.not_mem_nil, or_false] at hf
  obtain rfl | rfl := hf
  · exact .inr ⟨_, rfl, h⟩
  · refine .inr ⟨_, rfl, fun s hs => ?_⟩
    cases List.mem_singleton.1 hs
    exact .ret fun _ => .comp (.call (by simpa using Expr.Whole.var _)) (.var _)

theorem Program.check_separately_loopBody :
    ((comparingProgram loopBody).check {}).program[1]? =
      ((comparingProgram shortBody).check {}).program[1]? ∧
    ∃ lines lines', ((comparingProgram shortBody).check {}).program.assembly {} = .ok lines ∧
      ((comparingProgram loopBody).check {}).program.assembly {} = .ok lines' ∧
      Option.Rel SameUpToLabels
        (Program.texts {} 0 ((comparingProgram shortBody).check {}).program)[1]?
        (Program.texts {} 0 ((comparingProgram loopBody).check {}).program)[1]? := by
  have hshort : ∀ s ∈ shortBody, s.Whole := by
    intro s hs
    cases List.mem_singleton.1 hs
    exact .ret fun _ => .var _
  have hloop : ∀ s ∈ loopBody, s.Whole := by
    intro s hs
    obtain rfl | hs := List.mem_cons.1 hs
    · exact .whileLoop (.bool _ _) (.breakLoop _)
    · exact hshort s hs
  have hdiffer : (comparingProgram shortBody).DifferAt 0 (comparingProgram loopBody) := by
    refine ⟨.cons rfl (.cons rfl .nil), fun i hi => ?_⟩
    obtain ⟨i, rfl⟩ := Nat.exists_eq_succ_of_ne_zero hi
    rfl
  obtain ⟨-, -, hothers, htexts⟩ := Program.check_separately (s := {})
    (comparingProgram_whole hshort) (comparingProgram_whole hloop) hdiffer
  obtain ⟨hexists, hsame⟩ := htexts (by decide +kernel) (by decide +kernel)
  obtain ⟨lines, lines', hlines, hlines'⟩ := hexists (by decide)
  refine ⟨(hothers 1 (by decide)).2, lines, lines', hlines, hlines', ?_⟩
  exact (hsame lines lines' hlines hlines').2.2 1 (by decide)

end MiniCompiler
