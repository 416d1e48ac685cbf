import MiniCompiler.Proofs.CheckRetelling
import MiniCompiler.Proofs.CodeRetelling

/-!
# Warning switches

A switch decides whether the warnings of a group are reported, and nothing else: the program that the
checker returns, its verdict and the assembly are the same whatever switches are on.
-/

namespace MiniCompiler

namespace Settings

/-- Is a report an error, or a warning that the settings ask for? -/
def shows (s : Settings) (r : Report) : Bool := r.problem.warning?.all s.reports

theorem all_reports_of_error (s : Settings) (q : Problem) (hq : q.warning? = none) :
    q.warning?.all s.reports = true := by
  rw [hq]
  rfl

/-- A check of which only what the settings show is retold. -/
def shown (s : Settings) : Retelling :=
  { Retelling.same with
    keeps := fun q => q.warning?.all s.reports
    keeps_error := s.all_reports_of_error }

theorem still_shown (s : Settings) : s.shown.Still := ⟨fun _ => rfl, fun _ _ => rfl⟩

/-- With every switch on, all that other switches show is reported. -/
theorem retold_shown (s : Settings) (on : Warning → Bool) :
    (s.withWarnings fun _ => true).Retold (s.withWarnings on).shown (s.withWarnings on) := by
  refine ⟨rfl, fun {q w} hq => ?_⟩
  have hall : (s.withWarnings fun _ => true).reports w = true := rfl
  have hkeeps : (s.withWarnings on).shown.keeps q = (s.withWarnings on).reports w := by
    simp [Settings.shown, hq]
  rw [hall, hkeeps, Bool.true_and]

end Settings

/-- A check shows what the check with every switch on finds, without the warnings that are off. -/
theorem Program.check_withWarnings_eq (s : Settings) (on : Warning → Bool) (p : Program) :
    p.check (s.withWarnings on) =
      { p.check (s.withWarnings fun _ => true) with
        reports := (p.check (s.withWarnings fun _ => true)).reports.filter
          (s.withWarnings on).shows } := by
  have hstill := (s.withWarnings on).still_shown
  have hself : Function.retell (s.withWarnings on).shown = id :=
    funext (Function.retell_eq_self hstill)
  have hcheck := Program.check_retell hstill.callee (s.retold_shown on) p
  rw [hself, List.map_id] at hcheck
  rw [hcheck, ProgramCheck.retell, hself, List.map_id, Retelling.reports_eq_filter hstill.pos]
  rfl

theorem ProgramCheck.accepted_filter_shows (s : Settings) (r : ProgramCheck) :
    ProgramCheck.accepted { r with reports := r.reports.filter s.shows } = r.accepted := by
  have hshown (rep : Report) : (s.shows rep && rep.isError) = rep.isError := by
    cases h : rep.problem.warning? <;> simp [Settings.shows, Report.isError, h]
  simp only [ProgramCheck.accepted, List.any_filter, hshown]

/-- The text of a program does not depend on warning switches. -/
theorem Program.assemblyText_withWarnings (s : Settings) (on : Warning → Bool) (p : Program) :
    p.assemblyText (s.withWarnings on) = p.assemblyText s := by
  have hassembly := Program.assembly_retell s.shown s on p
  rw [List.map_id'' (Function.retell_eq_self s.still_shown)] at hassembly
  rw [Program.assemblyText, Program.assemblyText, hassembly]
  rfl

/-- Warning switches decide which warnings are reported and nothing else: the checker returns the same
    program with the same verdict, its assembly is the same, and the reports are those that there are
    with every switch on, without the warnings that are off. -/
theorem Program.check_withWarnings (s : Settings) (on on' : Warning → Bool) (p : Program) :
    (p.check (s.withWarnings on)).accepted = (p.check (s.withWarnings on')).accepted ∧
    (p.check (s.withWarnings on)).fault = (p.check (s.withWarnings on')).fault ∧
    (p.check (s.withWarnings on)).program = (p.check (s.withWarnings on')).program ∧
    (p.check (s.withWarnings on)).program.assemblyText (s.withWarnings on) =
      (p.check (s.withWarnings on')).program.assemblyText (s.withWarnings on') ∧
    (p.check (s.withWarnings on)).reports =
      (p.check (s.withWarnings fun _ => true)).reports.filter (s.withWarnings on).shows := by
  have hcheck := p.check_withWarnings_eq s on
  have hcheck' := p.check_withWarnings_eq s on'
  have hprogram : (p.check (s.withWarnings on)).program = (p.check (s.withWarnings on')).program := by
    rw [hcheck, hcheck']
  refine ⟨?_, ?_, hprogram, ?_, congrArg ProgramCheck.reports hcheck⟩
  · rw [hcheck, hcheck', ProgramCheck.accepted_filter_shows, ProgramCheck.accepted_filter_shows]
  · rw [hcheck, hcheck']
  · rw [hprogram, Program.assemblyText_withWarnings, Program.assemblyText_withWarnings]

end MiniCompiler
