import MiniCompiler.Proofs.AcceptedPrograms
import MiniCompiler.Proofs.Semantics

/-!
# Functions that always return

The paths through a statement, where a test may go either way each time it is reached and a loop may
run any number of rounds. Everything that a statement does when it is executed is one of its paths
(`Stmt.path_of_exec`).

The checker keeps one flag while it goes through a body. That the flag is set after a statement means
that it was set before, or that no path reaches the end of the statement (`Stmt.not_path_next`); what
was set before may have nothing to do with the place that the checker has reached. For a whole body the
flag starts unset, and every path ends at a return (`Program.check_returns`).
-/

namespace MiniCompiler

/-! ## Paths -/

/-- Where a path through a statement ends: at the end of the statement, or at a jump. -/
inductive Exit where
  | next
  | broke
  | continued
  | returned
  deriving DecidableEq, Repr

/-- How a path ends that ends like this. -/
def Flow.exit {w : Nat} : Flow w → Exit
  | .next => .next
  | .broke => .broke
  | .continued => .continued
  | .returned _ => .returned

theorem Flow.exit_eq_next {w : Nat} {flow : Flow w} : flow.exit = .next ↔ flow = .next := by
  cases flow <;> simp [Flow.exit]

mutual

/-- A path through a statement, which ends with `x`. -/
inductive Stmt.Path : Stmt → Exit → Prop where
  | block {p : Pos} {stmts : List Stmt} {x : Exit} : Stmt.PathAll stmts x → Path (.block p stmts) x
  | empty (p : Pos) : Path (.empty p) .next
  | expr (p : Pos) (e : Expr) : Path (.expr p e) .next
  | locals (p : Pos) (type : Ty) (vars : List Local) : Path (.locals p type vars) .next
  | yes {p : Pos} {test : Expr} {yes no : Stmt} {x : Exit} : Path yes x → Path (.cond p test yes no) x
  | no {p : Pos} {test : Expr} {yes no : Stmt} {x : Exit} : Path no x → Path (.cond p test yes no) x
  | noElse (p : Pos) (test : Expr) (yes : Stmt) : Path (.cond p test yes .absent) .next
  | whileLoop {p : Pos} {test : Expr} {body : Stmt} {x : Exit} : Stmt.Rounds test body x →
    Path (.whileLoop p test body) x
  | forLoop {p : Pos} {test step : Expr} {body : Stmt} {x : Exit} : Stmt.Rounds test body x →
    Path (.forLoop p .absent test step body) x
  | forLoopInit {p : Pos} {init : Stmt} {test step : Expr} {body : Stmt} {x : Exit} :
    Path init .next → Stmt.Rounds test body x → Path (.forLoop p init test step body) x
  | forLoopLeft {p : Pos} {init : Stmt} {test step : Expr} {body : Stmt} {x : Exit} :
    Path init x → x ≠ .next → Path (.forLoop p init test step body) x
  | breakLoop (p : Pos) : Path (.breakLoop p) .broke
  | continueLoop (p : Pos) : Path (.continueLoop p) .continued
  | ret (p : Pos) (e : Expr) : Path (.ret p e) .returned

/-- A path through statements one after the other. -/
inductive Stmt.PathAll : List Stmt → Exit → Prop where
  | nil : PathAll [] .next
  | next {s : Stmt} {stmts : List Stmt} {x : Exit} : Stmt.Path s .next → PathAll stmts x →
    PathAll (s :: stmts) x
  | left {s : Stmt} {stmts : List Stmt} {x : Exit} : Stmt.Path s x → x ≠ .next →
    PathAll (s :: stmts) x

/-- A path through rounds of a loop. Only a loop that has a test may end by it. -/
inductive Stmt.Rounds : Expr → Stmt → Exit → Prop where
  | done {test : Expr} {body : Stmt} : test.isAbsent = false → Rounds test body .next
  | again {test : Expr} {body : Stmt} {x y : Exit} : Stmt.Path body x → x = .next ∨ x = .continued →
    Rounds test body y → Rounds test body y
  | broke {test : Expr} {body : Stmt} : Stmt.Path body .broke → Rounds test body .next
  | returned {test : Expr} {body : Stmt} : Stmt.Path body .returned → Rounds test body .returned

end

/-! ## Executions are paths -/

section

variable {w : Nat} {p : Program} {call : String → List Nat → Eval w (Option (Value w))} {limit : Nat}

/-- The rounds of a loop are a path, if each round is one. -/
theorem Stmt.rounds_of_iterate {test : Expr} {body : Stmt} {scope : Naming} {step : Eval w Unit}
    (hbody : ∀ {σ flow inner σ'}, Ends (body.exec p call limit scope) σ (flow, inner) σ' →
      body.Path flow.exit) {n : Nat} : ∀ {σ flow σ'},
    Ends (iterate (test.holds p call scope) (Stmt.round p call limit scope body) step n) σ flow σ' →
    Stmt.Rounds test body flow.exit := by
  induction n with
  | zero => exact fun h => absurd h not_ends_stop
  | succ n ih =>
    intro σ flow σ' h
    obtain ⟨b, σ₁, htest, ⟨rfl, rfl, -⟩ | ⟨-, out, σ₂, hround, hcases⟩⟩ := ends_iterate_succ h
    · obtain ⟨-, hb, -⟩ | ⟨hpresent, -⟩ := Expr.ends_holds htest
      · cases hb
      · exact .done hpresent
    · obtain ⟨inner, hexec⟩ := Stmt.ends_round hround
      have hpath := hbody hexec
      obtain ⟨rfl, rfl, -⟩ | ⟨v, rfl, rfl, -⟩ | ⟨hout, u, σ₃, -, hrest⟩ := hcases
      · exact .broke hpath
      · exact .returned hpath
      · refine .again hpath ?_ (ih hrest)
        obtain rfl | rfl := hout
        · exact .inl rfl
        · exact .inr rfl

mutual

/-- What a statement does when it is executed is one of its paths. -/
theorem Stmt.path_of_exec {s : Stmt} {scope scope' : Naming} {σ σ' : Store w} {flow : Flow w}
    (h : Ends (s.exec p call limit scope) σ (flow, scope') σ') : s.Path flow.exit := by
  cases s with
  | absent =>
    rw [Stmt.exec] at h
    exact absurd h not_ends_stop
  | block pos stmts =>
    rw [Stmt.exec] at h
    exact .block (Stmt.pathAll_of_execAll (ends_scoped h).1)
  | empty pos =>
    rw [Stmt.exec] at h
    obtain ⟨⟨⟩, -⟩ := ends_pure.1 h
    exact .empty pos
  | expr pos e =>
    rw [Stmt.exec] at h
    obtain ⟨_, _, -, h⟩ := ends_bind.1 h
    obtain ⟨⟨⟩, -⟩ := ends_pure.1 h
    exact .expr pos e
  | locals pos type vars =>
    rw [Stmt.exec] at h
    obtain ⟨_, _, -, h⟩ := ends_bind.1 h
    obtain ⟨⟨⟩, -⟩ := ends_pure.1 h
    exact .locals pos type vars
  | cond pos test yes no =>
    obtain ⟨-, b, σ₁, -, ⟨-, inner, hyes⟩ | ⟨-, ⟨habsent, rfl, -⟩ | ⟨-, inner, hno⟩⟩⟩ :=
      Stmt.ends_cond h
    · exact .yes (Stmt.path_of_exec hyes)
    · cases no with
      | absent => exact .noElse pos test yes
      | _ => cases habsent
    · exact .no (Stmt.path_of_exec hno)
  | whileLoop pos test body =>
    rw [Stmt.exec] at h
    exact .whileLoop (Stmt.rounds_of_iterate Stmt.path_of_exec (ends_scoped h).1)
  | forLoop pos init test step body =>
    obtain ⟨-, first, inner, σ₁, hinit, hrest⟩ := Stmt.ends_forLoop h
    obtain ⟨habsent, rfl, -, -⟩ | ⟨-, hinit⟩ := hinit
    · obtain ⟨hne, -, -⟩ | ⟨-, hloop⟩ := hrest
      · exact absurd rfl hne
      · cases init with
        | absent => exact .forLoop (Stmt.rounds_of_iterate Stmt.path_of_exec hloop)
        | _ => cases habsent
    · have hpath := Stmt.path_of_exec hinit
      obtain ⟨hne, rfl, -⟩ | ⟨rfl, hloop⟩ := hrest
      · exact .forLoopLeft hpath fun h => hne (Flow.exit_eq_next.1 h)
      · exact .forLoopInit hpath (Stmt.rounds_of_iterate Stmt.path_of_exec hloop)
  | breakLoop pos =>
    rw [Stmt.exec] at h
    obtain ⟨⟨⟩, -⟩ := ends_pure.1 h
    exact .breakLoop pos
  | continueLoop pos =>
    rw [Stmt.exec] at h
    obtain ⟨⟨⟩, -⟩ := ends_pure.1 h
    exact .continueLoop pos
  | ret pos e =>
    obtain ⟨-, ⟨-, rfl, -⟩ | ⟨-, v, rfl, -⟩⟩ := Stmt.ends_ret h <;> exact .ret pos e

theorem Stmt.pathAll_of_execAll {stmts : List Stmt} {scope : Naming} {σ σ' : Store w} {flow : Flow w}
    (h : Ends (Stmt.execAll p call limit stmts scope) σ flow σ') : Stmt.PathAll stmts flow.exit := by
  cases stmts with
  | nil =>
    rw [Stmt.execAll] at h
    obtain ⟨rfl, -⟩ := ends_pure.1 h
    exact .nil
  | cons s stmts =>
    obtain ⟨first, inner, σ₁, hfirst, ⟨rfl, hrest⟩ | ⟨hne, rfl, -⟩⟩ := Stmt.ends_execAll_cons h
    · exact .next (Stmt.path_of_exec hfirst) (Stmt.pathAll_of_execAll hrest)
    · exact .left (Stmt.path_of_exec hfirst) fun h => hne (Flow.exit_eq_next.1 h)

end

end

/-! ## Jumps out of loops -/

mutual

/-- Do `break` and `continue` stand only in loops? `inLoop` says that the statement itself does. -/
def Stmt.jumpsInLoops (inLoop : Bool) : Stmt → Bool
  | .block _ stmts => Stmt.jumpsInLoopsAll inLoop stmts
  | .cond _ _ yes no => yes.jumpsInLoops inLoop && no.jumpsInLoops inLoop
  | .whileLoop _ _ body => body.jumpsInLoops true
  | .forLoop _ init _ _ body => init.jumpsInLoops inLoop && body.jumpsInLoops true
  | .breakLoop _ | .continueLoop _ => inLoop
  | .absent | .empty _ | .expr .. | .locals .. | .ret .. => true

def Stmt.jumpsInLoopsAll (inLoop : Bool) : List Stmt → Bool
  | [] => true
  | s :: stmts => s.jumpsInLoops inLoop && Stmt.jumpsInLoopsAll inLoop stmts

end

theorem Stmt.Rounds.exit : ∀ {test : Expr} {body : Stmt} {x : Exit}, Stmt.Rounds test body x →
    x = .next ∨ x = .returned
  | _, _, _, .done _ | _, _, _, .broke _ => .inl rfl
  | _, _, _, .again _ _ hrest => hrest.exit
  | _, _, _, .returned _ => .inr rfl

mutual

/-- No path leaves a statement by `break` or `continue` if these stand only in loops. -/
theorem Stmt.path_exit {s : Stmt} {x : Exit} (hjumps : s.jumpsInLoops false = true) (h : s.Path x) :
    x = .next ∨ x = .returned := by
  cases s with
  | absent => cases h
  | block pos stmts =>
    rw [Stmt.jumpsInLoops] at hjumps
    cases h with
    | block hpath => exact Stmt.pathAll_exit hjumps hpath
  | empty | expr | locals =>
    cases h
    exact .inl rfl
  | cond pos test yes no =>
    rw [Stmt.jumpsInLoops, Bool.and_eq_true] at hjumps
    cases h with
    | yes hpath => exact Stmt.path_exit hjumps.1 hpath
    | no hpath => exact Stmt.path_exit hjumps.2 hpath
    | noElse => exact .inl rfl
  | whileLoop pos test body =>
    cases h with
    | whileLoop hrounds => exact hrounds.exit
  | forLoop pos init test step body =>
    rw [Stmt.jumpsInLoops, Bool.and_eq_true] at hjumps
    cases h with
    | forLoop hrounds | forLoopInit _ hrounds => exact hrounds.exit
    | forLoopLeft hpath => exact Stmt.path_exit hjumps.1 hpath
  | breakLoop | continueLoop => simp [Stmt.jumpsInLoops] at hjumps
  | ret =>
    cases h
    exact .inr rfl

theorem Stmt.pathAll_exit {stmts : List Stmt} {x : Exit}
    (hjumps : Stmt.jumpsInLoopsAll false stmts = true) (h : Stmt.PathAll stmts x) :
    x = .next ∨ x = .returned := by
  cases stmts with
  | nil =>
    cases h
    exact .inl rfl
  | cons s stmts =>
    rw [Stmt.jumpsInLoopsAll, Bool.and_eq_true] at hjumps
    cases h with
    | next _ hrest => exact Stmt.pathAll_exit hjumps.2 hrest
    | left hpath => exact Stmt.path_exit hjumps.1 hpath

end

/-! ## The flag -/

mutual

/-- If the flag is set after a statement, it was set before or no path reaches the end. -/
theorem Stmt.not_path_next {s : Stmt} {before : Bool} (h : s.returnsAfter before = true) :
    before = true ∨ ¬ s.Path .next := by
  cases s with
  | absent | empty | expr | locals => exact .inl (by rwa [Stmt.returnsAfter] at h)
  | block pos stmts =>
    rw [Stmt.returnsAfter] at h
    refine (Stmt.not_pathAll_next h).imp_right fun hnot hpath => ?_
    cases hpath with
    | block hpath => exact hnot hpath
  | cond pos test yes no =>
    -- the flag is reset before each branch, so it tells about the branch alone
    rw [Stmt.returnsAfter, Bool.and_eq_true] at h
    have hyes : ¬ yes.Path .next := (Stmt.not_path_next h.1).resolve_left Bool.false_ne_true
    have hno : ¬ no.Path .next := (Stmt.not_path_next h.2).resolve_left Bool.false_ne_true
    refine .inr fun hpath => ?_
    cases hpath with
    | yes hpath => exact hyes hpath
    | no hpath => exact hno hpath
    | noElse => simp [Stmt.returnsAfter] at h
  | whileLoop | forLoop | breakLoop | continueLoop => simp [Stmt.returnsAfter] at h
  | ret =>
    refine .inr ?_
    rintro ⟨⟩

theorem Stmt.not_pathAll_next {stmts : List Stmt} {before : Bool}
    (h : Stmt.returnsAfterAll before stmts = true) : before = true ∨ ¬ Stmt.PathAll stmts .next := by
  cases stmts with
  | nil => exact .inl (by rwa [Stmt.returnsAfterAll] at h)
  | cons s stmts =>
    rw [Stmt.returnsAfterAll] at h
    obtain hfirst | hrest := Stmt.not_pathAll_next h
    · refine (Stmt.not_path_next hfirst).imp_right fun hnot hpath => ?_
      cases hpath with
      | next hs => exact hnot hs
      | left _ hne => exact hne rfl
    · refine .inr fun hpath => ?_
      cases hpath with
      | next _ hstmts => exact hrest hstmts
      | left _ hne => exact hne rfl

end

/-- Where the checker records of a function that it returns, every path through its body ends at a
    return, and so does every execution of it. The program need not be accepted. -/
theorem Program.check_returns {s : Settings} {allows : Feature → Bool} {tokens : List Token}
    {p : Program} (hparse : Program.parse allows tokens = .ok p) :
    List.Forall₂ (fun f f' => ∀ b, f.body = some b → Stmt.jumpsInLoopsAll false b.stmts = true →
      f'.returns = true →
        (∀ x, Stmt.PathAll b.stmts x → x = .returned) ∧
        ∀ {w call limit scope σ flow σ'}, Ends (w := w) (Stmt.execAll p call limit b.stmts scope) σ
          flow σ' → ∃ v, flow = .returned v) p (p.check s).program := by
  obtain ⟨ts, rest, -, hspelled⟩ := Program.spelled_prefix_of_parse hparse
  refine ((List.forall₂_and_left _ _).2
    ⟨hspelled.regular, Program.check_annotates hspelled.whole⟩).imp ?_
  rintro f f' ⟨hregular, hannotates⟩ b hb hjumps hflag
  rw [hannotates.returns_eq hregular hb] at hflag
  have hnext := (Stmt.not_pathAll_next hflag).resolve_left Bool.false_ne_true
  have hpaths : ∀ x, Stmt.PathAll b.stmts x → x = .returned := by
    intro x hpath
    refine (Stmt.pathAll_exit hjumps hpath).resolve_left ?_
    rintro rfl
    exact hnext hpath
  refine ⟨hpaths, fun {w call limit scope σ flow σ'} hends => ?_⟩
  have hexit := hpaths _ (Stmt.pathAll_of_execAll hends)
  cases flow with
  | returned v => exact ⟨v, rfl⟩
  | _ => cases hexit

/-- The flag is set in a loop and reset after it, and it stays set over statements that cannot be
    reached. The types do not fit. -/
def staleSource : List Char := ("int f(boolean b) \x7b while (b) \x7b if (b) return 1; else break; " ++
  "return 2; \x7d if (b) \x7b return 1; b = 3; \x7d else \x7b for (;;) \x7b continue; return 4; " ++
  "\x7d return 5; \x7d 0 + b; \x7d").toList

theorem Program.check_returns_staleSource :
    ∃ p, Program.parse (fun _ => true) (scan {} staleSource) = .ok p ∧
      (p.check {}).accepted = false ∧ p ≠ [] ∧
      ∀ f ∈ p, ∃ b, f.body = some b ∧ ∀ x, Stmt.PathAll b.stmts x → x = .returned := by
  obtain ⟨p, hparse, heval⟩ := exists_of_any
    (show (Program.parse (fun _ => true) (scan {} staleSource)).toOption.any (fun p =>
      !(p.check {}).accepted && !p.isEmpty && (p.check {}).program.all (·.returns) &&
      p.all fun f => f.body.any fun b => Stmt.jumpsInLoopsAll false b.stmts) = true by decide +kernel)
  simp only [Bool.and_eq_true, Bool.not_eq_true', List.all_eq_true, Option.any_eq_true,
    List.isEmpty_eq_false_iff] at heval
  obtain ⟨⟨⟨haccepted, hne⟩, hreturns⟩, hbodies⟩ := heval
  refine ⟨p, hparse, haccepted, hne, ?_⟩
  intro f hf
  obtain ⟨b, hb, hjumps⟩ := hbodies f hf
  obtain ⟨f', hf', hpaths⟩ :=
    exists_mem_of_forall₂ (Program.check_returns (s := {}) hparse).flip hf
  exact ⟨b, hb, (hpaths b hb hjumps (hreturns f' hf')).1⟩

end MiniCompiler
