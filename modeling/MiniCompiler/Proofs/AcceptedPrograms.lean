import MiniCompiler.Proofs.Annotation
import MiniCompiler.Token.Scan

/-!
# Accepted programs

The checker declares all functions of a program one after the other and compares each with the one that
stands for its name so far. If there is no error, the one that stands for a name agrees with all
functions of that name and is a definition if one of them is (`Declared.Covers`), so that comparing
with it is comparing with all of them.

Main statement: `Program.accepted_iff_wellFormed`.
-/

namespace MiniCompiler

/-! ## Declarations -/

/-- Two functions of one name have one signature, and at most one of them has a body. -/
def Function.Agrees (f g : Function) : Prop :=
  f.name = g.name → f.signature = g.signature ∧ (f.body = none ∨ g.body = none)

theorem Function.sameSignature_iff {f g : Function} :
    f.sameSignature g = true ↔ f.signature = g.signature := by
  simp [Function.sameSignature, Function.signature]

namespace Declared

variable {s : Settings} {d : Declared} {i : Nat} {f : Function} {fs : List Function}

/-- Each name has a function of `fs` that stands for all of that name. -/
structure Covers (d : Declared) (fs : List Function) : Prop where
  mem : ∀ {name i g}, d.find? name = some (i, g) → g ∈ fs
  find : ∀ f ∈ fs, ∃ i g, d.find? f.name = some (i, g) ∧ g.signature = f.signature ∧
    (f.body ≠ none → g.body ≠ none)

theorem covers_nil : Covers [] [] := ⟨fun h => by simp [Declared.find?] at h, by simp⟩

/-- A declaration is without an error if the function agrees with all before it. -/
theorem noErrors_declare (hd : d.Covers fs) (hfs : ∀ g ∈ fs, g.Regular) (hf : f.Regular) :
    NoErrors (d.declare s i f).2 ↔ ∀ g ∈ fs, g.Agrees f := by
  unfold Declared.declare
  cases hfind : d.find? f.name with
  | none =>
    simp only [noErrors_nil, true_iff]
    intro g hg hname
    obtain ⟨j, g', hfind', -⟩ := hd.find g hg
    rw [hname, hfind] at hfind'
    cases hfind'
  | some e =>
    obtain ⟨j, g⟩ := e
    have hg := hd.mem hfind
    have hname : g.name = f.name := Declared.name_of_find? hfind
    have htwice : (!g.isPrototype && !f.isPrototype) = true ↔
        ¬ (g.body = none ∨ f.body = none) := by
      have hproto : g.isPrototype = g.body.isNone := hfs g hg
      rw [hproto, hf]
      simp [Option.isSome_iff_ne_none]
    -- comparing with `g` is comparing with all functions of the name
    have hall : (∀ g' ∈ fs, g'.Agrees f) ↔
        g.signature = f.signature ∧ (g.body = none ∨ f.body = none) := by
      constructor
      · exact fun h => h g hg hname
      · rintro ⟨hsignature, hbody⟩ g' hg' hname'
        obtain ⟨j', g'', hfind', hsignature', hbody'⟩ := hd.find g' hg'
        rw [hname', hfind] at hfind'
        cases hfind'
        refine ⟨hsignature'.symm.trans hsignature, ?_⟩
        obtain hnone | hnone := hbody
        · exact .inl (Classical.not_not.1 fun h => hbody' h hnone)
        · exact .inr hnone
    rw [hall, ← Function.sameSignature_iff]
    dsimp only
    split
    · rename_i hdef
      simp [Settings.noErrors_note, Problem.warning?, htwice.1 hdef]
    · rename_i hdef
      have hbody := Classical.not_not.1 (mt htwice.2 hdef)
      split
      · rename_i hne
        simpa [Settings.noErrors_note, Problem.warning?, hbody] using hne
      · rename_i hsame
        have hsame : g.sameSignature f = true := by simpa using hsame
        split <;> simp [hsame, hbody]

/-- `f` comes to stand for its name. -/
theorem Covers.set {d' : Declared} (hd : d.Covers fs)
    (hd' : ∀ name, d'.find? name = if f.name = name then some (i, f) else d.find? name)
    (h : ∀ g ∈ fs, g.name = f.name → f.signature = g.signature ∧ (g.body ≠ none → f.body ≠ none)) :
    d'.Covers (fs ++ [f]) := by
  constructor
  · intro name j g hfind
    rw [hd'] at hfind
    split at hfind
    · cases hfind
      simp
    · exact List.mem_append_left _ (hd.mem hfind)
  · intro g hg
    by_cases hname : f.name = g.name
    · refine ⟨i, f, by rw [hd', if_pos hname], ?_⟩
      obtain hg | hg := List.mem_append.1 hg
      · exact h g hg hname.symm
      · cases List.mem_singleton.1 hg
        exact ⟨rfl, id⟩
    · obtain hg | hg := List.mem_append.1 hg
      · rw [hd', if_neg hname]
        exact hd.find g hg
      · exact absurd (congrArg Function.name (List.mem_singleton.1 hg)).symm hname

theorem Covers.declare (hd : d.Covers fs) (hf : f.Regular) (hagrees : ∀ g ∈ fs, g.Agrees f)
    (h : NoErrors (d.declare s i f).2) : (d.declare s i f).1.Covers (fs ++ [f]) := by
  obtain ⟨hnone, heq⟩ | ⟨⟨j, g⟩, hsome, hproto, heq⟩ | ⟨⟨j, g⟩, hsome, -, hdef, heq⟩ :=
    declare_cases h
  · rw [heq]
    refine hd.set (find?_concat hnone) fun g hg hname => ?_
    obtain ⟨j, g', hfind, -⟩ := hd.find g hg
    rw [hname, hnone] at hfind
    cases hfind
  · -- a prototype, which agrees with the function that stands for its name
    rw [heq]
    have hg := hd.mem hsome
    have hname : g.name = f.name := Declared.name_of_find? hsome
    have hbody : f.body = none := by
      rw [hf] at hproto
      exact Option.isNone_iff_eq_none.1 hproto
    refine ⟨fun hfind => List.mem_append_left _ (hd.mem hfind), fun g' hg' => ?_⟩
    obtain hg' | hg' := List.mem_append.1 hg'
    · exact hd.find g' hg'
    · cases List.mem_singleton.1 hg'
      exact ⟨j, g, hsome, (hagrees g hg hname).1, fun hne => absurd hbody hne⟩
  · rw [heq]
    refine hd.set (find?_replace hsome) fun g' hg' hname => ?_
    refine ⟨(hagrees g' hg' hname).1.symm, fun _ hbody => ?_⟩
    rw [hf, hbody] at hdef
    cases hdef

/-- Declarations are without an error if all functions agree, and then the last of them covers them. -/
theorem noErrors_declareAll {gs : List Function} : ∀ {d : Declared} {i : Nat} {fs : List Function},
    d.Covers fs → (∀ f ∈ fs ++ gs, f.Regular) →
      (NoErrors (d.declareAll s i gs).2 ↔ gs.Pairwise Function.Agrees ∧
        ∀ f ∈ fs, ∀ g ∈ gs, f.Agrees g) ∧
      (NoErrors (d.declareAll s i gs).2 → (d.declareAll s i gs).1.Covers (fs ++ gs)) := by
  induction gs with
  | nil =>
    intro d i fs hd _
    simp [Declared.declareAll, hd]
  | cons g gs ih =>
    intro d i fs hd hregular
    have hg : g.Regular := hregular g (by simp)
    have hfirst := noErrors_declare (s := s) (i := i) hd (fun f hf => hregular f (by simp [hf])) hg
    simp only [Declared.declareAll, noErrors_append]
    by_cases hno : NoErrors (d.declare s i g).2
    · have hagrees := hfirst.1 hno
      obtain ⟨hiff, hcovers⟩ := @ih (d.declare s i g).1 (i + 1) (fs ++ [g])
        (hd.declare hg hagrees hno) (by simpa using hregular)
      rw [List.append_assoc, List.singleton_append] at hcovers
      refine ⟨?_, fun h => hcovers h.2⟩
      rw [hiff, List.pairwise_cons]
      grind
    · refine ⟨?_, fun h => absurd h.1 hno⟩
      simp only [hno, false_and, false_iff]
      rintro ⟨-, hall⟩
      exact hno (hfirst.2 fun f hf => hall f hf g (by simp))

end Declared

/-! ## Programs -/

theorem Function.Whole.exists_body {f : Function} (h : f.Whole) (hdef : f.isPrototype = false) :
    ∃ b, f.body = some b ∧ ∀ s ∈ b.stmts, s.Whole := by
  obtain hproto | hbody := h
  · simp [hdef] at hproto
  · exact hbody

namespace TypingContext

variable {c : TypingContext} {p : Program} {fs : List Function}

/-- Checking the functions reports no error exactly if every body obeys the rules. -/
theorem noErrors_checkFunctions (hc : c.Knows p) (hwhole : ∀ f ∈ fs, f.Whole)
    (hregular : ∀ f ∈ fs, f.Regular) :
    NoErrors (c.checkFunctions fs).reports ↔
      ∀ f ∈ fs, ∀ b, f.body = some b → f.WellFormed c.settings.wordSize p b := by
  induction fs with
  | nil => simp [checkFunctions]
  | cons f fs ih =>
    have hrest := ih (fun g hg => hwhole g (by simp [hg])) (fun g hg => hregular g (by simp [hg]))
    have hf : f.isPrototype = f.body.isNone := hregular f (by simp)
    rw [checkFunctions]
    cases hproto : f.isPrototype with
    | true =>
      have hbody : f.body = none := by simpa [hproto] using hf.symm
      simp [hrest, hbody]
    | false =>
      obtain ⟨b, hb, hstmts⟩ := (hwhole f (by simp)).exists_body hproto
      obtain ⟨hfault, -⟩ := checkFunction_elaborates (c := c) (hwhole f (by simp)) hproto
      simp [hfault, noErrors_checkFunction hc hb hstmts, hrest, hb]

end TypingContext

/-- The checker accepts exactly the well-formed programs, and the flag that it records for a function
    is the one that the rules give its body. -/
theorem Program.accepted_iff_wellFormed {s : Settings} (hs : s.wordSize = 4 ∨ s.wordSize = 8)
    {allows : Feature → Bool} {tokens : List Token} {p : Program}
    (hparse : Program.parse allows tokens = .ok p) :
    (p.check s).fault = none ∧ ((p.check s).accepted = true ↔ p.WellFormed s.wordSize) ∧
      List.Forall₂ (fun f f' => ∀ b, f.body = some b →
        f'.returns = Stmt.returnsAfterAll false b.stmts) p (p.check s).program := by
  obtain ⟨ts, rest, -, hspelled⟩ := Program.spelled_prefix_of_parse hparse
  have hwhole := hspelled.whole
  have hregular := hspelled.regular
  have hreturns : List.Forall₂ (fun f f' => ∀ b, f.body = some b →
      f'.returns = Stmt.returnsAfterAll false b.stmts) p (p.check s).program := by
    refine ((List.forall₂_and_left _ _).2 ⟨hregular, Program.check_annotates hwhole⟩).imp ?_
    exact fun f f' ⟨hf, hannotates⟩ b hb => hannotates.returns_eq hf hb
  refine ⟨(Program.check_elaborates hwhole).1, ?_, hreturns⟩
  obtain ⟨hdeclared, hcovers⟩ := @Declared.noErrors_declareAll s p [] 0 []
    Declared.covers_nil (by simpa using hregular)
  have haccepted : (p.check s).accepted = true ↔ NoErrors (p.declare s).2 ∧
      NoErrors ((p.declare s).1.checkFunctions p).reports := by
    rw [← noErrors_append]
    simp [ProgramCheck.accepted, NoErrors, Program.check, or_imp, forall_and]
  rw [haccepted]
  have hknows : NoErrors (p.declare s).2 → (p.declare s).1.Knows p := by
    intro h
    obtain ⟨hmem, hfind⟩ := hcovers h
    refine ⟨hs, hmem, fun f hf => ?_⟩
    obtain ⟨i, g, hg, hsignature, -⟩ := hfind f hf
    exact ⟨i, g, hg, hsignature⟩
  have hagree : NoErrors (p.declare s).2 ↔ p.Pairwise Function.Agrees :=
    hdeclared.trans (by simp)
  constructor
  · rintro ⟨hreports, hbodies⟩
    exact ⟨hagree.1 hreports,
      (TypingContext.noErrors_checkFunctions (hknows hreports) hwhole hregular).1 hbodies⟩
  · rintro ⟨hagrees, hbodies⟩
    have hreports := hagree.2 hagrees
    exact ⟨hreports,
      (TypingContext.noErrors_checkFunctions (hknows hreports) hwhole hregular).2 hbodies⟩

/-- On 4-byte words the least integer is written as a negated literal, a variable may be declared again
    in an inner block, and a prototype may stand beside its definition. -/
def leastSource : List Char :=
  "int f(int x); int f(int x) { { boolean x = true; } return -2147483648 + f(x); }".toList

theorem Program.accepted_iff_wellFormed_leastSource :
    ∃ p, Program.parse (fun _ => true) (scan {} leastSource) = .ok p ∧
      (p.check {}).accepted = true ∧ p.WellFormed 4 := by
  obtain ⟨p, hparse, heval⟩ := exists_of_any
    (show (Program.parse (fun _ => true) (scan {} leastSource)).toOption.any (fun p =>
      (p.check {}).accepted) = true by decide +kernel)
  obtain ⟨-, hiff, -⟩ := Program.accepted_iff_wellFormed (s := {}) (.inl rfl) hparse
  exact ⟨p, hparse, heval, hiff.1 heval⟩

end MiniCompiler
