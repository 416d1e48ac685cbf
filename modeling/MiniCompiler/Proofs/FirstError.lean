import MiniCompiler.Proofs.Halting
import MiniCompiler.Proofs.ReadPrefix

/-!
# The first error

Some tokens are viable if they can be continued to a list that is read to a program. Where a token is
refused, the tokens up to it are not viable, whatever follows. So no error at an earlier token is left
for later. The tokens before the refused one are viable, but for one case: the range of a number is
looked at only after the number is passed, so an illegal token right after it is refused first.

Viable tokens are those that begin what the grammar derives and whose numbers can be read
(`Program.viable_iff`).

Main statement: `Program.parse_firstError`.
-/

namespace MiniCompiler

/-! ## Kinds that are derived -/

/-- Are the tokens of a right side ones that end no scan? -/
def Ebnf.passable : Ebnf → Bool
  | .token k => !k.isLast
  | .seq a b | .alt a b => a.passable && b.passable
  | .optional a | .repeated a => a.passable
  | .impossible | .empty | .rule _ => true

section Grammar

variable {allows : Feature → Bool}

theorem passable_grammar (r : Rule) : (grammar allows r).passable = true := by
  cases r with
  | param => cases hmark : allows .byReference <;> simp only [grammar, hmark] <;> rfl
  | stmt =>
    cases hfor : allows .forLoops <;> cases hcontinue : allows .continueStatement <;>
      simp only [grammar, hfor, hcontinue] <;> rfl
  | _ => rfl

theorem Derives.isLast_eq_false {a : Ebnf} {w : List TokenKind} (h : Derives (grammar allows) a w)
    (ha : a.passable = true) : ∀ k ∈ w, k.isLast = false := by
  induction h with
  | empty | absent | done => simp
  | token k => simpa [Ebnf.passable] using ha
  | rule _ ih => exact ih (passable_grammar _)
  | seq _ _ iha ihb =>
    obtain ⟨ha, hb⟩ := Bool.and_eq_true_iff.1 ha
    exact fun k hk => (List.mem_append.1 hk).elim (iha ha k) (ihb hb k)
  | left _ ih => exact ih (Bool.and_eq_true_iff.1 ha).1
  | right _ ih => exact ih (Bool.and_eq_true_iff.1 ha).2
  | present _ ih => exact ih ha
  | more _ _ iha ihb => exact fun k hk => (List.mem_append.1 hk).elim (iha ha k) (ihb ha k)

end Grammar

/-! ## Viable tokens -/

/-- Some continuation of the tokens is read to a program. -/
def Program.Viable (allows : Feature → Bool) (us : List Token) : Prop :=
  ∃ more p, Program.parse allows (us ++ more) = .ok p

section Viable

variable {allows : Feature → Bool} {us : List Token}

/-- Tokens without an end of the file among them begin what is read. -/
theorem Program.exists_spelled_append (hus : ∀ t ∈ us, t.kind.isLast = false) {more : List Token}
    {p : Program} (h : Program.parse allows (us ++ more) = .ok p) :
    ∃ ws, Program.Spelled allows (us ++ ws) p := by
  obtain ⟨eof, _, extra, _, heof, hsplit, -, -, hread⟩ := Program.exists_reads_of_parse h
  obtain ⟨vs, ws, rfl, -, hp, hend⟩ :=
    Parser.sound_functions (Parser.isLast_of_eof heof) _ _ _ _ hread
  rw [List.append_assoc, List.append_assoc, List.append_eq_append_iff] at hsplit
  obtain ⟨ws', rfl, -⟩ | ⟨us', rfl, hws⟩ := hsplit
  · exact ⟨ws', hp⟩
  -- reading stops before an end of the file, which is none of the tokens `us`
  cases us' with
  | nil => exact ⟨[], by simpa using hp⟩
  | cons t us' =>
    have hhead : ws.headD eof = t := by
      cases ws with
      | nil => exact (List.cons.inj hws).1
      | cons w ws => exact (List.cons.inj hws).1
    have ht := hus t (by simp)
    rw [← hhead, show (ws.headD eof).kind = .endOfFile from hend] at ht
    cases ht

theorem Program.viable_iff (hus : ∀ t ∈ us, t.kind.isLast = false) :
    Program.Viable allows us ↔
      Opens (Derives (grammar allows) (.rule .program)) (us.map Token.kind) ∧
        ∀ t ∈ us, t.Readable := by
  constructor
  · rintro ⟨more, p, h⟩
    obtain ⟨ws, hp⟩ := Program.exists_spelled_append hus h
    refine ⟨⟨ws.map Token.kind, ?_⟩, fun t ht => hp.readable t (List.mem_append_left ws ht)⟩
    rw [← List.map_append]
    exact hp.derives
  · rintro ⟨⟨v, hv⟩, hread⟩
    let vs : List Token := v.map fun k => ⟨k, "0", {}⟩
    have hvs : vs.map Token.kind = v := List.map_map.trans (List.map_id v)
    have hlast : ∀ t ∈ us ++ vs, t.kind.isLast = false := fun t ht =>
      hv.isLast_eq_false rfl t.kind (by
        rw [← hvs, ← List.map_append]
        exact List.mem_map_of_mem ht)
    have hreadable : ∀ t ∈ us ++ vs, t.Readable := by
      intro t ht
      obtain ht | ht := List.mem_append.1 ht
      · exact hread t ht
      · obtain ⟨k, -, rfl⟩ := List.mem_map.1 ht
        exact fun _ => (by decide : (int64? "0".toList).isSome = true)
    obtain ⟨p, hp⟩ : ∃ p, Program.Spelled allows (us ++ vs) p := Program.exists_spelled_iff.2
      ⟨by rwa [List.map_append, hvs], hreadable⟩
    refine ⟨vs ++ [⟨.endOfFile, "", {}⟩], p, ?_⟩
    rw [← List.append_assoc]
    exact Program.parse_of_spelled rfl hlast hp

theorem exists_headD_of_append {t eof : Token} {ts ws : List Token}
    (h : us ++ t :: ws = ts ++ [eof]) : ∃ vs, ts = us ++ vs ∧ vs.headD eof = t := by
  obtain rfl | ⟨ws, w, rfl⟩ := ws.eq_nil_or_concat
  · obtain ⟨rfl, ht⟩ := List.append_inj' h rfl
    exact ⟨[], by simp, (List.cons.inj ht).1.symm⟩
  · rw [List.concat_eq_append, ← List.cons_append, ← List.append_assoc] at h
    obtain ⟨rfl, -⟩ := List.append_inj' h rfl
    exact ⟨t :: ws, rfl, rfl⟩

/-- Tokens on which reading sticks are not viable. -/
theorem Program.not_viable_of_sticks {t : Token} {fuel : Nat}
    (h : ∀ k, Parser.Sticks (Parser.functions allows (k + fuel)) us t) :
    ¬ Program.Viable allows (us ++ [t]) := by
  rintro ⟨more, p, hparse⟩
  obtain ⟨eof, ts, extra, st', heof, hsplit, hlength, hlegal, hread⟩ :=
    Program.exists_reads_of_parse hparse
  have hlast := Parser.isLast_of_eof heof
  -- the tokens that are read begin with `us`, and `t` comes next
  obtain ⟨vs, rfl, hhead⟩ := exists_headD_of_append (by simpa using hsplit)
  refine h (parseFuel (us ++ [t] ++ more).length) eof vs hlast hhead p st' ?_
  have hnest := (Parser.callsNest allows).functions eof (us ++ vs)
  obtain ⟨-, hless⟩ := hnest (parseFuel (us ++ [t] ++ more).length) hlast hlegal
    (by rw [parseFuel]; omega)
  obtain ⟨-, hmore⟩ := hnest (parseFuel (us ++ [t] ++ more).length + fuel) hlast hlegal
    (by rw [parseFuel]; omega)
  rw [Parser.Reads, hmore, ← hless]
  exact hread

/-- Tokens up to a refused one, with a number out of range right before an illegal token. -/
theorem Program.viable_of_readableBefore {t : Token} (hus : ∀ u ∈ us, u.kind.isLast = false)
    (hopens : Opens (Derives (grammar allows) (.rule .program)) (us.map Token.kind))
    (hread : ReadableBefore t us) :
    Program.Viable allows us ∨
      t.kind = .illegal ∧ ∃ vs n, us = vs ++ [n] ∧ n.kind = .number ∧ ¬ n.Readable ∧
        Program.Viable allows vs ∧ ¬ Program.Viable allows us := by
  obtain hread | ⟨ht, vs, n, rfl, hn, hvs⟩ := hread
  · exact .inl ((Program.viable_iff hus).2 ⟨hopens, hread⟩)
  have hnumber : n.kind = .number :=
    Decidable.byContradiction fun hk => hn fun h => absurd h hk
  rw [List.map_append] at hopens
  refine .inr ⟨ht, vs, n, rfl, hnumber, hn, ?_, fun hviable => ?_⟩
  · exact (Program.viable_iff fun u hu => hus u (List.mem_append_left _ hu)).2 ⟨hopens.left, hvs⟩
  · exact hn (((Program.viable_iff hus).1 hviable).2 n (by simp))

end Viable

/-! ## The refused token -/

/-- The token `t` is refused after the tokens `us`, with the error `e` at `pos`. -/
structure Program.RefusedAt (allows : Feature → Bool) (us : List Token) (t : Token) (pos : Pos)
    (e : SyntaxError) : Prop where
  blames : e.Blames t pos
  stuck : ¬ Program.Viable allows (us ++ [t])
  opens : Opens (Derives (grammar allows) (.rule .program)) (us.map Token.kind)
  readable : ReadableBefore t us

/-- An illegal token at the beginning is refused at once. -/
theorem Program.refusedAt_illegal {allows : Feature → Bool} {t : Token} (ht : t.kind = .illegal) :
    Program.RefusedAt allows [] t t.pos (.lexical t.value) where
  blames := ⟨ht, rfl, rfl⟩
  stuck := by
    rintro ⟨more, p, hp⟩
    rw [List.nil_append, List.singleton_append, Program.parse, if_pos ht] at hp
    cases hp
  opens := Rule.exists_derives .program
  readable := .inl (by simp)

theorem Program.exists_refusedAt {allows : Feature → Bool} {ts : List Token} {last : Token}
    (hlast : last.kind.isLast = true) {stop : ParseStop}
    (h : Program.parse allows (ts ++ [last]) = .error stop) :
    ∃ pos e us t rest, stop = .refused pos e ∧ ts ++ [last] = us ++ t :: rest ∧
      Program.RefusedAt allows us t pos e := by
  have hrest (vs : List Token) : ∃ rest, vs ++ [last] = vs.headD last :: rest := by
    cases vs <;> exact ⟨_, rfl⟩
  by_cases hlegal : TokenStream.peek last ts = .illegal
  · rw [Program.parse_of_illegal hlegal] at h
    cases h
    obtain ⟨rest, hsplit⟩ := hrest ts
    exact ⟨_, _, [], ts.headD last, rest, rfl, hsplit, Program.refusedAt_illegal hlegal⟩
  have hfuel : 10 * ts.length + 1 ≤ parseFuel (ts.length + 1) := by
    rw [parseFuel]
    omega
  cases Parser.follows_functions hlast _ _ ts hfuel (Nat.le_refl _) hlegal with
  | taken us vs p split reads =>
    rw [(Program.parse_eq_ok_iff hlegal).2 ⟨_, reads⟩] at h
    cases h
  | refused us vs pos e split run more blames sticks opens readable =>
    rw [Program.parse_eq hlegal, StateT.run', run] at h
    cases h
    obtain ⟨rest, hsplit⟩ := hrest vs
    refine ⟨pos, e, us, vs.headD last, rest, rfl, by rw [split, List.append_assoc, hsplit], ?_⟩
    exact ⟨blames, Program.not_viable_of_sticks sticks, opens, readable⟩

/-- Where reading fails, a token `t` is refused after the tokens `us`. No tokens that begin with these
    are read to a program. Those before `t` can still be continued to such, unless `t` is illegal and
    the token before it is a number out of range; the tokens before that number can be. -/
theorem Program.parse_firstError (allows : Feature → Bool) (ts : List Token) (last : Token)
    (hts : ∀ t ∈ ts, t.kind.isLast = false) (hlast : last.kind.isLast = true) {stop : ParseStop}
    (h : Program.parse allows (ts ++ [last]) = .error stop) :
    ∃ pos e us t rest, stop = .refused pos e ∧ ts ++ [last] = us ++ t :: rest ∧ e.Blames t pos ∧
      ¬ Program.Viable allows (us ++ [t]) ∧
      (Program.Viable allows us ∨
        t.kind = .illegal ∧ ∃ vs n, us = vs ++ [n] ∧ n.kind = .number ∧ ¬ n.Readable ∧
          Program.Viable allows vs ∧ ¬ Program.Viable allows us) := by
  obtain ⟨pos, e, us, t, rest, hstop, hsplit, hat⟩ := Program.exists_refusedAt hlast h
  obtain ⟨vs, rfl, -⟩ := exists_headD_of_append hsplit.symm
  have hus : ∀ u ∈ us, u.kind.isLast = false := fun u hu => hts u (List.mem_append_left vs hu)
  exact ⟨pos, e, us, t, rest, hstop, hsplit, hat.blames, hat.stuck,
    Program.viable_of_readableBefore hus hat.opens hat.readable⟩

/-- The tokens of `int f() { return 1 + ; }`, one on each line. -/
def missingOperand : List Token :=
  [.kwInt, .identifier, .leftParen, .rightParen, .leftBrace, .kwReturn, .number, .plus, .semicolon,
    .rightBrace].mapIdx fun i k => { kind := k, value := "1", pos := { line := i } }

/-- The semicolon is refused: what stands before it can be continued, and it cannot follow. -/
theorem Program.parse_firstError_missingOperand :
    Program.parse (fun _ => true) (missingOperand ++ [{ kind := .endOfFile }]) =
      .error (.refused { line := 8 } (.expected "an expression")) ∧
    Program.Viable (fun _ => true) (missingOperand.take 8) ∧
    ¬ Program.Viable (fun _ => true) (missingOperand.take 9) := by
  have hparse : Program.parse (fun _ => true) (missingOperand ++ [{ kind := .endOfFile }]) =
      .error (.refused { line := 8 } (.expected "an expression")) := rfl
  obtain ⟨pos, e, us, t, rest, hstop, hsplit, hblames, hstuck, hviable⟩ :=
    Program.parse_firstError (fun _ => true) missingOperand _ (by decide) rfl hparse
  cases hstop
  have ht : (missingOperand ++ [{ kind := .endOfFile }])[us.length]? = some t := by simp [hsplit]
  have hlength : us.length = 8 := by
    have hplaces : ∀ i < 11, ((missingOperand ++ [{ kind := .endOfFile }])[i]?).map Token.pos =
        some { line := 8 } → i = 8 := by decide
    have hsize : 11 = us.length + (rest.length + 1) := by
      simpa [missingOperand] using congrArg List.length hsplit
    exact hplaces us.length (by omega) (by rw [ht, Option.map_some, hblames.2])
  have hus : missingOperand.take 8 = us :=
    (congrArg (List.take 8) hsplit).trans (List.take_left' hlength)
  have hust : missingOperand.take 9 = us ++ [t] := by
    rw [List.append_cons us t rest] at hsplit
    exact (congrArg (List.take 9) hsplit).trans (List.take_left' (by simp [hlength]))
  rw [hlength] at ht
  refine ⟨hparse, hus ▸ ?_, hust ▸ hstuck⟩
  cases ht
  exact hviable.resolve_right (by simp)

/-- The tokens of `int f() { return 99999999999999999999`. -/
def hugeNumber : List Token :=
  [⟨.kwInt, "int", {}⟩, ⟨.identifier, "f", {}⟩, ⟨.leftParen, "(", {}⟩, ⟨.rightParen, ")", {}⟩,
    ⟨.leftBrace, "\x7b", {}⟩, ⟨.kwReturn, "return", {}⟩, ⟨.number, "99999999999999999999", {}⟩]

/-- An illegal token after a number out of range is refused, and hides that the number is. -/
theorem Program.not_viable_before_illegal :
    let stray : Token := ⟨.illegal, "Unexpected character: '#'", { line := 7 }⟩
    Program.parse (fun _ => true) (hugeNumber ++ [stray]) =
      .error (.refused { line := 7 } (.lexical stray.value)) ∧
    ¬ Program.Viable (fun _ => true) hugeNumber := by
  refine ⟨rfl, fun hviable => ?_⟩
  have hread := ((Program.viable_iff (by decide)).1 hviable).2 ⟨.number, "99999999999999999999", {}⟩
    (by simp [hugeNumber])
  exact absurd (hread rfl) (by decide)

end MiniCompiler
