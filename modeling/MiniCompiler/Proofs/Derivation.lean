import MiniCompiler.Proofs.Spelling

/-!
# Spelled and derived

Tokens spell some program exactly if the grammar derives their kinds and their numbers can be read
(`Program.exists_spelled_iff`). One half is by recursion on what is spelled. For the other, spelling
is a reading of the rules that the grammar is closed under (`Rule.closed`). The grammar is ambiguous
where an `else` could belong to more than one `if`, so closure has to move an `else` inwards
(`Stmt.Spelled.attachElse`).
-/

namespace MiniCompiler

variable {ts : List Token} {allows : Feature → Bool} {s : Stmt} {a : Ebnf} {e : Expr} {r : Rule}
  {ks w : List TokenKind} {α : Type}

/-! ## What is spelled is derived -/

theorem grammar_of_operand? {r r' : Rule} (h : r.operand? = some r') :
    grammar allows r = .chain r' r.operators := by
  cases r <;> cases h <;> rfl

namespace Derives

variable {allows : Feature → Bool} {g : Rule → Ebnf} {spelled : List Token → α → Prop}

theorem type {k : TokenKind} (h : k.isType) : Derives (grammar allows) (.rule .type) [k] := by
  have hk : k ∈ [TokenKind.kwInt, .kwBoolean, .kwVoid] := by
    simpa [TokenKind.isType, or_assoc] using h
  exact .rule (token_oneOf hk)

theorem seq_iff {a b : Ebnf} :
    Derives g (.seq a b) w ↔ ∃ u v, w = u ++ v ∧ Derives g a u ∧ Derives g b v := by
  constructor
  · intro h
    cases h with
    | seq ha hb => exact ⟨_, _, rfl, ha, hb⟩
  · rintro ⟨u, v, rfl, ha, hb⟩
    exact .seq ha hb

theorem first_chain
    (h : Derives g (.rule r) w) : Derives g (.chain r ks) w :=
  seq_iff.2 ⟨w, [], by simp, h, .done⟩

/-- A chain of operands can be extended by an operator and one more operand. -/
theorem chain_append {u v : List TokenKind} {k : TokenKind}
    (hu : Derives g (.chain r ks) u) (hk : k ∈ ks) (hv : Derives g (.rule r) v) :
    Derives g (.chain r ks) (u ++ k :: v) := by
  obtain ⟨first, rest, rfl, hfirst, hrest⟩ := seq_iff.1 hu
  rw [List.append_assoc]
  refine .seq hfirst (hrest.repeated_append ?_)
  exact (token_oneOf hk).append_all hv.last_all

theorem repeated_items {items : List (List Token × α)}
    (h : ∀ i ∈ items, Derives g a (i.1.map Token.kind)) :
    Derives g (.repeated a) ((items.flatMap Prod.fst).map Token.kind) := by
  rw [List.map_flatMap, List.flatMap_def]
  refine repeated_flatten fun p hp => ?_
  obtain ⟨i, hi, rfl⟩ := List.mem_map.1 hp
  exact h i hi

theorem first_commas (h : Derives g a w) :
    Derives g (.commas a) w :=
  seq_iff.2 ⟨w, [], by simp, h, .done⟩

theorem commas_cons {u v : List TokenKind} (hu : Derives g a u)
    (hv : Derives g (.commas a) v) : Derives g (.commas a) (u ++ .comma :: v) := by
  obtain ⟨first, rest, rfl, hfirst, hrest⟩ := seq_iff.1 hv
  refine .seq hu ?_
  rw [← List.cons_append]
  exact .more (token_all hfirst.last_all) hrest

end Derives

/-- What spells parts with commas between them is derived by the list of what derives the parts. -/
theorem SpelledList.derives {g : Rule → Ebnf}
    (hpart : ∀ ts x, spelled ts x → Derives g a (ts.map Token.kind)) {as : List α}
    (h : SpelledList spelled ts as) : Derives g (.commas a) (ts.map Token.kind) := by
  induction h with
  | last hx => exact (hpart _ _ hx).first_commas
  | next hx hcomma _ ih =>
    rw [List.map_append, List.map_cons, hcomma]
    exact (hpart _ _ hx).commas_cons ih

/-- The first argument of a call and those after it are a list with commas. -/
theorem SpelledList.ofArgs {spelled : List Token → Expr → Prop}
    {more : List NextArg} (he : spelled ts e) (hcomma : ∀ m ∈ more, m.comma.kind = .comma)
    (hmore : ∀ m ∈ more, spelled m.tokens m.arg) :
    SpelledList spelled (ts ++ more.flatMap fun m => m.comma :: m.tokens)
      (e :: more.map NextArg.arg) := by
  induction more generalizing ts e with
  | nil => simpa using SpelledList.last he
  | cons m more ih =>
    simp only [List.flatMap_cons, List.cons_append, List.map_cons]
    refine .next he (hcomma m (by simp)) (ih (hmore m (by simp)) ?_ ?_)
    · exact fun n hn => hcomma n (by simp [hn])
    · exact fun n hn => hmore n (by simp [hn])

section

variable {allows : Feature → Bool}

theorem Expr.Spelled.derives (h : Expr.Spelled r ts e) :
    Derives (grammar allows) (.rule r) (ts.map Token.kind) := by
  -- each way to spell an expression is one choice of its rule in the grammar
  induction h with
  | assign hx hsign _ ih =>
    simp only [List.map_cons, hx, hsign]
    exact .rule (.left (.token_all (.token_all ih.last_all)))
  | operators _ ih => exact .rule (.right (.left ih))
  | operand hr _ ih => exact .rule (grammar_of_operand? hr ▸ ih.first_chain)
  | operation hr hop _ _ ihl ihr =>
    rw [List.map_append, List.map_cons]
    cases ihl with
    | rule hl =>
      rw [grammar_of_operand? hr] at hl
      exact .rule (grammar_of_operand? hr ▸ hl.chain_append hop ihr)
  | @sign t _ _ ht _ ih =>
    have hk : t.kind ∈ [TokenKind.minus, .not] := by simpa using ht
    exact .rule (.left ((Derives.token_oneOf hk).append_all ih.last_all))
  | atom _ ih => exact .rule (.right (.left ih))
  | number ht _ =>
    simp only [List.map_cons, List.map_nil, ht]
    exact .rule (.left (.token _))
  | true ht =>
    simp only [List.map_cons, List.map_nil, ht]
    exact .rule (.right (.left (.token _)))
  | false ht =>
    simp only [List.map_cons, List.map_nil, ht]
    exact .rule (.right (.right (.left (.token _))))
  | var ht =>
    simp only [List.map_cons, List.map_nil, ht]
    exact .rule (.right (.right (.right (.left (.token _)))))
  | callEmpty hf hlp hrp =>
    simp only [List.map_cons, List.map_nil, hf, hlp, hrp]
    refine .rule (.right (.right (.right (.right (.left ?_)))))
    exact .token_all (.token_all (Derives.absent.append_all (Derives.token _).last_all))
  | @call _ _ _ ts e more hf hlp hrp _ hcomma _ ih ihmore =>
    simp only [List.map_cons, List.map_append, List.map_nil, hf, hlp, hrp]
    rw [← List.map_append]
    have hspelled : SpelledList
        (fun ts _ => Derives (grammar allows) (.rule .expr) (ts.map Token.kind))
        (ts ++ more.flatMap fun m => m.comma :: m.tokens) (e :: more.map NextArg.arg) :=
      .ofArgs ih hcomma ihmore
    have hargs := hspelled.derives fun _ _ h => h
    refine .rule (.right (.right (.right (.right (.left ?_)))))
    exact .token_all (.token_all ((Derives.present hargs).append_all (Derives.token _).last_all))
  | parens hlp hrp _ ih =>
    simp only [List.map_cons, List.map_append, List.map_nil, hlp, hrp]
    refine .rule (.right (.right (.right (.right (.right (.left ?_))))))
    exact .token_all (ih.append_all (Derives.token _).last_all)

theorem Expr.SpelledOrAbsent.derives
    (h : Expr.SpelledOrAbsent ts e) :
    Derives (grammar allows) (.optional (.rule .expr)) (ts.map Token.kind) := by
  cases h with
  | absent => exact .absent
  | present he => exact .present he.derives

theorem Local.Spelled.derives {v : Local} (h : Local.Spelled ts v) :
    Derives (grammar allows)
      (.all [.token .identifier, .optional (.all [.token .assign, .rule .expr])])
      (ts.map Token.kind) := by
  cases h with
  | bare hx =>
    simp only [List.map_cons, List.map_nil, hx]
    exact .token_all Derives.absent.last_all
  | init hx hsign he =>
    simp only [List.map_cons, hx, hsign]
    exact .token_all (Derives.present (.token_all he.derives.last_all)).last_all

theorem Stmt.Declares.derives (h : Stmt.Declares ts s) :
    Derives (grammar allows) (.rule .declaration) (ts.map Token.kind) := by
  cases h with
  | locals ht hvars =>
    exact .rule ((Derives.type ht).append_all (hvars.derives fun _ _ h => h.derives).last_all)

theorem Stmt.SpelledInit.derives (h : Stmt.SpelledInit ts s) :
    Derives (grammar allows) (.optional (.rule .forInit)) (ts.map Token.kind) := by
  cases h with
  | absent => exact .absent
  | declares hs => exact .present (.rule (.left hs.derives))
  | expr he => exact .present (.rule (.right (.left he.derives)))

theorem Stmt.Spelled.derives (h : Stmt.Spelled allows ts s) :
    Derives (grammar allows) (.rule .stmt) (ts.map Token.kind) := by
  induction h with
  | block hlb hrb _ ih =>
    simp only [List.map_cons, List.map_append, List.map_nil, hlb, hrb]
    refine .rule (.left (.rule (.token_all ?_)))
    exact (Derives.repeated_items ih).append_all (Derives.token _).last_all
  | empty ht =>
    simp only [List.map_cons, List.map_nil, ht]
    exact .rule (.right (.left (.token _)))
  | locals hs hsemi =>
    simp only [List.map_append, List.map_cons, List.map_nil, hsemi]
    refine .rule (.right (.right (.left (.rule ?_))))
    exact hs.derives.append_all (Derives.token _).last_all
  | cond ht hlp htest hrp _ ih =>
    simp only [List.map_cons, List.map_append, ht, hlp, hrp]
    refine .rule (.right (.right (.right (.left (.token_all (.token_all ?_))))))
    refine htest.derives.append_all (.token_all ?_)
    simpa using ih.append_all Derives.absent.last_all
  | condElse ht hlp htest hrp _ _ hother _ ihyes ihno =>
    simp only [List.map_cons, List.map_append, ht, hlp, hrp, hother]
    refine .rule (.right (.right (.right (.left (.token_all (.token_all ?_))))))
    refine htest.derives.append_all (.token_all (ihyes.append_all ?_))
    exact (Derives.present (.token_all ihno.last_all)).last_all
  | whileLoop ht hlp htest hrp _ ih =>
    simp only [List.map_cons, List.map_append, ht, hlp, hrp]
    refine .rule (.right (.right (.right (.right (.left (.token_all (.token_all ?_)))))))
    exact htest.derives.append_all (.token_all ih.last_all)
  | forLoop hallows ht hlp hinit hs₁ htest hs₂ hstep hrp _ ih =>
    simp only [List.map_cons, List.map_append, ht, hlp, hs₁, hs₂, hrp]
    refine .rule (.right (.right (.right (.right (.right (.left ?_))))))
    rw [Ebnf.when, if_pos hallows]
    refine .token_all (.token_all (hinit.derives.append_all (.token_all ?_)))
    refine htest.derives.append_all (.token_all ?_)
    exact hstep.derives.append_all (.token_all ih.last_all)
  | breakLoop ht hsemi =>
    simp only [List.map_cons, List.map_nil, ht, hsemi]
    refine .rule (.right (.right (.right (.right (.right (.right (.left ?_)))))))
    exact .token_all (Derives.token _).last_all
  | continueLoop hallows ht hsemi =>
    simp only [List.map_cons, List.map_nil, ht, hsemi]
    refine .rule (.right (.right (.right (.right (.right (.right (.right (.left ?_))))))))
    rw [Ebnf.when, if_pos hallows]
    exact .token_all (Derives.token _).last_all
  | ret ht he hsemi =>
    simp only [List.map_cons, List.map_append, List.map_nil, ht, hsemi]
    refine .rule (.right (.right (.right (.right (.right (.right (.right (.right (.left ?_)))))))))
    exact .token_all (he.derives.append_all (Derives.token _).last_all)
  | expr he hsemi =>
    rw [List.map_append, List.map_singleton, hsemi]
    refine .rule (.right (.right (.right (.right (.right (.right (.right (.right (.right
      (.left ?_))))))))))
    exact he.derives.append_all (Derives.token _).last_all

theorem Stmt.Spelled.derives_block {p : Pos} {stmts : List Stmt}
    (h : Stmt.Spelled allows ts (.block p stmts)) :
    Derives (grammar allows) (.rule .block) (ts.map Token.kind) := by
  cases h with
  | block hlb hrb hitems =>
    simp only [List.map_cons, List.map_append, List.map_nil, hlb, hrb]
    refine .rule (.token_all (Derives.append_all ?_ (Derives.token _).last_all))
    exact Derives.repeated_items fun i hi => (hitems i hi).derives
  | locals hs _ => cases hs

theorem Param.Spelled.derives {p : Param} (h : Param.Spelled allows ts p) :
    Derives (grammar allows) (.rule .param) (ts.map Token.kind) := by
  cases h with
  | byValue ht hx =>
    simp only [List.map_cons, List.map_nil, hx]
    refine .rule ((Derives.type ht).append_all ?_)
    exact Derives.absent.append_all (Derives.token _).last_all
  | byRef ht hmark hallows hx =>
    simp only [List.map_cons, List.map_nil, hx, hmark]
    refine .rule ((Derives.type ht).append_all ?_)
    rw [Ebnf.when, if_pos hallows]
    exact (Derives.present (.token _)).append_all (Derives.token _).last_all

theorem Param.SpelledAll.derives {ps : List Param} (h : Param.SpelledAll allows ts ps) :
    Derives (grammar allows) (.optional (.commas (.rule .param))) (ts.map Token.kind) := by
  cases h with
  | none => exact .absent
  | some hps => exact .present (hps.derives fun _ _ h => h.derives)

theorem Function.Spelled.derives {f : Function} (h : Function.Spelled allows ts f) :
    Derives (grammar allows) (.rule .function) (ts.map Token.kind) := by
  cases h with
  | prototype ht hx hlp hps hrp hsemi =>
    simp only [List.map_cons, List.map_append, List.map_nil, hx, hlp, hrp, hsemi]
    refine .rule ((Derives.type ht).append_all (.token_all (.token_all ?_)))
    refine hps.derives.append_all (.token_all ?_)
    exact Derives.last_all (.right (.left (.token _)))
  | definition ht hx hlp hps hrp hbody =>
    simp only [List.map_cons, List.map_append, hx, hlp, hrp]
    refine .rule ((Derives.type ht).append_all (.token_all (.token_all ?_)))
    refine hps.derives.append_all (.token_all ?_)
    exact Derives.last_all (.left hbody.derives_block)

theorem Program.Spelled.derives {p : Program} (h : Program.Spelled allows ts p) :
    Derives (grammar allows) (.rule .program) (ts.map Token.kind) := by
  refine .rule ?_
  induction h with
  | nil => exact .done
  | cons hf _ ih =>
    rw [List.map_append]
    exact .more hf.derives ih

end

/-! ## What is derived is spelled -/

theorem Expr.Spelled.exists_cons
    (h : Expr.Spelled r ts e) : ∃ t us, ts = t :: us := by
  induction h with
  | operators _ ih | operand _ _ ih | atom _ ih => exact ih
  | operation _ _ _ _ ih _ =>
    obtain ⟨t, us, rfl⟩ := ih
    exact ⟨t, _, rfl⟩
  | _ => exact ⟨_, _, rfl⟩

theorem Stmt.Spelled.ne_absent
    (h : Stmt.Spelled allows ts s) : s ≠ .absent := by
  rintro rfl
  cases h with
  | locals hdecl _ => cases hdecl

theorem Stmt.endsOpen_cond {p : Pos} {test : Expr} {yes no : Stmt} (h : no ≠ .absent) :
    (Stmt.cond p test yes no).endsOpen = no.endsOpen := by
  cases no <;> first | rfl | exact absurd rfl h

/-- An open statement followed by an `else` and another statement is a statement: the `else` goes to
    the last `if` that has none. -/
theorem Stmt.Spelled.attachElse {other : Token} {vs : List Token} {no : Stmt}
    (hother : other.kind = .kwElse) (hno : Stmt.Spelled allows vs no) (h : Stmt.Spelled allows ts s)
    (hopen : s.endsOpen = true) : ∃ s', Stmt.Spelled allows (ts ++ other :: vs) s' := by
  -- down the last part of the statement, to the first `if` there that is without an `else`
  induction h with
  | @cond t lp rp ts us test yes ht hlp htest hrp hyes ih =>
    cases hy : yes.endsOpen with
    | true =>
      obtain ⟨yes', hyes'⟩ := ih hy
      exact ⟨_, by simpa using Stmt.Spelled.cond ht hlp htest hrp hyes'⟩
    | false => exact ⟨_, by simpa using Stmt.Spelled.condElse ht hlp htest hrp hyes hy hother hno⟩
  | @condElse t lp rp other' ts us vs' test yes no' ht hlp htest hrp hyes hclosed hother' hno' _ ih =>
    rw [Stmt.endsOpen_cond hno'.ne_absent] at hopen
    obtain ⟨no'', hno''⟩ := ih hopen
    exact ⟨_, by simpa using Stmt.Spelled.condElse ht hlp htest hrp hyes hclosed hother' hno''⟩
  | whileLoop ht hlp htest hrp _ ih =>
    obtain ⟨body', hbody'⟩ := ih hopen
    exact ⟨_, by simpa using Stmt.Spelled.whileLoop ht hlp htest hrp hbody'⟩
  | forLoop hallows ht hlp hinit hs₁ htest hs₂ hstep hrp _ ih =>
    obtain ⟨body', hbody'⟩ := ih hopen
    exact ⟨_, by
      simpa using Stmt.Spelled.forLoop hallows ht hlp hinit hs₁ htest hs₂ hstep hrp hbody'⟩
  | locals hs _ =>
    cases hs
    cases hopen
  | _ => cases hopen

/-- Which tokens spell something by a rule. -/
def Rule.Spells (allows : Feature → Bool) : Rule → List Token → Prop
  | .program, ts => ∃ p, Program.Spelled allows ts p
  | .function, ts => ∃ f, Function.Spelled allows ts f
  | .param, ts => ∃ p, Param.Spelled allows ts p
  | .type, ts => ∃ t : Token, ts = [t] ∧ t.kind.isType
  | .block, ts => ∃ p stmts, Stmt.Spelled allows ts (.block p stmts)
  | .stmt, ts | .locals, ts => ∃ s, Stmt.Spelled allows ts s
  | .declaration, ts => ∃ s, Stmt.Declares ts s
  | .forInit, ts => ∃ s, Stmt.SpelledInit ts s
  | r, ts => ∃ e, Expr.Spelled r ts e

namespace Ebnf

variable {spells : Rule → List Token → Prop}

theorem matches_tokens
    (h : (oneOf (ks.map token)).Matches spells ts) : ∃ t : Token, ts = [t] ∧ t.kind ∈ ks := by
  induction ks with
  | nil => cases h
  | cons k ks ih =>
    obtain ⟨t, rfl, ht, _⟩ | h := h
    · exact ⟨t, rfl, by simp [ht]⟩
    · obtain ⟨t, rfl, ht⟩ := ih h
      exact ⟨t, rfl, by simp [ht]⟩

/-- What matches a list with commas spells a list, if what matches its parts spells parts. -/
theorem matches_commas
    (h : (commas a).Matches spells ts) (hpart : ∀ ts, a.Matches spells ts → ∃ x, spelled ts x) :
    ∃ xs, SpelledList spelled ts xs := by
  obtain ⟨us, _, rfl, hus, parts, rfl, hparts⟩ := h
  induction parts generalizing us with
  | nil =>
    obtain ⟨x, hx⟩ := hpart us hus
    exact ⟨[x], by simpa using SpelledList.last hx⟩
  | cons p parts ih =>
    obtain ⟨_, _, rfl, ⟨comma, rfl, hcomma, _⟩, vs, _, rfl, hvs, rfl⟩ := hparts p (by simp)
    obtain ⟨x, hx⟩ := hpart us hus
    obtain ⟨xs, hxs⟩ := ih vs hvs fun q hq => hparts q (by simp [hq])
    exact ⟨x :: xs, by simpa using SpelledList.next hx hcomma hxs⟩

/-- What matches a chain of operands and operators spells an expression that groups to the left. -/
theorem matches_chain {r r' : Rule} (hr : r.operand? = some r')
    (h : (chain r' r.operators).Matches spells ts)
    (hspells : ∀ ts, spells r' ts → ∃ e, Expr.Spelled r' ts e) : ∃ e, Expr.Spelled r ts e := by
  obtain ⟨us, _, rfl, hus, parts, rfl, hparts⟩ := h
  obtain ⟨e, he⟩ := hspells us hus
  have hleft : Expr.Spelled r us e := .operand hr he
  clear hus he
  -- each operator of the chain takes all that was read before it as its left operand
  induction parts generalizing us e with
  | nil => exact ⟨e, by simpa using hleft⟩
  | cons p parts ih =>
    obtain ⟨_, _, rfl, hop, vs, _, rfl, hvs, rfl⟩ := hparts p (by simp)
    obtain ⟨op, rfl, hmem⟩ := matches_tokens hop
    obtain ⟨right, hright⟩ := hspells vs hvs
    obtain ⟨e', he'⟩ := ih (us ++ op :: vs) (fun q hq => hparts q (by simp [hq])) _
      (.operation hr hmem hleft hright)
    exact ⟨e', by simpa using he'⟩

end Ebnf

section Closed

variable {allows : Feature → Bool} {ts : List Token}

theorem Ebnf.matches_type (h : (grammar allows .type).Matches (Rule.Spells allows) ts) :
    ∃ t : Token, ts = [t] ∧ t.kind.isType := by
  have hone : (Ebnf.oneOf ([.kwInt, .kwBoolean, .kwVoid].map .token)).Matches
      (Rule.Spells allows) ts := h
  obtain ⟨t, rfl, ht⟩ := Ebnf.matches_tokens hone
  exact ⟨t, rfl, by simpa [TokenKind.isType, or_assoc] using ht⟩

theorem Ebnf.matches_when {on : Bool} (h : (Ebnf.when on a).Matches (Rule.Spells allows) ts) :
    on = true ∧ a.Matches (Rule.Spells allows) ts := by
  cases on with
  | true => exact ⟨rfl, h⟩
  | false => cases h

/-- Statements one after the other are the inside of a block. -/
theorem Ebnf.matches_stmts {parts : List (List Token)}
    (h : ∀ p ∈ parts, (Ebnf.rule .stmt).Matches (Rule.Spells allows) p) :
    ∃ items : List (List Token × Stmt), items.flatMap Prod.fst = parts.flatten ∧
      ∀ i ∈ items, Stmt.Spelled allows i.1 i.2 := by
  induction parts with
  | nil => exact ⟨[], rfl, by simp⟩
  | cons p parts ih =>
    obtain ⟨s, hs⟩ := h p (by simp)
    obtain ⟨items, hflat, hitems⟩ := ih fun q hq => h q (by simp [hq])
    refine ⟨(p, s) :: items, by simp [hflat], ?_⟩
    intro i hi
    cases hi with
    | head => exact hs
    | tail _ htail => exact hitems i htail

theorem Ebnf.matches_orAbsent (h : (Ebnf.optional (.rule .expr)).Matches (Rule.Spells allows) ts) :
    ∃ e, Expr.SpelledOrAbsent ts e := by
  obtain rfl | ⟨e, he⟩ := h
  · exact ⟨_, .absent⟩
  · exact ⟨e, .present he⟩

/-- Arguments with commas between them are a first one and those after it. -/
theorem SpelledList.toArgs {es : List Expr} (h : SpelledList (Expr.Spelled .expr) ts es) :
    ∃ us e, ∃ more : List NextArg, ts = us ++ more.flatMap (fun m => m.comma :: m.tokens) ∧
      Expr.Spelled .expr us e ∧ (∀ m ∈ more, m.comma.kind = .comma) ∧
      (∀ m ∈ more, Expr.Spelled .expr m.tokens m.arg) ∧ es = e :: more.map NextArg.arg := by
  induction h with
  | @last us e he => exact ⟨us, e, [], by simp, he, by simp, by simp, rfl⟩
  | @next us _ comma e _ he hcomma _ ih =>
    obtain ⟨vs, e', more, rfl, he', hcommas, hargs, rfl⟩ := ih
    refine ⟨us, e, ⟨comma, vs, e'⟩ :: more, by simp, he, ?_, ?_, rfl⟩
    · intro m hm
      cases hm with
      | head => exact hcomma
      | tail _ htail => exact hcommas m htail
    · intro m hm
      cases hm with
      | head => exact he'
      | tail _ htail => exact hargs m htail

theorem Rule.closed_primary (h : (grammar allows .primary).Matches (Rule.Spells allows) ts) :
    ∃ e, Expr.Spelled .primary ts e := by
  obtain ⟨t, rfl, ht, hread⟩ | ⟨t, rfl, ht, _⟩ | ⟨t, rfl, ht, _⟩ | ⟨t, rfl, ht, _⟩ | hcall |
    hparens | h := h
  · obtain ⟨n, hn⟩ := Option.isSome_iff_exists.1 (hread ht)
    exact ⟨_, .number ht hn⟩
  · exact ⟨_, .true ht⟩
  · exact ⟨_, .false ht⟩
  · exact ⟨_, .var ht⟩
  · obtain ⟨_, _, rfl, ⟨f, rfl, hf, _⟩, _, _, rfl, ⟨lp, rfl, hlp, _⟩, _, _, rfl, hargs, _, _, rfl,
      ⟨rp, rfl, hrp, _⟩, rfl⟩ := hcall
    obtain rfl | hargs := hargs
    · exact ⟨_, .callEmpty hf hlp hrp⟩
    · obtain ⟨es, hes⟩ : ∃ es, SpelledList (Expr.Spelled .expr) _ es :=
        Ebnf.matches_commas hargs fun _ h => h
      obtain ⟨us, e, more, rfl, he, hcommas, hmore, -⟩ := hes.toArgs
      exact ⟨_, by simpa using Expr.Spelled.call hf hlp hrp he hcommas hmore⟩
  · obtain ⟨_, _, rfl, ⟨lp, rfl, hlp, _⟩, _, _, rfl, ⟨e, he⟩, _, _, rfl, ⟨rp, rfl, hrp, _⟩, rfl⟩ :=
      hparens
    exact ⟨e, .parens hlp hrp he⟩
  · cases h

theorem Rule.closed_unary (h : (grammar allows .unary).Matches (Rule.Spells allows) ts) :
    ∃ e, Expr.Spelled .unary ts e := by
  obtain ⟨_, _, rfl, hsign, us, _, rfl, ⟨e, he⟩, rfl⟩ | ⟨e, he⟩ | h := h
  · have hone : (Ebnf.oneOf ([.minus, .not].map .token)).Matches (Rule.Spells allows) _ := hsign
    obtain ⟨t, rfl, ht⟩ := Ebnf.matches_tokens hone
    exact ⟨_, by simpa using Expr.Spelled.sign (by simpa using ht) he⟩
  · exact ⟨e, .atom he⟩
  · cases h

theorem Rule.closed_expr (h : (grammar allows .expr).Matches (Rule.Spells allows) ts) :
    ∃ e, Expr.Spelled .expr ts e := by
  obtain ⟨_, _, rfl, ⟨x, rfl, hx, _⟩, _, _, rfl, ⟨sign, rfl, hsign, _⟩, us, _, rfl, ⟨e, he⟩, rfl⟩ |
    ⟨e, he⟩ | h := h
  · exact ⟨_, by simpa using Expr.Spelled.assign hx hsign he⟩
  · exact ⟨e, .operators he⟩
  · cases h

theorem Rule.closed_declaration
    (h : (grammar allows .declaration).Matches (Rule.Spells allows) ts) :
    ∃ s, Stmt.Declares ts s := by
  obtain ⟨_, _, rfl, ⟨t, rfl, ht⟩, us, _, rfl, hvars, rfl⟩ := h
  obtain ⟨vars, hvars⟩ : ∃ vars, SpelledList Local.Spelled us vars := by
    refine Ebnf.matches_commas hvars ?_
    rintro _ ⟨_, _, rfl, ⟨x, rfl, hx, _⟩, _, _, rfl, rfl | hinit, rfl⟩
    · exact ⟨_, .bare hx⟩
    · obtain ⟨_, _, rfl, ⟨sign, rfl, hsign, _⟩, us, _, rfl, ⟨e, he⟩, rfl⟩ := hinit
      exact ⟨_, by simpa using Local.Spelled.init hx hsign he⟩
  exact ⟨_, by simpa using Stmt.Declares.locals ht hvars⟩

theorem Rule.closed_block (h : (grammar allows .block).Matches (Rule.Spells allows) ts) :
    ∃ p stmts, Stmt.Spelled allows ts (.block p stmts) := by
  obtain ⟨_, _, rfl, ⟨lb, rfl, hlb, _⟩, _, _, rfl, ⟨parts, rfl, hparts⟩, _, _, rfl,
    ⟨rb, rfl, hrb, _⟩, rfl⟩ := h
  obtain ⟨items, hflat, hitems⟩ := Ebnf.matches_stmts hparts
  exact ⟨_, _, by simpa [hflat] using Stmt.Spelled.block hlb hrb hitems⟩

theorem Rule.closed_cond {t lp rp : Token} {us vs ws : List Token} {test : Expr} {yes : Stmt}
    (ht : t.kind = .kwIf) (hlp : lp.kind = .leftParen) (htest : Expr.Spelled .expr us test)
    (hrp : rp.kind = .rightParen) (hyes : Stmt.Spelled allows vs yes)
    (hno : (Ebnf.optional (.all [.token .kwElse, .rule .stmt])).Matches (Rule.Spells allows) ws) :
    ∃ s, Stmt.Spelled allows (t :: lp :: (us ++ rp :: (vs ++ ws))) s := by
  obtain rfl | ⟨_, _, rfl, ⟨other, rfl, hother, _⟩, ws, _, rfl, ⟨no, hno⟩, rfl⟩ := hno
  · exact ⟨_, by simpa using Stmt.Spelled.cond ht hlp htest hrp hyes⟩
  cases hopen : yes.endsOpen with
  | false => exact ⟨_, by simpa using Stmt.Spelled.condElse ht hlp htest hrp hyes hopen hother hno⟩
  | true =>
    -- the grammar would let this `if` have the `else`, but one inside it is nearer
    obtain ⟨yes', hyes'⟩ := Stmt.Spelled.attachElse hother hno hyes hopen
    exact ⟨_, by simpa using Stmt.Spelled.cond ht hlp htest hrp hyes'⟩

theorem Rule.closed_forInit (h : (grammar allows .forInit).Matches (Rule.Spells allows) ts) :
    ∃ s, Stmt.SpelledInit ts s := by
  obtain ⟨s, hs⟩ | ⟨e, he⟩ | h := h
  · exact ⟨s, .declares hs⟩
  · obtain ⟨t, us, rfl⟩ := he.exists_cons
    exact ⟨_, .expr he⟩
  · cases h

theorem Rule.closed_stmt (h : (grammar allows .stmt).Matches (Rule.Spells allows) ts) :
    ∃ s, Stmt.Spelled allows ts s := by
  obtain ⟨p, stmts, hblock⟩ | ⟨t, rfl, ht, _⟩ | hlocals | hcond | hwhile | hfor | hbreak | hcont |
    hret | hexpr | h := h
  · exact ⟨_, hblock⟩
  · exact ⟨_, .empty ht⟩
  · exact hlocals
  · obtain ⟨_, _, rfl, ⟨t, rfl, ht, _⟩, _, _, rfl, ⟨lp, rfl, hlp, _⟩, us, _, rfl, ⟨test, htest⟩, _, _,
      rfl, ⟨rp, rfl, hrp, _⟩, vs, _, rfl, ⟨yes, hyes⟩, ws, _, rfl, hno, rfl⟩ := hcond
    simpa using Rule.closed_cond ht hlp htest hrp hyes hno
  · obtain ⟨_, _, rfl, ⟨t, rfl, ht, _⟩, _, _, rfl, ⟨lp, rfl, hlp, _⟩, us, _, rfl, ⟨test, htest⟩, _, _,
      rfl, ⟨rp, rfl, hrp, _⟩, vs, _, rfl, ⟨body, hbody⟩, rfl⟩ := hwhile
    exact ⟨_, by simpa using Stmt.Spelled.whileLoop ht hlp htest hrp hbody⟩
  · obtain ⟨hallows, hfor⟩ := Ebnf.matches_when hfor
    obtain ⟨_, _, rfl, ⟨t, rfl, ht, _⟩, _, _, rfl, ⟨lp, rfl, hlp, _⟩, us, _, rfl, hinit, _, _, rfl,
      ⟨s₁, rfl, hs₁, _⟩, vs, _, rfl, htest, _, _, rfl, ⟨s₂, rfl, hs₂, _⟩, ws, _, rfl, hstep, _, _, rfl,
      ⟨rp, rfl, hrp, _⟩, xs, _, rfl, ⟨body, hbody⟩, rfl⟩ := hfor
    obtain ⟨init, hinit⟩ : ∃ s, Stmt.SpelledInit us s := by
      obtain rfl | hinit := hinit
      · exact ⟨_, .absent⟩
      · exact hinit
    obtain ⟨test, htest⟩ := Ebnf.matches_orAbsent htest
    obtain ⟨step, hstep⟩ := Ebnf.matches_orAbsent hstep
    exact ⟨_, by
      simpa using Stmt.Spelled.forLoop hallows ht hlp hinit hs₁ htest hs₂ hstep hrp hbody⟩
  · obtain ⟨_, _, rfl, ⟨t, rfl, ht, _⟩, _, _, rfl, ⟨semi, rfl, hsemi, _⟩, rfl⟩ := hbreak
    exact ⟨_, .breakLoop ht hsemi⟩
  · obtain ⟨hallows, hcont⟩ := Ebnf.matches_when hcont
    obtain ⟨_, _, rfl, ⟨t, rfl, ht, _⟩, _, _, rfl, ⟨semi, rfl, hsemi, _⟩, rfl⟩ := hcont
    exact ⟨_, .continueLoop hallows ht hsemi⟩
  · obtain ⟨_, _, rfl, ⟨t, rfl, ht, _⟩, us, _, rfl, hvalue, _, _, rfl, ⟨semi, rfl, hsemi, _⟩, rfl⟩ :=
      hret
    obtain ⟨e, he⟩ := Ebnf.matches_orAbsent hvalue
    exact ⟨_, .ret ht he hsemi⟩
  · obtain ⟨us, _, rfl, ⟨e, he⟩, _, _, rfl, ⟨semi, rfl, hsemi, _⟩, rfl⟩ := hexpr
    obtain ⟨t, us, rfl⟩ := he.exists_cons
    exact ⟨_, .expr he hsemi⟩
  · cases h

theorem Rule.closed_param (h : (grammar allows .param).Matches (Rule.Spells allows) ts) :
    ∃ p, Param.Spelled allows ts p := by
  obtain ⟨_, _, rfl, ⟨t, rfl, ht⟩, _, _, rfl, hmark, _, _, rfl, ⟨x, rfl, hx, _⟩, rfl⟩ := h
  obtain rfl | hmark := hmark
  · exact ⟨_, .byValue ht hx⟩
  · obtain ⟨hallows, mark, rfl, hmark, _⟩ := Ebnf.matches_when hmark
    exact ⟨_, .byRef ht hmark hallows hx⟩

theorem Rule.closed_function (h : (grammar allows .function).Matches (Rule.Spells allows) ts) :
    ∃ f, Function.Spelled allows ts f := by
  obtain ⟨_, _, rfl, ⟨t, rfl, ht⟩, _, _, rfl, ⟨x, rfl, hx, _⟩, _, _, rfl, ⟨lp, rfl, hlp, _⟩, us, _,
    rfl, hparams, _, _, rfl, ⟨rp, rfl, hrp, _⟩, vs, _, rfl, hbody, rfl⟩ := h
  obtain ⟨ps, hps⟩ : ∃ ps, Param.SpelledAll allows us ps := by
    obtain rfl | hparams := hparams
    · exact ⟨_, .none⟩
    · obtain ⟨ps, hps⟩ : ∃ ps, SpelledList (Param.Spelled allows) us ps :=
        Ebnf.matches_commas hparams fun _ h => h
      exact ⟨ps, .some hps⟩
  obtain ⟨p, stmts, hblock⟩ | ⟨semi, rfl, hsemi, _⟩ | h := hbody
  · exact ⟨_, by simpa using Function.Spelled.definition ht hx hlp hps hrp hblock⟩
  · exact ⟨_, by simpa using Function.Spelled.prototype ht hx hlp hps hrp hsemi⟩
  · cases h

theorem Rule.closed_program (h : (grammar allows .program).Matches (Rule.Spells allows) ts) :
    ∃ p, Program.Spelled allows ts p := by
  obtain ⟨parts, rfl, hparts⟩ := h
  induction parts with
  | nil => exact ⟨[], .nil⟩
  | cons us parts ih =>
    obtain ⟨f, hf⟩ := hparts us (by simp)
    obtain ⟨fs, hfs⟩ := ih fun q hq => hparts q (by simp [hq])
    exact ⟨f :: fs, .cons hf hfs⟩

/-- The grammar is closed under spelling: what its rules put together out of spelled parts is
    spelled. -/
theorem Rule.closed (r : Rule) (h : (grammar allows r).Matches (Rule.Spells allows) ts) :
    Rule.Spells allows r ts := by
  cases r with
  | program => exact Rule.closed_program h
  | function => exact Rule.closed_function h
  | param => exact Rule.closed_param h
  | type => exact Ebnf.matches_type h
  | block => exact Rule.closed_block h
  | stmt => exact Rule.closed_stmt h
  | locals =>
    obtain ⟨us, _, rfl, ⟨s, hs⟩, _, _, rfl, ⟨semi, rfl, hsemi, _⟩, rfl⟩ := h
    exact ⟨s, .locals hs hsemi⟩
  | declaration => exact Rule.closed_declaration h
  | forInit => exact Rule.closed_forInit h
  | expr => exact Rule.closed_expr h
  | unary => exact Rule.closed_unary h
  | primary => exact Rule.closed_primary h
  | or => exact Ebnf.matches_chain (r := .or) rfl h fun _ h => h
  | and => exact Ebnf.matches_chain (r := .and) rfl h fun _ h => h
  | equality => exact Ebnf.matches_chain (r := .equality) rfl h fun _ h => h
  | relation => exact Ebnf.matches_chain (r := .relation) rfl h fun _ h => h
  | sum => exact Ebnf.matches_chain (r := .sum) rfl h fun _ h => h
  | product => exact Ebnf.matches_chain (r := .product) rfl h fun _ h => h

end Closed

/-! ## What is spelled can be read -/

section Readable

variable {allows : Feature → Bool} {ts : List Token}

theorem Token.Readable.of_isType {t : Token} (ht : t.kind.isType) : t.Readable := by
  intro h
  rw [h] at ht
  cases ht

theorem Token.Readable.of_operator {t : Token} (ht : t.kind ∈ r.operators) :
    t.Readable := by
  intro h
  rw [h] at ht
  cases r <;> simp [Rule.operators] at ht

theorem SpelledList.readable
    (hpart : ∀ ts a, spelled ts a → ∀ t ∈ ts, t.Readable) {as : List α}
    (h : SpelledList spelled ts as) : ∀ t ∈ ts, t.Readable := by
  induction h with
  | last ha => exact hpart _ _ ha
  | next ha hcomma _ ih => grind [Token.Readable]

theorem Expr.Spelled.readable (h : Expr.Spelled r ts e) :
    ∀ t ∈ ts, t.Readable := by
  induction h with
  | operators _ ih | operand _ _ ih | atom _ ih => exact ih
  | operation _ hop _ _ ihl ihr => grind [Token.Readable.of_operator]
  | number _ hn => grind [Token.Readable]
  | _ => grind [Token.Readable]

theorem Expr.SpelledOrAbsent.readable (h : Expr.SpelledOrAbsent ts e) :
    ∀ t ∈ ts, t.Readable := by
  cases h with
  | absent => simp
  | present he => exact he.readable

theorem Local.Spelled.readable {v : Local} (h : Local.Spelled ts v) : ∀ t ∈ ts, t.Readable := by
  cases h with
  | bare hx => grind [Token.Readable]
  | init hx hsign he => grind [Token.Readable, he.readable]

theorem Stmt.Declares.readable (h : Stmt.Declares ts s) : ∀ t ∈ ts, t.Readable := by
  obtain ⟨ht, hvars⟩ := h
  have hvars := hvars.readable fun _ _ => Local.Spelled.readable
  grind [Token.Readable.of_isType]

theorem Stmt.SpelledInit.readable (h : Stmt.SpelledInit ts s) :
    ∀ t ∈ ts, t.Readable := by
  cases h with
  | absent => simp
  | declares hs => exact hs.readable
  | expr he => exact he.readable

theorem Stmt.Spelled.readable (h : Stmt.Spelled allows ts s) :
    ∀ t ∈ ts, t.Readable := by
  induction h with
  | @block lb rb items hlb hrb _ ih =>
    have hitems : ∀ t ∈ items.flatMap Prod.fst, t.Readable := by
      intro t ht
      obtain ⟨i, hi, hmem⟩ := List.mem_flatMap.1 ht
      exact ih i hi t hmem
    grind [Token.Readable]
  | locals hs => grind [Token.Readable, hs.readable]
  | cond ht hlp htest | condElse ht hlp htest | whileLoop ht hlp htest =>
    grind [Token.Readable, htest.readable]
  | forLoop _ _ _ hinit _ htest _ hstep =>
    grind [Token.Readable, hinit.readable, htest.readable, hstep.readable]
  | ret _ he => grind [Token.Readable, he.readable]
  | expr he => grind [Token.Readable, he.readable]
  | _ => grind [Token.Readable]

theorem Param.Spelled.readable {p : Param} (h : Param.Spelled allows ts p) :
    ∀ t ∈ ts, t.Readable := by
  cases h <;> grind [Token.Readable, Token.Readable.of_isType]

theorem Param.SpelledAll.readable {ps : List Param} (h : Param.SpelledAll allows ts ps) :
    ∀ t ∈ ts, t.Readable := by
  cases h with
  | none => simp
  | some hps => exact hps.readable fun _ _ => Param.Spelled.readable

theorem Function.Spelled.readable {f : Function} (h : Function.Spelled allows ts f) :
    ∀ t ∈ ts, t.Readable := by
  cases h with
  | prototype ht hx hlp hps =>
    grind [Token.Readable, Token.Readable.of_isType, hps.readable]
  | definition ht hx hlp hps hrp hbody =>
    grind [Token.Readable, Token.Readable.of_isType, hps.readable, hbody.readable]

theorem Program.Spelled.readable {p : Program} (h : Program.Spelled allows ts p) :
    ∀ t ∈ ts, t.Readable := by
  induction h with
  | nil => simp
  | cons hf _ ih => grind [hf.readable]

end Readable

/-- Tokens spell a program exactly if the grammar derives them and their numbers can be read. -/
theorem Program.exists_spelled_iff :
    (∃ p, Program.Spelled allows ts p) ↔
      Derives (grammar allows) (.rule .program) (ts.map Token.kind) ∧ ∀ t ∈ ts, t.Readable := by
  constructor
  · rintro ⟨p, hp⟩
    exact ⟨hp.derives, hp.readable⟩
  · rintro ⟨hderives, hread⟩
    exact hderives.matches (fun r _ => Rule.closed r) ts rfl hread

end MiniCompiler
